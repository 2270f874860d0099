import AbstractionIdentity.Listen.CallAnswer

/-!
# The account of one exchange

`ActiveCall.Ledger a cin cout` relates a call to the bytes it has taken from the connection after
its header and given to it. Every step keeps it (`Ledger.next`), and a call that ends unbroken and
continued has exchanged one whole request for one whole answer (`exchange`).
-/

namespace Listen

open Text Stream List ActiveCall

def ActiveCall.Taken (a : ActiveCall) (cin : Bytes) : Prop :=
  cin = a.frame ∧ a.frame.length + a.call.remaining = lengthOf a.call.head

/-- What the place of the receiver says about the bytes taken. A read may fail and still bring the
last byte. -/
def ActiveCall.Received (a : ActiveCall) (cin : Bytes) : Prop :=
  match a.recv with
  | .header => a.call.headerAt = 0 ∧ a.Taken cin
  | .bind n | .body n => n = lengthOf a.call.head ∧ a.Taken cin
  | .reading n limit => n = lengthOf a.call.head ∧ limit ≤ a.call.remaining ∧ a.Taken cin
  | .valid | .ctx => a.call.remaining = 0 ∧ a.Taken cin
  | .returned => a.call.remaining = 0 ∧ (a.call.broken = false → a.Taken cin)
  | .refuse | .close | .failed => a.call.broken = false → a.Taken cin

theorem ActiveCall.Received.taken {a : ActiveCall} {cin : Bytes} (h : a.Received cin)
    (hbroken : a.call.broken = false) : a.Taken cin := by
  rw [ActiveCall.Received] at h
  split at h
  · exact h.2
  · exact h.2
  · exact h.2
  · exact h.2.2
  · exact h.2
  · exact h.2
  · exact h.2 hbroken
  · exact h hbroken
  · exact h hbroken
  · exact h hbroken

def ActiveCall.Mute (a : ActiveCall) : Prop :=
  a.call.closed = true ∨ a.replying = some [] ∨ a.recv = .close ∨ a.recv = .failed

structure ActiveCall.Ledger (a : ActiveCall) (cin cout : Bytes) : Prop where
  received : a.Received cin
  part : AnswerPart cout
  written : a.call.Written cout ∨ a.call.broken = true ∧ a.Mute
  silent : a.recv ≠ .returned → a.call.out = [] ∧ a.replying = none
  closed : a.call.done = true → a.call.closed = true ∧ a.call.reading = 0
  busy : ∀ n limit, a.recv = .reading n limit → 0 < a.call.reading
  finished : a.call.done = true → a.call.broken = false →
    a.call.remaining = 0 ∧ (a.call.oneWay = false → a.call.replied = true)

theorem ledger_new (w : UInt32) : (ActiveCall.new w).Ledger [] [] where
  received := ⟨rfl, rfl, by simp [new, SessionCall.new]⟩
  part := answerPart_nil
  written := by
    refine .inl ?_
    simp [SessionCall.Written, new, SessionCall.new]
  silent := fun _ => ⟨rfl, rfl⟩
  closed := fun h => by cases h
  busy := fun _ _ h => by cases h
  finished := fun h => by cases h

variable {a : ActiveCall} {c : SessionCall} {cin cout : Bytes} {expired : Bool}

theorem ActiveCall.Ledger.exchange
    (h : a.Ledger cin cout) (hdone : a.call.done = true) (hbroken : a.call.broken = false)
    (hcont : a.call.continued = true) :
    ∃ e : Exchange, e.request.bytes = word a.call.head ++ cin ∧ e.answer.bytes = cout := by
  obtain ⟨hremaining, hreplied⟩ := h.finished hdone hbroken
  obtain ⟨rfl, hlen⟩ := h.received.taken hbroken
  have hsized : a.frame.length = lengthOf a.call.head := by omega
  have hwritten : a.call.Written cout := by
    rcases h.written with hw | ⟨hb, -⟩
    · exact hw
    · rw [hbroken] at hb
      cases hb
  obtain ⟨body, hbody, rfl⟩ : ∃ body : Bytes, body.length < 2 ^ 30 ∧
      cout = word (mkHeader true false body.length) ++ body := by
    rw [SessionCall.Written] at hwritten
    split_ifs at hwritten with hway hshort
    · rcases hwritten with ⟨-, hc⟩ | ⟨-, hc⟩
      · rw [hcont] at hc
        cases hc
      · exact ⟨[], by decide, by rw [hc, hcont]; rfl⟩
    · rw [hcont] at hwritten
      cases hwritten.2.1
    · obtain ⟨n, body, hn, hc, hlen', hleft⟩ := hwritten
      have hzero := hleft (hreplied (by simpa using hway))
      obtain rfl : body.length = n := by omega
      exact ⟨body, hn, by rw [hc, hcont]⟩
  exact ⟨⟨⟨a.call.head, a.frame, hsized⟩, replyAnswer true body hbody,
    isSession_mkHeader hbody, isOneWay_mkHeader hbody⟩, rfl, rfl⟩

/-- `d` is `c` after something that writes nothing: the reply is untouched, and
what was closed or broken stays so. -/
structure SessionCall.Reads (c d : SessionCall) : Prop where
  head : d.head = c.head
  out : d.out = c.out
  outLeft : d.outLeft = c.outLeft
  replied : d.replied = c.replied
  continued : d.continued = c.continued
  done : d.done = c.done
  closed : c.closed = true → d.closed = true
  broken : c.broken = true → d.broken = true
  ended : c.done = true → c.closed = true → c.reading = 0 →
    d.remaining = c.remaining ∧ d.reading = 0

theorem SessionCall.Reads.rfl : c.Reads c :=
  ⟨.refl _, .refl _, .refl _, .refl _, .refl _, .refl _, id, id, fun _ _ h => ⟨.refl _, h⟩⟩

theorem SessionCall.Reads.close (c : SessionCall) : c.Reads { c with closed := true } :=
  ⟨.refl _, .refl _, .refl _, .refl _, .refl _, .refl _, fun _ => .refl _, id,
    fun _ _ h => ⟨.refl _, h⟩⟩

theorem reads_readBegin (c : SessionCall) (size : ℕ) (expired : Bool) :
    c.Reads (c.readBegin size expired).1 := by
  rw [SessionCall.readBegin]
  split_ifs <;> constructor <;> simp_all

theorem reads_readEnd (c : SessionCall) (request : Bool) (n : ℕ) (err : Option ReadErr)
    (expired : Bool) (hreading : 0 < c.reading) :
    c.Reads (c.readEnd request n err expired).1 := by
  have hne : c.reading ≠ 0 := by omega
  simp only [SessionCall.readEnd]
  split_ifs <;> constructor <;> simp_all

theorem ActiveCall.Ledger.reads {b : ActiveCall} {cin' : Bytes}
    (h : a.Ledger cin cout) (hreads : a.call.Reads b.call) (hreplying : b.replying = a.replying)
    (hreturned : b.recv ≠ .returned → a.recv ≠ .returned)
    (hended : a.recv = .close ∨ a.recv = .failed → b.recv = .close ∨ b.recv = .failed)
    (hbusy : ∀ n limit, b.recv = .reading n limit → 0 < b.call.reading)
    (hreceived : b.Received cin') : b.Ledger cin' cout where
  received := hreceived
  part := h.part
  written := by
    rcases h.written with hw | ⟨hb, hmute⟩
    · refine .inl (hw.congr hreads.head hreads.out hreads.outLeft hreads.replied
        hreads.continued ?_)
      rw [hreads.done]
      exact id
    · refine .inr ⟨hreads.broken hb, ?_⟩
      rcases hmute with hc | hr | he
      · exact .inl (hreads.closed hc)
      · exact .inr (.inl (hreplying.trans hr))
      · exact .inr (.inr (hended he))
  silent := fun hb => by
    rw [hreads.out, hreplying]
    exact h.silent (hreturned hb)
  closed := fun hd => by
    rw [hreads.done] at hd
    obtain ⟨hc, hr⟩ := h.closed hd
    exact ⟨hreads.closed hc, (hreads.ended hd hc hr).2⟩
  busy := hbusy
  finished := fun hd hb => by
    rw [hreads.done] at hd
    obtain ⟨hc, hr⟩ := h.closed hd
    have hb' : a.call.broken = false := by
      by_contra hne
      rw [hreads.broken (by simpa using hne)] at hb
      cases hb
    rw [(hreads.ended hd hc hr).1, SessionCall.oneWay, hreads.head, hreads.replied]
    exact h.finished hd hb'

theorem readBegin_remaining (c : SessionCall) (size : ℕ) (expired : Bool) :
    (c.readBegin size expired).1.remaining = c.remaining := by
  rw [SessionCall.readBegin]
  split_ifs <;> rfl

theorem readBegin_header {d : SessionCall} {bs : Bytes}
    (hat : c.headerAt = 0) (h : c.readBegin 4 expired = (d, .header bs)) :
    (unword bs).toNat = lengthOf c.head := by
  rw [SessionCall.readBegin, hat, if_pos (show 0 < 4 by decide)] at h
  split_ifs at h
  · simp at h
  · simp at h
  · simp only [drop_zero, Prod.mk.injEq, ReadPlan.header.injEq] at h
    have hbs : bs = word (mkHeader false false (lengthOf c.head)) :=
      h.2.symm.trans (take_of_length_le (by simp))
    rw [hbs, unword_word, toNat_mkHeader (lengthOf_lt c.head)]
    simp

theorem readBegin_wire {d : SessionCall} {size limit : ℕ}
    (hrem : 0 < c.remaining) (h : c.readBegin size expired = (d, .wire limit)) :
    limit ≤ c.remaining ∧ 0 < d.reading := by
  rw [SessionCall.readBegin] at h
  split_ifs at h <;> simp only [Prod.mk.injEq, ReadPlan.wire.injEq, reduceCtorEq, and_false] at h
  obtain ⟨rfl, rfl⟩ := h
  exact ⟨Nat.min_le_right _ _, Nat.succ_pos _⟩

theorem readEnd_dropped {request : Bool} {n : ℕ}
    {err : Option ReadErr} (h : (c.readEnd request n err expired).2 = false) :
    (c.readEnd request n err expired).1.broken = true := by
  simp only [SessionCall.readEnd] at h ⊢
  split_ifs at h ⊢
  rfl

theorem readEnd_given {request : Bool} {n : ℕ} {err : Option ReadErr} (hn : n ≤ c.remaining)
    (h : (c.readEnd request n err expired).2 = true) :
    (c.readEnd request n err expired).1.remaining = c.remaining - n := by
  simp only [SessionCall.readEnd] at h ⊢
  split_ifs at h ⊢ <;> simp only <;> omega

section Receive

variable {a : ActiveCall} {cin cout : Bytes} {limit : ℕ} {v : CallView}

theorem ActiveCall.Ledger.stop (h : a.Ledger cin cout) (hret : a.recv ≠ .returned)
    {c : SessionCall} (hreads : a.call.Reads c) (hrem : c.remaining = a.call.remaining) :
    ActiveCall.Ledger { a with call := c, recv := .close } cin cout := by
  refine h.reads hreads rfl (fun _ => hret) (fun _ => .inl rfl)
    (fun _ _ hr => by cases hr) ?_
  intro hb
  have hb' : a.call.broken = false := by
    by_contra hne
    rw [hreads.broken (by simpa using hne)] at hb
    cases hb
  obtain ⟨hcin, hlen⟩ := h.received.taken hb'
  refine ⟨hcin, ?_⟩
  simpa only [hrem, hreads.head] using hlen

theorem ActiveCall.Ledger.advance (h : a.Ledger cin cout) (r : RecvPc)
    (hret : a.recv ≠ .returned) (hopen : a.recv ≠ .close ∧ a.recv ≠ .failed)
    (hr : ∀ n l, r ≠ .reading n l) (hreceived : ActiveCall.Received { a with recv := r } cin) :
    ActiveCall.Ledger { a with recv := r } cin cout := by
  refine h.reads .rfl rfl (fun _ => hret) (fun hc => ?_) (fun n l he => absurd he (hr n l))
    hreceived
  rcases hc with hc | hc
  · exact absurd hc hopen.1
  · exact absurd hc hopen.2

variable {m : CallMove} {n : ℕ}

section

variable (h : a.Ledger cin cout)

include h

theorem ActiveCall.Ledger.receive (hrecv : a.recv = .header) {fails : Bool}
    (hm : a.receiveNext limit v (.receive fails) = some m) :
    m.next.Ledger (cin ++ v.inn.take m.read) (cout ++ m.wrote) := by
  have hret : a.recv ≠ .returned := by simp [hrecv]
  simp only [receiveNext, if_pos hrecv] at hm
  split_ifs at hm with hfail
  · cases hm
    simpa [CallMove.silent] using h.stop hret .rfl rfl
  · have hreads := reads_readBegin a.call 4 v.expired
    have hrem := readBegin_remaining a.call 4 v.expired
    have hreceived := h.received
    simp only [ActiveCall.Received, hrecv] at hreceived
    split at hm
    next call bs hbegin =>
      cases hm
      simp only [hbegin] at hreads hrem
      have hn := readBegin_header hreceived.1 hbegin
      simp only [CallMove.silent, take_zero, append_nil]
      split_ifs
      · exact h.stop hret hreads hrem
      · refine h.reads hreads rfl (fun _ => hret) (fun hc => ?_)
          (fun _ _ he => by cases he) ?_
        · simp [hrecv] at hc
        · refine ⟨hn.trans (congrArg lengthOf hreads.head.symm), hreceived.2.1, ?_⟩
          simpa only [hrem, hreads.head] using hreceived.2.2
    next call plan hbegin =>
      cases hm
      simp only [hbegin] at hreads hrem
      simpa [CallMove.silent] using h.stop hret hreads hrem

theorem ActiveCall.Ledger.bind (hrecv : a.recv = .bind n)
    {res : BindRes} (hm : a.receiveNext limit v (.bind res) = some m) :
    m.next.Ledger (cin ++ v.inn.take m.read) (cout ++ m.wrote) := by
  have hret : a.recv ≠ .returned := by simp [hrecv]
  have hopen : a.recv ≠ .close ∧ a.recv ≠ .failed := by simp [hrecv]
  have hreceived := h.received
  simp only [ActiveCall.Received, hrecv] at hreceived
  have hstop : ActiveCall.Ledger { a with recv := .close } cin cout := h.stop hret .rfl rfl
  simp only [receiveNext, hrecv] at hm
  by_cases hclosed : (a.call.closed || v.expired) = true
  · rw [if_pos hclosed] at hm
    cases hm
    simpa [CallMove.silent] using hstop
  rw [if_neg hclosed] at hm
  cases res with
  | ok =>
    simp only at hm
    split_ifs at hm
    cases hm
    simpa [CallMove.silent] using h.advance (.body n) hret hopen (by simp) hreceived
  | notProven =>
    cases hm
    simp only [CallMove.silent, take_zero, append_nil]
    split_ifs
    · exact hstop
    · exact h.advance .refuse hret hopen (by simp) fun _ => hreceived.2
  | failed =>
    cases hm
    simpa [CallMove.silent] using hstop

theorem ActiveCall.Ledger.readBegin (hrecv : a.recv = .body n)
    (hm : a.receiveNext limit v .readBegin = some m) :
    m.next.Ledger (cin ++ v.inn.take m.read) (cout ++ m.wrote) := by
  have hret : a.recv ≠ .returned := by simp [hrecv]
  have hopen : a.recv ≠ .close ∧ a.recv ≠ .failed := by simp [hrecv]
  have hreceived := h.received
  simp only [ActiveCall.Received, hrecv] at hreceived
  obtain ⟨hn, hcin, hlen⟩ := hreceived
  simp only [receiveNext, hrecv] at hm
  split_ifs at hm with hfull
  · cases hm
    have hvalid : ActiveCall.Received { a with recv := .valid } cin :=
      ⟨by simp only; omega, hcin, hlen⟩
    simpa [CallMove.silent] using h.advance .valid hret hopen (by simp) hvalid
  · have hreads := reads_readBegin a.call (n - a.frame.length) v.expired
    have hrem := readBegin_remaining a.call (n - a.frame.length) v.expired
    split at hm
    next call lim hbegin =>
      cases hm
      simp only [hbegin] at hreads hrem
      obtain ⟨hle, hbusy⟩ := readBegin_wire (by omega) hbegin
      simp only [CallMove.silent, take_zero, append_nil]
      refine h.reads hreads rfl (fun _ => hret) (fun hc => ?_) (fun _ _ _ => hbusy) ?_
      · exact (hc.elim hopen.1 hopen.2).elim
      · refine ⟨hn.trans (congrArg lengthOf hreads.head.symm), ?_, hcin, ?_⟩
        · simpa only [hrem] using hle
        · simpa only [hrem, hreads.head] using hlen
    next call plan hbegin =>
      cases hm
      simp only [hbegin] at hreads hrem
      simpa [CallMove.silent] using h.stop hret hreads hrem

theorem ActiveCall.Ledger.readEnd {lim k : ℕ}
    {err : Option ReadErr} (hrecv : a.recv = .reading n lim)
    (hm : a.receiveNext limit v (.readEnd k err) = some m) :
    m.next.Ledger (cin ++ v.inn.take m.read) (cout ++ m.wrote) := by
  have hret : a.recv ≠ .returned := by simp [hrecv]
  have hopen : a.recv ≠ .close ∧ a.recv ≠ .failed := by simp [hrecv]
  have hreceived := h.received
  simp only [ActiveCall.Received, hrecv] at hreceived
  obtain ⟨hn, hlim, hcin, hlen⟩ := hreceived
  have hreads := reads_readEnd a.call true k err v.expired (h.busy n lim hrecv)
  simp only [receiveNext, hrecv] at hm
  by_cases hallowed : readAllowed v.inn lim k err = true
  swap
  · rw [if_neg hallowed] at hm
    cases hm
  rw [if_pos hallowed, Option.some.injEq] at hm
  simp only [readAllowed, Bool.and_eq_true, decide_eq_true_eq] at hallowed
  obtain ⟨⟨hk, hinn⟩, -⟩ := hallowed
  subst hm
  simp only [append_nil]
  have hended : a.recv = .close ∨ a.recv = .failed → False := fun hc => hc.elim hopen.1 hopen.2
  by_cases hgiven : (a.call.readEnd true k err v.expired).2 = true
  · have hrem := readEnd_given (hk.trans hlim) hgiven
    have hframe : (a.frame ++ v.inn.take k).length = a.frame.length + k := by
      rw [length_append, length_take_of_le hinn]
    have htaken : ∀ r, ActiveCall.Taken { a with
        call := (a.call.readEnd true k err v.expired).1
        frame := a.frame ++ v.inn.take k, recv := r } (cin ++ v.inn.take k) := by
      intro r
      refine ⟨by rw [hcin], ?_⟩
      simp only [hframe, hrem, hreads.head]
      omega
    simp only [hgiven, Bool.not_true, Bool.false_eq_true, ↓reduceIte]
    refine h.reads hreads rfl (fun _ => hret) (fun hc => (hended hc).elim) ?_ ?_
    · intro n' l hr
      split_ifs at hr
    · split_ifs with hfull herr
      · refine ⟨?_, htaken _⟩
        simp only [hrem]
        omega
      · exact fun _ => htaken _
      · exact ⟨hn.trans (congrArg lengthOf hreads.head.symm), htaken _⟩
  · simp only [hgiven, Bool.not_false, ↓reduceIte]
    refine h.reads hreads rfl (fun _ => hret) (fun hc => (hended hc).elim)
      (fun _ _ hr => by cases hr) ?_
    intro hb
    rw [readEnd_dropped (by simpa using hgiven)] at hb
    cases hb

theorem ActiveCall.Ledger.validate (hrecv : a.recv = .valid) :
    ActiveCall.Ledger { a with recv := if v.expired then .close else .ctx } cin cout := by
  have hret : a.recv ≠ .returned := by simp [hrecv]
  have hopen : a.recv ≠ .close ∧ a.recv ≠ .failed := by simp [hrecv]
  have hreceived := h.received
  simp only [ActiveCall.Received, hrecv] at hreceived
  split_ifs
  · exact h.stop hret .rfl rfl
  · exact h.advance .ctx hret hopen (by simp) hreceived

theorem ActiveCall.Ledger.checkCtx (hrecv : a.recv = .ctx) :
    ActiveCall.Ledger { a with recv := .close } cin cout ∧
      ActiveCall.Ledger { a with recv := .returned } cin cout := by
  have hret : a.recv ≠ .returned := by simp [hrecv]
  have hopen : a.recv ≠ .close ∧ a.recv ≠ .failed := by simp [hrecv]
  have hreceived := h.received
  simp only [ActiveCall.Received, hrecv] at hreceived
  refine ⟨h.stop hret .rfl rfl, h.advance .returned hret hopen (by simp) ?_⟩
  exact ⟨hreceived.1, fun _ => hreceived.2⟩

theorem ActiveCall.Ledger.unanswered (hrecv : a.recv = .refuse)
    (hclosed : ¬ a.call.closed = true) : cout = [] := by
  obtain ⟨hout, hreplying⟩ := h.silent (by simp [hrecv])
  have hwritten : a.call.Written cout := by
    rcases h.written with hw | ⟨-, hc | hr | he⟩
    · exact hw
    · exact absurd hc hclosed
    · rw [hreplying] at hr
      cases hr
    · simp [hrecv] at he
  rw [SessionCall.Written] at hwritten
  split_ifs at hwritten with hway hshort
  · rcases hwritten with ⟨hc, -⟩ | ⟨hd, -⟩
    · exact hc
    · exact absurd (h.closed hd).1 hclosed
  · exact hwritten.1
  · simp [hout] at hshort

end

theorem answerPart_refusal {tokens : Bytes} (h : tokens.length = 2) :
    AnswerPart (word proofRefusalHeader ++ tokens) :=
  ⟨⟨proofRefusalHeader, tokens, h⟩, show proofRefusalHeader ≠ sessionClosing by decide,
    prefix_rfl⟩

theorem ActiveCall.Ledger.refuse (h : a.Ledger cin cout) (hrecv : a.recv = .refuse)
    (hclosed : ¬ a.call.closed = true) {tokens : Bytes} {fault : Option ℕ}
    (htokens : tokens.length = 2) :
    ActiveCall.Ledger { a with call := { a.call with broken := true }, recv := .close } cin
      (cout ++ sent v.lost (word proofRefusalHeader ++ tokens) fault) where
  received := fun hb => by cases hb
  part := by
    rw [h.unanswered hrecv hclosed, nil_append]
    exact (answerPart_refusal htokens).of_part (sent_part _ _ _)
  written := .inr ⟨rfl, .inr (.inr (.inl rfl))⟩
  silent := fun _ => h.silent (by simp [hrecv])
  closed := h.closed
  busy := fun _ _ hr => by cases hr
  finished := fun _ hb => by cases hb

theorem ActiveCall.Ledger.fail (h : a.Ledger cin cout) (hrecv : a.recv = .close) :
    ActiveCall.Ledger { a with call := { a.call with closed := true }, recv := .failed }
      cin cout := by
  refine h.reads (.close _) rfl (fun _ => by simp [hrecv]) (fun _ => .inr rfl)
    (fun _ _ hr => by cases hr) ?_
  exact fun hb => h.received.taken hb

theorem ActiveCall.Ledger.receiveNext (h : a.Ledger cin cout) {act : CallAct}
    (hm : a.receiveNext limit v act = some m) :
    m.next.Ledger (cin ++ v.inn.take m.read) (cout ++ m.wrote) := by
  cases act with
  | receive fails =>
    by_cases hrecv : a.recv = .header
    · exact h.receive hrecv hm
    · simp [ActiveCall.receiveNext, hrecv] at hm
  | bind res =>
    cases hrecv : a.recv with
    | bind n => exact h.bind hrecv hm
    | _ => simp [ActiveCall.receiveNext, hrecv] at hm
  | readBegin =>
    cases hrecv : a.recv with
    | body n => exact h.readBegin hrecv hm
    | _ => simp [ActiveCall.receiveNext, hrecv] at hm
  | readEnd k err =>
    cases hrecv : a.recv with
    | reading n lim => exact h.readEnd hrecv hm
    | _ => simp [ActiveCall.receiveNext, hrecv] at hm
  | validate =>
    simp only [ActiveCall.receiveNext] at hm
    split_ifs at hm with hrecv
    all_goals
      cases hm
      simpa [CallMove.silent, *] using h.validate (v := v) hrecv
  | checkCtx =>
    simp only [ActiveCall.receiveNext] at hm
    split_ifs at hm with hrecv hctx
    · cases hm
      simpa [CallMove.silent] using (h.checkCtx hrecv).1
    · cases hm
      simpa using (h.checkCtx hrecv).2
  | refuse tokens fault =>
    simp only [ActiveCall.receiveNext] at hm
    split_ifs at hm with hrecv hclosed
    · cases hm
      simpa [CallMove.silent] using h.stop (by simp [hrecv.1]) .rfl rfl
    · cases hm
      simpa using h.refuse hrecv.1 hclosed hrecv.2.1
  | fail =>
    simp only [ActiveCall.receiveNext] at hm
    split_ifs at hm with hrecv
    cases hm
    simpa [CallMove.silent] using h.fail hrecv
  | _ => simp [ActiveCall.receiveNext] at hm

end Receive

section Handle

variable {a : ActiveCall} {cin cout : Bytes} {limit : ℕ} {v : CallView}

theorem ActiveCall.Ledger.watch (h : a.Ledger cin cout) (hrecv : a.recv = .returned)
    {c : SessionCall} (hreads : a.call.Reads c) {cin' : Bytes} (hrem : c.remaining = 0)
    (hcin : c.broken = false → cin' = cin) :
    ActiveCall.Ledger { a with call := c } cin' cout := by
  have hreceived := h.received
  simp only [ActiveCall.Received, hrecv] at hreceived
  refine h.reads hreads rfl id id (fun n l hr => ?_) ?_
  · simp [hrecv] at hr
  · simp only [ActiveCall.Received, hrecv]
    refine ⟨hrem, fun hb => ?_⟩
    have hb' : a.call.broken = false := by
      by_contra hne
      rw [hreads.broken (by simpa using hne)] at hb
      cases hb
    obtain ⟨hframe, hlen⟩ := hreceived.2 hb'
    refine ⟨(hcin hb).trans hframe, ?_⟩
    simp only [hrem, hreads.head]
    rw [hreceived.1] at hlen
    exact hlen

theorem readEnd_extra {c : SessionCall} (hrem : c.remaining = 0) (n : ℕ)
    (err : Option ReadErr) (expired : Bool) :
    (c.readEnd false n err expired).1.remaining = 0 ∧
      ((c.readEnd false n err expired).1.broken = false → n = 0) := by
  simp only [SessionCall.readEnd, Bool.false_and, Bool.false_eq_true, ↓reduceIte, hrem, lt_irrefl]
  split_ifs with hn
  · exact ⟨rfl, fun h => by cases h⟩
  · exact ⟨rfl, fun _ => by omega⟩

theorem ActiveCall.Ledger.replyWrite (h : a.Ledger cin cout) (hrecv : a.recv = .returned)
    {p : Bytes} {parts : List Bytes} (hreplying : a.replying = some (p :: parts))
    {retiring lost : Bool} {fault : Option ℕ} {r : SessionCall × Bytes × Bool}
    (hr : a.call.write p retiring lost fault = r) :
    ActiveCall.Ledger
      { a with call := r.1, replying := some (if r.2.2 then [] else parts) } cin
      (cout ++ r.2.1) := by
  have hkeeps := write_keeps a.call p retiring lost fault
  have hsame : a.call.closed = true → r = (a.call, [], true) :=
    fun hc => hr.symm.trans (write_closed hc)
  simp only [hr] at hkeeps
  obtain ⟨hhead, -, hrem, hclosed, hreading, hdone, hbroken⟩ := hkeeps
  have hb : r.1.broken = false → a.call.broken = false := by
    intro hb
    by_contra hne
    rw [hbroken (by simpa using hne)] at hb
    cases hb
  have hreceived := h.received
  simp only [ActiveCall.Received, hrecv] at hreceived
  have hanswer : AnswerPart (cout ++ r.2.1) ∧ (r.1.Written (cout ++ r.2.1) ∨
      r.1.broken = true ∧ (r.1.closed = true ∨ r.2.2 = true)) := by
    rcases h.written with hw | ⟨hbr, hc | he | he⟩
    · have hwrite := @write_written a.call p cout retiring lost fault hw
      simp only [hr] at hwrite
      exact hwrite.imp_right (Or.imp_right (And.imp_right .inr))
    · rw [hsame hc]
      exact ⟨by simpa using h.part, .inr ⟨hbr, .inl hc⟩⟩
    · rw [hreplying] at he
      cases he
    · simp [hrecv] at he
  refine ⟨?_, hanswer.1, ?_, fun hne => absurd hrecv hne, ?_, fun n l he => ?_, ?_⟩
  · simp only [ActiveCall.Received, hrecv]
    refine ⟨hrem.trans hreceived.1, fun hbr => ?_⟩
    obtain ⟨hframe, hlen⟩ := hreceived.2 (hb hbr)
    refine ⟨hframe, ?_⟩
    simpa only [hrem, hhead] using hlen
  · rcases hanswer.2 with hw | ⟨hbr, hc | hf⟩
    · exact .inl hw
    · exact .inr ⟨hbr, .inl hc⟩
    · exact .inr ⟨hbr, .inr (.inl (by simp [hf]))⟩
  · intro hd
    simp only [hclosed, hreading]
    exact h.closed (hdone.symm.trans hd)
  · simp [hrecv] at he
  · intro hd hbr
    have hd' := hdone.symm.trans hd
    rw [hsame (h.closed hd').1] at hbr ⊢
    exact h.finished hd' hbr

theorem ActiveCall.Ledger.handlerNext (h : a.Ledger cin cout) (hrecv : a.recv = .returned)
    {act : CallAct} {m : CallMove} (hm : a.handlerNext limit v act = some m) :
    m.next.Ledger (cin ++ v.inn.take m.read) (cout ++ m.wrote) := by
  have hrem : a.call.remaining = 0 := by
    have hreceived := h.received
    simp only [ActiveCall.Received, hrecv] at hreceived
    exact hreceived.1
  cases act with
    simp only [ActiveCall.handlerNext, reduceCtorEq] at hm
  | watchBegin =>
    cases hm
    simpa [CallMove.silent] using h.watch hrecv (reads_readBegin a.call 1 v.expired)
      ((readBegin_remaining _ _ _).trans hrem) fun _ => rfl
  | watchEnd n err =>
    split_ifs at hm with hread
    cases hm
    obtain ⟨hrem', hzero⟩ := readEnd_extra hrem n err v.expired
    simp only [append_nil]
    apply h.watch hrecv (reads_readEnd a.call false n err v.expired hread.1) hrem'
    intro hb
    rw [hzero hb, take_zero, append_nil]
  | reply frame =>
    split_ifs at hm with hnone
    cases hm
    simp only [CallMove.silent, take_zero, append_nil]
    refine ⟨h.received, h.part, h.written.imp_right ?_, fun hne => absurd hrecv hne,
      h.closed, h.busy, h.finished⟩
    rintro ⟨hb, hc | hr | he⟩
    · exact ⟨hb, .inl hc⟩
    · rw [hnone.1] at hr
      cases hr
    · exact ⟨hb, .inr (.inr he)⟩
  | replyWrite fault =>
    split at hm
    next p parts hreplying =>
      by_cases hlost : v.lost = true → fault ≠ none
      · rw [if_pos hlost] at hm
        cases hm
        simpa using h.replyWrite hrecv hreplying rfl
      · rw [if_neg hlost] at hm
        cases hm
    next => cases hm
  | finish =>
    cases hm
    simpa [CallMove.silent] using h.watch hrecv (.close a.call) hrem fun _ => rfl

end Handle

theorem closeEnd_keeps (c : SessionCall) (retiring lost : Bool) (fault : Option ℕ) :
    let d := (c.closeEnd retiring lost fault).1
    d.head = c.head ∧ d.headerAt = c.headerAt ∧ d.remaining = c.remaining ∧
      d.out = c.out ∧ d.closed = c.closed ∧ d.reading = c.reading ∧ d.done = true ∧
      (d.broken = false → c.broken = false ∧ d.remaining = 0 ∧
        (d.oneWay = false → d.replied = true)) := by
  simp only [SessionCall.closeEnd]
  split_ifs <;> simp_all [SessionCall.oneWay]

theorem ActiveCall.Received.congr {b : ActiveCall} (h : a.Received cin)
    (hrecv : b.recv = a.recv) (hframe : b.frame = a.frame)
    (hhead : b.call.head = a.call.head) (hat : b.call.headerAt = a.call.headerAt)
    (hrem : b.call.remaining = a.call.remaining)
    (hbroken : b.call.broken = false → a.call.broken = false) : b.Received cin := by
  simp only [ActiveCall.Received, ActiveCall.Taken, hrecv, hframe, hhead, hat, hrem] at h ⊢
  split at h
  case h_7 => exact ⟨h.1, fun hb => h.2 (hbroken hb)⟩
  case h_8 | h_9 | h_10 => exact fun hb => h (hbroken hb)
  all_goals exact h

theorem ActiveCall.Ledger.closeEnd
    (h : a.Ledger cin cout) (hclosed : a.call.closed = true) (hdone : a.call.done = false)
    (hreading : a.call.reading = 0) {retiring lost : Bool} {fault : Option ℕ}
    {r : SessionCall × Bytes} (hr : a.call.closeEnd retiring lost fault = r) :
    ActiveCall.Ledger { a with call := r.1 } cin (cout ++ r.2) := by
  have hkeeps := closeEnd_keeps a.call retiring lost fault
  simp only [hr] at hkeeps
  obtain ⟨hhead, hat, hrem, hout, hclosed', hreading', hdone', hend⟩ := hkeeps
  have hanswer : AnswerPart (cout ++ r.2) ∧ (r.1.Written (cout ++ r.2) ∨ r.1.broken = true) := by
    rcases h.written with hw | ⟨hb, -⟩
    · have hclose := @closeEnd_written a.call cout retiring lost fault hdone hw
      simpa only [hr] using hclose
    · have hsame : r = ({ a.call with done := true }, []) := by
        rw [← hr, SessionCall.closeEnd]
        simp [hb]
      rw [hsame]
      exact ⟨by simpa using h.part, .inr hb⟩
  refine ⟨?_, hanswer.1, ?_, fun hne => ?_, fun _ => ?_, fun n l he => ?_, fun _ hb => ?_⟩
  · exact h.received.congr rfl rfl hhead hat hrem fun hb => (hend hb).1
  · exact hanswer.2.imp_right fun hb => ⟨hb, .inl (hclosed'.trans hclosed)⟩
  · exact ⟨hout.trans (h.silent hne).1, (h.silent hne).2⟩
  · exact ⟨hclosed'.trans hclosed, hreading'.trans hreading⟩
  · exact absurd hreading (h.busy n l he).ne'
  · exact (hend hb).2

theorem ActiveCall.Ledger.next {limit : ℕ} {v : CallView} {a : ActiveCall} {act : CallAct}
    {m : CallMove} {cin cout : Bytes} (h : a.Ledger cin cout) (hm : a.next limit v act = some m) :
    m.next.Ledger (cin ++ v.inn.take m.read) (cout ++ m.wrote) := by
  have hother : (if a.recv = .returned then a.handlerNext limit v act
      else a.receiveNext limit v act) = some m →
      m.next.Ledger (cin ++ v.inn.take m.read) (cout ++ m.wrote) := by
    intro hm
    split_ifs at hm with hrecv
    · exact h.handlerNext hrecv hm
    · exact h.receiveNext hm
  cases act with
  | cancel =>
    cases hm
    have hcancel : ActiveCall.Ledger { a with ctxDone := true } cin cout :=
      h.reads .rfl rfl id id h.busy h.received
    simpa [CallMove.silent] using hcancel
  | callback =>
    simp only [ActiveCall.next] at hm
    split_ifs at hm
    cases hm
    have hclose : ActiveCall.Ledger { a with call := { a.call with closed := true } }
        cin cout :=
      h.reads (.close a.call) rfl id id h.busy (h.received.congr rfl rfl rfl rfl rfl id)
    simpa [CallMove.silent] using hclose
  | closeEnd fault =>
    simp only [ActiveCall.next] at hm
    by_cases hready : a.call.closed = true ∧ a.call.done = false ∧ a.call.reading = 0 ∧
        (v.lost = true → fault ≠ none)
    · rw [if_pos hready] at hm
      cases hm
      simpa using h.closeEnd hready.1 hready.2.1 hready.2.2.1 rfl
    · rw [if_neg hready] at hm
      cases hm
  | _ => exact hother hm

inductive Reports (a : ActiveCall) (act : CallAct) : CallMove → Prop where
  | nothing {m : CallMove} (hevent : m.event = none)
      (hrecv : m.next.recv = .returned ↔ a.recv = .returned) : Reports a act m
  | dispatched (hrecv : a.recv = .ctx) (hctx : a.ctxDone = false) :
      Reports a act ⟨{ a with recv := .returned }, 0, [], some (.dispatched a.frame)⟩
  | completed {m : CallMove} {fault : Option ℕ} (hact : act = .closeEnd fault)
      (hcompletes : a.call.completes = true) (hevent : m.event = some .completed)
      (hrecv : m.next.recv = .returned ↔ a.recv = .returned) : Reports a act m

section Events

variable {limit : ℕ} {v : CallView} {a : ActiveCall} {act : CallAct} {m : CallMove}

theorem readBegin_keeps {c d : SessionCall} {size : ℕ} {expired : Bool} {plan : ReadPlan}
    (h : c.readBegin size expired = (d, plan)) :
    d.head = c.head ∧ (c.broken = true → d.broken = true) ∧ d.done = c.done := by
  have hreads := reads_readBegin c size expired
  rw [h] at hreads
  exact ⟨hreads.head, hreads.broken, hreads.done⟩

theorem readEnd_keeps (c : SessionCall) (request : Bool) (n : ℕ) (err : Option ReadErr)
    (expired : Bool) :
    let d := (c.readEnd request n err expired).1
    d.head = c.head ∧ (c.broken = true → d.broken = true) ∧ d.done = c.done := by
  simp only [SessionCall.readEnd]
  split_ifs <;> simp_all

section

variable (hm : a.next limit v act = some m)

include hm

theorem next_keeps :
    m.next.call.head = a.call.head ∧ (a.call.broken = true → m.next.call.broken = true) ∧
      (m.next.call.done = a.call.done ∨ ∃ fault, act = .closeEnd fault) := by
  cases act with
    simp only [ActiveCall.next, handlerNext, receiveNext] at hm
  | closeEnd fault =>
    split at hm
    · cases hm
      obtain ⟨hhead, -, -, -, -, -, -, hbroken⟩ := closeEnd_keeps a.call v.isRetiring v.lost fault
      refine ⟨hhead, fun hb => ?_, .inr ⟨fault, rfl⟩⟩
      by_contra hno
      rw [(hbroken (by simpa using hno)).1] at hb
      cases hb
    · cases hm
  | replyWrite fault =>
    (repeat' split at hm) <;> cases hm
    all_goals
      obtain ⟨hhead, -, -, -, -, hdone, hbroken⟩ := write_keeps a.call _ v.isRetiring v.lost fault
      exact ⟨hhead, hbroken, .inl hdone⟩
  | _ =>
    (repeat' split at hm) <;> cases hm
    all_goals first
      | exact ⟨rfl, id, .inl rfl⟩
      | exact ⟨rfl, fun _ => rfl, .inl rfl⟩
      | exact (readBegin_keeps ‹_›).imp_right (And.imp_right .inl)
      | exact (readBegin_keeps rfl).imp_right (And.imp_right .inl)
      | exact (readEnd_keeps _ _ _ _ _).imp_right (And.imp_right .inl)

theorem reports_next : Reports a act m := by
  cases act with
  | closeEnd fault =>
    simp only [ActiveCall.next] at hm
    split at hm
    · cases hm
      by_cases hcompletes : a.call.completes = true
      · exact .completed rfl hcompletes (if_pos hcompletes) Iff.rfl
      · exact .nothing (if_neg hcompletes) Iff.rfl
    · cases hm
  | _ =>
    simp only [ActiveCall.next, handlerNext, receiveNext] at hm
    (repeat' split at hm) <;> cases hm
    all_goals first
      | exact .nothing rfl Iff.rfl
      | exact .dispatched ‹_› (by simp_all)
      | exact .nothing rfl (by simp_all [CallMove.silent])

theorem next_dispatched {frame : Bytes} (hevent : m.event = some (.dispatched frame)) :
    a.recv = .ctx ∧ a.ctxDone = false ∧ frame = a.frame ∧
      m = ⟨{ a with recv := .returned }, 0, [], some (.dispatched a.frame)⟩ := by
  cases reports_next hm with
  | nothing hnone => exact absurd (hnone.symm.trans hevent) (by simp)
  | dispatched hrecv hctx =>
    cases hevent
    exact ⟨hrecv, hctx, rfl, rfl⟩
  | completed _ _ hdone => exact absurd (hdone.symm.trans hevent) (by simp)

theorem next_completed (hevent : m.event = some .completed) :
    (∃ fault, act = .closeEnd fault) ∧ a.call.completes = true := by
  cases reports_next hm with
  | nothing hnone => exact absurd (hnone.symm.trans hevent) (by simp)
  | dispatched => cases hevent
  | completed hact hcompletes => exact ⟨⟨_, hact⟩, hcompletes⟩

theorem next_returned_iff : m.next.recv = .returned ↔
      a.recv = .returned ∨ ∃ frame, m.event = some (.dispatched frame) := by
  cases reports_next hm with
  | nothing hnone hrecv => simp [hnone, hrecv]
  | dispatched => simp
  | completed _ _ hdone hrecv => simp [hdone, hrecv]

end

end Events

end Listen
