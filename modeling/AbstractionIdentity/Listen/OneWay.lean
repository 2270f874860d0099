import AbstractionIdentity.Listen.ServeLedger

/-!
# The completion of a one-way request

`Close` completes a one-way request from what the call knows: it is not broken and was read whole.
So a request refused after its last byte is completed (`completion_without_dispatch`). Where its
receiver meets nothing that refuses it from then on (`unhindered`), a completion means that the
frame was returned (`completion_of_dispatch`).
-/

namespace Listen

open Text Stream Transition List Option ActiveCall Bool

/-- `ReceiveFramed` has all of a one-way request and has neither returned nor refused it. -/
def ActiveCall.undecided (a : ActiveCall) : Bool :=
  a.call.oneWay && a.call.remaining = 0 &&
    match a.recv with
    | .bind _ | .body _ | .valid | .ctx | .refuse => true
    | _ => false

/-- What the receiver of a one-way request meets once it has the last byte: `Bind` and the check of
the need fail for nothing but a missing proof, the binding has not expired, and the context does
not end and had not ended when that byte came. -/
def ActiveCall.unhindered (a : ActiveCall) (expired : Bool) : CallAct → Bool
  | .bind res => !a.undecided || res ≠ .failed && !expired
  | .validate => !a.undecided || !expired
  | .cancel => !a.undecided
  -- a read that finds the binding expired breaks the call
  | .readEnd n _ => !(a.call.oneWay && a.ctxDone) || expired || n < a.call.remaining
  | _ => true

def unhindered (s : Serve) : ServeAct → Bool
  | .call act =>
    match s.pc with
    | .wait a => a.unhindered s.expired act
    | _ => true
  | _ => true

/-- A call that `Close` would complete before its frame was returned is undecided, and its context
has not ended; until the receiver fails only the context closes it. -/
structure ActiveCall.Unhindered (a : ActiveCall) : Prop where
  undecided : a.recv ≠ .returned → a.call.completes = true →
    a.undecided = true ∧ a.ctxDone = false
  closed : a.recv ≠ .returned → a.recv ≠ .failed → a.call.closed = true → a.ctxDone = true
  fresh : a.recv = .header → a.frame = []

section Receiver

variable {limit n : ℕ} {v : CallView} {a b : ActiveCall} {m : CallMove} {cin cout : Bytes}

theorem unhindered_new (w : UInt32) : (ActiveCall.new w).Unhindered where
  undecided := fun _ h => by simp [new, SessionCall.new, SessionCall.completes] at h
  closed := fun _ _ h => by cases h
  fresh := fun _ => rfl

theorem ActiveCall.Unhindered.open (h : a.Unhindered) (hrecv : a.recv ≠ .returned)
    (hcompletes : a.call.completes = true) :
    a.undecided = true ∧ a.ctxDone = false ∧ a.call.closed = false := by
  obtain ⟨hundecided, hctx⟩ := h.undecided hrecv hcompletes
  refine ⟨hundecided, hctx, eq_false_iff.2 fun hclosed => ?_⟩
  have hfailed : a.recv ≠ .failed := by
    intro hr
    simp [ActiveCall.undecided, hr] at hundecided
  rw [h.closed hrecv hfailed hclosed] at hctx
  cases hctx

theorem ActiveCall.Unhindered.closing (h : a.Unhindered) (hclosed : a.call.closed = true)
    (hrecv : a.recv ≠ .returned) : a.call.completes = false := by
  refine eq_false_iff.2 fun hc => ?_
  rw [(h.open hrecv hc).2.2] at hclosed
  cases hclosed

theorem closeEnd_completes {c : SessionCall} (h : c.completes = false) (retiring lost : Bool)
    (fault : Option ℕ) : (c.closeEnd retiring lost fault).1.completes = false := by
  simp only [SessionCall.closeEnd, SessionCall.completes, SessionCall.oneWay] at h ⊢
  split_ifs <;> simp_all

theorem unhindered_of_returned (h : b.recv = .returned) : b.Unhindered :=
  ⟨fun hne => absurd h hne, fun hne => absurd h hne, fun hh => by rw [h] at hh; cases hh⟩

/-- A step after which `Close` would not complete the call. -/
theorem ActiveCall.Unhindered.blocked (h : a.Unhindered) (hrecv : a.recv ≠ .returned)
    (hcompletes : b.call.completes = false) (hctx : a.ctxDone = true → b.ctxDone = true)
    (hclosed : b.recv ≠ .failed → b.call.closed = true →
      b.ctxDone = true ∨ a.recv ≠ .failed ∧ a.call.closed = true)
    (hfresh : b.recv = .header → a.recv = .header ∧ b.frame = a.frame) : b.Unhindered where
  undecided := fun _ hc => by
    rw [hcompletes] at hc
    cases hc
  closed := fun _ hf hc =>
    (hclosed hf hc).elim id fun ⟨hf', hc'⟩ => hctx (h.closed hrecv hf' hc')
  fresh := fun hb => (hfresh hb).2.trans (h.fresh (hfresh hb).1)

/-- The receiver goes on without touching the call. -/
theorem ActiveCall.Unhindered.advance (h : a.Unhindered) (hrecv : a.recv ≠ .returned)
    (hfailed : a.recv ≠ .failed) {r : RecvPc} (hheader : r ≠ .header)
    (hr : a.undecided = true → a.ctxDone = false → a.call.closed = false →
      r = .returned ∨ ({ a with recv := r } : ActiveCall).undecided = true) :
    ({ a with recv := r } : ActiveCall).Unhindered where
  undecided := fun hne hc => by
    obtain ⟨hu, hctx, hopen⟩ := h.open hrecv hc
    exact ⟨(hr hu hctx hopen).resolve_left hne, hctx⟩
  closed := fun _ _ hc => h.closed hrecv hfailed hc
  fresh := fun hh => absurd hh hheader

theorem completes_eq_false_of_remaining {c : SessionCall} (h : 0 < c.remaining) :
    c.completes = false := by
  simp [SessionCall.completes, h]

theorem readBegin_closed (c : SessionCall) (size : ℕ) (expired : Bool) :
    (c.readBegin size expired).1.closed = c.closed := by
  rw [SessionCall.readBegin]
  split_ifs <;> rfl

theorem ActiveCall.Unhindered.receive (h : a.Unhindered) (hl : a.Ledger cin cout)
    (hrecv : a.recv = .header) {fails : Bool}
    (hm : a.receiveNext limit v (.receive fails) = some m) : m.next.Unhindered := by
  have hret : a.recv ≠ .returned := by simp [hrecv]
  have hreceived := hl.received
  rw [ActiveCall.Received, hrecv] at hreceived
  obtain ⟨hat, -, hlen⟩ := hreceived
  rw [h.fresh hrecv, length_nil, Nat.zero_add] at hlen
  simp only [receiveNext, CallMove.silent, if_pos hrecv] at hm
  split_ifs at hm with hstop
  · cases hm
    refine h.blocked hret ?_ id (fun _ hc => .inr ⟨by simp [hrecv], hc⟩) fun hb => by cases hb
    simp [SessionCall.completes, hat]
  have hctx : a.ctxDone = false := by simp_all
  have hopen : a.call.closed = false :=
    eq_false_iff.2 fun hc => by
      rw [h.closed hret (by simp [hrecv]) hc] at hctx
      cases hctx
  split at hm
  next call bs hbegin =>
    cases hm
    have hn := readBegin_header hat hbegin
    have hrem := readBegin_remaining a.call 4 v.expired
    have hclosed := readBegin_closed a.call 4 v.expired
    rw [hbegin] at hrem hclosed
    refine ⟨fun _ hc => ⟨?_, hctx⟩, fun _ _ hc => ?_, fun hh => ?_⟩
    · have hzero : call.remaining = 0 := by
        by_contra hne
        rw [completes_eq_false_of_remaining (Nat.pos_of_ne_zero hne)] at hc
        cases hc
      have hsmall : ¬ limit < (unword bs).toNat := by
        dsimp only at hrem
        omega
      simp only [SessionCall.completes, and_eq_true] at hc
      simp [ActiveCall.undecided, hzero, hc.1.1, hsmall]
    · exact absurd (hclosed.symm.trans hc) (by simp [hopen])
    · dsimp only at hh
      split_ifs at hh
  next call plan hplan hbegin =>
    cases hm
    have hclosed := readBegin_closed a.call 4 v.expired
    rw [hbegin] at hclosed
    refine h.blocked hret ?_ id (fun _ hc => .inr ⟨by simp [hrecv], hclosed.symm.trans hc⟩)
      fun hb => by cases hb
    rw [SessionCall.readBegin, hat, hopen] at hbegin
    simp only [false_eq_true, if_false, Nat.zero_lt_succ, if_true] at hbegin
    split_ifs at hbegin
    · cases hbegin
      simp [SessionCall.completes]
    · cases hbegin
      exact (hplan _ rfl).elim

theorem ActiveCall.Unhindered.bind (h : a.Unhindered) (hrecv : a.recv = .bind n) {res : BindRes}
    (hok : a.unhindered v.expired (.bind res) = true)
    (hm : a.receiveNext limit v (.bind res) = some m) : m.next.Unhindered := by
  have hret : a.recv ≠ .returned := by simp [hrecv]
  have hfailed : a.recv ≠ .failed := by simp [hrecv]
  simp only [unhindered, or_eq_true, not_eq_true', and_eq_true, decide_eq_true_eq] at hok
  simp only [receiveNext, CallMove.silent, hrecv] at hm
  by_cases hstop : (a.call.closed || v.expired) = true
  · rw [if_pos hstop] at hm
    cases hm
    refine h.advance hret hfailed (by simp) fun hu _ hopen => ?_
    rcases hok with hno | ⟨-, hlive⟩
    · rw [hu] at hno
      cases hno
    · simp [hopen, hlive] at hstop
  rw [if_neg hstop] at hm
  cases res with
  | ok =>
    simp only at hm
    split_ifs at hm
    cases hm
    refine h.advance hret hfailed (by simp) fun hu _ _ => .inr ?_
    simpa [ActiveCall.undecided, hrecv] using hu
  | notProven =>
    cases hm
    refine h.advance hret hfailed (by split_ifs <;> simp) fun hu hctx _ => .inr ?_
    simpa [ActiveCall.undecided, hrecv, hctx] using hu
  | failed =>
    cases hm
    refine h.advance hret hfailed (by simp) fun hu _ _ => ?_
    rcases hok with hno | ⟨hne, -⟩
    · rw [hu] at hno
      cases hno
    · exact absurd rfl hne

theorem ActiveCall.Unhindered.readBegin (h : a.Unhindered) (hl : a.Ledger cin cout)
    (hrecv : a.recv = .body n) (hm : a.receiveNext limit v .readBegin = some m) :
    m.next.Unhindered := by
  have hret : a.recv ≠ .returned := by simp [hrecv]
  have hfailed : a.recv ≠ .failed := by simp [hrecv]
  have hreceived := hl.received
  rw [ActiveCall.Received, hrecv] at hreceived
  obtain ⟨hn, -, hlen⟩ := hreceived
  simp only [receiveNext, CallMove.silent, hrecv] at hm
  split_ifs at hm with hall
  · cases hm
    refine h.advance hret hfailed (by simp) fun hu _ _ => .inr ?_
    simpa [ActiveCall.undecided, hrecv] using hu
  -- part of the body is missing, before the read and after it
  have hleft : 0 < (a.call.readBegin (n - a.frame.length) v.expired).1.remaining := by
    rw [readBegin_remaining]
    omega
  have hclosed := readBegin_closed a.call (n - a.frame.length) v.expired
  split at hm
  next call lim hbegin =>
    cases hm
    rw [hbegin] at hleft hclosed
    exact h.blocked hret (completes_eq_false_of_remaining hleft) id
      (fun _ hc => .inr ⟨hfailed, hclosed.symm.trans hc⟩) fun hb => by cases hb
  next call plan hplan hbegin =>
    cases hm
    rw [hbegin] at hleft hclosed
    exact h.blocked hret (completes_eq_false_of_remaining hleft) id
      (fun _ hc => .inr ⟨hfailed, hclosed.symm.trans hc⟩) fun hb => by cases hb

theorem readEnd_closed (c : SessionCall) (request : Bool) (k : ℕ) (err : Option ReadErr)
    (expired : Bool) : (c.readEnd request k err expired).1.closed = c.closed := by
  simp only [SessionCall.readEnd]
  split_ifs <;> rfl

/-- Only a read of the last byte, handed on before the binding expired, completes a request. -/
theorem readEnd_completes {c : SessionCall} {k : ℕ} {err : Option ReadErr} {expired : Bool}
    (hpart : c.completes = false)
    (h : (c.readEnd true k err expired).1.completes = true) :
    c.oneWay = true ∧ expired = false ∧ 0 < c.remaining ∧ c.remaining ≤ k ∧
      (c.readEnd true k err expired).2 = true := by
  simp only [SessionCall.readEnd, SessionCall.completes, SessionCall.oneWay] at h hpart ⊢
  split_ifs at h ⊢ <;> grind

theorem ActiveCall.Unhindered.readEnd (h : a.Unhindered) (hl : a.Ledger cin cout) {lim k : ℕ}
    (hrecv : a.recv = .reading n lim) {err : Option ReadErr}
    (hok : a.unhindered v.expired (.readEnd k err) = true)
    (hm : a.receiveNext limit v (.readEnd k err) = some m) : m.next.Unhindered := by
  have hret : a.recv ≠ .returned := by simp [hrecv]
  have hfailed : a.recv ≠ .failed := by simp [hrecv]
  have hreceived := hl.received
  rw [ActiveCall.Received, hrecv] at hreceived
  obtain ⟨hn, hlim, -, hlen⟩ := hreceived
  have hpart : a.call.completes = false := by
    refine eq_false_iff.2 fun hc => ?_
    have hu := (h.undecided hret hc).1
    simp [ActiveCall.undecided, hrecv] at hu
  simp only [ActiveCall.receiveNext, hrecv] at hm
  by_cases hread : readAllowed v.inn lim k err = true
  swap
  · rw [if_neg hread] at hm
    cases hm
  rw [if_pos hread] at hm
  cases hm
  simp only [readAllowed, and_eq_true, decide_eq_true_eq] at hread
  refine ⟨fun _ hc => ?_, fun _ _ hc => ?_, fun hh => ?_⟩
  · obtain ⟨hway, hlast⟩ := readEnd_completes hpart hc
    have hctx : a.ctxDone = false := by
      simp only [ActiveCall.unhindered, hway, Bool.true_and] at hok
      grind
    have hall : n ≤ a.frame.length + min k v.inn.length := by
      rw [Nat.min_eq_left hread.1.2]
      omega
    refine ⟨?_, hctx⟩
    simp only [SessionCall.completes, and_eq_true, not_eq_true', or_eq_false_iff,
      decide_eq_false_iff_not, Nat.not_lt, Nat.le_zero] at hc
    simp [ActiveCall.undecided, hc.1.1, hc.2.2, hlast.2.2.2, hall]
  · exact h.closed hret hfailed (readEnd_closed a.call true k err v.expired ▸ hc)
  · dsimp only at hh
    split_ifs at hh

theorem ActiveCall.Unhindered.receiveNext (h : a.Unhindered) (hl : a.Ledger cin cout)
    (hret : a.recv ≠ .returned) {act : CallAct} (hok : a.unhindered v.expired act = true)
    (hm : a.receiveNext limit v act = some m) : m.next.Unhindered := by
  cases act with
  | receive fails =>
    by_cases hrecv : a.recv = .header
    · exact h.receive hl hrecv hm
    · rw [ActiveCall.receiveNext, if_neg hrecv] at hm
      cases hm
  | bind res =>
    cases hrecv : a.recv with
    | bind n => exact h.bind hrecv hok hm
    | _ => simp [ActiveCall.receiveNext, hrecv] at hm
  | readBegin =>
    cases hrecv : a.recv with
    | body n => exact h.readBegin hl hrecv hm
    | _ => simp [ActiveCall.receiveNext, hrecv] at hm
  | readEnd k err =>
    cases hrecv : a.recv with
    | reading n lim => exact h.readEnd hl hrecv hok hm
    | _ => simp [ActiveCall.receiveNext, hrecv] at hm
  | validate =>
    simp only [ActiveCall.receiveNext] at hm
    split at hm
    next hrecv =>
      cases hm
      refine h.advance hret (by simp [hrecv]) (by split_ifs <;> simp) fun hu _ _ => .inr ?_
      have hlive : v.expired = false := by simpa [unhindered, hu] using hok
      simpa [ActiveCall.undecided, hrecv, hlive] using hu
    next => cases hm
  | checkCtx =>
    simp only [ActiveCall.receiveNext] at hm
    by_cases hrecv : a.recv = .ctx
    · rw [if_pos hrecv] at hm
      split_ifs at hm with hctx
      · cases hm
        refine h.advance hret (by simp [hrecv]) (by simp) fun _ hno _ => ?_
        rw [hctx] at hno
        cases hno
      · cases hm
        exact unhindered_of_returned rfl
    · rw [if_neg hrecv] at hm
      cases hm
  | refuse tokens fault =>
    simp only [ActiveCall.receiveNext] at hm
    split at hm
    next hrefuse =>
      split_ifs at hm with hclosed
      · cases hm
        refine h.advance hret (by simp [hrefuse.1]) (by simp) fun _ _ hopen => ?_
        rw [hclosed] at hopen
        cases hopen
      · cases hm
        exact h.blocked hret (by simp [SessionCall.completes]) id
          (fun _ hc => .inr ⟨by simp [hrefuse.1], hc⟩) fun hb => by cases hb
    next => cases hm
  | fail =>
    simp only [ActiveCall.receiveNext] at hm
    split at hm
    next hrecv =>
      cases hm
      refine h.blocked hret (eq_false_iff.2 fun hc => ?_) id (fun hne => absurd rfl hne)
        fun hb => by cases hb
      have hu := (h.undecided hret hc).1
      simp [ActiveCall.undecided, hrecv] at hu
    next => cases hm
  | _ => simp [ActiveCall.receiveNext] at hm

theorem closeEnd_closed {fault : Option ℕ} (hm : a.next limit v (.closeEnd fault) = some m) :
    a.call.closed = true := by
  simp only [ActiveCall.next] at hm
  split at hm
  next hclose => exact hclose.1
  next => cases hm

theorem ActiveCall.Unhindered.next (h : a.Unhindered) (hl : a.Ledger cin cout) {act : CallAct}
    (hok : a.unhindered v.expired act = true) (hm : a.next limit v act = some m) :
    m.next.Unhindered := by
  by_cases hret : a.recv = .returned
  · exact unhindered_of_returned ((next_returned_iff hm).2 (.inl hret))
  cases act with
  | cancel =>
    cases hm
    refine h.blocked hret (eq_false_iff.2 fun hc => ?_) (fun _ => rfl) (fun _ _ => .inl rfl)
      fun hh => ⟨hh, rfl⟩
    simp [unhindered, (h.undecided hret hc).1] at hok
  | callback =>
    simp only [ActiveCall.next] at hm
    split_ifs at hm with hctx
    cases hm
    refine h.blocked hret (eq_false_iff.2 fun hc => ?_) id (fun _ _ => .inl hctx)
      fun hh => ⟨hh, rfl⟩
    rw [(h.undecided hret hc).2] at hctx
    cases hctx
  | closeEnd fault =>
    simp only [ActiveCall.next] at hm
    split at hm
    next hclose =>
      cases hm
      have hno := h.closing hclose.1 hret
      refine h.blocked hret ?_ id (fun hf _ => .inr ⟨hf, hclose.1⟩) fun hh => ⟨hh, rfl⟩
      exact closeEnd_completes hno _ _ _
    next => cases hm
  | _ => exact h.receiveNext hl hret hok (by simpa only [ActiveCall.next, if_neg hret] using hm)

end Receiver

def Serve.Dispatched (s : Serve) (i : ℕ) : Prop := ∃ frame, (i, frame) ∈ s.dispatched

theorem ActiveCall.Ledger.closeEnd_refused {a : ActiveCall} {cin cout : Bytes}
    (h : a.Ledger cin cout) (hrecv : a.recv ≠ .returned) (hopen : a.call.completes = false)
    (retiring lost : Bool) (fault : Option ℕ) :
    (a.call.closeEnd retiring lost fault).1.broken = true := by
  have hsilent : a.call.broken = false → a.call.oneWay = false → a.call.replied = false := by
    intro hb hway
    rcases h.written with hw | ⟨hb', -⟩
    · rw [SessionCall.Written, if_neg (by simp [hway]), if_pos] at hw
      · exact hw.2.2
      · rw [(h.silent hrecv).1]
        decide
    · rw [hb] at hb'
      cases hb'
  simp only [SessionCall.closeEnd]
  split_ifs with hbroken hunread hway hreplied
  · exact hbroken
  · rfl
  · simp_all [SessionCall.completes, SessionCall.oneWay]
  · rfl
  · have hno := hsilent (by simpa using hbroken)
      (by simpa [SessionCall.oneWay] using hway)
    simp [hno] at hreplied

/-- Every completion has its dispatch, and only the request being received or the
last one of a connection that ended may lack one. -/
structure Serve.Accounted (s : Serve) : Prop where
  completed : ∀ i ∈ s.completed, s.Dispatched i
  refused : ∀ i < s.served, ¬ s.Dispatched i → i + 1 = s.served ∧
    (s.pc = .ended ∨ ∃ a, s.pc = .wait a ∧ a.recv ≠ .returned)
  broken : ∀ a, s.pc = .wait a → a.recv ≠ .returned → a.call.done = true →
    a.call.broken = true
  receiver : ∀ a, s.pc = .wait a → a.Unhindered

variable {limit : ℕ} {s t : Serve} {act : ServeAct}

theorem accounted_start (sessions : Bool) : (Serve.start sessions).Accounted where
  completed := fun i hi => by cases hi
  refused := fun i hi => by cases hi
  broken := fun a ha => by cases sessions <;> cases ha
  receiver := fun a ha => by cases sessions <;> cases ha

theorem Serve.Accounted.other (h : s.Accounted) (hserved : t.served = s.served)
    (hcompleted : t.completed = s.completed) (hdispatched : ∀ i, s.Dispatched i → t.Dispatched i)
    (hpc : t.pc = s.pc ∨ t.pc = .ended ∨
      (∀ a, s.pc ≠ .wait a) ∧ s.pc ≠ .ended ∧ ∀ a, t.pc ≠ .wait a) : t.Accounted where
  completed := fun i hi => hdispatched i (h.completed i (hcompleted ▸ hi))
  refused := fun i hi hno => by
    obtain ⟨hlast, hplace⟩ := h.refused i (hserved ▸ hi) fun hd => hno (hdispatched i hd)
    refine ⟨hlast.trans hserved.symm, ?_⟩
    rcases hpc with hpc | hpc | ⟨hwait, hended, -⟩
    · rw [hpc]
      exact hplace
    · exact .inl hpc
    · rcases hplace with hs | ⟨a, ha, -⟩
      · exact absurd hs hended
      · exact absurd ha (hwait a)
  broken := fun a ha hrecv hdone => by
    rcases hpc with hpc | hpc | ⟨-, -, hwait⟩
    · exact h.broken a (hpc ▸ ha) hrecv hdone
    · rw [hpc] at ha
      cases ha
    · exact absurd ha (hwait a)
  receiver := fun a ha => by
    rcases hpc with hpc | hpc | ⟨-, -, hwait⟩
    · exact h.receiver a (hpc ▸ ha)
    · rw [hpc] at ha
      cases ha
    · exact absurd ha (hwait a)

theorem Serve.Accounted.call (h : s.Accounted) {a : ActiveCall} {cin cout : Bytes}
    (hpc : s.pc = .wait a) (hserved : 0 < s.served) (hcall : a.Ledger cin cout)
    {act : CallAct} (hok : a.unhindered s.expired act = true) {m : CallMove}
    (hm : a.next limit s.view act = some m) : (s.moved m).Accounted := by
  have hway := h.receiver a hpc
  have hreturned := next_returned_iff hm
  have hdispatched : ∀ i, s.Dispatched i → (s.moved m).Dispatched i := by
    rintro i ⟨frame, hmem⟩
    refine ⟨frame, ?_⟩
    simp only [Serve.moved]
    split
    · exact mem_append_left _ hmem
    · exact hmem
  -- once the frame was returned, the current request is in the log
  have hlast : m.next.recv = .returned → (s.moved m).Dispatched (s.served - 1) := by
    intro hr
    rcases hreturned.1 hr with hr | ⟨frame, hevent⟩
    · by_contra hno
      obtain ⟨-, hs | ⟨b, hb, hb'⟩⟩ := h.refused (s.served - 1) (by omega)
        fun hd => hno (hdispatched _ hd)
      · rw [hpc] at hs
        cases hs
      · rw [hpc, ServePc.wait.injEq] at hb
        exact hb' (hb ▸ hr)
    · refine ⟨frame, ?_⟩
      simp [Serve.moved, hevent]
  refine ⟨?_, ?_, ?_, ?_⟩
  · intro i hi
    simp only [Serve.moved] at hi
    split at hi
    next hevent =>
      obtain ⟨⟨fault, rfl⟩, hcompletes⟩ := next_completed hm hevent
      rcases mem_append.1 hi with hi | hi
      · exact hdispatched i (h.completed i hi)
      · rw [mem_singleton.1 hi]
        refine hlast (hreturned.2 (.inl ?_))
        by_contra hrecv
        rw [hway.closing (closeEnd_closed hm) hrecv] at hcompletes
        cases hcompletes
    next => exact hdispatched i (h.completed i hi)
  · intro i hi hno
    obtain ⟨hi', -⟩ := h.refused i hi fun hd => hno (hdispatched i hd)
    refine ⟨hi', .inr ⟨m.next, rfl, fun hr => hno ?_⟩⟩
    obtain rfl : i = s.served - 1 := by omega
    exact hlast hr
  · intro b hb hrecv hdone
    obtain rfl : m.next = b := by
      simpa [Serve.moved] using hb
    have hrecv' : a.recv ≠ .returned := fun hr => hrecv (hreturned.2 (.inl hr))
    obtain ⟨-, hbroken, hd | ⟨fault, rfl⟩⟩ := next_keeps hm
    · exact hbroken (h.broken a hpc hrecv' (hd ▸ hdone))
    · have hno := hway.closing (closeEnd_closed hm) hrecv'
      simp only [ActiveCall.next] at hm
      split at hm
      · cases hm
        exact hcall.closeEnd_refused hrecv' hno _ _ _
      · cases hm
  · intro b hb
    obtain rfl : m.next = b := by
      simpa [Serve.moved] using hb
    exact hway.next hcall hok hm

theorem wakeUp_ne_wait (retiring : Bool) (h : Bytes) (err : Option ReadErr)
    (a : ActiveCall) : wakeUp retiring h err ≠ .wait a := by
  unfold wakeUp
  split_ifs <;> (try split) <;> simp

theorem Serve.Accounted.go_wait (h : s.Accounted) {a : ActiveCall} (hpc : s.pc = .wait a)
    (hdone : a.call.done = true) (ok : Bool) : (s.afterCall a.call ok).Accounted := by
  by_cases hrecv : a.recv = .returned
  · have hall : ∀ i < s.served, s.Dispatched i := by
      intro i hi
      by_contra hno
      obtain ⟨-, hs | ⟨b, hb, hb'⟩⟩ := h.refused i hi hno
      · rw [hpc] at hs
        cases hs
      · rw [hpc, ServePc.wait.injEq] at hb
        exact hb' (hb ▸ hrecv)
    rw [Serve.afterCall]
    split_ifs <;>
      exact ⟨h.completed, fun i hi hno => absurd (hall i hi) hno, (fun b hb => by cases hb),
        (fun b hb => by cases hb)⟩
  · rw [Serve.afterCall, if_pos (by simp [h.broken a hpc hrecv hdone])]
    exact h.other rfl rfl (fun _ => id) (.inr (.inl rfl))

theorem Serve.Accounted.deliver (h : s.Accounted) {w : UInt32} (hpc : s.pc = .deliver w) :
    Serve.Accounted { s with pc := .wait (.new w), served := s.served + 1 } where
  completed := h.completed
  refused := fun i hi hno => by
    have hi' : i < s.served + 1 := hi
    rcases Nat.lt_succ_iff_lt_or_eq.1 hi' with hlt | rfl
    · obtain ⟨-, hs | ⟨b, hb, -⟩⟩ := h.refused i hlt hno
      · rw [hpc] at hs
        cases hs
      · rw [hpc] at hb
        cases hb
    · exact ⟨rfl, .inr ⟨_, rfl, by simp [new]⟩⟩
  broken := fun b hb _ hdone => by
    rw [ServePc.wait.injEq] at hb
    rw [← hb] at hdone
    cases hdone
  receiver := fun b hb => by
    rw [ServePc.wait.injEq] at hb
    exact hb ▸ unhindered_new w

theorem Serve.Accounted.go (h : s.Accounted) {ok : Bool} (hgo : s.go ok = some t) :
    t.Accounted := by
  cases hpc : s.pc with
    simp only [Serve.go, hpc, some.injEq, reduceCtorEq] at hgo
  | wait a =>
    split_ifs at hgo with hdone
    cases hgo
    exact h.go_wait hpc hdone ok
  | deliver w =>
    split_ifs at hgo
    · cases hgo
      exact h.deliver hpc
    · cases hgo
      exact h.other rfl rfl (fun _ => id) (.inr (.inl rfl))
  | woke g err =>
    subst hgo
    exact h.other rfl rfl (fun _ => id)
      (.inr (.inr ⟨by simp [hpc], by simp [hpc], wakeUp_ne_wait _ _ _⟩))
  | plain p =>
    have hout : (∀ a, s.pc ≠ .wait a) ∧ s.pc ≠ .ended := by simp [hpc]
    cases p with
    | bind n =>
      simp only [some.injEq] at hgo
      subst hgo
      refine h.other rfl rfl (fun _ => id) (.inr (.inr ⟨hout.1, hout.2, fun a => ?_⟩))
      split_ifs <;> simp
    | ready frame =>
      simp only at hgo
      split_ifs at hgo
      · cases hgo
        refine h.other rfl rfl ?_ (.inr (.inr ⟨hout.1, hout.2, by simp⟩))
        exact fun i hi => hi.imp fun f hf => mem_append_left _ hf
      · cases hgo
        exact h.other rfl rfl (fun _ => id) (.inr (.inl rfl))
    | _ => simp at hgo
  | admission w | bind w | top w | header w =>
    subst hgo
    refine h.other rfl rfl (fun _ => id) (.inr (.inr ⟨by simp [hpc], by simp [hpc], ?_⟩))
    intro a
    (try split_ifs) <;> simp

theorem plainHeader_ne_wait (limit : ℕ) (w : UInt32) (a : ActiveCall) :
    plainHeader limit w ≠ .wait a := by
  rw [plainHeader]
  split_ifs <;> simp

theorem afterRead_ne_wait {pc : ServePc} (h : 0 < pc.wants) (bs : Bytes) :
    (∀ a, pc ≠ .wait a) ∧ pc ≠ .ended ∧ ∀ a, pc.afterRead limit bs ≠ .wait a := by
  refine ⟨?_, ?_, fun a => ?_⟩
  · rintro a rfl
    cases h
  · rintro rfl
    cases h
  · cases pc with
    | wait a => cases h
    | plain p =>
      cases p <;> simp only [ServePc.afterRead] <;> (try split_ifs) <;>
        first | exact plainHeader_ne_wait _ _ _ | simp
    | _ =>
      simp only [ServePc.afterRead]
      (try split_ifs) <;> simp

theorem writes_ne_wait {pc pc' : ServePc} {w : UInt32} (h : pc.writes limit = some (w, pc')) :
    (∀ a, pc ≠ .wait a) ∧ pc ≠ .ended ∧ ∀ a, pc' ≠ .wait a := by
  cases pc with
  | decline w' =>
    cases h
    exact ⟨by simp, by simp, plainHeader_ne_wait limit _⟩
  | accept w' | marker =>
    cases h
    exact ⟨by simp, by simp, by simp⟩
  | plain p =>
    cases p with
    | answer w' =>
      cases h
      refine ⟨by simp, by simp, fun a => ?_⟩
      split_ifs <;> simp
    | _ => cases h
  | _ => cases h

/-- Outside the exchanges no call is handed out, none is completed, and the
goroutine neither enters nor leaves an exchange. -/
theorem step_outside (hgo : ∀ ok, act ≠ .go ok) (hcall : ∀ a, act ≠ .call a)
    (hstep : serveStep limit s act = some t) :
    t.served = s.served ∧ t.completed = s.completed ∧ t.dispatched = s.dispatched ∧
      (t.pc = s.pc ∨ t.pc = .ended ∨
        (∀ a, s.pc ≠ .wait a) ∧ s.pc ≠ .ended ∧ ∀ a, t.pc ≠ .wait a) := by
  cases act with
    simp only [serveStep] at hstep
  | go ok => exact absurd rfl (hgo ok)
  | call a => exact absurd rfl (hcall a)
  | send bs | expire =>
    split_ifs at hstep
    cases hstep
    exact ⟨rfl, rfl, rfl, .inl rfl⟩
  | hangup | lose | retire | shutdown =>
    cases hstep
    exact ⟨rfl, rfl, rfl, .inl rfl⟩
  | read n =>
    split_ifs at hstep with hn
    cases hstep
    exact ⟨rfl, rfl, rfl, .inr (.inr (afterRead_ne_wait (hn.1.trans_le hn.2.1) _))⟩
  | readFail err =>
    obtain ⟨pc, hpc, rfl⟩ := map_eq_some_iff.1 hstep
    refine ⟨rfl, rfl, rfl, .inr ?_⟩
    unfold ServePc.afterReadFail at hpc
    split at hpc <;> cases hpc
    next hs => exact .inr ⟨by simp [hs], by simp [hs], by simp⟩
    all_goals exact .inl rfl
  | write fault =>
    by_cases hlost : s.lost = true → fault ≠ none
    · rw [if_pos hlost] at hstep
      obtain ⟨⟨w, pc⟩, hpc, rfl⟩ := map_eq_some_iff.1 hstep
      obtain ⟨hwait, hended, hnext⟩ := writes_ne_wait hpc
      refine ⟨rfl, rfl, rfl, .inr (.inr ⟨hwait, hended, fun a => ?_⟩)⟩
      simp only
      split_ifs
      · exact hnext a
      · simp
    · rw [if_neg hlost] at hstep
      cases hstep
  | refuse tokens fault | reply frame fault =>
    split at hstep
    next hpc =>
      split_ifs at hstep
      cases hstep
      exact ⟨rfl, rfl, rfl, .inr (.inr ⟨by simp [hpc], by simp [hpc], by simp⟩)⟩
    next => cases hstep
  | finish =>
    split at hstep
    next hpc =>
      cases hstep
      exact ⟨rfl, rfl, rfl, .inr (.inl rfl)⟩
    next => cases hstep

theorem Serve.Accounted.step (h : s.Accounted) (hledger : s.Ledger)
    (hok : unhindered s act = true) (hstep : serveStep limit s act = some t) :
    t.Accounted := by
  by_cases hgo : ∃ ok, act = .go ok
  · obtain ⟨ok, rfl⟩ := hgo
    exact h.go hstep
  by_cases hcall : ∃ a, act = .call a
  · obtain ⟨act, rfl⟩ := hcall
    cases hpc : s.pc with
    | wait a =>
      simp only [serveStep, hpc] at hstep
      obtain ⟨m, hm, rfl⟩ := map_eq_some_iff.1 hstep
      have hplace := hledger.place
      rw [Serve.Place, hpc] at hplace
      obtain ⟨exs, cin, cout, -, -, hserved, hcall⟩ := hplace
      exact h.call hpc (by omega) hcall (by simpa only [unhindered, hpc] using hok) hm
    | _ => simp [serveStep, hpc] at hstep
  obtain ⟨hserved, hcompleted, hdispatched, hpc⟩ :=
    step_outside (fun ok h => hgo ⟨ok, h⟩) (fun a h => hcall ⟨a, h⟩) hstep
  refine h.other hserved hcompleted (fun i hi => ?_) hpc
  rw [Serve.Dispatched, hdispatched]
  exact hi

/-- In every run whose receivers are unhindered a one-way request is completed only if its frame was
returned, and one whose frame was not is the last of its connection. -/
theorem completion_of_dispatch (maxFrame : UInt32) (acts : List ServeAct) (s : Serve)
    (hok : along (serveStep (frameLimit maxFrame)) (fun s act => unhindered s act = true)
      (Serve.start true) acts)
    (hrun : run (serveStep (frameLimit maxFrame)) (Serve.start true) acts = some s) :
    (∀ i ∈ s.completed, s.Dispatched i) ∧
      ∀ i < s.served, ¬ s.Dispatched i → i ∉ s.completed ∧ i + 1 = s.served ∧
        (s.pc = .ended ∨ ∃ a, s.pc = .wait a ∧ a.recv ≠ .returned) := by
  have hinv : s.Ledger ∧ s.Accounted := by
    refine run_invariant (I := fun s => s.Ledger ∧ s.Accounted) ?_
      ⟨ledger_start true, accounted_start true⟩ hok hrun
    rintro u act w ⟨hledger, hacc⟩ hact hstep
    exact ⟨hledger.step (frameLimit_lt maxFrame) hstep, hacc.step hledger hact hstep⟩
  refine ⟨hinv.2.completed, fun i hi hno => ?_⟩
  exact ⟨fun hmem => hno (hinv.2.completed i hmem), hinv.2.refused i hi hno⟩

def emptyOneWay (bound : Bool) : List ServeAct :=
  [.send [192, 0, 0, 0], .read 1, .read 3, .go true, .write none, .go bound, .go true,
    .go true, .call (.receive false)]

/-- It is handled and completed. -/
theorem completion_of_dispatch_sample :
    ∃ s, run (serveStep (frameLimit 0)) (Serve.start true) (emptyOneWay true ++
        [.call (.bind .ok), .call .readBegin, .call .validate, .call .checkCtx,
          .call .finish, .call (.closeEnd none)]) = some s ∧
      s.completed = [0] ∧ (∀ i ∈ s.completed, s.Dispatched i) ∧
      ∀ i < s.served, ¬ s.Dispatched i → i ∉ s.completed ∧ i + 1 = s.served ∧
        (s.pc = .ended ∨ ∃ a, s.pc = .wait a ∧ a.recv ≠ .returned) := by
  refine ⟨_, rfl, rfl, ?_⟩
  exact completion_of_dispatch 0 (emptyOneWay true ++
    [.call (.bind .ok), .call .readBegin, .call .validate, .call .checkCtx,
      .call .finish, .call (.closeEnd none)]) _ (by decide) rfl

/-- The connection could not be bound, so `ReceiveFramed` refuses the request; it is
completed all the same, and the session waits for the next one. -/
theorem completion_without_dispatch :
    ∃ s, run (serveStep (frameLimit 0)) (Serve.start true) (emptyOneWay false ++
        [.call (.bind .failed), .call .fail, .call (.closeEnd none), .go true]) = some s ∧
      s.out = [128, 0, 0, 0, 128, 0, 0, 0] ∧ s.pc = .rest [] ∧
      ¬ ((∀ i ∈ s.completed, s.Dispatched i) ∧
        ∀ i < s.served, ¬ s.Dispatched i → i ∉ s.completed ∧ i + 1 = s.served ∧
          (s.pc = .ended ∨ ∃ a, s.pc = .wait a ∧ a.recv ≠ .returned)) := by
  refine ⟨_, rfl, by decide, rfl, fun h => ?_⟩
  obtain ⟨frame, hmem⟩ := h.1 0 (by decide)
  cases hmem

end Listen
