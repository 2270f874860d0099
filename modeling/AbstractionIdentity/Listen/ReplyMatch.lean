import AbstractionIdentity.Listen.AtMostOnce
import AbstractionIdentity.Listen.ServeAnswered

/-!
# A reply belongs to its call

The calls of a client share connections, and a reply carries no name. `Conn.Told` says what a call
has been told: while it reads a reply in a session, what was read are whole answers, one for every
earlier call, and the reply so far (`Conn.Reading`). With the account of the server
(`Serve.Answered`) the frame of the call was dispatched under this number (`reply_of_dispatch`).
-/

namespace Listen

open Text Stream Transition List Option

def ClientPc.single : ClientPc → Bool
  | .write .single _ | .write .plain _ => true
  | .read .head _ _ | .read .body _ _ | .read .eof _ _ | .read .eofRest _ _ => true
  | _ => false

/-- There is no session: it was not asked for, or the server declined it. -/
def Conn.Single (x : Conn) : Prop :=
  (∃ u, x.uses.getLast? = some u ∧ isSession u.2.head = false) ∨
    word sessionDecline <+: x.serve.out ∨ word sessionUnsupported <+: x.serve.out

/-- `got` was read of a reply of `need` bytes. -/
def Conn.Reading (x : Conn) (need : ℕ) (got : Bytes) : Prop :=
  ∃ (ts : List Answer) (w : UInt32), ts.length + 1 = x.uses.length ∧ isOneWay w = false ∧
    lengthOf w = need ∧ x.serve.out.take x.seen = flat (acceptAnswer :: ts) ++ (word w ++ got)

def Conn.Replied (x : Conn) (frame : Bytes) : Prop :=
  ∃ (ts : List Answer) (a : Answer), ts.length + 1 = x.uses.length ∧ isOneWay a.head = false ∧
    a.body = frame ∧ flat (acceptAnswer :: (ts ++ [a])) <+: x.serve.out

structure Conn.Told (x : Conn) (c : ClientCall) : Prop where
  single : c.pc.single = true → x.Single
  reading : ∀ keep need got, c.pc = .read (.reply keep) need got → x.Reading need got
  replied : ∀ keep frame, c.pc = .finish keep (.ret (.reply frame)) → c.req.oneWay = false →
    x.Single ∨ x.Replied frame

def ClientPc.quiet : ClientPc → Bool
  | .read (.reply _) _ _ => false
  | .finish _ (.ret (.reply _)) => false
  | pc => !pc.single

section Call

variable {x : Conn} {k : ℕ} {c : ClientCall} {o : Origin} {prev : List (ℕ × Request)}
  {base sent seen : Bytes}

theorem told_of_quiet (h : c.pc.quiet = true) : x.Told c where
  single := fun hs => by
    rw [ClientPc.quiet.eq_def] at h
    split at h <;> simp_all
  reading := fun keep need got hpc => by
    rw [hpc] at h
    cases h
  replied := fun keep frame hpc => by
    rw [hpc] at h
    cases h

theorem told_returns {keep : Bool} {frame : Bytes}
    (h : c.req.oneWay = false → x.Single ∨ x.Replied frame) :
    x.Told { c with pc := .finish keep (.ret (.reply frame)) } where
  single := fun hs => by cases hs
  reading := fun _ _ _ hpc => by cases hpc
  replied := fun _ _ hpc hway => by
    cases hpc
    exact h hway

theorem told_reads {keep : Bool} {need : ℕ} {got : Bytes} (h : x.Reading need got) :
    x.Told { c with pc := .read (.reply keep) need got } where
  single := fun hs => by cases hs
  reading := fun _ _ _ hpc => by
    cases hpc
    exact h
  replied := fun _ _ hpc => by cases hpc

theorem Conn.Reading.replied {need : ℕ} {got : Bytes} (h : x.Reading need got)
    (hgot : got.length = need) : x.Replied got := by
  obtain ⟨ts, w, hlen, hway, hneed, hread⟩ := h
  refine ⟨ts, ⟨w, got, ?_⟩, hlen, hway, rfl, ?_⟩
  · rw [answerSize_of_not_isOneWay hway, hneed, hgot]
  · have hflat : flat (acceptAnswer :: (ts ++ [⟨w, got, by
        rw [answerSize_of_not_isOneWay hway, hneed, hgot]⟩])) = x.serve.out.take x.seen := by
      rw [hread]
      simp [Frame.bytes]
    rw [hflat]
    exact take_prefix _ _

theorem Conn.Use.before (h : x.Use k c o prev base sent seen) (ho : o ≠ .plain) :
    ∃ ts : List Answer, ts.length + 1 = x.uses.length ∧
      base ++ o.intro = flat (acceptAnswer :: ts) := by
  rw [h.uses]
  cases o with
  | plain => exact absurd rfl ho
  | fresh =>
    obtain ⟨rfl, rfl⟩ := h.found
    exact ⟨[], rfl, by simp [Origin.intro, Frame.bytes, acceptAnswer]⟩
  | pooled =>
    obtain ⟨ts, hts, rfl⟩ := h.found
    exact ⟨ts, by simp [hts], by simp [Origin.intro]⟩

variable {x' : Conn} {n need : ℕ} {got : Bytes}

structure Conn.Further (x x' : Conn) (n : ℕ) : Prop where
  uses : x'.uses = x.uses
  out : x'.serve.out = x.serve.out
  seen : x'.seen = x.seen + n

theorem Conn.Further.take (hx : x.Further x' n) :
    x'.serve.out.take x'.seen = x.serve.out.take x.seen ++ x.view.inn.take n := by
  rw [hx.out, hx.seen, take_add]
  rfl

theorem Conn.Single.further (hx : x.Further x' n) (h : x.Single) : x'.Single := by
  rw [Conn.Single, hx.uses, hx.out]
  exact h

theorem Conn.Reading.further (hx : x.Further x' n) (h : x.Reading need got) :
    x'.Reading need (got ++ x.view.inn.take n) := by
  obtain ⟨ts, w, hlen, hway, hneed, hread⟩ := h
  refine ⟨ts, w, hx.uses ▸ hlen, hway, hneed, ?_⟩
  rw [hx.take, hread]
  simp

theorem told_ack (h : x.Use k c o prev base sent seen) (hx : x.Further x' n)
    (hpc : c.pc = .read .ack need got) (hn : n ≤ need - got.length)
    (hwhole : need ≤ (got ++ x.view.inn.take n).length) :
    x'.Told { c with pc := c.req.received .ack (got ++ x.view.inn.take n) } := by
  have hreads := h.ledger.reads
  rw [hpc] at hreads
  obtain ⟨rfl, rfl, hgot, rfl⟩ := hreads
  obtain ⟨rfl, rfl⟩ := h.found
  have hlen : (seen ++ x.view.inn.take n).length = 4 := by
    rw [length_append, length_take] at hwhole ⊢
    omega
  have hout : word (unword (seen ++ x.view.inn.take n)) <+: x'.serve.out := by
    have htake := hx.take
    rw [h.read, nil_append] at htake
    rw [word_unword hlen, ← htake]
    exact take_prefix _ _
  generalize seen ++ x.view.inn.take n = bs at hout
  have hsingle : ∀ todo, x'.Single →
      x'.Told { c with pc := .write .single todo } ∧ x'.Told { c with pc := .read .eof 1 [] } ∧
        x'.Told { c with pc := .read .head 4 [] } := by
    intro todo hs
    refine ⟨⟨fun _ => hs, ?_, ?_⟩, ⟨fun _ => hs, ?_, ?_⟩, ⟨fun _ => hs, ?_, ?_⟩⟩ <;> simp
  simp only [Req.received]
  split_ifs with hrefused hclosing hdeclined haccept
  · exact told_of_quiet rfl
  · exact told_of_quiet rfl
  · have hs : x'.Single := by
      refine .inr (hdeclined.imp (fun hw => ?_) fun hw => ?_)
      · rw [← hw]
        exact hout
      · rw [← hw]
        exact hout
    rw [Req.startWrite]
    split
    · rw [Req.afterWrite]
      split_ifs
      · exact (hsingle [] hs).2.1
      · exact (hsingle [] hs).2.2
    · exact (hsingle _ hs).1
  · exact told_of_quiet rfl
  · rw [Req.startWrite]
    split <;> exact told_of_quiet rfl

theorem told_answer (h : x.Use k c o prev base sent seen) (hx : x.Further x' n)
    (hpc : c.pc = .read .answer need got) (hn : n ≤ need - got.length)
    (hwhole : need ≤ (got ++ x.view.inn.take n).length) :
    x'.Told { c with pc := c.req.received .answer (got ++ x.view.inn.take n) } := by
  have hreads := h.ledger.reads
  rw [hpc] at hreads
  obtain ⟨ho, rfl, hgot, rfl⟩ := hreads
  have hlen : (got ++ x.view.inn.take n).length = 4 := by
    rw [length_append, length_take] at hwhole ⊢
    omega
  obtain ⟨ts, hts, hbase⟩ := h.before ho
  have hreading : ∀ w, w = unword (got ++ x.view.inn.take n) → isOneWay w = false →
      x'.Reading (lengthOf w) [] := by
    rintro w rfl hway
    refine ⟨ts, _, hx.uses ▸ hts, hway, rfl, ?_⟩
    rw [hx.take, h.read, word_unword hlen, ← hbase]
    simp
  generalize got ++ x.view.inn.take n = bs at hreading
  simp only [Req.received]
  split_ifs with hclosing hrefused hway hone hzero hlarge
  · exact told_of_quiet rfl
  · exact told_of_quiet rfl
  · exact told_of_quiet rfl
  · exact told_of_quiet rfl
  · refine told_returns fun hno => ?_
    rw [hone] at hno
    cases hno
  · exact told_of_quiet rfl
  · have hr := hreading _ rfl (by simpa using hway)
    rw [readBody]
    split_ifs with hzero
    · exact told_returns fun _ => .inr (hr.replied hzero.symm)
    · exact told_reads hr

theorem told_of_single {pc : ClientPc} (hs : x.Single)
    (hpc : ∀ keep need got, pc ≠ .read (.reply keep) need got) : x.Told { c with pc := pc } :=
  ⟨fun _ => hs, fun keep need got h => absurd h (hpc keep need got), fun _ _ _ _ => .inl hs⟩

theorem told_received_single (hs : x.Single) {j : ReadKind} (bs : Bytes)
    (hj : (ClientPc.read j 0 []).single = true) :
    x.Told { c with pc := c.req.received j bs } := by
  refine told_of_single hs fun keep need got => ?_
  cases j with
    simp only [ClientPc.single, Bool.false_eq_true] at hj
  | head | body | eof | eofRest =>
    simp only [Req.received, readBody]
    (try split_ifs) <;> simp [ClientPc.fail]

theorem quiet_writeFailed (live : Bool) (j : WriteKind) (e : ClientErr) :
    (writeFailed live j e).quiet = true := by
  rw [writeFailed]
  (repeat' split) <;> rfl

theorem told_readFailed (ht : x.Told c) (hx : x.Further x' n) {j : ReadKind}
    (hpc : c.pc = .read j need got) (bs : Bytes) (e : ClientErr) :
    x'.Told { c with pc := readFailed c.live j bs e } := by
  by_cases heof : j = .eof
  · subst heof
    have hs : x'.Single := (ht.single (by rw [hpc]; rfl)).further hx
    refine told_of_single hs fun keep need got => ?_
    simp only [readFailed]
    split_ifs <;> simp [ClientPc.fail]
  · apply told_of_quiet
    cases j with
      simp only [readFailed]
    | ack => split_ifs <;> rfl
    | eof => exact absurd rfl heof
    | _ => rfl

theorem told_received (ht : x.Told c) (h : x.Use k c o prev base sent seen)
    (hx : x.Further x' n) {j : ReadKind} (hpc : c.pc = .read j need got)
    (hn : n ≤ need - got.length) (hwhole : need ≤ (got ++ x.view.inn.take n).length) :
    x'.Told { c with pc := c.req.received j (got ++ x.view.inn.take n) } := by
  cases j with
  | ack => exact told_ack h hx hpc hn hwhole
  | answer => exact told_answer h hx hpc hn hwhole
  | reply keep =>
    have hreads := h.ledger.reads
    rw [hpc] at hreads
    obtain ⟨-, hgot, -⟩ := hreads
    refine told_returns fun _ => .inr (((ht.reading keep need got hpc).further hx).replied ?_)
    rw [length_append, length_take] at hwhole ⊢
    omega
  | head | body | eof | eofRest =>
    exact told_received_single ((ht.single (by rw [hpc]; rfl)).further hx) _ rfl
  | tokens => exact told_of_quiet rfl
  | lookup opening err =>
    apply told_of_quiet
    simp only [Req.received]
    split_ifs <;> rfl
  | lookupTokens err =>
    apply told_of_quiet
    simp only [Req.received]
    split <;> rfl

theorem told_startWrite {fresh : Bool} :
    x.Told { c with pc := c.req.startWrite (if fresh then .opening else .pooled) } := by
  apply told_of_quiet
  cases fresh with
  | true => rfl
  | false =>
    simp only [Req.startWrite, Req.parts, headed, Bool.false_eq_true, ↓reduceIte]
    split_ifs <;> rfl

theorem Conn.Told.next (ht : x.Told c) (h : x.Use k c o prev base sent seen) {act : ClientAct}
    {m : ClientMove} (hm : c.next x.view act = some m) (hact : ∀ kept, act ≠ .finish kept)
    (hx : x.Further x' m.read) : x'.Told m.next := by
  have hreads := h.ledger.reads
  cases moves_of_next hm with
  | cancel =>
    refine ⟨fun hs => (ht.single hs).further hx, fun keep need got hpc => ?_,
      fun keep frame hpc hway => ?_⟩
    · simpa [ClientMove.silent] using (ht.reading keep need got hpc).further hx
    · refine (ht.replied keep frame hpc hway).imp (fun hs => hs.further hx) ?_
      rintro ⟨ts, a, hlen, hone, hbody, hout⟩
      exact ⟨ts, a, hx.uses ▸ hlen, hone, hbody, hx.out ▸ hout⟩
  | start _ hpc | take _ hpc | dial hpc | dialFails _ hpc | mark hpc | connect hpc
  | connectFails _ hpc | ret _ _ hpc =>
    rw [hpc] at hreads
    cases hreads
  | use fresh hpc => exact told_startWrite
  | useFails fresh e hpc he => exact told_of_quiet rfl
  | write j p todo hpc =>
    cases j with
    | single | plain =>
      refine told_of_single ((ht.single (by rw [hpc]; rfl)).further hx) fun keep need got => ?_
      simp only [Req.afterWrite]
      split_ifs <;> simp
    | _ =>
      apply told_of_quiet
      simp only [Req.afterWrite]
      split_ifs <;> rfl
  | writeFails j p todo n e hpc he => exact told_of_quiet (quiet_writeFailed _ _ _)
  | writeCheck j todo e hpc he => exact told_of_quiet (quiet_writeFailed _ _ _)
  | read j need n got err hpc hn hinn hpos hwhole => exact told_received ht h hx hpc hn hwhole
  | readMore j need n got hpc hn hinn hpos hpart =>
    refine ⟨fun hs => ?_, fun keep need' got' hpc' => ?_, fun _ _ hpc' => by cases hpc'⟩
    · refine (ht.single ?_).further hx
      rw [hpc]
      cases j <;> exact hs
    · cases hpc'
      exact (ht.reading keep need got hpc).further hx
  | readFails j need n got e hpc hn hinn he hpart => exact told_readFailed ht hx hpc _ e
  | readCheck j need n got e hpc hn hinn he => exact told_readFailed ht hx hpc _ e
  | finish kept keep next hpc hkept => exact absurd rfl (hact kept)

theorem Conn.Told.passes (ht : x.Told c) (hseen : x.seen ≤ x.serve.out.length) {u : Serve}
    (hout : x.serve.out <+: u.out) : Conn.Told { x with serve := u } c := by
  have hsingle : x.Single → Conn.Single { x with serve := u } :=
    .imp_right (.imp (fun h => h.trans hout) fun h => h.trans hout)
  refine ⟨fun hs => hsingle (ht.single hs), fun keep need got hpc => ?_, fun keep frame hpc hway =>
    (ht.replied keep frame hpc hway).imp hsingle ?_⟩
  · obtain ⟨ts, w, hlen, hone, hneed, hread⟩ := ht.reading keep need got hpc
    refine ⟨ts, w, hlen, hone, hneed, ?_⟩
    obtain ⟨r, hr⟩ := hout
    rw [← hread]
    dsimp only
    rw [← hr, take_append_of_le_length hseen]
  · rintro ⟨ts, a, hlen, hone, hbody, hread⟩
    exact ⟨ts, a, hlen, hone, hbody, hread.trans hout⟩

end Call

/-! ## The system -/

def System.Told (s : System) : Prop :=
  ∀ (k c : ℕ) (y : CallSlot) (x : Conn), s.calls[k]? = some y → y.conn = some c →
    s.conns[c]? = some x → x.Told y.call

def System.Answered (s : System) : Prop :=
  ∀ (c : ℕ) (x : Conn), s.conns[c]? = some x → x.serve.Answered

section System

variable {s t : System} {k c k' c' : ℕ} {y : CallSlot} {x x' : Conn}

theorem System.Told.others (ht : s.Told) (h : s.Ledger)
    (hconns : ∀ (c' : ℕ) (z : Conn), c' ≠ c → t.conns[c']? = some z → s.conns[c']? = some z)
    (hfree : ∀ z : Conn, s.conns[c]? = some z → z.holder ≠ .call k')
    (hy : s.calls[k']? = some y) (hc : y.conn = some c') (hx : t.conns[c']? = some x) :
    x.Told y.call := by
  refine ht k' c' y x hy hc (hconns c' x ?_ hx)
  rintro rfl
  have hhas := h.calls k' y hy
  rw [System.Has, hc] at hhas
  obtain ⟨z, hz, hholder, -⟩ := hhas
  exact hfree z hz hholder

theorem System.Told.attaches (ht : s.Told) (h : s.Ledger) {next : ClientCall}
    (hcalls : t.calls = s.calls.set k ⟨next, some c⟩)
    (hconns : ∀ (c' : ℕ) (z : Conn), t.conns[c']? = some z →
      c' = c ∧ z = x ∨ c' ≠ c ∧ s.conns[c']? = some z)
    (hfree : ∀ (z : Conn) (k' : ℕ), s.conns[c]? = some z → z.holder ≠ .call k')
    (hx : x.Told next) : t.Told := by
  intro k' c' y z hy hc hz
  rw [hcalls] at hy
  rcases lookup_set hy with ⟨rfl, rfl⟩ | ⟨-, hy⟩
  · cases hc
    rcases hconns c z hz with ⟨-, rfl⟩ | ⟨hne, -⟩
    · exact hx
    · exact absurd rfl hne
  · refine ht.others h (fun c' z hne hz => ?_) (fun z hz => hfree z k' hz) hy hc hz
    exact ((hconns c' z hz).resolve_left fun heq => hne heq.1).2

theorem told_attach_plain {v : PeerView} {m : ClientMove}
    (hm : y.call.next v (.connect none) = some m) : (x.attach k y .plain).Told m.next := by
  cases moves_of_next hm with
  | connect hpc =>
    refine told_of_single (.inl ⟨_, List.getLast?_concat, ?_⟩) fun keep need got => ?_
    · exact isSession_mkHeader y.call.req.length_lt
    · simp only [Req.startWrite, Req.parts, headed]
      split_ifs <;> simp

theorem System.Told.move (ht : s.Told) (h : s.Ledger) (hy : s.calls[k]? = some y)
    {act : ClientAct} (hstep : s.move k y act = some t) : t.Told := by
  rw [System.move] at hstep
  split at hstep
  next hnone =>
    obtain ⟨m, hm, rfl⟩ := map_eq_some_iff.1 hstep
    intro k' c' z x hz hc hx
    rcases lookup_set hz with ⟨rfl, rfl⟩ | ⟨-, hz⟩
    · cases hc
    · exact ht k' c' z x hz hc hx
  next c hc =>
    obtain ⟨x, hx, hstep⟩ := bind_eq_some_iff.1 hstep
    obtain ⟨m, hm, rfl⟩ := map_eq_some_iff.1 hstep
    intro k' c' z x' hz hc' hx'
    rcases lookup_set hz with ⟨rfl, rfl⟩ | ⟨hk, hz⟩
    · cases act with
      | finish kept => cases hc'
      | _ =>
        cases hc'
        rcases lookup_set hx' with ⟨-, rfl⟩ | ⟨hne, -⟩
        · obtain ⟨-, o, prev, base, sent, seen, huse⟩ := h.held hy hc hx
          exact (ht k' c y x hy hc hx).next huse hm (by simp) ⟨rfl, deliver_out _ _, rfl⟩
        · exact absurd rfl hne
    · refine ht.others h (c := c) (fun c' z hne hz => ?_) (fun z hz hholder => ?_) hz hc' hx'
      · exact ((lookup_set hz).resolve_left fun heq => hne heq.1).2
      · exact hk (h.held_alone hy hc hx hz hholder)

theorem System.Told.step (ht : s.Told) (h : s.Ledger) {act : SystemAct}
    (hstep : systemStep s act = some t) : t.Told := by
  cases act with
  | call q =>
    cases hstep
    intro k c y x hy hc hx
    rcases lookup_concat_iff.1 hy with ⟨-, rfl⟩ | ⟨-, hy⟩
    · cases hc
    · exact ht k c y x hy hc hx
  | take k c =>
    obtain ⟨y, hy, hstep⟩ := bind_eq_some_iff.1 hstep
    obtain ⟨x, hx, hstep⟩ := bind_eq_some_iff.1 hstep
    split_ifs at hstep with hpool
    obtain ⟨m, hm, rfl⟩ := map_eq_some_iff.1 hstep
    refine ht.attaches h rfl (fun c' z hz => lookup_set hz) (fun z k' hz hk' => ?_) ?_
    · rw [hx, some.injEq] at hz
      rw [← hz, hpool] at hk'
      cases hk'
    · cases moves_of_next hm with
      | take _ hpc => exact told_of_quiet rfl
  | dial k sessions maxFrame | connect k sessions maxFrame =>
    obtain ⟨y, hy, hstep⟩ := bind_eq_some_iff.1 hstep
    obtain ⟨m, hm, rfl⟩ := map_eq_some_iff.1 hstep
    refine ht.attaches h rfl (fun c' z hz => lookup_concat_iff.1 hz) (fun z k' hz => ?_) ?_
    · exact absurd (List.getElem?_eq_some_iff.1 hz).1 (lt_irrefl _)
    · first
        | exact told_attach_plain hm
        | cases moves_of_next hm with
          | dial hpc => exact told_of_quiet rfl
  | move k act =>
    obtain ⟨y, hy, hstep⟩ := bind_eq_some_iff.1 hstep
    split_ifs at hstep with hact
    exact ht.move h hy hstep
  | serve c act =>
    obtain ⟨x, hx, hstep⟩ := bind_eq_some_iff.1 hstep
    split_ifs at hstep with hserver
    obtain ⟨u, hu, rfl⟩ := map_eq_some_iff.1 hstep
    intro k c' y z hy hc hz
    rcases lookup_set hz with ⟨rfl, rfl⟩ | ⟨-, hz⟩
    · refine (ht k c' y x hy hc hx).passes (h.conns c' x hx).seen ?_
      rcases step_io hu with ⟨bs, rfl, -⟩ | ⟨n, r, hpass⟩
      · cases hserver
      · exact ⟨r, hpass.out.symm⟩
    · exact ht k c' y z hy hc hz
  | evict c =>
    obtain ⟨x, hx, hstep⟩ := bind_eq_some_iff.1 hstep
    split_ifs at hstep with hpool
    cases hstep
    intro k c' y z hy hc hz
    refine ht.others h (c := c) (fun c' z hne hz => ?_) (fun z hz hholder => ?_) hy hc hz
    · exact ((lookup_set hz).resolve_left fun heq => hne heq.1).2
    · rw [hx, some.injEq] at hz
      rw [← hz, hpool] at hholder
      cases hholder

theorem System.Answered.set (ha : s.Answered) (hx : x'.serve.Answered) {c' : ℕ} {z : Conn}
    (hz : (s.conns.set c x')[c']? = some z) : z.serve.Answered := by
  rcases lookup_set hz with ⟨-, rfl⟩ | ⟨-, hz⟩
  · exact hx
  · exact ha c' z hz

theorem answered_after (ha : x.serve.Answered) (hx : x.Ledger) (m : ClientMove) (act : ClientAct) :
    (x.after m act).serve.Answered := by
  have hclose : x.close.serve.Answered := ha.step (frameLimit_lt x.maxFrame) hx.serve (close_step x)
  cases act with
  | finish kept => cases kept <;> assumption
  | _ =>
    change (x.serve.deliver m.sent).Answered
    rcases deliver_eq (frameLimit x.maxFrame) x.serve m.sent with ⟨hsame, -⟩ | hstep
    · rw [hsame]
      exact ha
    · exact ha.step (frameLimit_lt x.maxFrame) hx.serve hstep

theorem System.Answered.step (ha : s.Answered) (h : s.Ledger) {act : SystemAct}
    (hstep : systemStep s act = some t) : t.Answered := by
  cases act with
  | call q =>
    cases hstep
    exact ha
  | take k c =>
    obtain ⟨y, hy, hstep⟩ := bind_eq_some_iff.1 hstep
    obtain ⟨x, hx, hstep⟩ := bind_eq_some_iff.1 hstep
    split_ifs at hstep
    obtain ⟨m, hm, rfl⟩ := map_eq_some_iff.1 hstep
    exact fun c' z hz => @System.Answered.set _ _ (x.attach k y .pooled) ha (ha c x hx) c' z hz
  | dial k sessions maxFrame | connect k sessions maxFrame =>
    obtain ⟨y, hy, hstep⟩ := bind_eq_some_iff.1 hstep
    obtain ⟨m, hm, rfl⟩ := map_eq_some_iff.1 hstep
    intro c' z hz
    rcases lookup_concat_iff.1 hz with ⟨-, rfl⟩ | ⟨-, hz⟩
    · exact answered_start sessions
    · exact ha c' z hz
  | move k act =>
    obtain ⟨y, hy, hstep⟩ := bind_eq_some_iff.1 hstep
    split_ifs at hstep
    rw [System.move] at hstep
    split at hstep
    next =>
      obtain ⟨m, hm, rfl⟩ := map_eq_some_iff.1 hstep
      exact ha
    next c hc =>
      obtain ⟨x, hx, hstep⟩ := bind_eq_some_iff.1 hstep
      obtain ⟨m, hm, rfl⟩ := map_eq_some_iff.1 hstep
      exact fun c' z hz => ha.set (answered_after (ha c x hx) (h.conns c x hx) m act) hz
  | serve c act =>
    obtain ⟨x, hx, hstep⟩ := bind_eq_some_iff.1 hstep
    split_ifs at hstep
    obtain ⟨u, hu, rfl⟩ := map_eq_some_iff.1 hstep
    have hu := (ha c x hx).step (frameLimit_lt x.maxFrame) (h.conns c x hx).serve hu
    exact fun c' z hz => @System.Answered.set _ _ { x with serve := u } ha hu c' z hz
  | evict c =>
    obtain ⟨x, hx, hstep⟩ := bind_eq_some_iff.1 hstep
    split_ifs at hstep
    cases hstep
    exact fun c' z hz => ha.set
      ((ha c x hx).step (frameLimit_lt x.maxFrame) (h.conns c x hx).serve (close_step x)) hz

theorem Conn.Ledger.oneWay_of_at (hx : x.Ledger) {i : ℕ} (h : OneWayAt x.serve.taken i)
    {u : ℕ × Request} (hu : x.uses[i]? = some u) : isOneWay u.2.head = true := by
  obtain ⟨rs, r, rfl, hread, hway⟩ := h
  have hsent : flat (rs ++ [r]) <+: flat (x.uses.map Prod.snd) ++ [] := by
    rw [append_nil]
    exact ((hread.trans (prefix_append _ _)).trans hx.arrived).trans hx.part
  obtain ⟨rest, hrest⟩ := frames_of_flat incomplete_nil hsent
  have hget : (x.uses.map Prod.snd)[rs.length]? = some r := by
    rw [← hrest]
    simp
  rw [List.getElem?_map, hu, map_some, some.injEq] at hget
  rw [hget]
  exact hway

theorem isOneWay_request (q : Req) (hway : q.oneWay = false) (o : Origin) :
    isOneWay (q.request o).head = false := by
  cases o with
  | plain => exact isOneWay_mkHeader q.length_lt
  | fresh | pooled => exact (isOneWay_mkHeader q.length_lt).trans hway

end System

/-- A call that is about to return a reply it got in a session returns the answer to its own
request: its frame was dispatched on the connection, and the reply is the answer that the server
has written with the number of this request. -/
theorem reply_of_dispatch (acts : List SystemAct) (s : System)
    (hok : along systemStep (fun s act => resendSafe s act = true) System.start acts)
    (hrun : run systemStep System.start acts = some s) (k c : ℕ) (y : CallSlot) (x : Conn)
    (hy : s.calls[k]? = some y) (hc : y.conn = some c) (hx : s.conns[c]? = some x) (keep : Bool)
    (frame : Bytes) (hpc : y.call.pc = .finish keep (.ret (.reply frame)))
    (hway : y.call.req.oneWay = false) :
    x.Single ∨ ∃ (ts : List Answer) (a : Answer) (r : Request),
      x.uses[ts.length]? = some (k, r) ∧ (ts.length, y.call.req.frame) ∈ x.serve.dispatched ∧
        flat (acceptAnswer :: (ts ++ [a])) <+: x.serve.out ∧ a.body = frame := by
  have hstart : System.start.Ledger ∧ System.start.Told ∧ System.start.Answered :=
    ⟨system_ledger_start, fun _ _ _ _ hy => (by cases hy), fun _ _ hx => (by cases hx)⟩
  obtain ⟨hledger, htold, hanswered⟩ : s.Ledger ∧ s.Told ∧ s.Answered := by
    refine run_invariant (I := fun s => s.Ledger ∧ s.Told ∧ s.Answered) ?_ hstart hok hrun
    rintro u act w ⟨hl, ht, ha⟩ hact hstep
    exact ⟨hl.step hact hstep, ht.step hl hstep, ha.step hl hstep⟩
  refine ((htold k c y x hy hc hx).replied keep frame hpc hway).imp_right ?_
  rintro ⟨ts, a, hlen, hone, hbody, hout⟩
  obtain ⟨-, o, prev, base, sent, seen, huse⟩ := hledger.held hy hc hx
  have hi : ts.length = prev.length := by
    rw [huse.uses, length_append, length_singleton] at hlen
    omega
  have hget : x.uses[ts.length]? = some (k, y.call.req.request o) := by
    rw [huse.uses, hi]
    simp
  refine ⟨ts, a, _, hget, ?_, hout, hbody⟩
  rcases (hanswered c x hx).answered ts a hout hone with ⟨fr, hmem⟩ | hat
  · obtain ⟨k', r, hr, rfl⟩ := hledger.owned hx hmem
    rw [hget, some.injEq, Prod.mk.injEq] at hr
    obtain ⟨-, rfl⟩ := hr
    rw [Req.body_request] at hmem
    exact hmem
  · have hno := (hledger.conns c x hx).oneWay_of_at hat hget
    rw [isOneWay_request _ hway] at hno
    cases hno

def servedReply : List SystemAct :=
  servedOpening ++ [.serve 0 (.call (.reply [7])), .serve 0 (.call (.replyWrite none)),
    .move 0 (.read 4 none), .move 0 (.read 4 none), .move 0 (.read 1 none)]

theorem reply_of_dispatch_sample :
    ∃ s y x, run systemStep System.start servedReply = some s ∧ s.calls[0]? = some y ∧
      s.conns[0]? = some x ∧ y.call.pc = .finish true (.ret (.reply [7])) ∧
      (x.Single ∨ ∃ (ts : List Answer) (a : Answer) (r : Request),
        x.uses[ts.length]? = some (0, r) ∧ (ts.length, y.call.req.frame) ∈ x.serve.dispatched ∧
          flat (acceptAnswer :: (ts ++ [a])) <+: x.serve.out ∧ a.body = [7]) := by
  refine ⟨_, _, _, rfl, rfl, rfl, rfl, ?_⟩
  exact reply_of_dispatch servedReply _ (by decide) rfl 0 0 _ _ rfl rfl rfl true [7] rfl rfl

end Listen
