import AbstractionIdentity.Listen.Receive

/-!
# What a step of `ReceiveFramed` can do

Most steps neither take the lock nor touch what the callback may touch (`Receive.Quiet`);
`ReceiveMoved` lists the others. `ReceivePc.rank` bounds the steps still to be made.
-/

namespace Listen

open Text Stream Transition List Option

def ReceivePc.quiet : ReceivePc → Bool
  | .start | .receive | .admission _ | .keep _ | .lifetime _ | .deadline | .header _
  | .answer _ | .bind _ | .body _ _ | .reading _ _ _ | .valid _ | .finish _ => true
  | _ => false

def ReceivePc.reads : ReceivePc → ℕ
  | .reading _ _ _ => 1
  | _ => 0

def ClosePc.rank : ClosePc → ℕ
  | .lock => 4
  | .conn => 3
  | .drain => 2
  | .binding => 1
  | .done => 0

def ReceivePc.rank (limit : ℕ) : ReceivePc → ℕ
  | .start => 2 * limit + 24
  | .deadline => 2 * limit + 23
  | .header got => 2 * limit + 18 + (4 - got.length)
  | .answer _ => 2 * limit + 17
  | .bind n => 2 * n + 16
  | .binding n => 2 * n + 15
  | .checking n => 2 * n + 14
  | .body n frame => 2 * (n - frame.length) + 13
  | .reading n frame _ => 2 * (n - frame.length) + 12
  | .valid _ => 11
  | .finish _ => 10
  | .receive => 12
  | .admission _ => 11
  | .keep _ => 10
  | .lifetime _ => 9
  | .fail _ => 8
  | .refuse _ => 7
  | .closing c _ => c.rank + 2
  | .release _ => 1
  | .returned _ _ => 0

def Stage.proves : Stage → Bool
  | .receipt | .bind | .check => true
  | _ => false

structure Receive.Steady (s t : Receive) : Prop where
  kind : t.kind = s.kind
  limit : t.limit = s.limit
  connClosed : t.connClosed = s.connClosed
  mu : t.mu = s.mu
  closed : t.closed = s.closed
  owned : t.owned = s.owned
  released : t.released = s.released
  callback : t.callback = s.callback

structure Receive.Same (s t : Receive) : Prop extends Receive.Steady s t where
  ctxDone : t.ctxDone = s.ctxDone
  refusals : t.refusals = s.refusals
  obtained : s.kind = .message ∨ t.obtained = s.obtained
  header : t.canRefuse = true →
    s.kind = .message ∨ t.header.isSome = true ∨ s.canRefuse = true ∧ t.header = s.header

/-- A step outside the lock. It stays there or fails, and a proof is missing only
where one was asked for. -/
structure Receive.Quiet (s t : Receive) : Prop extends Receive.Same s t where
  place : t.pc.quiet = true ∨ ∃ err, t.pc = .fail err
  rank : t.pc.rank t.limit < s.pc.rank s.limit
  failing : ∀ err, t.pc = .fail err → ∃ stage,
    t.failure = some ⟨stage, err, !t.ctxDone⟩ ∧ (err = .notProven → stage.proves = true)
  reads : s.call.reading = s.pc.reads → t.call.reading = t.pc.reads

structure Receive.Near (s u : Receive) : Prop extends Receive.Same s u where
  idle : s.call.reading = s.pc.reads → u.call.reading = 0

section

variable {s t u : Receive}

theorem ReceivePc.rank_of_quiet {pc : ReceivePc} (limit : ℕ) (h : pc.quiet = true) :
    8 < pc.rank limit := by
  cases pc <;> simp only [rank] <;> first | omega | simp [quiet] at h

theorem Receive.Same.refl (s : Receive) : s.Same s where
  kind := rfl
  limit := rfl
  ctxDone := rfl
  connClosed := rfl
  mu := rfl
  closed := rfl
  owned := rfl
  released := rfl
  callback := rfl
  refusals := rfl
  obtained := .inr rfl
  header := fun hcan => .inr (.inr ⟨hcan, rfl⟩)

theorem Receive.Near.refl (h : s.pc.reads = 0) : s.Near s where
  toSame := .refl s
  idle := fun hs => hs.trans h

theorem Receive.Near.failAt (h : s.Near u) (hq : s.pc.quiet = true) {stage : Stage}
    {err : RecvErr} (hproof : err ≠ .notProven ∨ stage.proves = true) :
    s.Quiet (u.failAt stage err) where
  toSame := { h.toSame with }
  place := .inr ⟨err, rfl⟩
  rank := ReceivePc.rank_of_quiet _ hq
  failing := by
    rintro _ ⟨rfl⟩
    exact ⟨stage, rfl, fun herr => hproof.resolve_left fun hne => hne herr⟩
  reads := h.idle

theorem Receive.Near.goto (h : s.Near u) {pc : ReceivePc} (hq : pc.quiet = true)
    (hreads : pc.reads = 0) (hrank : pc.rank s.limit < s.pc.rank s.limit) :
    s.Quiet { u with pc := pc } where
  toSame := { h.toSame with }
  place := .inl hq
  rank := by rw [← h.limit] at hrank ⊢; exact hrank
  failing := by
    rintro err hpc
    have hpc : pc = .fail err := hpc
    rw [hpc] at hq
    exact absurd hq (by simp [ReceivePc.quiet])
  reads := fun hs => (h.idle hs).trans hreads.symm

theorem Receive.Near.sized (h : s.Near u) (hq : s.pc.quiet = true) (n : ℕ)
    (hrank : 2 * s.limit + 17 ≤ s.pc.rank s.limit) : s.Quiet (u.sized n) := by
  rw [Receive.sized]
  split_ifs with hlimit
  · exact h.failAt hq (.inl (by simp))
  · refine h.goto rfl rfl ?_
    rw [h.limit] at hlimit
    change 2 * n + 16 < _
    omega

theorem Receive.Near.headed (h : s.Near u) (hq : s.pc.quiet = true) (bs : Bytes)
    (hrank : 2 * s.limit + 18 ≤ s.pc.rank s.limit) : s.Quiet (u.headed bs) := by
  rw [Receive.headed]
  have hread : s.Near { u with canRefuse := true, header := some (unword bs) } :=
    { h with header := fun _ => .inr (.inl rfl) }
  dsimp only
  split_ifs with hsession
  · refine hread.goto rfl rfl ?_
    change 2 * s.limit + 17 < _
    omega
  · exact hread.sized hq _ (by omega)

theorem ReadErr.recvErr_ne_notProven (err : ReadErr) : err.recvErr ≠ .notProven := by
  cases err <;> simp [recvErr]

theorem Receive.Near.readHeader (h : s.Near u) {got : Bytes} (hpc : s.pc = .header got)
    (bs : Bytes) (err : Option ReadErr) (hsome : got.length < 4 → bs = [] → err ≠ none) :
    s.Quiet (u.readHeader got bs err) := by
  have hq : s.pc.quiet = true := by rw [hpc]; rfl
  have hrank : s.pc.rank s.limit = 2 * s.limit + 18 + (4 - got.length) := by rw [hpc]; rfl
  rw [Receive.readHeader.eq_def]
  split_ifs with hfull
  · exact h.headed hq _ (by omega)
  · rw [length_append] at hfull
    cases err with
    | some err => exact h.failAt hq (.inl err.recvErr_ne_notProven)
    | none =>
      have hpos : 0 < bs.length := length_pos_iff.2 fun hnil => hsome (by omega) hnil rfl
      refine h.goto rfl rfl ?_
      rw [hrank]
      simp only [ReceivePc.rank, length_append]
      omega

theorem Receive.Near.readBody (h : s.Near u) (hq : s.pc.quiet = true) {n : ℕ}
    {frame : Bytes} (hrank : 2 * (n - frame.length) + 12 ≤ s.pc.rank s.limit)
    (bs : Bytes) (err : Option ReadErr) (hsome : bs = [] → err ≠ none) :
    s.Quiet (u.readBody n frame bs err) := by
  rw [Receive.readBody.eq_def]
  split_ifs with hfull
  · have hbody : s.Near { u with bodyAt := some u.now } := { h with }
    refine hbody.goto rfl rfl ?_
    change 11 < _
    omega
  · rw [length_append] at hfull
    cases err with
    | some err => exact h.failAt hq (.inl err.recvErr_ne_notProven)
    | none =>
      have hpos : 0 < bs.length := length_pos_iff.2 fun hnil => hsome hnil rfl
      refine h.goto rfl rfl ?_
      change 2 * (n - (frame ++ bs).length) + 13 < _
      rw [length_append]
      omega

end

inductive Receive.CloseMoved (s : Receive) (p : Party) : ClosePc → Receive → ClosePc → Prop
  | already (hmu : s.mu = none) (hclosed : s.closed = true) : CloseMoved s p .lock s .done
  | lock (hmu : s.mu = none) (hopen : s.closed = false) : CloseMoved s p .lock
      { s with mu := some p, closed := true, stopped := true, ctxDone := true } .conn
  | conn : CloseMoved s p .conn { s with call := { s.call with closed := true } } .drain
  | drain (hidle : s.call.reading = 0) : CloseMoved s p .drain
      { s with call := { s.call with done := true }, connClosed := true } .binding
  | binding : CloseMoved s p .binding
      { s with released := s.released || s.owned, mu := none } .done

theorem Receive.closeMoved_of_closeStep {s u : Receive} {p : Party} {c d : ClosePc}
    (hm : s.closeStep p c = some (u, d)) : s.CloseMoved p c u d := by
  cases c with
    simp only [closeStep, some.injEq, Prod.mk.injEq, reduceCtorEq] at hm
  | lock =>
    split_ifs at hm with hmu hclosed
    · simp only [some.injEq, Prod.mk.injEq] at hm
      obtain ⟨rfl, rfl⟩ := hm
      exact .already hmu hclosed
    · simp only [some.injEq, Prod.mk.injEq] at hm
      obtain ⟨rfl, rfl⟩ := hm
      exact .lock hmu (by simpa using hclosed)
  | conn =>
    obtain ⟨rfl, rfl⟩ := hm
    exact .conn
  | drain =>
    split_ifs at hm with hidle
    simp only [some.injEq, Prod.mk.injEq] at hm
    obtain ⟨rfl, rfl⟩ := hm
    exact .drain hidle
  | binding =>
    obtain ⟨rfl, rfl⟩ := hm
    exact .binding

/-- The steps of a call; all but those of the clock and the context are steps of the program. -/
inductive ReceiveMoved (s : Receive) : Bool → Receive → Prop
  | tick (d : ℕ) : ReceiveMoved s false { s with now := s.now + d }
  | cancel : ReceiveMoved s false { s with ctxDone := true }
  | startCallback (hdone : s.ctxDone = true) (hidle : s.callback = none) :
      ReceiveMoved s true { s with callback := some .lock }
  | callback {c d : ClosePc} {u : Receive} (hc : s.callback = some c)
      (hclose : s.CloseMoved .callback c u d) :
      ReceiveMoved s true { u with callback := some d }
  | quiet {t : Receive} (hq : s.pc.quiet = true) (h : s.Quiet t) : ReceiveMoved s true t
  | keep {frame : Bytes} (hpc : s.pc = .keep frame) (hmu : s.mu = none)
      (hopen : s.closed = false) :
      ReceiveMoved s true { s with owned := true, pc := .lifetime frame }
  | lock {n : ℕ} (hpc : s.pc = .bind n) (hmu : s.mu = none) (hopen : s.closed = false) :
      ReceiveMoved s true { s with mu := some .receiver, pc := .binding n }
  | bound {n : ℕ} (hpc : s.pc = .binding n) : ReceiveMoved s true { s with
      obtained := true, owned := true, bindAt := some s.taken, pc := .checking n }
  | unbound {n : ℕ} (hpc : s.pc = .binding n) (err : RecvErr) :
      ReceiveMoved s true ({ s with mu := none }.failAt .bind err)
  | checked {n : ℕ} (hpc : s.pc = .checking n) : ReceiveMoved s true { s with
      mu := none, checkedAt := some s.taken, pc := .body n [] }
  | unchecked {n : ℕ} (hpc : s.pc = .checking n) (err : RecvErr) :
      ReceiveMoved s true ({ s with mu := none }.failAt .check err)
  | returned {frame : Bytes} (hpc : s.pc = .finish frame ∨ s.pc = .lifetime frame) :
      ReceiveMoved s true { s with pc := .returned (some frame) none }
  | fail {err : RecvErr} (hpc : s.pc = .fail err) (late : Bool) :
      ReceiveMoved s true { s with pc := .refuse (err.frameError s.ctxDone late) }
  | refuse {result : RecvErr} (hpc : s.pc = .refuse result) :
      ReceiveMoved s true { s with pc := .closing .lock result }
  | refused (hpc : s.pc = .refuse .notProven) (hcan : s.canRefuse = true)
      (hlive : s.ctxDone = false) {call : SessionCall}
      (hcall : call.reading = s.call.reading) : ReceiveMoved s true { s with
        call := call, refusals := s.refusals + 1, pc := .closing .lock .notProven }
  | closing {c d : ClosePc} {result : RecvErr} {u : Receive}
      (hpc : s.pc = .closing c result) (hclose : s.CloseMoved .receiver c u d) :
      ReceiveMoved s true { u with pc := .closing d result }
  | closed {result : RecvErr} (hpc : s.pc = .closing .done result) :
      ReceiveMoved s true { s with
        pc := if s.kind = .message then .release result else .returned none (some result) }
  | release {result : RecvErr} (hpc : s.pc = .release result) : ReceiveMoved s true { s with
      released := s.released || (s.obtained && !s.owned)
      pc := .returned none (some result) }

theorem ReceiveMoved.kind {s t : Receive} {b : Bool} (h : ReceiveMoved s b t) :
    t.kind = s.kind := by
  cases h with
  | callback hc hclose => cases hclose <;> rfl
  | quiet hq h => exact h.kind
  | closing hpc hclose => cases hclose <;> rfl
  | _ => rfl

section

variable {s t : Receive}

theorem Receive.quiet_received (hpc : s.pc = .receive) (hkind : s.kind = .message)
    (m : Message) : s.Quiet (s.received m) := by
  have hq : s.pc.quiet = true := by rw [hpc]; rfl
  have hnear : s.Near { s with obtained := m.binding } :=
    { Near.refl (by rw [hpc]; rfl) with obtained := .inl hkind }
  rw [received]
  cases m.res.recvErr with
  | some err => exact hnear.failAt hq (.inr rfl)
  | none =>
    dsimp only
    split_ifs with hlimit hbinding hlifetime
    · exact hnear.failAt hq (.inl (by simp))
    · exact hnear.failAt hq (.inl (by simp))
    · exact hnear.failAt hq (.inl (by simp))
    · refine hnear.goto rfl rfl ?_
      rw [hpc]
      simp only [ReceivePc.rank]
      omega

theorem SessionCall.reading_readBegin (c : SessionCall) (size : ℕ) (expired : Bool) :
    (∀ limit, (c.readBegin size expired).2 ≠ .wire limit) ∧
        (c.readBegin size expired).1.reading = c.reading ∨
      (∃ limit, (c.readBegin size expired).2 = .wire limit) ∧
        (c.readBegin size expired).1.reading = c.reading + 1 := by
  rw [readBegin]
  split_ifs
  all_goals first | exact .inr ⟨⟨_, rfl⟩, rfl⟩ | exact .inl ⟨by simp, rfl⟩

theorem Receive.quiet_readBegin (hq : s.pc.quiet = true) (hreads : s.pc.reads = 0)
    {stage : Stage} {size : ℕ} {next : SessionCall → ReadPlan → Receive}
    (hnear : ∀ call plan, (∀ limit, plan ≠ .wire limit) → s.Near { s with call := call } →
      s.Quiet (next call plan))
    (hwire : ∀ call limit, call.reading = s.call.reading + 1 → s.Quiet (next call (.wire limit))) :
    s.Quiet (s.readBegin stage size next) := by
  have hbegin := s.call.reading_readBegin size s.expired
  rw [readBegin]
  rcases hcall : s.call.readBegin size s.expired with ⟨call, plan⟩
  rw [hcall] at hbegin
  rcases hbegin with ⟨hplan, hsame⟩ | ⟨⟨limit, rfl⟩, hmore⟩
  · have h : s.Near { s with call := call } :=
      { Near.refl hreads with idle := fun hs => (hsame.trans hs).trans hreads }
    cases plan with
    | errClosed => exact h.failAt hq (.inl (by simp))
    | errExpired => exact h.failAt hq (.inl (by simp))
    | header bs => exact hnear call (.header bs) hplan h
    | eof => exact hnear call .eof hplan h
    | wire limit => exact absurd rfl (hplan limit)
  · exact hwire call limit hmore

theorem Receive.quiet_header {got : Bytes} (hpc : s.pc = .header got) :
    s.Quiet (s.readBegin .header 4 s.gotHeader) := by
  have hq : s.pc.quiet = true := by rw [hpc]; rfl
  have hreads : s.pc.reads = 0 := by rw [hpc]; rfl
  have hfail : s.Quiet (s.failAt .header .eof) := (Near.refl hreads).failAt hq (.inl (by simp))
  refine quiet_readBegin hq hreads (fun call plan _ hnear => ?_) fun call limit _ => hfail
  cases plan with
  | header bs =>
    refine hnear.headed hq bs ?_
    rw [hpc]
    exact Nat.le_add_right _ _
  | _ => exact hfail

theorem Receive.quiet_body {n : ℕ} {frame : Bytes} {size : ℕ} (hpc : s.pc = .body n frame) :
    s.Quiet (s.readBegin .body size (s.gotBody n frame)) := by
  have hq : s.pc.quiet = true := by rw [hpc]; rfl
  have hreads : s.pc.reads = 0 := by rw [hpc]; rfl
  have hfail : s.Quiet (s.failAt .body .eof) := (Near.refl hreads).failAt hq (.inl (by simp))
  refine quiet_readBegin hq hreads (fun call plan hplan _ => ?_) fun call limit hmore => ?_
  · cases plan with
    | wire limit => exact absurd rfl (hplan limit)
    | _ => exact hfail
  · refine { Near.refl hreads with
      place := .inl rfl, rank := ?_, failing := fun err herr => ?_, reads := fun hs => ?_ }
    · rw [hpc]
      exact Nat.lt_succ_self _
    · exact absurd herr (by simp [gotBody])
    · exact hmore.trans (by rw [hs, hreads]; rfl)

theorem Receive.quiet_streamRead_header {got bs : Bytes} {err : Option ReadErr}
    (hpc : s.pc = .header got)
    (hm : s.streamRead (4 - got.length) bs err (readHeader got) = some t) : s.Quiet t := by
  have hreads : s.pc.reads = 0 := by rw [hpc]; rfl
  rw [streamRead] at hm
  split_ifs at hm with hreplay hread
  · cases hm
    have h : s.Near { s with taken := s.taken + bs.length } := { Near.refl hreads with }
    exact h.readHeader hpc bs err fun _ => hread.2
  · cases hm
    have h : s.Near { s with replay := s.replay.drop (4 - got.length) } := { Near.refl hreads with }
    refine h.readHeader hpc _ none fun hgot hnil => absurd hnil ?_
    rw [take_eq_nil_iff]
    rintro (hzero | hnil)
    · omega
    · exact hreplay hnil

theorem Receive.quiet_streamRead_body {n : ℕ} {frame bs : Bytes} {err : Option ReadErr}
    (hpc : s.pc = .body n frame) (hmore : frame.length < n)
    (hm : s.streamRead (n - frame.length) bs err (readBody n frame) = some t) :
    s.Quiet t := by
  have hq : s.pc.quiet = true := by rw [hpc]; rfl
  have hreads : s.pc.reads = 0 := by rw [hpc]; rfl
  have hrank : 2 * (n - frame.length) + 12 ≤ s.pc.rank s.limit := by
    rw [hpc]
    exact Nat.le_succ _
  rw [streamRead] at hm
  split_ifs at hm with hreplay hread
  · cases hm
    have h : s.Near { s with taken := s.taken + bs.length } := { Near.refl hreads with }
    exact h.readBody hq hrank bs err hread.2
  · cases hm
    have h : s.Near { s with replay := s.replay.drop (n - frame.length) } :=
      { Near.refl hreads with }
    refine h.readBody hq hrank _ none fun hnil => absurd hnil ?_
    rw [take_eq_nil_iff]
    rintro (hzero | hnil)
    · omega
    · exact hreplay hnil

theorem SessionCall.reading_readEnd (c : SessionCall) (request : Bool) (n : ℕ)
    (err : Option ReadErr) (expired : Bool) :
    (c.readEnd request n err expired).1.reading = c.reading - 1 := by
  rw [readEnd]
  dsimp only
  split_ifs <;> rfl

theorem Receive.quiet_read {bs : Bytes} {err : Option ReadErr}
    (hm : s.read bs err = some t) : s.pc.quiet = true ∧ s.Quiet t := by
  cases hpc : s.pc with
    simp only [read, hpc, reduceCtorEq] at hm
  | header got =>
    split_ifs at hm with hsession
    exact ⟨rfl, quiet_streamRead_header hpc hm⟩
  | body n frame =>
    split_ifs at hm with hfull
    rw [not_or] at hfull
    exact ⟨rfl, quiet_streamRead_body hpc (Nat.lt_of_not_le hfull.1) hm⟩
  | reading n frame limit =>
    have hq : s.pc.quiet = true := by rw [hpc]; rfl
    refine ⟨rfl, ?_⟩
    have h : s.Near { s with
        call := (s.call.readEnd true bs.length err s.expired).1
        taken := s.taken + bs.length
        pc := .reading n frame limit } := by
      refine { Same.refl s with idle := fun hs => ?_ }
      change (s.call.readEnd true bs.length err s.expired).1.reading = 0
      rw [SessionCall.reading_readEnd, hs, hpc]
      rfl
    split_ifs at hm with hread hgiven
    · cases hm
      exact h.readBody hq (by rw [hpc]; exact le_refl _) bs err hread.2
    · cases hm
      exact h.failAt hq (.inl (by simp))

theorem Receive.refuseProof_eq (s : Receive) : s.refuseProof = s ∨
    ∃ call, call.reading = s.call.reading ∧
      s.refuseProof = { s with call := call, refusals := s.refusals + 1 } := by
  rw [refuseProof]
  split
  · split_ifs
    · exact .inl rfl
    · exact .inr ⟨{ s.call with broken := true }, rfl, rfl⟩
  · exact .inr ⟨s.call, rfl, rfl⟩

theorem Receive.moved_of_go {late : Bool} (hm : s.go late = some t) : ReceiveMoved s true t := by
  cases hpc : s.pc with
    simp only [go, hpc, some.injEq, reduceCtorEq] at hm
  | start =>
    have hq : s.pc.quiet = true := by rw [hpc]; rfl
    have h : s.Near s := .refl (by rw [hpc]; rfl)
    split_ifs at hm with hctx hkind hdeadlines
    · cases hm
      exact .quiet hq (h.failAt hq (.inl (by simp)))
    · cases hm
      have h : s.Near { s with canRefuse := true } := { h with header := fun _ => .inl hkind }
      refine .quiet hq (h.goto rfl rfl ?_)
      rw [hpc]
      change 12 < 2 * s.limit + 24
      omega
    · cases hm
      refine .quiet hq (h.goto rfl rfl ?_)
      rw [hpc]
      exact Nat.lt_succ_self _
    · cases hm
      exact .quiet hq (h.failAt hq (.inl (by simp)))
  | keep frame =>
    have hq : s.pc.quiet = true := by rw [hpc]; rfl
    split_ifs at hm with hmu hclosed
    · cases hm
      exact .quiet hq ((Near.refl (by rw [hpc]; rfl)).failAt hq (.inl (by simp)))
    · cases hm
      exact .keep hpc hmu (by simpa using hclosed)
  | header got =>
    split_ifs at hm with hsession
    cases hm
    exact .quiet (by rw [hpc]; rfl) (quiet_header hpc)
  | bind n =>
    have hq : s.pc.quiet = true := by rw [hpc]; rfl
    split_ifs at hm with hmu hclosed
    · cases hm
      exact .quiet hq ((Near.refl (by rw [hpc]; rfl)).failAt hq (.inl (by simp)))
    · cases hm
      exact .lock hpc hmu (by simpa using hclosed)
  | body n frame =>
    have hq : s.pc.quiet = true := by rw [hpc]; rfl
    split_ifs at hm with hfull hsession
    · cases hm
      have h : s.Near { s with bodyAt := some s.now } := { Near.refl (by rw [hpc]; rfl) with }
      refine .quiet hq (h.goto rfl rfl ?_)
      rw [hpc]
      change 11 < 2 * (n - frame.length) + 13
      omega
    · cases hm
      exact .quiet hq (quiet_body hpc)
  | valid frame =>
    have hq : s.pc.quiet = true := by rw [hpc]; rfl
    split_ifs at hm with hexpired
    · cases hm
      exact .quiet hq ((Near.refl (by rw [hpc]; rfl)).failAt hq (.inl (by simp)))
    · cases hm
      have h : s.Near { s with validAt := some s.now } := { Near.refl (by rw [hpc]; rfl) with }
      refine .quiet hq (h.goto rfl rfl ?_)
      rw [hpc]
      exact Nat.lt_succ_self 10
  | finish frame =>
    have hq : s.pc.quiet = true := by rw [hpc]; rfl
    split_ifs at hm with hctx
    · cases hm
      exact .quiet hq ((Near.refl (by rw [hpc]; rfl)).failAt hq (.inl (by simp)))
    · cases hm
      exact .returned (.inl hpc)
  | fail err =>
    rw [← hm]
    exact .fail hpc late
  | refuse result =>
    split_ifs at hm with hrefuse
    · obtain ⟨hcan, hlive, rfl⟩ := hrefuse
      rw [← hm]
      rcases s.refuseProof_eq with heq | ⟨call, hcall, heq⟩
      · rw [heq]
        exact .refuse hpc
      · rw [heq]
        exact .refused hpc hcan hlive hcall
    · rw [← hm]
      exact .refuse hpc
  | closing c result =>
    cases c with
    | done =>
      simp only [some.injEq] at hm
      rw [← hm]
      exact .closed hpc
    | _ =>
      simp only [map_eq_some_iff] at hm
      obtain ⟨⟨u, d⟩, hclose, rfl⟩ := hm
      exact .closing hpc (closeMoved_of_closeStep hclose)
  | release result =>
    rw [← hm]
    exact .release hpc

/-- Every step is one of the moves. -/
theorem Receive.moved_of_step {a : ReceiveAct} (hm : receiveStep s a = some t) :
    ReceiveMoved s a.ofProgram t := by
  cases a with
  | tick d =>
    cases hm
    exact .tick d
  | cancel =>
    cases hm
    exact .cancel
  | startCallback =>
    simp only [receiveStep] at hm
    split_ifs at hm with hstart
    cases hm
    exact .startCallback hstart.1 hstart.2.2
  | callback =>
    simp only [receiveStep, bind_eq_some_iff, map_eq_some_iff] at hm
    obtain ⟨c, hc, ⟨u, d⟩, hclose, rfl⟩ := hm
    exact .callback hc (closeMoved_of_closeStep hclose)
  | go late => exact moved_of_go hm
  | message m =>
    cases hpc : s.pc with
    | receive =>
      cases hkind : s.kind with
      | message =>
        simp only [receiveStep, hpc, hkind, some.injEq] at hm
        rw [← hm]
        exact .quiet (by rw [hpc]; rfl) (quiet_received hpc hkind m)
      | _ => simp [receiveStep, hpc, hkind] at hm
    | _ => simp [receiveStep, hpc] at hm
  | setDeadline err =>
    cases hpc : s.pc with
    | deadline =>
      have hq : s.pc.quiet = true := by rw [hpc]; rfl
      have h : s.Near s := .refl (by rw [hpc]; rfl)
      simp only [receiveStep, hpc, some.injEq] at hm
      rw [← hm]
      cases err with
      | some err => exact .quiet hq (h.failAt hq (.inl err.recvErr_ne_notProven))
      | none =>
        dsimp only
        split_ifs with hclosed
        · exact .quiet hq (h.failAt hq (.inl (by simp)))
        · refine .quiet hq (h.goto rfl rfl ?_)
          rw [hpc]
          exact Nat.lt_succ_self _
    | _ => simp [receiveStep, hpc] at hm
  | read bs err =>
    obtain ⟨hq, h⟩ := quiet_read hm
    exact .quiet hq h
  | write err =>
    cases hpc : s.pc with
    | answer w =>
      have hq : s.pc.quiet = true := by rw [hpc]; rfl
      have h : s.Near s := .refl (by rw [hpc]; rfl)
      simp only [receiveStep, hpc, some.injEq] at hm
      rw [← hm]
      cases err with
      | some err => exact .quiet hq (h.failAt hq (.inl err.recvErr_ne_notProven))
      | none => exact .quiet hq (h.sized hq _ (by rw [hpc]; exact le_refl _))
    | _ => simp [receiveStep, hpc] at hm
  | bind res =>
    cases hpc : s.pc with
    | binding n =>
      simp only [receiveStep, hpc, some.injEq] at hm
      rw [← hm]
      cases s.bindErr res with
      | some err => exact .unbound hpc err
      | none => exact .bound hpc
    | _ => simp [receiveStep, hpc] at hm
  | check res =>
    cases hpc : s.pc with
    | checking n =>
      simp only [receiveStep, hpc, some.injEq] at hm
      rw [← hm]
      cases res.recvErr with
      | some err => exact .unchecked hpc err
      | none => exact .checked hpc
    | admission frame =>
      have hq : s.pc.quiet = true := by rw [hpc]; rfl
      have h : s.Near s := .refl (by rw [hpc]; rfl)
      simp only [receiveStep, hpc, some.injEq] at hm
      rw [← hm]
      cases res.recvErr with
      | some err => exact .quiet hq (h.failAt hq (.inr rfl))
      | none =>
        refine .quiet hq (h.goto rfl rfl ?_)
        rw [hpc]
        exact Nat.lt_succ_self 10
    | _ => simp [receiveStep, hpc] at hm
  | lifetime ended =>
    cases hpc : s.pc with
    | lifetime frame =>
      have hq : s.pc.quiet = true := by rw [hpc]; rfl
      simp only [receiveStep, hpc, some.injEq] at hm
      rw [← hm]
      split_ifs
      · exact .quiet hq ((Near.refl (by rw [hpc]; rfl)).failAt hq (.inl (by simp)))
      · exact .returned (.inr hpc)
    | _ => simp [receiveStep, hpc] at hm

theorem Receive.kind_of_run {kind : ConnKind} {limit : ℕ} {now : ℤ} {ctxDone : Bool}
    {acts : List ReceiveAct}
    (hrun : run receiveStep (.start kind limit now ctxDone) acts = some s) : s.kind = kind :=
  run_invariant_of_forall (I := fun s => s.kind = kind)
    (fun _ _ _ h hm => (moved_of_step hm).kind.trans h) rfl hrun

end

end Listen
