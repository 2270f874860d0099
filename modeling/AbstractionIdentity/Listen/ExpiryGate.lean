import AbstractionIdentity.Listen.ReceiveMoves

/-!
# The identity and expiry gate

`Receive.Gate` says what each place of `ReceiveFramed` knows: the binding was obtained and checked
with at most the header taken, and on a session the request was whole and valid in time.
-/

namespace Listen

open Text Stream Transition List Option

theorem sessionMaxAge_eq (maxAge : ℤ) : sessionMaxAge maxAge =
    min (if maxAge ≤ 0 then defaultSessionMaxAge else maxAge) defaultSessionMaxAge := by
  rw [sessionMaxAge]
  split_ifs <;> omega

theorem sessionDeadline_eq (boundAt maxAge : ℤ) (evidenceUntil : Option ℤ) :
    sessionDeadline boundAt maxAge evidenceUntil =
      evidenceUntil.elim (boundAt + maxAge) (min (boundAt + maxAge)) := by
  cases evidenceUntil with
  | none => rfl
  | some u =>
    simp only [sessionDeadline, elim_some]
    split_ifs <;> omega

def Receive.Bound (s : Receive) : Prop := ∃ k ≤ 4, s.bindAt = some k

def Receive.Checked (s : Receive) : Prop := s.Bound ∧ ∃ k ≤ 4, s.checkedAt = some k

def Receive.InTime (s : Receive) : Prop :=
  ∀ p head, s.kind = .session p head →
    ∃ t u, s.bodyAt = some t ∧ s.validAt = some u ∧ t ≤ u ∧ u < p.expires

def Receive.Gate (s : Receive) : Prop :=
  match s.pc with
  | .start | .deadline =>
    s.taken ≤ 4 ∧ (s.kind.isSession = false → s.taken = s.replay.length)
  | .header got =>
    s.taken ≤ 4 ∧ (s.kind.isSession = false → s.taken = got.length + s.replay.length)
  | .answer _ | .bind _ | .binding _ => s.taken ≤ 4
  | .checking _ => s.Bound ∧ s.taken ≤ 4
  | .body _ _ | .reading _ _ _ => s.Checked
  | .valid _ => s.Checked ∧ ∃ t ≤ s.now, s.bodyAt = some t
  | .finish _ => s.Checked ∧ s.InTime
  | .receive | .admission _ | .keep _ | .lifetime _ => s.kind = .message
  | .returned (some _) _ => s.kind ≠ .message → s.Checked ∧ s.InTime
  | _ => True

theorem Receive.gate_start (kind : ConnKind) (limit : ℕ) (now : ℤ) (ctxDone : Bool) :
    (Receive.start kind limit now ctxDone).Gate := by
  cases kind with
  | stream deadlines ahead => exact ⟨ahead.property, fun _ => rfl⟩
  | session p head => exact ⟨le_refl 4, fun h => Bool.noConfusion h⟩
  | message => exact ⟨Nat.zero_le 4, fun _ => rfl⟩

section

variable {s t : Receive}

theorem Receive.gate_failAt (s : Receive) (stage : Stage) (err : RecvErr) :
    (s.failAt stage err).Gate := trivial

theorem Receive.gate_sized (n : ℕ) (h : s.taken ≤ 4) : (s.sized n).Gate := by
  rw [sized]
  split_ifs with hlimit
  · exact s.gate_failAt _ _
  · exact h

theorem Receive.gate_headed (bs : Bytes) (h : s.taken ≤ 4) : (s.headed bs).Gate := by
  rw [headed]
  dsimp only
  split_ifs with hsession
  · exact h
  · exact gate_sized _ h

theorem Receive.gate_received (m : Message) (h : s.kind = .message) : (s.received m).Gate := by
  rw [received]
  cases m.res.recvErr with
  | some err => trivial
  | none =>
    dsimp only
    split_ifs with hlimit hbinding hlifetime
    · trivial
    · trivial
    · trivial
    · exact h

theorem Receive.gate_readBegin (stage : Stage) (size : ℕ)
    {next : SessionCall → ReadPlan → Receive} (h : ∀ call plan, (next call plan).Gate) :
    (s.readBegin stage size next).Gate := by
  rw [readBegin]
  rcases s.call.readBegin size s.expired with ⟨call, plan⟩
  cases plan with
  | errClosed => trivial
  | errExpired => trivial
  | header bs => exact h call (.header bs)
  | eof => exact h call .eof
  | wire limit => exact h call (.wire limit)

theorem Receive.gate_readBody (n : ℕ) (frame bs : Bytes) (err : Option ReadErr)
    (h : s.Checked) : (s.readBody n frame bs err).Gate := by
  rw [readBody.eq_def]
  split_ifs with hfull
  · exact ⟨h, s.now, le_refl _, rfl⟩
  · cases err with
    | some err => trivial
    | none => exact h

theorem Receive.gate_streamRead_header {got bs : Bytes} {err : Option ReadErr}
    (h : s.taken ≤ 4 ∧ (s.kind.isSession = false → s.taken = got.length + s.replay.length))
    (hkind : s.kind.isSession = false)
    (hm : s.streamRead (4 - got.length) bs err (readHeader got) = some t) : t.Gate := by
  have hgot := h.2 hkind
  have key : ∀ (s : Receive) bs err, s.taken ≤ 4 →
      (s.kind.isSession = false → s.taken = got.length + bs.length + s.replay.length) →
      (readHeader got s bs err).Gate := by
    intro s bs err htaken hlen
    rw [readHeader.eq_def]
    split_ifs with hfull
    · exact gate_headed _ htaken
    · cases err with
      | some err => trivial
      | none =>
        refine ⟨htaken, fun hk => ?_⟩
        rw [length_append]
        exact hlen hk
  rw [streamRead] at hm
  split_ifs at hm with hreplay hread
  · cases hm
    rw [hreplay, length_nil] at hgot
    refine key _ _ _ ?_ fun _ => ?_
    · have := hread.1
      change s.taken + bs.length ≤ 4
      omega
    · change s.taken + bs.length = got.length + bs.length + s.replay.length
      rw [hreplay, length_nil]
      omega
  · cases hm
    refine key _ _ _ h.1 fun _ => ?_
    change s.taken = got.length + (s.replay.take _).length + (s.replay.drop _).length
    rw [length_take, length_drop]
    omega

theorem Receive.gate_streamRead_body {size n : ℕ} {frame bs : Bytes} {err : Option ReadErr}
    (h : s.Checked) (hm : s.streamRead size bs err (readBody n frame) = some t) : t.Gate := by
  rw [streamRead] at hm
  split_ifs at hm with hreplay hread
  · cases hm
    exact gate_readBody _ _ _ _ h
  · cases hm
    exact gate_readBody _ _ _ _ h

theorem Receive.gate_read (h : s.Gate) {bs : Bytes} {err : Option ReadErr}
    (hm : s.read bs err = some t) : t.Gate := by
  cases hpc : s.pc with
  | header got =>
    simp only [read, hpc] at hm
    simp only [Gate, hpc] at h
    split_ifs at hm with hsession
    exact gate_streamRead_header h (by simpa using hsession) hm
  | body n frame =>
    simp only [read, hpc] at hm
    simp only [Gate, hpc] at h
    split_ifs at hm with hfull
    exact gate_streamRead_body h hm
  | reading n frame limit =>
    simp only [read, hpc] at hm
    simp only [Gate, hpc] at h
    split_ifs at hm with hread hgiven
    · cases hm
      exact gate_readBody _ _ _ _ h
    · cases hm
      trivial
  | _ => simp [read, hpc] at hm

theorem Receive.gate_closeStep {p : Party} {c d : ClosePc} (h : s.Gate)
    (hm : s.closeStep p c = some (t, d)) : t.Gate := by
  cases closeMoved_of_closeStep hm with
  | already => exact h
  | lock => exact h
  | conn => exact h
  | drain => exact h
  | binding => exact h

theorem Receive.gate_go (h : s.Gate) {late : Bool} (hm : s.go late = some t) : t.Gate := by
  cases hpc : s.pc with
  | start =>
    simp only [Gate, hpc] at h
    simp only [go, hpc] at hm
    split_ifs at hm with hctx hkind hdeadlines
    · cases hm
      trivial
    · cases hm
      exact hkind
    · cases hm
      exact h
    · cases hm
      trivial
  | keep frame =>
    simp only [Gate, hpc] at h
    simp only [go, hpc] at hm
    split_ifs at hm with hmu hclosed
    · cases hm
      trivial
    · cases hm
      exact h
  | header got =>
    simp only [Gate, hpc] at h
    simp only [go, hpc] at hm
    split_ifs at hm with hsession
    cases hm
    refine gate_readBegin _ _ fun call plan => ?_
    cases plan with
    | header bs => exact gate_headed bs h.1
    | _ => trivial
  | bind n =>
    simp only [Gate, hpc] at h
    simp only [go, hpc] at hm
    split_ifs at hm with hmu hclosed
    · cases hm
      trivial
    · cases hm
      exact h
  | body n frame =>
    simp only [Gate, hpc] at h
    simp only [go, hpc] at hm
    split_ifs at hm with hfull hsession
    · cases hm
      exact ⟨h, s.now, le_refl _, rfl⟩
    · cases hm
      refine gate_readBegin _ _ fun call plan => ?_
      cases plan with
      | wire limit => exact h
      | _ => trivial
  | valid frame =>
    simp only [Gate, hpc] at h
    simp only [go, hpc] at hm
    split_ifs at hm with hexpired
    · cases hm
      trivial
    · cases hm
      obtain ⟨hchecked, u, hu, hbody⟩ := h
      refine ⟨hchecked, fun p head hkind => ⟨u, s.now, hbody, rfl, hu, ?_⟩⟩
      have hkind : s.kind = .session p head := hkind
      simpa [expired, hkind] using hexpired
  | finish frame =>
    simp only [Gate, hpc] at h
    simp only [go, hpc] at hm
    split_ifs at hm with hctx
    · cases hm
      trivial
    · cases hm
      exact fun _ => h
  | fail err =>
    simp only [go, hpc, some.injEq] at hm
    rw [← hm]
    trivial
  | refuse result =>
    simp only [go, hpc, some.injEq] at hm
    rw [← hm]
    trivial
  | closing c result =>
    cases c with
    | done =>
      simp only [go, hpc, some.injEq] at hm
      rw [← hm]
      dsimp only [Gate]
      split_ifs <;> trivial
    | _ =>
      simp only [go, hpc, map_eq_some_iff] at hm
      obtain ⟨⟨u, d⟩, -, rfl⟩ := hm
      trivial
  | release result =>
    simp only [go, hpc, some.injEq] at hm
    rw [← hm]
    trivial
  | _ => simp [go, hpc] at hm

theorem Receive.gate_step {a : ReceiveAct} (h : s.Gate) (hm : receiveStep s a = some t) :
    t.Gate := by
  cases a with
  | tick d =>
    cases hm
    cases hpc : s.pc with
    | valid frame =>
      simp only [Gate, hpc] at h ⊢
      obtain ⟨hchecked, u, hu, hbody⟩ := h
      exact ⟨hchecked, u, by omega, hbody⟩
    | returned call err =>
      cases call with
      | none => simp only [Gate]
      | some frame =>
        simp only [Gate, hpc] at h ⊢
        exact h
    | _ => simp only [Gate, hpc] at h ⊢ <;> exact h
  | cancel =>
    cases hm
    exact h
  | startCallback =>
    simp only [receiveStep] at hm
    split_ifs at hm
    cases hm
    exact h
  | callback =>
    simp only [receiveStep, bind_eq_some_iff, map_eq_some_iff] at hm
    obtain ⟨c, -, ⟨u, d⟩, hclose, rfl⟩ := hm
    have hu : u.Gate := gate_closeStep h hclose
    exact hu
  | go late => exact gate_go h hm
  | message m =>
    cases hpc : s.pc with
    | receive =>
      simp only [Gate, hpc] at h
      simp only [receiveStep, hpc, h, some.injEq] at hm
      rw [← hm]
      exact gate_received m h
    | _ => simp [receiveStep, hpc] at hm
  | setDeadline err =>
    cases hpc : s.pc with
    | deadline =>
      simp only [receiveStep, hpc, some.injEq] at hm
      simp only [Gate, hpc] at h
      rw [← hm]
      cases err with
      | some err => trivial
      | none =>
        dsimp only
        split_ifs with hclosed
        · trivial
        · exact ⟨h.1, fun hk => by rw [length_nil, Nat.zero_add]; exact h.2 hk⟩
    | _ => simp [receiveStep, hpc] at hm
  | read bs err => exact gate_read h hm
  | write err =>
    cases hpc : s.pc with
    | answer w =>
      simp only [receiveStep, hpc, some.injEq] at hm
      simp only [Gate, hpc] at h
      rw [← hm]
      cases err with
      | some err => trivial
      | none => exact gate_sized _ h
    | _ => simp [receiveStep, hpc] at hm
  | bind res =>
    cases hpc : s.pc with
    | binding n =>
      simp only [receiveStep, hpc, some.injEq] at hm
      simp only [Gate, hpc] at h
      rw [← hm]
      cases s.bindErr res with
      | some err => trivial
      | none => exact ⟨⟨s.taken, h, rfl⟩, h⟩
    | _ => simp [receiveStep, hpc] at hm
  | check res =>
    cases hpc : s.pc with
    | checking n =>
      simp only [receiveStep, hpc, some.injEq] at hm
      simp only [Gate, hpc] at h
      rw [← hm]
      cases res.recvErr with
      | some err => trivial
      | none => exact ⟨h.1, s.taken, h.2, rfl⟩
    | admission frame =>
      simp only [receiveStep, hpc, some.injEq] at hm
      simp only [Gate, hpc] at h
      rw [← hm]
      cases res.recvErr with
      | some err => trivial
      | none => exact h
    | _ => simp [receiveStep, hpc] at hm
  | lifetime ended =>
    cases hpc : s.pc with
    | lifetime frame =>
      simp only [receiveStep, hpc, some.injEq] at hm
      simp only [Gate, hpc] at h
      rw [← hm]
      split_ifs
      · trivial
      · exact fun hne => absurd h hne
    | _ => simp [receiveStep, hpc] at hm

end

/-- `expires` is the earlier of the end of the age limit, which is at most five minutes,
and the deadline of the evidence. -/
theorem SessionBinding.expires_eq (p : SessionBinding) :
    p.expires = p.evidenceUntil.elim id min (p.boundAt +
      min (if p.maxAge ≤ 0 then defaultSessionMaxAge else p.maxAge)
        defaultSessionMaxAge) := by
  rw [expires, sessionDeadline_eq, ← sessionMaxAge_eq]
  cases p.evidenceUntil with
  | none => rfl
  | some u => exact min_comm _ _

def bodyTaken (taken : ℕ) : ℕ := taken - 4

/-- `ReceiveFramed` returns a call on a stream or session only if `Bind` and the check of the need
succeeded before a byte of the body was read; on a session the body was whole, and valid, before
`expires`. -/
theorem receive_identity_and_expiry_gate (kind : ConnKind) (limit : ℕ) (now : ℤ)
    (ctxDone : Bool) (acts : List ReceiveAct) {s : Receive} {frame : Bytes}
    {err : Option RecvErr} (hkind : kind ≠ .message)
    (hrun : run receiveStep (.start kind limit now ctxDone) acts = some s)
    (hret : s.pc = .returned (some frame) err) :
    (∃ j k, s.bindAt = some j ∧ s.checkedAt = some k ∧ bodyTaken j = 0 ∧ bodyTaken k = 0) ∧
    ∀ p head, kind = .session p head →
      (∃ t u, s.bodyAt = some t ∧ s.validAt = some u ∧ t < p.expires ∧ u < p.expires) ∧
      p.expires = p.evidenceUntil.elim id min (p.boundAt +
        min (if p.maxAge ≤ 0 then defaultSessionMaxAge else p.maxAge)
          defaultSessionMaxAge) := by
  have hgate : s.Gate := run_invariant_of_forall (fun _ _ _ => Receive.gate_step)
    (Receive.gate_start kind limit now ctxDone) hrun
  have hsame : s.kind = kind := Receive.kind_of_run hrun
  simp only [Receive.Gate, hret, hsame] at hgate
  obtain ⟨⟨⟨j, hj, hbind⟩, k, hk, hcheck⟩, htime⟩ := hgate hkind
  refine ⟨⟨j, k, hbind, hcheck, ?_, ?_⟩, fun p head hp => ⟨?_, p.expires_eq⟩⟩
  · exact Nat.sub_eq_zero_of_le hj
  · exact Nat.sub_eq_zero_of_le hk
  · obtain ⟨t, u, hbody, hvalid, htu, hu⟩ := htime p head (hsame.trans hp)
    exact ⟨t, u, hbody, hvalid, lt_of_le_of_lt htu hu, hu⟩

/-- A request of one byte on a session, received ten nanoseconds after the binding. -/
theorem receive_identity_and_expiry_gate_sample :
    ∃ s, run receiveStep (.start (.session ⟨0, 0, none, .ok⟩ 0x80000001) 16 10 false)
        [.go false, .setDeadline none, .go false, .go false, .bind .ok, .check .ok,
          .go false, .read [7] none, .go false, .go false] = some s ∧
      ∃ t u, s.bodyAt = some t ∧ s.validAt = some u ∧ t < 300000000000 ∧ u < 300000000000 :=
  ⟨_, rfl, ((receive_identity_and_expiry_gate
    (.session ⟨0, 0, none, .ok⟩ 0x80000001) 16 10 false
    [.go false, .setDeadline none, .go false, .go false, .bind .ok, .check .ok,
      .go false, .read [7] none, .go false, .go false]
    (fun h => by cases h) rfl rfl).2 ⟨0, 0, none, .ok⟩ 0x80000001 rfl).1⟩

end Listen
