import AbstractionIdentity.Listen.ExpiryGate
import AbstractionIdentity.Listen.ReceiveLock

/-!
# `ReceiveFramed` returns

Every step of the two threads lowers the rank of the call, and until `ReceiveFramed`
has returned one of them can make a step: the connection and the identity layer answer
what they are asked, and no thread waits for the lock or for a read for ever.
-/

namespace Listen

open Text Stream Transition Latch Receive

def Receive.rank (s : Receive) : ℕ := s.pc.rank s.limit + s.callback.elim 5 ClosePc.rank

section

variable {s t u : Receive}

theorem Receive.CloseMoved.rank_lt {p : Party} {c d : ClosePc} (h : s.CloseMoved p c u d) :
    d.rank < c.rank := by
  cases h <;> decide

theorem Receive.CloseMoved.same_limit {p : Party} {c d : ClosePc}
    (h : s.CloseMoved p c u d) : u.limit = s.limit := by
  cases h <;> rfl

theorem Receive.rank_lt_of_pc (hcallback : t.callback = s.callback)
    (h : t.pc.rank t.limit < s.pc.rank s.limit) : t.rank < s.rank := by
  rw [rank, rank, hcallback]
  exact Nat.add_lt_add_right h _

theorem ReceiveMoved.rank_lt (h : ReceiveMoved s true t) : t.rank < s.rank := by
  cases h with
  | startCallback hdone hidle =>
    simp only [rank, hidle]
    exact Nat.add_lt_add_left (by decide) _
  | @callback c d u hc hclose =>
    have hlt := hclose.rank_lt
    simp only [rank, hc, hclose.same_pc, hclose.same_limit, Option.elim_some]
    omega
  | quiet hq hquiet => exact rank_lt_of_pc hquiet.callback hquiet.rank
  | keep hpc =>
    refine rank_lt_of_pc rfl ?_
    simp [hpc, ReceivePc.rank]
  | lock hpc =>
    refine rank_lt_of_pc rfl ?_
    simp [hpc, ReceivePc.rank]
  | bound hpc =>
    refine rank_lt_of_pc rfl ?_
    simp [hpc, ReceivePc.rank]
  | unbound hpc err =>
    refine rank_lt_of_pc rfl ?_
    simp only [hpc, ReceivePc.rank, failAt]
    omega
  | checked hpc =>
    refine rank_lt_of_pc rfl ?_
    simp [hpc, ReceivePc.rank]
  | unchecked hpc err =>
    refine rank_lt_of_pc rfl ?_
    simp only [hpc, ReceivePc.rank, failAt]
    omega
  | returned hpc =>
    refine rank_lt_of_pc rfl ?_
    rcases hpc with hpc | hpc <;> simp [hpc, ReceivePc.rank]
  | fail hpc late =>
    refine rank_lt_of_pc rfl ?_
    simp [hpc, ReceivePc.rank]
  | refuse hpc =>
    refine rank_lt_of_pc rfl ?_
    simp [hpc, ReceivePc.rank, ClosePc.rank]
  | refused hpc =>
    refine rank_lt_of_pc rfl ?_
    simp [hpc, ReceivePc.rank, ClosePc.rank]
  | @closing c d result u hpc hclose =>
    refine rank_lt_of_pc hclose.same_callback ?_
    have hlt := hclose.rank_lt
    simp only [hpc, ReceivePc.rank]
    omega
  | closed hpc =>
    refine rank_lt_of_pc rfl ?_
    dsimp only
    split_ifs <;> simp [hpc, ReceivePc.rank, ClosePc.rank]
  | release hpc =>
    refine rank_lt_of_pc rfl ?_
    simp [hpc, ReceivePc.rank]

def Receive.Reads (s : Receive) : Prop := s.call.reading = s.pc.reads

theorem Receive.CloseMoved.same_reading {p : Party} {c d : ClosePc}
    (h : s.CloseMoved p c u d) : u.call.reading = s.call.reading := by
  cases h <;> rfl

theorem Receive.Reads.moved (h : s.Reads) {b : Bool} (hm : ReceiveMoved s b t) : t.Reads := by
  cases hm with
  | tick | cancel | startCallback => exact h
  | callback hc hclose =>
    simp only [Reads, hclose.same_reading, hclose.same_pc]
    exact h
  | quiet hq hquiet => exact hquiet.reads h
  | closing hpc hclose =>
    rw [Reads, hpc] at h
    exact hclose.same_reading.trans h
  | @refused hpc hcan hlive call hcall =>
    rw [Reads, hpc] at h
    exact hcall.trans h
  | closed hpc =>
    rw [Reads, hpc] at h
    simp only [Reads]
    split_ifs <;> exact h
  | returned hpc =>
    rcases hpc with hpc | hpc <;> rw [Reads, hpc] at h <;> exact h
  | keep hpc | lock hpc | bound hpc | unbound hpc | checked hpc | unchecked hpc | fail hpc
  | refuse hpc | release hpc =>
    rw [Reads, hpc] at h
    exact h

def Receive.Enabled (s : Receive) : Prop :=
  ∃ a : ReceiveAct, a.ofProgram = true ∧ (receiveStep s a).isSome = true

theorem Receive.enabled_of_callback (h : s.Closes) (hmu : s.mu = some .callback)
    (hidle : s.call.reading = 0) : s.Enabled := by
  have hholds := (h.latch.holder .callback).1 hmu
  cases hc : s.callback with
  | none =>
    simp only [role, hc] at hholds
    cases hholds
  | some c =>
    refine ⟨.callback, rfl, ?_⟩
    cases c with
    | lock | done =>
      simp only [role, hc] at hholds
      cases hholds
    | conn => simp [receiveStep, hc, closeStep]
    | drain => simp [receiveStep, hc, closeStep, hidle]
    | binding => simp [receiveStep, hc, closeStep]

theorem Receive.enabled_of_lock (h : s.Closes) (hreads : s.Reads) (hpc : s.pc.role = .out)
    (hidle : s.pc.reads = 0) (hfree : s.mu = none → s.Enabled) : s.Enabled := by
  cases hmu : s.mu with
  | none => exact hfree hmu
  | some p =>
    cases p with
    | receiver =>
      have hholds := (h.latch.holder .receiver).1 hmu
      simp only [role, hpc] at hholds
      cases hholds
    | callback => exact enabled_of_callback h hmu (hreads.trans hidle)

theorem Receive.streamRead_isSome (s : Receive) (size : ℕ)
    (next : Receive → Bytes → Option ReadErr → Receive) :
    (s.streamRead size [] (some .other) next).isSome = true := by
  rw [streamRead]
  split_ifs with hreplay hread
  · rfl
  · exact absurd ⟨Nat.zero_le _, fun _ => by simp⟩ hread
  · rfl

theorem Receive.enabled_of_not_returned (hgate : s.Gate) (hcloses : s.Closes)
    (hreads : s.Reads) (hnot : ∀ call err, s.pc ≠ .returned call err) : s.Enabled := by
  cases hpc : s.pc with
  | start =>
    refine ⟨.go false, rfl, ?_⟩
    simp only [receiveStep, go, hpc]
    split_ifs <;> rfl
  | receive =>
    simp only [Gate, hpc] at hgate
    exact ⟨.message ⟨[], false, false, .ok⟩, rfl, by simp [receiveStep, hpc, hgate]⟩
  | admission frame => exact ⟨.check .ok, rfl, by simp [receiveStep, hpc]⟩
  | keep frame =>
    refine enabled_of_lock hcloses hreads (by rw [hpc]; rfl) (by rw [hpc]; rfl)
      fun hmu => ⟨.go false, rfl, ?_⟩
    simp only [receiveStep, go, hpc, hmu]
    split_ifs <;> rfl
  | lifetime frame => exact ⟨.lifetime true, rfl, by simp [receiveStep, hpc]⟩
  | deadline => exact ⟨.setDeadline none, rfl, by simp [receiveStep, hpc]⟩
  | header got =>
    by_cases hsession : s.kind.isSession = true
    · exact ⟨.go false, rfl, by simp [receiveStep, go, hpc, hsession]⟩
    · refine ⟨.read [] (some .other), rfl, ?_⟩
      simp only [receiveStep, read, hpc, if_neg hsession]
      exact s.streamRead_isSome _ _
  | answer w => exact ⟨.write none, rfl, by simp [receiveStep, hpc]⟩
  | bind n =>
    refine enabled_of_lock hcloses hreads (by rw [hpc]; rfl) (by rw [hpc]; rfl)
      fun hmu => ⟨.go false, rfl, ?_⟩
    simp only [receiveStep, go, hpc, hmu]
    split_ifs <;> rfl
  | binding n => exact ⟨.bind .ok, rfl, by simp [receiveStep, hpc]⟩
  | checking n => exact ⟨.check .ok, rfl, by simp [receiveStep, hpc]⟩
  | body n frame =>
    by_cases hgo : n ≤ frame.length ∨ s.kind.isSession = true
    · refine ⟨.go false, rfl, ?_⟩
      simp only [receiveStep, go, hpc]
      split_ifs with hfull hsession
      · rfl
      · rfl
      · exact absurd hgo (not_or.2 ⟨hfull, hsession⟩)
    · refine ⟨.read [] (some .other), rfl, ?_⟩
      simp only [receiveStep, read, hpc, if_neg hgo]
      exact s.streamRead_isSome _ _
  | reading n frame limit =>
    exact ⟨.read [] (some .other), rfl, by simp [receiveStep, read, hpc]⟩
  | valid frame =>
    refine ⟨.go false, rfl, ?_⟩
    simp only [receiveStep, go, hpc]
    split_ifs <;> rfl
  | finish frame =>
    refine ⟨.go false, rfl, ?_⟩
    simp only [receiveStep, go, hpc]
    split_ifs <;> rfl
  | fail err => exact ⟨.go false, rfl, by simp [receiveStep, go, hpc]⟩
  | refuse result => exact ⟨.go false, rfl, by simp [receiveStep, go, hpc]⟩
  | closing c result =>
    have hidle : s.call.reading = 0 := hreads.trans (by rw [hpc]; rfl)
    cases c with
    | lock =>
      refine enabled_of_lock hcloses hreads (by rw [hpc]; rfl) (by rw [hpc]; rfl)
        fun hmu => ⟨.go false, rfl, ?_⟩
      simp only [receiveStep, go, hpc, closeStep, hmu]
      split_ifs <;> rfl
    | drain => exact ⟨.go false, rfl, by simp [receiveStep, go, hpc, closeStep, hidle]⟩
    | _ => exact ⟨.go false, rfl, by simp [receiveStep, go, hpc, closeStep]⟩
  | release result => exact ⟨.go false, rfl, by simp [receiveStep, go, hpc]⟩
  | returned call err => exact absurd hpc (hnot call err)

end

structure Receive.Sound (s : Receive) : Prop where
  gate : s.Gate
  closes : s.Closes
  reads : s.Reads

theorem Receive.sound_of_run {kind : ConnKind} {limit : ℕ} {now : ℤ} {ctxDone : Bool}
    {acts : List ReceiveAct} {s : Receive}
    (hrun : run receiveStep (.start kind limit now ctxDone) acts = some s) : s.Sound where
  gate := run_invariant_of_forall (fun _ _ _ => gate_step)
    (gate_start kind limit now ctxDone) hrun
  closes := run_invariant_of_forall (fun _ _ _ h hm => h.moved (moved_of_step hm))
    (closes_start kind limit now ctxDone) hrun
  reads := run_invariant_of_forall (fun _ _ _ h hm => h.moved (moved_of_step hm))
    (show (start kind limit now ctxDone).Reads from rfl) hrun

end Listen
