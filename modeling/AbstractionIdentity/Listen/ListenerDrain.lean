import AbstractionIdentity.Listen.ListenerOwnership

/-!
# The connections of a session listener are handed over or closed

Until its goroutine ends, an accepted connection can always make a step. When `Close` returns
nothing is left to the listener but the calls that were delivered and not closed.
-/

namespace Listen

open Transition List Option Accepted

/-- The step that the connection makes next, with its number: of the accept loop, of its
goroutine, of `Accept`, or of the caller that has its call. -/
def Accepted.turn (i : ℕ) (x : Accepted) : ListenerAct :=
  match x.pc with
  | .accepted => .loop
  | .admission => .admission i []
  | .offer _ | .callOffer => .take i
  | .exchange => if x.call.any CallPhase.isDone then .serve i .whole else .caller i
  | _ => .serve i .whole

section

variable {s t : Listener} {i : ℕ} {x y : Accepted}

theorem Listener.serve_isSome {f : Finding} (hi : s.conns[i]? = some x)
    (h : (x.next s.done f).isSome = true) : (listenerStep s (.serve i f)).isSome = true := by
  rw [listenerStep, hi]
  simpa using h

theorem Listener.admission_isSome (hi : s.conns[i]? = some x) (hpc : x.pc = .admission) :
    (listenerStep s (.admission i [])).isSome = true := by
  have hl : (if (s.indices registered).length < s.maxSessions then (s.conns, true)
      else retireIdle s.conns []).1 = s.conns := by
    split_ifs <;> rfl
  simp only [listenerStep, admitSession]
  rw [hl, hi]
  simp [hpc]

theorem Accepted.Delivered.callClose_isSome (h : x.Delivered) (done : Bool)
    (hopen : x.call.any CallPhase.isDone = false) : (x.callClose done).isSome = true := by
  obtain ⟨ph, hcall, hne⟩ := h
  rw [hcall] at hopen
  cases ph with
  | offered => exact absurd rfl hne
  | opened | closing => simp [callClose, hcall]
  | _ => cases hopen

/-- A connection whose goroutine has not ended can make its next step. -/
theorem Listener.Owned.turn_isSome (h : s.Owned) (hi : s.conns[i]? = some x)
    (hended : x.pc ≠ .ended) : (listenerStep s (x.turn i)).isSome = true := by
  cases hpc : x.pc with
  | accepted =>
    simp only [turn, hpc, listenerStep]
    have hheld := h.accepted i x hi hpc
    cases hl : s.loop with
    | got j =>
      obtain rfl : j = i := by simpa only [hl, AcceptLoopPc.holds] using hheld
      simp only [Listener.loopStep, hl, hi, bind_some]
      split_ifs <;> rfl
    | refuse j stop =>
      obtain rfl : j = i := by simpa only [hl, AcceptLoopPc.holds] using hheld
      simp only [Listener.loopStep, hl, hi, bind_some, isSome_some]
    | _ => simp only [hl, AcceptLoopPc.holds] at hheld
  | admission =>
    simp only [Accepted.turn, hpc]
    exact admission_isSome hi hpc
  | offer counted =>
    simp only [Accepted.turn, hpc, listenerStep, hi]
    simp [Accepted.take, hpc]
  | callOffer =>
    simp only [Accepted.turn, hpc, listenerStep, hi]
    simp [Accepted.take, hpc]
  | exchange =>
    simp only [turn, hpc]
    split_ifs with hdone
    · exact serve_isSome hi (by simp [Accepted.next, hpc, hdone])
    · have hsound := h.sound i x hi
      simp only [Accepted.Sound, hpc] at hsound
      have hcaller := hsound.2.2.2.2.2.callClose_isSome s.done (by simpa using hdone)
      simp only [listenerStep, hi]
      simpa using hcaller
  | ended => exact absurd hpc hended
  | release | top | rest =>
    simp only [turn, hpc]
    refine serve_isSome hi ?_
    simp only [Accepted.next, hpc]
    split_ifs <;> rfl
  | _ =>
    simp only [turn, hpc]
    exact serve_isSome hi (by simp [Accepted.next, hpc])

/-- A connection whose goroutine has ended was handed over or is closed, but for the
`Close` of an interruption. -/
theorem Listener.Owned.ended (h : s.Owned) (hi : s.conns[i]? = some x) (hpc : x.pc = .ended) :
    0 < x.handed ∨ x.closed = true ∨ s.shut.closes i := by
  have hsound := h.sound i x hi
  have hplace := hsound
  simp only [Accepted.Sound, hpc] at hplace
  rcases hsound.dismissed (by simp [hpc]) hplace.1 hplace.2.1 with hhanded | hclosed | hint
  · exact .inl hhanded
  · exact .inr (.inl hclosed)
  · exact .inr (h.interrupted i x hi hint)

/-- The connections of `cs` apart, every connection is drained, and no connection comes
before `prepare` or is in it. -/
structure Listener.Draining (s : Listener) (cs : List ℕ) : Prop where
  shut : s.shut = .finished
  loop : s.loop = .ended
  listed : ∀ (i : ℕ) (x : Accepted), s.conns[i]? = some x → x.listed = false
  drained : ∀ (i : ℕ) (x : Accepted), s.conns[i]? = some x → x.Drained ∨ i ∈ cs

def Listener.Drains (s : Listener) : DrainPc → Prop
  | .shutdown => True
  | .accept => s.shut = .finished
  | .pending => s.shut = .finished ∧ s.loop = .ended
  | .waitPending ps => s.shut = .finished ∧ s.loop = .ended ∧
      ∀ (i : ℕ) (x : Accepted), s.conns[i]? = some x → x.listed = true → i ∈ ps
  | .sessions => s.shut = .finished ∧ s.loop = .ended ∧
      ∀ (i : ℕ) (x : Accepted), s.conns[i]? = some x → x.listed = false
  | .check cs => s.Draining cs
  | .handoff c _ cs | .active c cs | .waitSession c cs => s.Draining (c :: cs)
  | .returned => s.Draining []

theorem Accepted.Sound.listed_of_prepared (h : x.Sound) (hprepared : x.prepared = true) :
    x.listed = false := by
  have hno : x.prepared ≠ false := by simp [hprepared]
  unfold Sound at h
  cases hpc : x.pc <;> simp only [hpc] at h
  case accepted =>
    rw [h]
    rfl
  case start | first | release | discard | admission | decline => exact absurd h.2.1 hno
  case deliver | offer => exact absurd h.1.2.1 hno
  case uncount after => cases after <;> exact absurd h.2.1 hno
  case unlist session => cases session <;> exact absurd h.2.1 hno
  case prepared session => cases session <;> exact h.1
  case handoff delivered => cases delivered <;> exact h.1
  case adopt => exact absurd h.2.1 hno
  all_goals exact h.1

theorem Accepted.Sound.evolved (h : x.Sound)
    (hxy : Relation.ReflTransGen (AcceptedMoved true) x y) :
    y.Sound ∧ (x.Drained → y.Drained) ∧
      (x.pc ≠ .accepted → y.pc ≠ .accepted ∧ (x.listed = false → y.listed = false)) := by
  induction hxy with
  | refl => exact ⟨h, id, fun hpc => ⟨hpc, id⟩⟩
  | tail _ hm ih =>
    obtain ⟨hsound, hdrained, hlisted⟩ := ih
    refine ⟨hsound.moved hm, fun hd => (hdrained hd).moved hsound hm, fun hpc => ?_⟩
    obtain ⟨hpc', hl⟩ := hlisted hpc
    exact ⟨fun h => hpc' (hm.forward.place h), fun h => hm.forward.listed hpc' (hl h)⟩

theorem Listener.Owned.lookup_evolves (h : s.Owned) (hev : s.Evolves t)
    (hshut : s.shut = .finished) (hloop : s.loop = .ended) (hy : t.conns[i]? = some y) :
    ∃ x, s.conns[i]? = some x ∧ (x.Drained → y.Drained) ∧
      (x.listed = false → y.listed = false) := by
  have hdone : s.done = true := by
    by_contra hopen
    rw [h.begun.1 (by simpa using hopen)] at hshut
    cases hshut
  obtain ⟨x, hx, hxy⟩ := hev.conns (by simp [hloop]) i y hy
  rw [hdone] at hxy
  obtain ⟨-, hdrained, hlisted⟩ := (h.sound i x hx).evolved hxy
  refine ⟨x, hx, hdrained, (hlisted fun hpc => ?_).2⟩
  have hheld := h.accepted i x hx hpc
  rw [hloop] at hheld
  exact hheld

theorem Listener.Draining.evolves {cs : List ℕ} (hd : s.Draining cs) (h : s.Owned)
    (hev : s.Evolves t) : t.Draining cs := by
  refine ⟨hev.shut hd.shut, hev.loop hd.loop, fun i y hy => ?_, fun i y hy => ?_⟩
  · obtain ⟨x, hx, -, hlisted⟩ := h.lookup_evolves hev hd.shut hd.loop hy
    exact hlisted (hd.listed i x hx)
  · obtain ⟨x, hx, hdrained, -⟩ := h.lookup_evolves hev hd.shut hd.loop hy
    exact (hd.drained i x hx).imp_left hdrained

theorem Listener.Drains.evolves {pc : DrainPc} (hd : s.Drains pc) (h : s.Owned)
    (hev : s.Evolves t) : t.Drains pc := by
  cases pc with
  | shutdown => trivial
  | accept => exact hev.shut hd
  | pending => exact ⟨hev.shut hd.1, hev.loop hd.2⟩
  | waitPending ps =>
    obtain ⟨hshut, hloop, hps⟩ := hd
    refine ⟨hev.shut hshut, hev.loop hloop, fun i y hy hlisted => ?_⟩
    obtain ⟨x, hx, -, hl⟩ := h.lookup_evolves hev hshut hloop hy
    refine hps i x hx ?_
    by_contra hnot
    rw [hl (by simpa using hnot)] at hlisted
    cases hlisted
  | sessions =>
    obtain ⟨hshut, hloop, hnone⟩ := hd
    refine ⟨hev.shut hshut, hev.loop hloop, fun i y hy => ?_⟩
    obtain ⟨x, hx, -, hl⟩ := h.lookup_evolves hev hshut hloop hy
    exact hl (hnone i x hx)
  | check cs => exact Draining.evolves hd h hev
  | handoff c r cs => exact Draining.evolves hd h hev
  | active c cs => exact Draining.evolves hd h hev
  | waitSession c cs => exact Draining.evolves hd h hev
  | returned => exact Draining.evolves hd h hev

theorem Listener.mem_indices {p : Accepted → Bool} :
    i ∈ s.indices p ↔ ∃ x, s.conns[i]? = some x ∧ p x = true := by
  rw [indices, mem_filter, mem_range]
  constructor
  · rintro ⟨hlt, hany⟩
    rw [List.getElem?_eq_getElem hlt] at hany ⊢
    exact ⟨_, rfl, hany⟩
  · rintro ⟨x, hx, hp⟩
    rw [hx]
    exact ⟨(List.getElem?_eq_some_iff.1 hx).1, hp⟩

theorem Listener.Owned.drained (h : s.Owned) (hshut : s.shut = .finished)
    (hloop : s.loop = .ended) (hi : s.conns[i]? = some x) (hlisted : x.listed = false)
    (hregistered : x.registered = false) : x.Drained := by
  have hpc : x.pc ≠ .accepted := by
    intro hpc
    have hheld := h.accepted i x hi hpc
    rw [hloop] at hheld
    exact hheld
  rcases (h.sound i x hi).dismissed hpc hlisted hregistered with hhanded | hclosed | hint
  · exact .inr (.inl hhanded)
  · exact .inl hclosed
  · rcases h.interrupted i x hi hint with hclosed | hcloses
    · exact .inl hclosed
    · rw [hshut] at hcloses
      cases hcloses

theorem Accepted.Delivered.drained (h : x.Delivered)
    (hopen : x.call.any CallPhase.isDone = false) : x.Drained := by
  obtain ⟨ph, hcall, hne⟩ := h
  refine .inr (.inr ⟨ph, hcall, hne, ?_⟩)
  rintro rfl
  rw [hcall] at hopen
  cases hopen

theorem Listener.Draining.tail {c : ℕ} {cs : List ℕ} (hd : s.Draining (c :: cs))
    (hc : ∀ x, s.conns[c]? = some x → x.Drained) : s.Draining cs := by
  refine { hd with drained := fun i x hx => ?_ }
  rcases hd.drained i x hx with hdrained | hmem
  · exact .inl hdrained
  · rcases mem_cons.1 hmem with rfl | hmem
    · exact .inl (hc x hx)
    · exact .inr hmem

theorem Listener.Drains.step {pc pc' : DrainPc} (hd : s.Drains pc) (h : s.Owned)
    (hstep : s.drainStep i pc = some pc') : s.Drains pc' := by
  cases pc with
  | shutdown =>
    simp only [drainStep] at hstep
    split_ifs at hstep with hshut
    cases hstep
    exact hshut
  | accept =>
    simp only [drainStep] at hstep
    split_ifs at hstep with hloop
    cases hstep
    exact ⟨hd, hloop⟩
  | pending =>
    cases hstep
    exact ⟨hd.1, hd.2, fun i x hx hlisted => mem_indices.2 ⟨x, hx, hlisted⟩⟩
  | waitPending ps =>
    obtain ⟨hshut, hloop, hps⟩ := hd
    cases ps with
    | nil =>
      cases hstep
      refine ⟨hshut, hloop, fun i x hx => ?_⟩
      by_contra hlisted
      exact absurd (hps i x hx (by simpa using hlisted)) (not_mem_nil)
    | cons p ps =>
      simp only [drainStep] at hstep
      split_ifs at hstep with hi
      cases hstep
      refine ⟨hshut, hloop, fun j x hx hlisted => ?_⟩
      refine (mem_erase_of_ne ?_).2 (hps j x hx hlisted)
      rintro rfl
      have hprepared : x.prepared = true := by simpa [hx] using hi.2
      rw [(h.sound j x hx).listed_of_prepared hprepared] at hlisted
      cases hlisted
  | sessions =>
    obtain ⟨hshut, hloop, hnone⟩ := hd
    cases hstep
    refine ⟨hshut, hloop, hnone, fun i x hx => ?_⟩
    cases hregistered : x.registered with
    | true => exact .inr (mem_indices.2 ⟨x, hx, hregistered⟩)
    | false => exact .inl (h.drained hshut hloop hx (hnone i x hx) hregistered)
  | check cs =>
    cases cs with
    | nil =>
      cases hstep
      exact hd
    | cons c cs =>
      simp only [drainStep] at hstep
      split_ifs at hstep with hmem
      obtain ⟨x, hx, rfl⟩ := map_eq_some_iff.1 hstep
      have hperm := perm_cons_erase hmem
      have hd' : s.Draining (i :: (c :: cs).erase i) := { hd with
        drained := fun j y hy => (Draining.drained hd j y hy).imp_right hperm.mem_iff.1 }
      cases hh : x.handoffDone <;> exact hd'
  | handoff c r cs =>
    obtain ⟨x, hx, hstep⟩ := bind_eq_some_iff.1 hstep
    split_ifs at hstep
    cases hstep
    exact hd
  | active c cs =>
    obtain ⟨x, hx, rfl⟩ := map_eq_some_iff.1 hstep
    split_ifs with hwait
    · exact hd
    · obtain ⟨hactive, hopen⟩ := not_or.1 hwait
      refine Draining.tail hd fun y hy => ?_
      obtain rfl : x = y := some.inj (hx.symm.trans hy)
      exact ((h.sound c x hx).delivered_of_active (by simpa using hactive)).drained
        (by simpa using hopen)
  | waitSession c cs =>
    obtain ⟨x, hx, hstep⟩ := bind_eq_some_iff.1 hstep
    split_ifs at hstep with hfinished
    cases hstep
    refine Draining.tail hd fun y hy => ?_
    obtain rfl : x = y := some.inj (hx.symm.trans hy)
    exact .inl ((h.sound c x hx).closed_of_finished hfinished)
  | returned => cases hstep

end

structure Listener.Ordered (s : Listener) : Prop where
  owned : s.Owned
  closers : ∀ (k : ℕ) (pc : DrainPc), s.closers[k]? = some pc → s.Drains pc

theorem Listener.ordered_start (maxSessions : ℕ) : (Listener.start maxSessions).Ordered :=
  ⟨owned_start maxSessions, fun k pc hk => by simp [start] at hk⟩

theorem Listener.Ordered.step {s t : Listener} (h : s.Ordered) {act : ListenerAct}
    (hstep : listenerStep s act = some t) : t.Ordered := by
  obtain ⟨howned, hev⟩ := h.owned.step hstep
  refine ⟨howned, fun k pc hk => ?_⟩
  rcases hev.closers k pc hk with rfl | ⟨pc', hk', rfl | ⟨i, hi⟩⟩
  · trivial
  · exact (h.closers k _ hk').evolves h.owned hev
  · exact ((h.closers k pc' hk').step h.owned hi).evolves h.owned hev

theorem Listener.ordered_of_run {maxSessions : ℕ} {acts : List ListenerAct} {s : Listener}
    (hrun : run listenerStep (.start maxSessions) acts = some s) : s.Ordered :=
  run_invariant_of_forall (fun _ _ _ h hstep => h.step hstep) (ordered_start maxSessions) hrun

theorem Listener.maxSessions_of_run {maxSessions : ℕ} {acts : List ListenerAct} {s : Listener}
    (hrun : run listenerStep (.start maxSessions) acts = some s) :
    s.maxSessions = maxSessions := by
  have hstep : ∀ s a t, s.Owned ∧ s.maxSessions = maxSessions → listenerStep s a = some t →
      t.Owned ∧ t.maxSessions = maxSessions := by
    rintro s a t ⟨howned, hmax⟩ hstep
    obtain ⟨howned', hev⟩ := howned.step hstep
    exact ⟨howned', hev.maxSessions.trans hmax⟩
  exact (run_invariant_of_forall hstep ⟨owned_start maxSessions, rfl⟩ hrun).2

/-- In every interleaving an accepted connection is handed to `Accept` once or closed by the
listener, not both; until then its next step is possible. At most twice `MaxSessions` wait, and
after `Close` only delivered calls are left. -/
theorem listener_ownership_and_drain (maxSessions : ℕ) (acts : List ListenerAct)
    (s : Listener) (hrun : run listenerStep (.start maxSessions) acts = some s) :
    (∀ (i : ℕ) (x : Accepted), s.conns[i]? = some x →
      x.handed ≤ 1 ∧ (0 < x.handed → x.closed = false) ∧
      (x.pc = .ended → 0 < x.handed ∨ x.closed = true ∨ s.shut.closes i) ∧
      (x.pc ≠ .ended → (listenerStep s (x.turn i)).isSome = true)) ∧
    0 ≤ s.waiting ∧ s.waiting ≤ 2 * maxSessions ∧
    (.returned ∈ s.closers → ∀ (i : ℕ) (x : Accepted), s.conns[i]? = some x →
      x.closed = true ∨ 0 < x.handed ∨
        ∃ ph, x.call = some ph ∧ ph ≠ .offered ∧ ph ≠ .returned) := by
  have hs := Listener.ordered_of_run hrun
  have hmax := Listener.maxSessions_of_run hrun
  refine ⟨fun i x hx => ?_, ?_, ?_, fun hret i x hx => ?_⟩
  · obtain ⟨honce, hkept⟩ := (hs.owned.sound i x hx).handed
    exact ⟨honce, hkept, hs.owned.ended hx, hs.owned.turn_isSome hx⟩
  · rw [hs.owned.waiting]
    exact Int.natCast_nonneg _
  · rw [← hmax]
    exact hs.owned.cap
  · obtain ⟨k, hk⟩ := List.getElem?_of_mem hret
    have hd : s.Draining [] := hs.closers k .returned hk
    exact (hd.drained i x hx).resolve_right not_mem_nil

/-- One connection is handed over, one opens a session, one is interrupted, and a `Close` returns.
-/
def closeRun : List ListenerAct :=
  [.accept .message, .loop, .serve 0 .whole, .serve 0 .whole, .serve 0 .whole,
    .serve 0 .whole, .take 0, .serve 0 .whole, .serve 0 .whole,
    .accept .stream, .loop, .serve 1 .whole, .serve 1 .whole, .serve 1 .whole,
    .admission 1 [], .serve 1 .whole, .serve 1 .whole, .serve 1 .whole, .serve 1 .whole,
    .serve 1 .whole, .serve 1 .whole, .take 1, .serve 1 .whole, .serve 1 .whole,
    .accept .stream, .loop, .serve 2 .whole, .close, .shutdown 0, .shutdown 0, .shutdown 0,
    .shutdown 2, .shutdown 2, .shutdown 2, .serve 2 .failed, .serve 2 .whole,
    .serve 2 .whole, .serve 2 .whole, .serve 2 .whole, .acceptFails, .loop, .loop,
    .closer 0 0, .closer 0 0, .closer 0 0, .closer 0 0, .closer 0 0, .closer 0 1,
    .closer 0 1, .closer 0 1]

theorem listener_ownership_and_drain_sample :
    ∃ s, run listenerStep (.start 1) closeRun = some s ∧ s.closers = [.returned] ∧
      s.conns.map (fun x => (x.handed, x.closed, x.call)) =
        [(1, false, none), (0, false, some .opened), (0, true, none)] ∧
      ∀ (i : ℕ) (x : Accepted), s.conns[i]? = some x → x.closed = true ∨ 0 < x.handed ∨
        ∃ ph, x.call = some ph ∧ ph ≠ .offered ∧ ph ≠ .returned :=
  ⟨_, rfl, rfl, rfl, (listener_ownership_and_drain 1 closeRun _ rfl).2.2.2 (.head [])⟩

end Listen
