import AbstractionIdentity.Binding.Views

/-!
# The life cycle of a binding

`Lifecycle` is the contract on a log: a view never releases, the platform release starts at most
once, no query starts after it, and a query made after the owner's `Close` returned answers that
the binding is closed. `Guarded` is the invariant that carries it.
-/

namespace Binding

open Lock Transition List Event

structure Lifecycle (log : List Event) : Prop where
  views_keep : ∀ b, Event.release b ∈ log → b.isView = false
  once : log.countP Event.isRelease ≤ 1
  ordered : log.Pairwise fun a b => a.isRelease → ¬ b.isQuery
  refused : ∀ op res, op ≠ .close → Event.returned op true res ∈ log →
    res = .errClosed

theorem lifecycle_nil : Lifecycle [] := ⟨by simp, by simp, .nil, by simp⟩

variable {b : Binder} {log : List Event} {m : Move} {res : Outcome} {th : Thread} {w : World}

theorem Lifecycle.append_returned (h : Lifecycle log) {op : Op} {late : Bool}
    (hres : op ≠ .close → late = true → res = .errClosed) :
    Lifecycle (log ++ [.returned op late res]) where
  views_keep b hb := h.views_keep b (by simpa using hb)
  once := by simpa [isRelease] using h.once
  ordered := by
    rw [pairwise_append]
    exact ⟨h.ordered, by simp, by simp [isQuery]⟩
  refused op' res' hop hmem := by
    rcases mem_append.1 hmem with hold | hnew
    · exact h.refused op' res' hop hold
    · simp only [mem_singleton, returned.injEq] at hnew
      obtain ⟨rfl, rfl, rfl⟩ := hnew
      exact hres hop rfl

theorem Lifecycle.append_query (h : Lifecycle log) (op : Op)
    (hnone : log.countP isRelease = 0) : Lifecycle (log ++ [.query op]) where
  views_keep b hb := h.views_keep b (by simpa using hb)
  once := by simpa [isRelease] using h.once
  ordered := by
    rw [pairwise_append]
    refine ⟨h.ordered, by simp, ?_⟩
    intro a ha _ _ hrel
    exact absurd hrel (countP_eq_zero.1 hnone a ha)
  refused op' res' hop hmem := h.refused op' res' hop (by simpa using hmem)

theorem Lifecycle.append_release (h : Lifecycle log)
    (hb : b.isView = false) (hnone : log.countP isRelease = 0) :
    Lifecycle (log ++ [.release b]) where
  views_keep b' hmem := by
    rcases mem_append.1 hmem with hold | hnew
    · exact h.views_keep b' hold
    · simp only [mem_singleton, release.injEq] at hnew
      rw [hnew]
      exact hb
  once := by simp [hnone, isRelease]
  ordered := by
    rw [pairwise_append]
    exact ⟨h.ordered, by simp, by simp [isQuery]⟩
  refused op' res' hop hmem := h.refused op' res' hop (by simpa using hmem)

def Binder.Over : Binder → Prop
  | .platform => False
  | .state => True
  | .shared b => b.Over

theorem Binder.Over.query_eq (h : b.Over) : b.query = .guarded := by
  induction b with
  | platform => exact h.elim
  | state => rfl
  | shared b ih => exact ih h

theorem Binder.Over.release_eq (h : b.Over) :
    b.release = .guarded ∧ b.isView = false ∨ b.release = .nowhere := by
  cases b with
  | platform => exact h.elim
  | state => exact .inl ⟨rfl, rfl⟩
  | shared b => exact .inr rfl

/-- A call on the guarded state: it makes no platform call outside the lock, and
only the owner takes the lock for writing. -/
structure Thread.Over (th : Thread) : Prop where
  binder : th.binder.Over
  calling : th.pc ≠ .calling false
  releasing : th.pc ≠ .releasing false
  owner : th.pc.mode = .write → th.binder.isView = false

inductive GuardedMove (w : World) (th : Thread) (res : Outcome) : Move → Prop
  | view (hpc : th.pc = .start) : GuardedMove w th res
      ⟨.done, [.returned .close th.late .ok], w.closed, w.closeErr, w.ownerClosed⟩
  | lock (hpc : th.pc = .start) (hfree : admits w.held .write = true)
      (hview : th.binder.isView = false) :
      GuardedMove w th res ⟨.locked, [], w.closed, w.closeErr, w.ownerClosed⟩
  | rlock (hpc : th.pc = .start) (hfree : admits w.held .read = true) :
      GuardedMove w th res ⟨.held, [], w.closed, w.closeErr, w.ownerClosed⟩
  | refuse (hpc : th.pc = .held) : GuardedMove w th res
      ⟨.done, [.returned th.op th.late .errClosed], w.closed, w.closeErr, w.ownerClosed⟩
  | query (hpc : th.pc = .held) (hopen : w.closed = false) : GuardedMove w th res
      ⟨.calling true, [.query th.op], w.closed, w.closeErr, w.ownerClosed⟩
  | answer (hpc : th.pc = .calling true) : GuardedMove w th res
      ⟨.done, [.returned th.op th.late res], w.closed, w.closeErr, w.ownerClosed⟩
  | again (hpc : th.pc = .locked) (hclosed : w.closed = true) : GuardedMove w th res
      ⟨.done, [.returned .close th.late w.closeErr], true, w.closeErr, true⟩
  | release (hpc : th.pc = .locked) (hopen : w.closed = false) : GuardedMove w th res
      ⟨.releasing true, [.release th.binder], w.closed, w.closeErr, w.ownerClosed⟩
  | released (hpc : th.pc = .releasing true) : GuardedMove w th res
      ⟨.done, [.returned .close th.late res], true, res, true⟩

theorem Thread.next_start_close (h : th.Over) (hpc : th.pc = .start) (hop : th.op = .close)
    (hnext : th.next w res = some m) : GuardedMove w th res m := by
  simp only [Thread.next, hpc, hop] at hnext
  rcases h.binder.release_eq with ⟨hrel, hview⟩ | hrel
  · simp only [hrel] at hnext
    split at hnext
    · next hfree =>
        cases hnext
        exact .lock hpc hfree hview
    · cases hnext
  · simp only [hrel] at hnext
    cases hnext
    exact .view hpc

theorem Thread.next_start_query (h : th.Over) (hpc : th.pc = .start) (hop : th.op ≠ .close)
    (hnext : th.next w res = some m) : GuardedMove w th res m := by
  simp only [Thread.next, hpc, h.binder.query_eq] at hnext
  split at hnext
  · next hfree =>
      cases hnext
      exact .rlock hpc hfree
  · cases hnext

theorem Thread.next_guarded (h : th.Over) (hnext : th.next w res = some m) :
    GuardedMove w th res m := by
  cases hpc : th.pc with
  | start =>
    by_cases hop : th.op = .close
    · exact th.next_start_close h hpc hop hnext
    · exact th.next_start_query h hpc hop hnext
  | held =>
    cases hclosed : w.closed with
    | true =>
      simp only [Thread.next, hpc, hclosed] at hnext
      cases hnext
      exact hclosed ▸ .refuse hpc
    | false =>
      simp only [Thread.next, hpc, hclosed] at hnext
      cases hnext
      exact hclosed ▸ .query hpc hclosed
  | calling guarded =>
    cases guarded with
    | true =>
      simp only [Thread.next, hpc] at hnext
      cases hnext
      exact .answer hpc
    | false => exact absurd hpc h.calling
  | locked =>
    cases hclosed : w.closed with
    | true =>
      simp only [Thread.next, hpc, hclosed] at hnext
      cases hnext
      exact .again hpc hclosed
    | false =>
      simp only [Thread.next, hpc, hclosed] at hnext
      cases hnext
      exact hclosed ▸ .release hpc hclosed
  | releasing guarded =>
    cases guarded with
    | true =>
      simp only [Thread.next, hpc] at hnext
      cases hnext
      exact .released hpc
    | false => exact absurd hpc h.releasing
  | done =>
    simp only [Thread.next, hpc] at hnext
    cases hnext

/-- The lock is exclusive, a release in progress or done shows in the log and in
`closed`, and nobody is in a platform call once the state is closed. -/
structure Guarded (w : World) : Prop where
  bindings : ∀ b ∈ w.bindings, b.Over
  threads : ∀ (i : ℕ) (th : Thread), w.threads[i]? = some th → th.Over
  exclusive : Exclusive w.held
  resting : w.closed = true → ∀ (i : ℕ) (th : Thread), w.threads[i]? = some th →
    th.pc ≠ .calling true ∧ th.pc ≠ .releasing true
  unreleased : w.closed = false →
    (∀ (i : ℕ) (th : Thread), w.threads[i]? = some th → th.pc ≠ .releasing true) →
    w.log.countP Event.isRelease = 0
  owner : w.ownerClosed = true → w.closed = true
  late : ∀ (i : ℕ) (th : Thread), w.threads[i]? = some th → th.late = true →
    w.closed = true
  cycle : Lifecycle w.log

theorem guarded_init : Guarded (.init .state) where
  bindings b hb := by
    rw [mem_singleton.1 hb]
    trivial
  threads i th h := by simp [World.init] at h
  exclusive := exclusive_nil
  resting h := by cases h
  unreleased _ _ := rfl
  owner h := by cases h
  late i th h := by simp [World.init] at h
  cycle := lifecycle_nil

section Advance

variable {w : World} {i : ℕ} {th : Thread} {res : Outcome} {m : Move}

theorem GuardedMove.over (hm : GuardedMove w th res m) (h : th.Over) :
    Thread.Over { th with pc := m.pc } := by
  have hlocked : th.pc = .locked → th.binder.isView = false := by
    intro hpc
    exact h.owner (by rw [hpc]; rfl)
  cases hm with
  | lock hpc hfree hview => exact ⟨h.binder, nofun, nofun, fun _ => hview⟩
  | release hpc hopen => exact ⟨h.binder, nofun, nofun, fun _ => hlocked hpc⟩
  | _ => exact ⟨h.binder, nofun, nofun, nofun⟩

theorem GuardedMove.exclusive (hm : GuardedMove w th res m) (h : Exclusive w.held)
    (hth : w.threads[i]? = some th) : Exclusive (w.held.set i m.pc.mode) := by
  have hheld : w.held[i]? = some th.pc.mode := World.held_getElem? hth
  cases hm with
  | lock hpc hfree hview => exact h.set i hfree
  | rlock hpc hfree => exact h.set i hfree
  | query hpc hopen => exact h.set_same (by rw [hheld, hpc]; rfl)
  | release hpc hopen => exact h.set_same (by rw [hheld, hpc]; rfl)
  | _ => exact h.set i rfl

section

variable (h : Guarded w) (hth : w.threads[i]? = some th)

include h hth

theorem Guarded.no_release (hopen : w.closed = false) (hmode : th.pc.mode ≠ .free)
    (hpc : th.pc ≠ .releasing true) : w.log.countP isRelease = 0 := by
  refine h.unreleased hopen fun j x hx => ?_
  by_cases hji : j = i
  · subst hji
    rw [hth] at hx
    cases hx
    exact hpc
  · have hx' := h.exclusive.ne_write (Ne.symm hji) (World.held_getElem? hth) hmode
      (World.held_getElem? hx)
    intro hrel
    exact hx' (by rw [hrel]; rfl)

theorem Guarded.move_resting
    (hm : GuardedMove w th res m) (hclosed : m.closed = true) (j : ℕ) (x : Thread)
    (hx : (w.move i th m).threads[j]? = some x) :
    x.pc ≠ .calling true ∧ x.pc ≠ .releasing true := by
  rcases World.threads_move hx with ⟨rfl, rfl⟩ | ⟨hji, hold⟩
  · cases hm with
    | query hpc hopen => exact absurd hclosed (by simp [hopen])
    | release hpc hopen => exact absurd hclosed (by simp [hopen])
    | _ => exact ⟨nofun, nofun⟩
  · cases hm with
    | released hpc =>
      -- the releasing call holds the lock for writing, so `x` holds nothing
      have hwrite : w.held[i]? = some .write := by
        rw [World.held_getElem? hth, hpc]
        rfl
      have hfree := h.exclusive i j x.pc.mode (Ne.symm hji) hwrite
        (World.held_getElem? hold)
      constructor <;> (intro hpc'; rw [hpc'] at hfree; cases hfree)
    | again hpc hwas => exact h.resting hwas j x hold
    | _ => exact h.resting hclosed j x hold

theorem Guarded.move_unreleased (hm : GuardedMove w th res m) (hopen : m.closed = false)
    (hall : ∀ (j : ℕ) (x : Thread), (w.move i th m).threads[j]? = some x → x.pc ≠ .releasing true) :
    (w.log ++ m.events).countP isRelease = 0 := by
  have hmoved : (w.move i th m).threads[i]? = some { th with pc := m.pc } := by
    rw [World.move]
    exact (lookup_set_iff hth).2 (.inl ⟨rfl, rfl⟩)
  have hothers : th.pc ≠ .releasing true →
      ∀ (j : ℕ) (x : Thread), w.threads[j]? = some x → x.pc ≠ .releasing true := by
    intro hpc j x hx
    by_cases hji : j = i
    · subst hji
      rw [hth] at hx
      cases hx
      exact hpc
    · apply hall j x
      rw [World.move]
      exact (lookup_set_iff hth).2 (.inr ⟨hji, hx⟩)
  have hkeep : w.closed = false → th.pc ≠ .releasing true → w.log.countP isRelease = 0 :=
    fun hw hpc => h.unreleased hw (hothers hpc)
  cases hm with
  | release hpc hw => exact absurd rfl (hall i _ hmoved)
  | again hpc hclosed => cases hopen
  | released hpc => cases hopen
  | view hpc => simpa [isRelease] using hkeep hopen (by simp [hpc])
  | lock hpc hfree hview => simpa using hkeep hopen (by simp [hpc])
  | rlock hpc hfree => simpa using hkeep hopen (by simp [hpc])
  | refuse hpc => simpa [isRelease] using hkeep hopen (by simp [hpc])
  | query hpc hw => simpa [isRelease] using hkeep hopen (by simp [hpc])
  | answer hpc => simpa [isRelease] using hkeep hopen (by simp [hpc])

theorem Guarded.move_cycle (hm : GuardedMove w th res m) : Lifecycle (w.log ++ m.events) := by
  cases hm with
  | lock hpc hfree hview => simpa using h.cycle
  | rlock hpc hfree => simpa using h.cycle
  | query hpc hopen =>
    refine h.cycle.append_query _ (h.no_release hth hopen ?_ ?_) <;> simp [hpc, Pc.mode]
  | release hpc hopen =>
    have hview := (h.threads i th hth).owner (by rw [hpc]; rfl)
    refine h.cycle.append_release hview (h.no_release hth hopen ?_ ?_) <;>
      simp [hpc, Pc.mode]
  | answer hpc =>
    -- a late call finds the state closed, and then nobody is in a query
    refine h.cycle.append_returned fun _ hlate => ?_
    exact absurd hpc (h.resting (h.late i th hth hlate) i th hth).1
  | refuse hpc => exact h.cycle.append_returned fun _ _ => rfl
  | view hpc => exact h.cycle.append_returned fun hop _ => absurd rfl hop
  | again hpc hclosed => exact h.cycle.append_returned fun hop _ => absurd rfl hop
  | released hpc => exact h.cycle.append_returned fun hop _ => absurd rfl hop

end

theorem GuardedMove.closed_of_closed (hm : GuardedMove w th res m)
    (hclosed : w.closed = true) : m.closed = true := by
  cases hm <;> first | exact hclosed | rfl

theorem Guarded.move (h : Guarded w) (hth : w.threads[i]? = some th)
    (hm : GuardedMove w th res m) : Guarded (w.move i th m) where
  bindings := h.bindings
  threads j x hx := by
    rcases World.threads_move hx with ⟨rfl, rfl⟩ | ⟨_, hx⟩
    · exact hm.over (h.threads j th hth)
    · exact h.threads j x hx
  exclusive := by
    rw [World.held_move]
    exact hm.exclusive h.exclusive hth
  resting := h.move_resting hth hm
  unreleased := h.move_unreleased hth hm
  owner howner := by
    cases hm with
    | again hpc hclosed => rfl
    | released hpc => rfl
    | _ => exact h.owner howner
  late j x hx hlate := by
    apply hm.closed_of_closed
    rcases World.threads_move hx with ⟨rfl, rfl⟩ | ⟨_, hx⟩
    · exact h.late j th hth hlate
    · exact h.late j x hx hlate
  cycle := h.move_cycle hth hm

end Advance

theorem Guarded.step {t : World} {a : Act} (h : Guarded w) (hstep : step w a = some t) :
    Guarded t := by
  cases a with
  | share i =>
    obtain ⟨b, hb, rfl⟩ := step_share hstep
    refine ⟨?_, h.threads, h.exclusive, h.resting, h.unreleased, h.owner, h.late, h.cycle⟩
    intro b' hb'
    rcases mem_append.1 hb' with hold | hnew
    · exact h.bindings b' hold
    · rw [mem_singleton.1 hnew]
      exact h.bindings b hb
  | call i op =>
    obtain ⟨b, hb, rfl⟩ := step_call hstep
    refine ⟨h.bindings, ?_, ?_, ?_, ?_, h.owner, ?_, h.cycle⟩
    · refine forall_concat h.threads ⟨h.bindings b hb, ?_, ?_, ?_⟩ <;>
        (intro hpc; cases hpc)
    · simpa [World.held, Pc.mode] using h.exclusive.append_free
    · intro hclosed
      refine forall_concat (h.resting hclosed) ⟨?_, ?_⟩ <;> (intro hpc; cases hpc)
    · intro hopen hall
      refine h.unreleased hopen fun j x hx => hall j x ?_
      have hlt := (List.getElem?_eq_some_iff.1 hx).1
      exact lookup_concat_iff.2 (.inr ⟨Nat.ne_of_lt hlt, hx⟩)
    · exact forall_concat h.late h.owner
  | advance i res =>
    obtain ⟨th, m, hth, hnext, rfl⟩ := step_advance hstep
    exact h.move hth (th.next_guarded (h.threads i th hth) hnext)

theorem lifecycle_of_state {acts : List Act}
    (hrun : run step (.init .state) acts = some w) : Lifecycle w.log :=
  (run_invariant_of_forall (fun _ _ _ h hstep => h.step hstep) guarded_init hrun).cycle

def peerAfterClose : List Act :=
  [.call 0 .close, .advance 0 .ok, .advance 0 .ok,
    .call 0 .peer, .advance 1 .ok, .advance 1 .ok]

def peerAfterCloseLog : List Event :=
  [.release .platform, .returned .close false .ok, .query .peer,
    .returned .peer true .ok]

theorem run_peerAfterClose :
    ∃ w, run step (.init .platform) peerAfterClose = some w ∧ w.log = peerAfterCloseLog :=
  ⟨_, rfl, rfl⟩

theorem not_lifecycle_peerAfterCloseLog : ¬ Lifecycle peerAfterCloseLog := by
  intro h
  have hres : Outcome.ok = .errClosed := h.refused .peer .ok nofun (by decide)
  cases hres

theorem construct_eq_platform_iff (c : Constructor) (p : Platform) :
    construct c p = some .platform ↔
      (c = .bindServer ∨ c = .bindServerConn) ∧ (p = .linux ∨ p = .windows) := by
  cases c <;> cases p <;> decide

theorem construct_eq_some {c : Constructor} {p : Platform} {owner : Binder}
    (h : construct c p = some owner) : owner = .platform ∨ owner = .state := by
  revert h
  cases c <;> cases p <;> simp [construct, guardedState] <;> rintro rfl <;> simp

/-- The contract holds over every run of the bindings of a constructor exactly if the constructor
guards the platform handle, or the platform has none to give. -/
theorem lifecycle_every_run_iff (c : Constructor) (p : Platform) :
    (∀ owner, construct c p = some owner → ∀ acts w,
        run step (.init owner) acts = some w → Lifecycle w.log) ↔
      ¬ ((c = .bindServer ∨ c = .bindServerConn) ∧ (p = .linux ∨ p = .windows)) := by
  rw [← construct_eq_platform_iff]
  constructor
  · intro hall hplatform
    obtain ⟨w, hrun, hlog⟩ := run_peerAfterClose
    exact not_lifecycle_peerAfterCloseLog (hlog ▸ hall _ hplatform _ w hrun)
  · intro hne owner howner acts w hrun
    rcases construct_eq_some howner with rfl | rfl
    · exact absurd howner hne
    · exact lifecycle_of_state hrun

/-- `BindServer` on Linux: after `Close` has returned, `Peer` still queries the
released handle and vouches for the peer. -/
theorem peer_answers_after_close_of_bindServer :
    ∃ w, construct .bindServer .linux = some .platform ∧
      run step (.init .platform) peerAfterClose = some w ∧
      w.log = peerAfterCloseLog ∧ ¬ Lifecycle w.log := by
  obtain ⟨w, hrun, hlog⟩ := run_peerAfterClose
  exact ⟨w, rfl, hrun, hlog, hlog ▸ not_lifecycle_peerAfterCloseLog⟩

end Binding
