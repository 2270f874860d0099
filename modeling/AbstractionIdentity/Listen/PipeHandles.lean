import AbstractionIdentity.Listen.PipeAccept
import AbstractionIdentity.Transition.Table

/-!
# Who owns the handles of the Windows pipe listener

`acceptMu` lets one `Accept` at a time past its first line, and `mu` guards the fields except while
a connect is pending; a `Close` in that gap only cancels the connect. Using, closing or handing
over a handle that is not open is a fault. `Owned` says which handles are open at every place.
-/

namespace Listen

open Transition List

inductive PipeHandle where
  | opened
  | closed
  | handed
  deriving DecidableEq

/-- Where the `Accept` that holds `acceptMu` stands; `connectFails` is `cerr`. -/
inductive ArmPc where
  | armed
  | ported (h : ℕ)
  | pending (h : ℕ)
  | completed (h : ℕ) (connectFails : Bool)
  | connected (h : ℕ) (connectFails : Bool)
  | instanced (h : ℕ) (connectFails : Bool)
  deriving DecidableEq

def ArmPc.handle : ArmPc → Option ℕ
  | .armed => none
  | .ported h | .pending h | .completed h _ | .connected h _ | .instanced h _ => some h

/-- `busy` is the `Accept` that holds `acceptMu`, `mu` whether it holds `mu` as well;
`returned` is what the calls of `Accept` returned, a connection as its handle. -/
structure PipeSystem where
  handles : List PipeHandle
  fault : Bool
  closed : Bool
  waiting : Option ℕ
  accepting : Bool
  mu : Bool
  busy : Option ArmPc
  returned : List (Except AcceptErr ℕ)

def PipeSystem.start : PipeSystem := ⟨[.opened], false, false, some 0, false, false, none, []⟩

inductive ConnectAnswer where
  | connected
  | failed
  | pending
  deriving DecidableEq

/-- The operations of `Accept` in their order, and `Close`. -/
inductive PipeAct where
  | arm
  | port (ok : Bool)
  | connect (answer : ConnectAnswer)
  | complete (connectFails : Bool)
  | relock
  | create (ok : Bool)
  | detach (ok : Bool)
  | close
  deriving DecidableEq

namespace PipeSystem

def use (s : PipeSystem) (h : ℕ) : PipeSystem :=
  { s with fault := s.fault || s.handles[h]? ≠ some .opened }

def closeHandle (s : PipeSystem) (h : ℕ) : PipeSystem :=
  { s.use h with handles := s.handles.set h .closed }

/-- `os.NewFile`: the connection owns the handle from now on. -/
def handOver (s : PipeSystem) (h : ℕ) : PipeSystem :=
  { s.use h with handles := s.handles.set h .handed }

def leave (s : PipeSystem) (result : Except AcceptErr ℕ) : PipeSystem :=
  { s with busy := none, mu := false, returned := s.returned ++ [result] }

def create (s : PipeSystem) (h : ℕ) (connectFails ok : Bool) : PipeSystem :=
  if s.closed then (s.closeHandle h).leave (.error .errClosed)
  else if ok then
    { s with
      handles := s.handles ++ [.opened], waiting := some s.handles.length,
      busy := some (.instanced h connectFails) }
  else
    (({ s with closed := true, waiting := none } : PipeSystem).closeHandle h).leave
      (.error .create)

def detach (s : PipeSystem) (h : ℕ) (connectFails ok : Bool) : PipeSystem :=
  if connectFails then (s.closeHandle h).leave (.error .errConnect)
  else if ok then ((s.use h).handOver h).leave (.ok h)
  else ((s.use h).closeHandle h).leave (.error .detach)

def close (s : PipeSystem) : PipeSystem :=
  if s.closed then s
  else match s.waiting with
    | none => { s with fault := true }
    | some h =>
      let t : PipeSystem := { s with closed := true, waiting := none }
      if s.accepting then t.use h else t.closeHandle h

end PipeSystem

def pipeStep (s : PipeSystem) (a : PipeAct) : Option PipeSystem :=
  match a, s.busy with
  | .arm, none =>
    if s.closed then some (s.leave (.error .errClosed))
    else some { s with busy := some .armed, mu := true }
  | .port ok, some .armed =>
    match s.waiting with
    | none => some { s with fault := true }
    | some h =>
      if ok then some { s.use h with busy := some (.ported h) }
      else some ((s.use h).leave (.error .port))
  | .connect answer, some (.ported h) =>
    match answer with
    | .connected => some { s.use h with busy := some (.connected h false) }
    | .failed => some { s.use h with busy := some (.connected h true) }
    | .pending =>
      some { s.use h with accepting := true, mu := false, busy := some (.pending h) }
  | .complete connectFails, some (.pending h) =>
    some { s with busy := some (.completed h connectFails) }
  | .relock, some (.completed h connectFails) =>
    some { s with accepting := false, mu := true, busy := some (.connected h connectFails) }
  | .create ok, some (.connected h connectFails) => some (s.create h connectFails ok)
  | .detach ok, some (.instanced h connectFails) => some (s.detach h connectFails ok)
  | .close, _ => if s.mu then none else some s.close
  | _, _ => none

/-! ### The table of handles -/

def Opened (handles : List PipeHandle) (waiting held : Option ℕ) : Prop :=
  ∀ h, handles[h]? = some .opened ↔ waiting = some h ∨ held = some h

def connections (returned : List (Except AcceptErr ℕ)) : List ℕ :=
  returned.filterMap Except.toOption

def HandedOnce (handles : List PipeHandle) (returned : List (Except AcceptErr ℕ)) : Prop :=
  ∀ h, (connections returned).count h = if handles[h]? = some .handed then 1 else 0

variable {handles : List PipeHandle} {returned : List (Except AcceptErr ℕ)} {x : ℕ}

theorem Opened.set {waiting waiting' held held' : Option ℕ}
    (ho : Opened handles waiting held) (hx : handles[x]? = some .opened)
    {st : PipeHandle} (hst : st ≠ .opened) (hw : waiting' ≠ some x) (hh : held' ≠ some x)
    (hrest : ∀ h ≠ x, (waiting' = some h ∨ held' = some h) ↔
      (waiting = some h ∨ held = some h)) : Opened (handles.set x st) waiting' held' := by
  intro h
  rw [lookup_set_iff hx]
  by_cases heq : h = x
  · subst heq
    simp [hst.symm, hw, hh]
  · rw [hrest h heq, ← ho h]
    simp [heq]

theorem Opened.concat {waiting held : Option ℕ}
    (ho : Opened handles waiting held) (hwaiting : waiting = held) :
    Opened (handles ++ [.opened]) (some handles.length) held := by
  intro h
  rw [lookup_concat_iff, ho h, hwaiting, or_self, Option.some.injEq]
  by_cases heq : h = handles.length
  · simp [heq]
  · simp [heq, Ne.symm heq]

theorem HandedOnce.set_closed (hh : HandedOnce handles returned)
    (hx : handles[x]? = some .opened) : HandedOnce (handles.set x .closed) returned := by
  intro h
  rw [hh h]
  by_cases heq : h = x
  · subst heq
    rw [hx, List.getElem?_set_self (List.getElem?_eq_some_iff.1 hx).1]
    rfl
  · rw [List.getElem?_set_ne (Ne.symm heq)]

theorem HandedOnce.concat (hh : HandedOnce handles returned) :
    HandedOnce (handles ++ [.opened]) returned := by
  intro h
  rw [hh h]
  refine if_congr ?_ rfl rfl
  rw [lookup_concat_iff]
  constructor
  · intro hhanded
    have hlt : h < handles.length := (List.getElem?_eq_some_iff.1 hhanded).1
    exact .inr ⟨Nat.ne_of_lt hlt, hhanded⟩
  · rintro (⟨-, hno⟩ | ⟨-, hhanded⟩)
    · cases hno
    · exact hhanded

theorem HandedOnce.error (hh : HandedOnce handles returned)
    (err : AcceptErr) : HandedOnce handles (returned ++ [.error err]) := by
  intro h
  have hnone : [(.error err : Except AcceptErr ℕ)].filterMap Except.toOption = [] := rfl
  rw [← hh h, connections, connections, filterMap_append, hnone, append_nil]

theorem HandedOnce.hand (hh : HandedOnce handles returned) (hx : handles[x]? = some .opened) :
    HandedOnce (handles.set x .handed) (returned ++ [.ok x]) := by
  intro h
  have hold := hh h
  rw [connections] at hold
  rw [connections, filterMap_append, count_append, hold]
  by_cases heq : h = x
  · subst heq
    rw [hx, List.getElem?_set_self (List.getElem?_eq_some_iff.1 hx).1]
    simp [Except.toOption]
  · rw [List.getElem?_set_ne (Ne.symm heq)]
    simp [Except.toOption, Ne.symm heq]

/-! ### Every run -/

def ArmPc.At (closed accepting mu : Bool) (waiting : Option ℕ) : Option ArmPc → Prop
  | none => mu = false ∧ accepting = false
  | some .armed => mu = true ∧ accepting = false ∧ closed = false
  | some (.ported h) => mu = true ∧ accepting = false ∧ closed = false ∧ waiting = some h
  | some (.pending h) | some (.completed h _) =>
    mu = false ∧ accepting = true ∧ (closed = false → waiting = some h)
  | some (.connected h _) =>
    mu = true ∧ accepting = false ∧ (closed = false → waiting = some h)
  | some (.instanced h _) =>
    mu = true ∧ accepting = false ∧ closed = false ∧ waiting ≠ some h

structure PipeSystem.Owned (s : PipeSystem) : Prop where
  fault : s.fault = false
  waits : s.closed = false ↔ s.waiting.isSome = true
  opened : Opened s.handles s.waiting (s.busy.bind ArmPc.handle)
  handed : HandedOnce s.handles s.returned
  place : ArmPc.At s.closed s.accepting s.mu s.waiting s.busy

namespace PipeSystem

variable {s t : PipeSystem} {x : ℕ}

theorem use_eq (h : s.Owned) (hx : s.handles[x]? = some .opened) : s.use x = s := by
  have hfault := h.fault
  cases s
  simp_all [use]

theorem Owned.waiting_none (h : s.Owned) (hclosed : s.closed = true) : s.waiting = none := by
  cases hw : s.waiting with
  | none => rfl
  | some x =>
    have hopen := h.waits.2 (by rw [hw]; rfl)
    rw [hclosed] at hopen
    cases hopen

theorem owned_start : start.Owned where
  fault := rfl
  waits := by decide
  opened := by
    intro h
    cases h with
    | zero => simp [start]
    | succ h => simp [start]
  handed := by
    intro h
    cases h with
    | zero => simp [start, connections]
    | succ h => simp [start, connections]
  place := ⟨rfl, rfl⟩

theorem Owned.close_leave (h : s.Owned) {pc : ArmPc}
    (hbusy : s.busy = some pc) (hpc : pc.handle = some x) (haccepting : s.accepting = false)
    {closed : Bool} {waiting : Option ℕ} (hwaits : closed = false ↔ waiting.isSome = true)
    (hne : waiting ≠ some x) (hrest : ∀ y ≠ x, waiting = some y ↔ s.waiting = some y)
    (err : AcceptErr) :
    ((({ s with closed := closed, waiting := waiting } : PipeSystem).closeHandle x).leave
      (.error err)).Owned := by
  have hopened := h.opened
  rw [hbusy, Option.bind_some, hpc] at hopened
  have hx : s.handles[x]? = some .opened := (hopened x).2 (.inr rfl)
  refine ⟨?_, hwaits, ?_, (h.handed.set_closed hx).error err, rfl, haccepting⟩
  · simp [leave, closeHandle, use, h.fault, hx]
  · refine hopened.set hx (by decide) hne (by simp [leave]) fun y hy => ?_
    have hyx : some x ≠ some y := fun heq => hy (Option.some.inj heq).symm
    simp [hrest y hy, hyx, leave, closeHandle, use]

theorem Owned.create (h : s.Owned) {connectFails : Bool}
    (hbusy : s.busy = some (.connected x connectFails)) (ok : Bool) :
    (s.create x connectFails ok).Owned := by
  have hplace := h.place
  rw [hbusy] at hplace
  obtain ⟨hmu, haccepting, hwaiting⟩ := hplace
  rw [PipeSystem.create]
  split_ifs with hclosed hok
  · have hnone := h.waiting_none hclosed
    refine h.close_leave hbusy rfl haccepting h.waits ?_ (fun _ _ => Iff.rfl) _
    rw [hnone]
    simp
  · have hopen : s.closed = false := by simpa using hclosed
    have hopened := h.opened
    rw [hbusy] at hopened
    have hx : s.handles[x]? = some .opened := (hopened x).2 (.inr rfl)
    have hlt : x < s.handles.length := (List.getElem?_eq_some_iff.1 hx).1
    refine ⟨h.fault, by simp [hopen], hopened.concat (hwaiting hopen), h.handed.concat, hmu,
      haccepting, hopen, ?_⟩
    rw [Ne, Option.some.injEq]
    omega
  · have hopen : s.closed = false := by simpa using hclosed
    refine h.close_leave hbusy rfl haccepting (by simp) (by simp) (fun y hy => ?_) _
    rw [hwaiting hopen, Option.some.injEq]
    simp [Ne.symm hy]

theorem Owned.detach (h : s.Owned) {connectFails : Bool}
    (hbusy : s.busy = some (.instanced x connectFails)) (ok : Bool) :
    (s.detach x connectFails ok).Owned := by
  have hplace := h.place
  rw [hbusy] at hplace
  obtain ⟨hmu, haccepting, hopen, hne⟩ := hplace
  have hopened := h.opened
  rw [hbusy] at hopened
  have hx : s.handles[x]? = some .opened := (hopened x).2 (.inr rfl)
  have hclose : ∀ err, ((s.closeHandle x).leave (.error err)).Owned :=
    h.close_leave hbusy rfl haccepting h.waits hne fun _ _ => Iff.rfl
  rw [PipeSystem.detach, use_eq h hx]
  split_ifs
  · exact hclose _
  · refine ⟨?_, h.waits, ?_, h.handed.hand hx, rfl, haccepting⟩
    · simp [leave, handOver, use, h.fault, hx]
    · refine hopened.set hx (by decide) hne (by simp [leave]) fun y hy => ?_
      have hyx : some x ≠ some y := fun heq => hy (Option.some.inj heq).symm
      simp [leave, ArmPc.handle, hyx, handOver, use]
  · exact hclose _

theorem idle_or_pending (h : s.Owned) (hmu : s.mu = false) : s.busy = none ∧ s.accepting = false ∨
    ∃ x, s.busy.bind ArmPc.handle = some x ∧ s.accepting = true ∧
      (s.closed = false → s.waiting = some x) ∧ ArmPc.At true true false none s.busy := by
  have hplace := h.place
  cases hbusy : s.busy with
  | none =>
    rw [hbusy] at hplace
    exact .inl ⟨rfl, hplace.2⟩
  | some pc =>
    rw [hbusy] at hplace
    cases pc with
    | pending x =>
      exact .inr ⟨x, rfl, hplace.2.1, hplace.2.2, rfl, rfl, fun hno => by cases hno⟩
    | completed x connectFails =>
      exact .inr ⟨x, rfl, hplace.2.1, hplace.2.2, rfl, rfl, fun hno => by cases hno⟩
    | _ =>
      have htrue := hplace.1
      rw [hmu] at htrue
      cases htrue

theorem Owned.close {s : PipeSystem} (h : s.Owned) (hmu : s.mu = false) : s.close.Owned := by
  rw [PipeSystem.close]
  by_cases hclosed : s.closed = true
  · rw [if_pos hclosed]
    exact h
  rw [if_neg hclosed]
  have hopen : s.closed = false := by simpa using hclosed
  cases hwaiting : s.waiting with
  | none =>
    have hsome := h.waits.1 hopen
    rw [hwaiting] at hsome
    cases hsome
  | some x =>
    have hopened := h.opened
    rw [hwaiting] at hopened
    have hx : s.handles[x]? = some .opened := (hopened x).2 (.inl rfl)
    dsimp only
    rcases idle_or_pending h hmu with ⟨hbusy, haccepting⟩ | ⟨y, hheld, haccepting, hsame, hat⟩
    · rw [haccepting, if_neg (by decide)]
      rw [hbusy] at hopened
      refine ⟨?_, by simp [closeHandle, use], ?_, h.handed.set_closed hx, ?_⟩
      · simp [closeHandle, use, h.fault, hx]
      · have hheld : (s.busy.bind ArmPc.handle) = none := by rw [hbusy]; rfl
        refine hopened.set hx (by decide) (by simp [closeHandle, use])
          (by simp [closeHandle, use, hheld]) fun z hz => ?_
        simp [closeHandle, use, hheld, Ne.symm hz]
      · simp [closeHandle, use, hbusy, ArmPc.At, hmu]
    · -- a connect is pending on the handle, which stays with the accept
      rw [haccepting, if_pos rfl]
      obtain rfl : x = y := Option.some.inj (hwaiting.symm.trans (hsame hopen))
      rw [hheld] at hopened
      refine ⟨?_, by simp [use], fun z => ?_, h.handed, ?_⟩
      · simp [use, h.fault, hx]
      · have hz := hopened z
        rw [or_self] at hz
        simp only [use, hheld]
        rw [hz]
        simp
      · simp only [use, hmu]
        exact hat

theorem Owned.step {a : PipeAct} (h : s.Owned) (hstep : pipeStep s a = some t) : t.Owned := by
  have hplace := h.place
  have hopened := h.opened
  unfold pipeStep at hstep
  split at hstep
  · next hbusy =>
      rw [hbusy] at hplace hopened
      split_ifs at hstep with hclosed
      · cases hstep
        exact ⟨h.fault, h.waits, hopened, h.handed.error _, rfl, hplace.2⟩
      · cases hstep
        exact ⟨h.fault, h.waits, hopened, h.handed, rfl, hplace.2, by simpa using hclosed⟩
  · next hbusy =>
      rw [hbusy] at hplace hopened
      obtain ⟨hmu, haccepting, hopen⟩ := hplace
      split at hstep
      · next hnone =>
          have hsome := h.waits.1 hopen
          rw [hnone] at hsome
          cases hsome
      · next x hwaiting =>
          have hx : s.handles[x]? = some .opened := (hopened x).2 (.inl hwaiting)
          rw [use_eq h hx] at hstep
          split_ifs at hstep
          · cases hstep
            refine ⟨h.fault, h.waits, fun y => ?_, h.handed, hmu, haccepting, hopen, hwaiting⟩
            rw [hopened y, hwaiting]
            simp [ArmPc.handle]
          · cases hstep
            exact ⟨h.fault, h.waits, hopened, h.handed.error _, rfl, haccepting⟩
  · next x hbusy =>
      rw [hbusy] at hplace hopened
      obtain ⟨hmu, haccepting, hopen, hwaiting⟩ := hplace
      have hx : s.handles[x]? = some .opened := (hopened x).2 (.inl hwaiting)
      rw [use_eq h hx] at hstep
      split at hstep
      · cases hstep
        exact ⟨h.fault, h.waits, hopened, h.handed, hmu, haccepting, fun _ => hwaiting⟩
      · cases hstep
        exact ⟨h.fault, h.waits, hopened, h.handed, hmu, haccepting, fun _ => hwaiting⟩
      · cases hstep
        exact ⟨h.fault, h.waits, hopened, h.handed, rfl, rfl, fun _ => hwaiting⟩
  · next x hbusy =>
      rw [hbusy] at hplace hopened
      cases hstep
      exact ⟨h.fault, h.waits, hopened, h.handed, hplace⟩
  · next x connectFails hbusy =>
      rw [hbusy] at hplace hopened
      cases hstep
      exact ⟨h.fault, h.waits, hopened, h.handed, rfl, rfl, hplace.2.2⟩
  · next ok x connectFails hbusy =>
      cases hstep
      exact h.create hbusy ok
  · next ok x connectFails hbusy =>
      cases hstep
      exact h.detach hbusy ok
  · split_ifs at hstep with hmu
    cases hstep
    exact h.close (by simpa using hmu)
  · cases hstep

theorem closed_of_step {a : PipeAct} (hstep : pipeStep s a = some t)
    (hs : s.closed = false) (ht : t.closed = true) : a = .close ∨ a = .create false := by
  unfold pipeStep at hstep
  split at hstep
  · split_ifs at hstep <;> cases hstep <;> simp_all
  · split at hstep
    · cases hstep
      simp_all
    · split_ifs at hstep <;> cases hstep <;> simp_all [leave, use]
  · split at hstep <;> cases hstep <;> simp_all [use]
  · cases hstep
    simp_all
  · cases hstep
    simp_all
  · next ok x connectFails hbusy =>
      cases hstep
      cases ok with
      | false => exact .inr rfl
      | true => simp_all [PipeSystem.create]
  · next ok x connectFails hbusy =>
      cases hstep
      rw [PipeSystem.detach] at ht
      split_ifs at ht <;> simp_all [leave, closeHandle, handOver, use]
  · exact .inl rfl
  · cases hstep

theorem closed_of_run {as : List PipeAct}
    (hrun : run pipeStep s as = some t) (hs : s.closed = false) (ht : t.closed = true) :
    PipeAct.close ∈ as ∨ PipeAct.create false ∈ as := by
  induction as generalizing s with
  | nil =>
    cases hrun
    rw [hs] at ht
    cases ht
  | cons a as ih =>
    obtain ⟨u, hstep, hrest⟩ := (run_cons_eq_some_iff _ _ _ _ _).1 hrun
    by_cases hu : u.closed = true
    · rcases closed_of_step hstep hs hu with rfl | rfl
      · exact .inl (.head _)
      · exact .inr (.head _)
    · rcases ih hrest (by simpa using hu) with hmem | hmem
      · exact .inl (.tail _ hmem)
      · exact .inr (.tail _ hmem)

end PipeSystem

/-- Along every run no handle is used after it was closed or handed over, none is closed twice, and
each is closed, in one returned connection, or the listener's. Until `Close` or a failed creation an
instance is open. -/
theorem pipe_handle_ownership {as : List PipeAct} {s : PipeSystem}
    (hrun : run pipeStep .start as = some s) :
    s.fault = false ∧
    (∀ h < s.handles.length, s.handles[h]? = some .closed ∧ (connections s.returned).count h = 0 ∨
      s.handles[h]? = some .handed ∧ (connections s.returned).count h = 1 ∨
      s.handles[h]? = some .opened ∧ (connections s.returned).count h = 0 ∧
        (s.waiting = some h ∨ s.busy.bind ArmPc.handle = some h)) ∧
    (s.closed = true → s.busy = none → ∀ h : ℕ, s.handles[h]? ≠ some .opened) ∧
    (s.closed = true → PipeAct.close ∈ as ∨ PipeAct.create false ∈ as) ∧
    (s.closed = false → ∃ h : ℕ, s.handles[h]? = some .opened) := by
  have h : s.Owned :=
    run_invariant_of_forall (fun _ _ _ hs hstep => hs.step hstep) PipeSystem.owned_start hrun
  refine ⟨h.fault, fun x hx => ?_, fun hclosed hbusy x hx => ?_,
    PipeSystem.closed_of_run hrun rfl, fun hopen => ?_⟩
  · have hcount := h.handed x
    cases hstate : s.handles[x]? with
    | none => exact absurd (List.getElem?_eq_none_iff.1 hstate) (by omega)
    | some st =>
      rw [hstate] at hcount
      cases st with
      | opened => exact .inr (.inr ⟨rfl, hcount, (h.opened x).1 hstate⟩)
      | closed => exact .inl ⟨rfl, hcount⟩
      | handed => exact .inr (.inl ⟨rfl, hcount⟩)
  · rcases (h.opened x).1 hx with hwaiting | hheld
    · rw [h.waiting_none hclosed] at hwaiting
      cases hwaiting
    · rw [hbusy] at hheld
      cases hheld
  · obtain ⟨x, hx⟩ := Option.isSome_iff_exists.1 (h.waits.1 hopen)
    exact ⟨x, (h.opened x).2 (.inl hx)⟩

def closeWhilePending : List PipeAct :=
  [.arm, .port true, .connect .connected, .create true, .detach true, .arm, .port true,
    .connect .pending, .close, .complete true, .relock, .create true]

theorem pipe_handle_ownership_closeWhilePending :
    ∃ s, run pipeStep .start closeWhilePending = some s ∧
      s.handles = [.handed, .closed] ∧ s.fault = false :=
  ⟨_, rfl, rfl, (pipe_handle_ownership
    (show run pipeStep .start closeWhilePending = some _ from rfl)).1⟩

end Listen
