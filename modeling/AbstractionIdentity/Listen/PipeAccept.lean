import AbstractionIdentity.Transition.Run
import Mathlib.Data.List.Basic
import Mathlib.Tactic.SplitIfs

/-!
# The accept loop over the Windows pipe listener

The pipe listener keeps one instance waiting and answers `errConnect` for a client that left before
it was connected, with the next instance in place. The accept loop takes every error as the end, so
such a client stops the listener (`departed_client_stops_listener`); along `undisturbed` runs the
loop goes on until `Close` or a failed creation.
-/

namespace Listen

open Transition

inductive Client where
  | free
  | here
  | gone
  deriving DecidableEq

/-- The errors of the inner `Accept`: the listener is closed, no completion port,
no next instance, the client left, the connection kept its port. -/
inductive AcceptErr where
  | errClosed
  | port
  | create
  | errConnect
  | detach
  deriving DecidableEq

structure PipeListener where
  closed : Bool
  waiting : Client
  accepting : Bool
  deriving DecidableEq

/-- `connected`, once the connect is over: `connectFails` is its outcome, `create`
and `detach` say whether the two calls it makes succeed. -/
def PipeListener.connected (l : PipeListener) (connectFails create detach : Bool) :
    PipeListener × Except AcceptErr Unit :=
  if l.closed then ({ l with accepting := false }, .error .errClosed)
  else if !create then ({ l with closed := true, accepting := false }, .error .create)
  else
    let l := { l with waiting := .free, accepting := false }
    if connectFails then (l, .error .errConnect)
    else if !detach then (l, .error .detach)
    else (l, .ok ())

/-- `arm`, and `connected` right after it unless the connect is pending. A client
that is there counts as connected, one that has left makes the connect fail. -/
def PipeListener.arm (l : PipeListener) (port create detach : Bool) :
    PipeListener × Option (Except AcceptErr Unit) :=
  if l.closed then (l, some (.error .errClosed))
  else if !port then (l, some (.error .port))
  else match l.waiting with
    | .free => ({ l with accepting := true }, none)
    | client =>
      let (l, res) := l.connected (client = .gone) create detach
      (l, some res)

inductive LoopPc where
  | accept
  | pending
  | got
  | failed (err : AcceptErr)
  | recorded
  | stopped
  deriving DecidableEq

/-- `waiting` counts the connections whose first header is awaited. `closeCalled`
and `createFailed` record that `Close` was called and that an instance could not
be made. -/
structure AcceptLoop where
  pipe : PipeListener
  pc : LoopPc
  err : Option AcceptErr
  done : Bool
  waiting : ℕ
  closeCalled : Bool
  createFailed : Bool
  deriving DecidableEq

def AcceptLoop.start : AcceptLoop := ⟨⟨false, .free, false⟩, .accept, none, false, 0, false, false⟩

inductive AcceptAct where
  | clientOpens
  | clientLeaves
  | arm (port create detach : Bool)
  | complete (connectFails create detach : Bool)
  | handle
  | record
  | shutdown
  | close
  | closeInner
  | headerDone
  deriving DecidableEq

def AcceptLoop.returned (s : AcceptLoop) (pipe : PipeListener) :
    Except AcceptErr Unit → AcceptLoop
  | .ok _ => { s with pipe := pipe, pc := .got }
  | .error err => { s with
      pipe := pipe, pc := .failed err,
      createFailed := s.createFailed || err = .create }

/-- A pending connect completes when a client has come; it fails for one that has
left again, and when `Close` cancels it. -/
def PipeListener.completes (l : PipeListener) (connectFails : Bool) : Bool :=
  if connectFails then l.closed || l.waiting = .gone else l.waiting ≠ .free

def acceptStep (maxSessions : ℕ) (s : AcceptLoop) : AcceptAct → Option AcceptLoop
  | .clientOpens =>
    if s.pipe.closed = false ∧ s.pipe.waiting = .free then
      some { s with pipe := { s.pipe with waiting := .here } }
    else none
  | .clientLeaves =>
    if s.pipe.waiting = .here then
      some { s with pipe := { s.pipe with waiting := .gone } }
    else none
  | .arm port create detach =>
    if s.pc = .accept then
      match s.pipe.arm port create detach with
      | (pipe, none) => some { s with pipe := pipe, pc := .pending }
      | (pipe, some res) => some (s.returned pipe res)
    else none
  | .complete connectFails create detach =>
    if s.pc = .pending ∧ s.pipe.completes connectFails = true then
      let (pipe, res) := s.pipe.connected connectFails create detach
      some (s.returned pipe res)
    else none
  | .handle =>
    if s.pc = .got then
      if s.done then some { s with pc := .stopped }
      else if s.waiting ≥ 2 * maxSessions then some { s with pc := .accept }
      else some { s with pc := .accept, waiting := s.waiting + 1 }
    else none
  | .record =>
    match s.pc with
    | .failed err => some { s with pc := .recorded, err := some (s.err.getD err) }
    | _ => none
  | .shutdown =>
    if s.pc = .recorded then some { s with pc := .stopped, done := true } else none
  | .close => some { s with closeCalled := true, done := true }
  | .closeInner =>
    if s.done then some { s with pipe := { s.pipe with closed := true } } else none
  | .headerDone =>
    if 0 < s.waiting then some { s with waiting := s.waiting - 1 } else none

def AcceptLoop.acceptError (s : AcceptLoop) : Option AcceptErr :=
  if s.done then
    match s.err with
    | none => some .errClosed
    | some err => some err
  else none

def AcceptLoop.Excused (s : AcceptLoop) : Prop := s.closeCalled = true ∨ s.createFailed = true

structure AcceptLoop.Working (s : AcceptLoop) : Prop where
  open_pipe : s.pipe.closed = false
  not_done : s.done = false
  on_way : s.pc = .accept ∨ s.pc = .pending ∨ s.pc = .got

/-- Until the pipe listener is closed, nobody has left the waiting instance when its connect is
made or completes, and the completion port calls of the accept succeed. -/
def undisturbed (s : AcceptLoop) : AcceptAct → Prop
  | .arm port _ detach =>
    s.pipe.closed = true ∨ port = true ∧ detach = true ∧ s.pipe.waiting ≠ .gone
  | .complete connectFails _ detach =>
    s.pipe.closed = true ∨ connectFails = false ∧ detach = true
  | _ => True

instance (s : AcceptLoop) : DecidablePred (undisturbed s)
  | .arm _ _ _ => inferInstanceAs (Decidable (_ ∨ _ ∧ _ ∧ _))
  | .complete _ _ _ => inferInstanceAs (Decidable (_ ∨ _ ∧ _))
  | .clientOpens | .clientLeaves | .handle | .record | .shutdown | .close | .closeInner
  | .headerDone => isTrue trivial

variable {maxSessions : ℕ} {s t : AcceptLoop}

theorem excused_returned (h : s.Excused) (pipe : PipeListener)
    (res : Except AcceptErr Unit) : (s.returned pipe res).Excused := by
  cases res with
  | ok u => exact h
  | error err => exact h.imp id fun hc => by simp [AcceptLoop.returned, hc]

theorem excused_step {a : AcceptAct}
    (h : s.Excused) (hstep : acceptStep maxSessions s a = some t) : t.Excused := by
  cases a with
    simp only [acceptStep] at hstep
  | arm port create detach =>
    split_ifs at hstep
    split at hstep <;> cases hstep
    · exact h
    · exact excused_returned h _ _
  | complete connectFails create detach =>
    split_ifs at hstep
    cases hstep
    exact excused_returned h _ _
  | handle =>
    split_ifs at hstep <;> cases hstep <;> exact h
  | record =>
    split at hstep <;> cases hstep
    exact h
  | close =>
    cases hstep
    exact .inl rfl
  | _ =>
    split_ifs at hstep
    cases hstep
    exact h

theorem working_connected (h : s.Working) (create : Bool) :
    let r := s.pipe.connected false create true
    (s.returned r.1 r.2).Excused ∨ (s.returned r.1 r.2).Working := by
  cases create with
  | false => exact .inl (.inr (by simp [PipeListener.connected, h.open_pipe, AcceptLoop.returned]))
  | true =>
    refine .inr ⟨?_, ?_, ?_⟩
    · simp [PipeListener.connected, h.open_pipe, AcceptLoop.returned]
    · simpa [PipeListener.connected, h.open_pipe, AcceptLoop.returned] using h.not_done
    · simp [PipeListener.connected, h.open_pipe, AcceptLoop.returned]

theorem working_arm {port create detach : Bool}
    (h : s.Working) (hok : undisturbed s (.arm port create detach))
    (hstep : acceptStep maxSessions s (.arm port create detach) = some t) :
    t.Excused ∨ t.Working := by
  obtain ⟨rfl, rfl, hclient⟩ := hok.resolve_left (Bool.eq_false_iff.1 h.open_pipe)
  simp only [acceptStep] at hstep
  split_ifs at hstep
  cases hw : s.pipe.waiting with
  | free =>
    have harm : s.pipe.arm true create true = ({ s.pipe with accepting := true }, none) := by
      simp [PipeListener.arm, h.open_pipe, hw]
    rw [harm] at hstep
    cases hstep
    exact .inr ⟨h.open_pipe, h.not_done, .inr (.inl rfl)⟩
  | here =>
    have harm : s.pipe.arm true create true = ((s.pipe.connected false create true).1,
          some (s.pipe.connected false create true).2) := by
      simp [PipeListener.arm, h.open_pipe, hw]
    rw [harm] at hstep
    cases hstep
    exact working_connected h create
  | gone => exact absurd hw hclient

theorem working_step {a : AcceptAct}
    (h : s.Working) (hok : undisturbed s a) (hstep : acceptStep maxSessions s a = some t) :
    t.Excused ∨ t.Working := by
  cases a with
  | arm port create detach => exact working_arm h hok hstep
  | complete connectFails create detach =>
    obtain ⟨rfl, rfl⟩ := hok.resolve_left (Bool.eq_false_iff.1 h.open_pipe)
    simp only [acceptStep] at hstep
    split_ifs at hstep
    cases hstep
    exact working_connected h create
  | handle =>
    simp only [acceptStep] at hstep
    split_ifs at hstep with hpc hdone hfull
    · exact absurd (h.not_done.symm.trans hdone) Bool.false_ne_true
    · cases hstep
      exact .inr ⟨h.open_pipe, h.not_done, .inl rfl⟩
    · cases hstep
      exact .inr ⟨h.open_pipe, h.not_done, .inl rfl⟩
  | record =>
    rcases h.on_way with hpc | hpc | hpc <;> simp [acceptStep, hpc] at hstep
  | shutdown =>
    rcases h.on_way with hpc | hpc | hpc <;> simp [acceptStep, hpc] at hstep
  | close =>
    cases hstep
    exact .inl (.inl rfl)
  | closeInner => simp [acceptStep, h.not_done] at hstep
  | clientOpens =>
    simp only [acceptStep] at hstep
    split_ifs at hstep
    cases hstep
    exact .inr ⟨h.open_pipe, h.not_done, h.on_way⟩
  | clientLeaves =>
    simp only [acceptStep] at hstep
    split_ifs at hstep
    cases hstep
    exact .inr ⟨h.open_pipe, h.not_done, h.on_way⟩
  | headerDone =>
    simp only [acceptStep] at hstep
    split_ifs at hstep
    cases hstep
    exact .inr ⟨h.open_pipe, h.not_done, h.on_way⟩

theorem excused_or_working {acts : List AcceptAct}
    (hok : along (acceptStep maxSessions) undisturbed .start acts)
    (hrun : run (acceptStep maxSessions) .start acts = some s) :
    s.Excused ∨ s.Working := by
  refine run_invariant (I := fun s => s.Excused ∨ s.Working) ?_
    (.inr ⟨rfl, rfl, .inl rfl⟩) hok hrun
  rintro s a t (hs | hs) ha hstep
  · exact .inl (excused_step hs hstep)
  · exact working_step hs ha hstep

/-- In every undisturbed run the loop ends, and `Accept` fails, only after `Close`
was called or an instance could not be made. -/
theorem listener_keeps_accepting (maxSessions : ℕ) (acts : List AcceptAct)
    (s : AcceptLoop) (hok : along (acceptStep maxSessions) undisturbed .start acts)
    (hrun : run (acceptStep maxSessions) .start acts = some s)
    (hended : s.pc = .stopped ∨ s.acceptError ≠ none) :
    s.closeCalled = true ∨ s.createFailed = true := by
  rcases excused_or_working hok hrun with hs | hs
  · exact hs
  · rcases hended with hpc | herr
    · rcases hs.on_way with hway | hway | hway <;> rw [hpc] at hway <;> cases hway
    · exact absurd (by simp [AcceptLoop.acceptError, hs.not_done]) herr

/-- One client is served, and `Close` cancels the connect that waits for the next. -/
def serveThenClose : List AcceptAct :=
  [.arm true true true, .clientOpens, .complete false true true, .handle, .headerDone,
    .arm true true true, .close, .closeInner, .complete true true true, .record, .shutdown]

theorem listener_keeps_accepting_sample :
    ∃ s, run (acceptStep 1) .start serveThenClose = some s ∧ s.pc = .stopped ∧
      (s.closeCalled = true ∨ s.createFailed = true) :=
  ⟨_, rfl, rfl, listener_keeps_accepting 1 serveThenClose _ (by decide) rfl (.inl rfl)⟩

/-- A client opens the waiting instance and leaves before it is connected. The
next instance is made, and still the loop stops and `Accept` fails. -/
theorem departed_client_stops_listener : ∃ s, run (acceptStep 1) .start
        [.clientOpens, .clientLeaves, .arm true true true, .record, .shutdown] = some s ∧
      s.pc = .stopped ∧ s.acceptError = some .errConnect ∧ s.pipe.closed = false ∧
      s.closeCalled = false ∧ s.createFailed = false :=
  ⟨_, rfl, rfl, rfl, rfl, rfl, rfl⟩

end Listen
