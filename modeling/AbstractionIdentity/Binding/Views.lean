import AbstractionIdentity.Transition.Lock
import AbstractionIdentity.Transition.Run

/-!
# A binding, its views and the platform handle behind them

`Bind` and its siblings put a guarded state between the owner and the platform handle: queries
take its lock for reading, the release takes it for writing. `Shared` wraps the binder it is taken
from and releases nothing. Calls (`Thread`) interleave at the granularity of lock operations and
platform calls, and are recorded in a log.
-/

namespace Binding

open Lock Transition Option

/-- The interface value in a binding: the platform handle, the guarded state that owns it, or a view
of another binder. -/
inductive Binder where
  | platform
  | state
  | shared (inner : Binder)
  deriving DecidableEq

inductive Route where
  | direct
  | guarded
  | nowhere
  deriving DecidableEq

def Binder.query : Binder → Route
  | .platform => .direct
  | .state => .guarded
  | .shared b => b.query

def Binder.release : Binder → Route
  | .platform => .direct
  | .state => .guarded
  | .shared _ => .nowhere

def Binder.isView : Binder → Bool
  | .shared _ => true
  | _ => false

inductive Platform where
  | linux
  | windows
  | darwin
  | other
  deriving DecidableEq

inductive Constructor where
  | bind
  | bindConn
  | bindServer
  | bindServerConn
  | bindLoopback
  | bindLoopbackServer
  | bindUnixServer
  | bindXPCRequest
  deriving DecidableEq

def guardedState (handle : Bool) : Option Binder := if handle then some .state else none

/-- The binder of a binding the constructor returns without error; `none` where
the platform has no handle and every call is refused. -/
def construct : Constructor → Platform → Option Binder
  | .bind, p | .bindConn, p => guardedState (p ≠ .other)
  | .bindServer, p | .bindServerConn, p =>
    -- the handle of `bindServerHandle` is stored as it is
    if p = .linux ∨ p = .windows then some .platform else none
  | .bindLoopback, p | .bindLoopbackServer, p | .bindUnixServer, p =>
    guardedState (p = .linux ∨ p = .windows)
  | .bindXPCRequest, p => guardedState (p = .darwin)

inductive Op where
  | peer
  | check
  | alive
  | close
  deriving DecidableEq

inductive Outcome where
  | ok
  | errClosed
  | failed
  deriving DecidableEq

/-- Where a call stands; `guarded` is whether a platform call runs under the lock. -/
inductive Pc where
  | start
  | held
  | calling (guarded : Bool)
  | locked
  | releasing (guarded : Bool)
  | done
  deriving DecidableEq

def Pc.mode : Pc → Mode
  | .held | .calling true => .read
  | .locked | .releasing true => .write
  | _ => .free

structure Thread where
  op : Op
  binder : Binder
  late : Bool
  pc : Pc
  deriving DecidableEq

/-- A platform recheck or liveness query starts, the platform release starts on
behalf of a `Close` of `binder`, or a call returns. -/
inductive Event where
  | query (op : Op)
  | release (binder : Binder)
  | returned (op : Op) (late : Bool) (res : Outcome)
  deriving DecidableEq

def Event.isQuery : Event → Bool
  | .query _ => true
  | _ => false

def Event.isRelease : Event → Bool
  | .release _ => true
  | _ => false

/-- The guarded state, the bindings handed out, the calls and the log.
`ownerClosed` is whether a `Close` of the owner has returned. -/
structure World where
  closed : Bool
  closeErr : Outcome
  ownerClosed : Bool
  bindings : List Binder
  threads : List Thread
  log : List Event
  deriving DecidableEq

def World.init (owner : Binder) : World := ⟨false, .ok, false, [owner], [], []⟩

def World.held (w : World) : List Mode := w.threads.map (·.pc.mode)

inductive Act where
  | share (binding : ℕ)
  | call (binding : ℕ) (op : Op)
  | advance (thread : ℕ) (res : Outcome)
  deriving DecidableEq

structure Move where
  pc : Pc
  events : List Event
  closed : Bool
  closeErr : Outcome
  ownerClosed : Bool

def Thread.next (th : Thread) (w : World) (res : Outcome) : Option Move :=
  let go (pc : Pc) (events : List Event) : Option Move :=
    some ⟨pc, events, w.closed, w.closeErr, w.ownerClosed⟩
  match th.pc with
  | .start =>
    match th.op with
    | .close =>
      match th.binder.release with
      | .nowhere => go .done [.returned .close th.late .ok]
      | .direct => go (.releasing false) [.release th.binder]
      | .guarded => if admits w.held .write then go .locked [] else none
    | op =>
      match th.binder.query with
      | .nowhere => none
      | .direct => go (.calling false) [.query op]
      | .guarded => if admits w.held .read then go .held [] else none
  | .held =>
    if w.closed then go .done [.returned th.op th.late .errClosed]
    else go (.calling true) [.query th.op]
  | .calling _ => go .done [.returned th.op th.late res]
  | .locked =>
    if w.closed then
      some ⟨.done, [.returned .close th.late w.closeErr], true, w.closeErr, true⟩
    else go (.releasing true) [.release th.binder]
  | .releasing true => some ⟨.done, [.returned .close th.late res], true, res, true⟩
  | .releasing false =>
    some ⟨.done, [.returned .close th.late res], w.closed, w.closeErr, true⟩
  | .done => none

def World.move (w : World) (i : ℕ) (th : Thread) (m : Move) : World :=
  { w with
    closed := m.closed
    closeErr := m.closeErr
    ownerClosed := m.ownerClosed
    threads := w.threads.set i { th with pc := m.pc }
    log := w.log ++ m.events }

def step (w : World) : Act → Option World
  | .share i =>
    w.bindings[i]?.map fun b => { w with bindings := w.bindings ++ [.shared b] }
  | .call i op =>
    w.bindings[i]?.map fun b =>
      { w with threads := w.threads ++ [⟨op, b, w.ownerClosed, .start⟩] }
  | .advance i res =>
    w.threads[i]?.bind fun th => (th.next w res).map (w.move i th)

theorem step_share {w t : World} {i : ℕ} (h : step w (.share i) = some t) :
    ∃ b ∈ w.bindings, t = { w with bindings := w.bindings ++ [.shared b] } := by
  obtain ⟨b, hb, rfl⟩ := map_eq_some_iff.1 h
  exact ⟨b, List.mem_of_getElem? hb, rfl⟩

theorem step_call {w t : World} {i : ℕ} {op : Op} (h : step w (.call i op) = some t) :
    ∃ b ∈ w.bindings, t = { w with threads := w.threads ++ [⟨op, b, w.ownerClosed, .start⟩] } := by
  obtain ⟨b, hb, rfl⟩ := map_eq_some_iff.1 h
  exact ⟨b, List.mem_of_getElem? hb, rfl⟩

theorem step_advance {w t : World} {i : ℕ} {res : Outcome} (h : step w (.advance i res) = some t) :
    ∃ th m, w.threads[i]? = some th ∧ th.next w res = some m ∧ t = w.move i th m := by
  obtain ⟨th, hth, hmove⟩ := bind_eq_some_iff.1 h
  obtain ⟨m, hm, rfl⟩ := map_eq_some_iff.1 hmove
  exact ⟨th, m, hth, hm, rfl⟩

theorem World.threads_move {w : World} {i j : ℕ} {th x : Thread} {m : Move}
    (h : (w.move i th m).threads[j]? = some x) :
    j = i ∧ x = { th with pc := m.pc } ∨ j ≠ i ∧ w.threads[j]? = some x := by
  rw [World.move] at h
  exact lookup_set h

theorem World.held_move (w : World) (i : ℕ) (th : Thread) (m : Move) :
    (w.move i th m).held = w.held.set i m.pc.mode := by
  simp [World.move, World.held, List.map_set]

theorem World.held_getElem? {w : World} {i : ℕ} {th : Thread}
    (h : w.threads[i]? = some th) : w.held[i]? = some th.pc.mode := by
  simp [World.held, h]

end Binding
