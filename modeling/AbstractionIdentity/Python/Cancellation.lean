import AbstractionIdentity.Transition.Run
import AbstractionIdentity.Transition.Table

/-!
# The cancellation tree of the Python client

A `Cancellation` owns one native handle and links the children made through it. `signal` holds the
lock of its node while it signals the children; `close` leaves its parent, signals its children,
waits until no call uses the handle, and releases it. Every call is a stack of `Frame`s, and a
section under a lock is one step, cut where it calls `signal` of another node. `done` and `made`
record what has returned, and `fault` the use of a released handle.
-/

namespace Python

/-- A `Cancellation`. `handle` is whether its handle is there, `released` counts the
calls of `_cancellation_release`, and `cleared` records the children `close` has dropped
after it signalled them. -/
structure Node where
  parent : Option ℕ
  children : List ℕ
  cleared : List ℕ
  signaled : Bool
  closing : Bool
  opening : ℕ
  handle : Bool
  released : ℕ
  locked : Bool
  deriving DecidableEq

def Node.new : Node := ⟨none, [], [], false, false, 0, true, 0, false⟩

def Node.shut (x : Node) : Bool := x.signaled || x.closing || !x.handle

inductive Frame where
  -- signal: before the lock, and with the children that are left
  | signal (node : ℕ)
  | walk (node : ℕ) (todo : List ℕ)
  -- child: before the lock, and while the child is signalled under it
  | link (node child : ℕ)
  | linked (node child : ℕ)
  -- close: before the lock of the parent, before its own, in the walk, in the wait
  | detach (node parent : ℕ)
  | close (node : ℕ) (hadParent : Bool)
  | closeWalk (node : ℕ) (todo : List ℕ)
  | waiting (node : ℕ)
  -- _open and _session: before the lock, with the handle, in the native call, after it
  | take (node : ℕ)
  | taken (node : ℕ)
  | calling (node : ℕ)
  | finish (node : ℕ)
  deriving DecidableEq

structure Tree where
  nodes : List Node
  threads : List (List Frame)
  done : List ℕ
  made : List (ℕ × ℕ)
  fault : Bool
  deriving DecidableEq

def Tree.start : Tree := ⟨[], [], [], [], false⟩

def Tree.release (t : Tree) (node : ℕ) (x : Node) : Tree :=
  if x.handle then
    { t with
      nodes := t.nodes.set node
        { x with handle := false, released := x.released + 1, locked := false }
      done := node :: t.done
      fault := t.fault || decide (0 < x.released) }
  else
    { t with
      nodes := t.nodes.set node { x with locked := false }
      done := node :: t.done }

def Tree.signal (t : Tree) (node : ℕ) (x : Node) : Tree × List Frame :=
  ({ t with
    nodes := t.nodes.set node { x with signaled := true, locked := true }
    fault := t.fault || x.handle && decide (0 < x.released) }, [.walk node x.children])

def Tree.link (t : Tree) (node child : ℕ) (x : Node) : Option (Tree × List Frame) :=
  if x.shut then
    some ({ t with nodes := t.nodes.set node { x with locked := true } },
      [.signal child, .linked node child])
  else
    let nodes := t.nodes.set node { x with children := child :: x.children }
    match nodes[child]? with
    | none => none
    | some y =>
      some ({ t with
        nodes := nodes.set child { y with parent := some node }
        made := (node, child) :: t.made }, [])

def Tree.detach (t : Tree) (node parent : ℕ) (x : Node) : Option (Tree × List Frame) :=
  let nodes := t.nodes.set parent { x with children := x.children.filter (· ≠ node) }
  match nodes[node]? with
  | none => none
  | some y =>
    some ({ t with nodes := nodes.set node { y with parent := none } },
      [.close node true])

def Tree.close (t : Tree) (node : ℕ) (hadParent : Bool) (x : Node) : Tree × List Frame :=
  ({ t with
    nodes := t.nodes.set node
      { x with
        closing := true
        signaled := x.signaled || hadParent && x.handle
        locked := true }
    fault := t.fault || hadParent && x.handle && decide (0 < x.released) },
    [.closeWalk node x.children])

def Node.clear (x : Node) : Node := { x with children := [], cleared := x.children ++ x.cleared }

/-- The section of `close` after its walk: the children are cleared, and a handle in use
is waited for. -/
def Tree.clear (t : Tree) (node : ℕ) (x : Node) : Tree × List Frame :=
  if 0 < x.opening then
    ({ t with nodes := t.nodes.set node { x.clear with locked := false } }, [.waiting node])
  else (t.release node x.clear, [])

def Tree.take (t : Tree) (node : ℕ) (x : Node) : Tree × List Frame :=
  if x.closing || !x.handle then (t, [])
  else ({ t with nodes := t.nodes.set node { x with opening := x.opening + 1 } },
    [.taken node])

/-- What the running frame does with the node whose lock it takes or holds, and the
frames that come in its place. -/
def Tree.advance (t : Tree) : Frame → Option (Tree × List Frame)
  | .signal node =>
    match t.nodes[node]? with
    | some x => if x.locked then none else some (t.signal node x)
    | none => none
  | .walk node (child :: todo) => some (t, [.signal child, .walk node todo])
  | .walk node [] =>
    match t.nodes[node]? with
    | some x =>
      some ({ t with
        nodes := t.nodes.set node { x with locked := false }
        done := node :: t.done }, [])
    | none => none
  | .link node child =>
    match t.nodes[node]? with
    | some x => if x.locked then none else t.link node child x
    | none => none
  | .linked node child =>
    match t.nodes[node]? with
    | some x =>
      some ({ t with
        nodes := t.nodes.set node { x with locked := false }
        made := (node, child) :: t.made }, [])
    | none => none
  | .detach node parent =>
    match t.nodes[parent]? with
    | some x => if x.locked then none else t.detach node parent x
    | none => none
  | .close node hadParent =>
    match t.nodes[node]? with
    | some x => if x.locked then none else some (t.close node hadParent x)
    | none => none
  | .closeWalk node (child :: todo) => some (t, [.signal child, .closeWalk node todo])
  | .closeWalk node [] =>
    match t.nodes[node]? with
    | some x => some (t.clear node x)
    | none => none
  | .waiting node =>
    match t.nodes[node]? with
    | some x => if x.locked || 0 < x.opening then none else some (t.release node x, [])
    | none => none
  | .take node =>
    match t.nodes[node]? with
    | some x => if x.locked then none else some (t.take node x)
    | none => none
  | .taken node =>
    match t.nodes[node]? with
    | some x => some ({ t with fault := t.fault || decide (0 < x.released) }, [.calling node])
    | none => none
  | .calling node => some (t, [.finish node])
  | .finish node =>
    match t.nodes[node]? with
    | some x =>
      if x.locked then none
      else some ({ t with nodes := t.nodes.set node { x with opening := x.opening - 1 } },
        [])
    | none => none

inductive CancelAct where
  | create
  | signal (node : ℕ)
  | child (node : ℕ)
  | close (node : ℕ)
  | openSession (node : ℕ)
  | step (i : ℕ)
  deriving DecidableEq

def Tree.spawn (t : Tree) (node : ℕ) (frame : Node → Frame) : Option Tree :=
  match t.nodes[node]? with
  | some x => some { t with threads := t.threads ++ [[frame x]] }
  | none => none

def closeFrame (node : ℕ) (x : Node) : Frame :=
  match x.parent with
  | none => .close node false
  | some parent => .detach node parent

def cancelStep (t : Tree) : CancelAct → Option Tree
  | .create => some { t with nodes := t.nodes ++ [.new] }
  | .signal node => t.spawn node fun _ => .signal node
  | .child node =>
    match t.nodes[node]? with
    | some _ =>
      some { t with
        nodes := t.nodes ++ [.new]
        threads := t.threads ++ [[.link node t.nodes.length]] }
    | none => none
  | .close node => t.spawn node (closeFrame node)
  | .openSession node => t.spawn node fun _ => .take node
  | .step i =>
    match t.threads[i]? with
    | some (frame :: rest) =>
      match t.advance frame with
      | some (t', frames) => some { t' with threads := t'.threads.set i (frames ++ rest) }
      | none => none
    | _ => none

def Frame.uses (node : ℕ) : Frame → Bool
  | .taken n => n = node
  | .calling n => n = node
  | .finish n => n = node
  | _ => false

def Tree.running (t : Tree) (node : ℕ) : ℕ := t.threads.flatten.countP (Frame.uses node)

def Tree.Off (t : Tree) (node : ℕ) : Prop :=
  ∃ x, t.nodes[node]? = some x ∧ (x.signaled = true ∨ x.handle = false)

inductive Tree.Descends (t : Tree) (node : ℕ) : ℕ → Prop
  | refl : Tree.Descends t node node
  | child {d c : ℕ} {x : Node} (h : Tree.Descends t node d) (hx : t.nodes[d]? = some x)
      (hc : c ∈ x.children ∨ c ∈ x.cleared) : Tree.Descends t node c

end Python
