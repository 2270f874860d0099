import AbstractionIdentity.Transition.Ownership
import AbstractionIdentity.Transition.Run
import AbstractionIdentity.Transition.Table

/-!
# The pool of idle connections

`take` pops the last idle connection of a key under the lock and judges it outside; `put` drops
those that waited too long and adds the connection unless four are left. `PoolSystem` is the pool
with its calls (`PoolPc`) and the callbacks on their way to close a connection (`fired`). The C++
client has no such callbacks, and its `take` reads the clock for every connection. `opener` and
`taken` record who opened a connection and what `take` returned.
-/

namespace Listen

open Transition

inductive Lang where
  | go
  | cpp
  deriving DecidableEq

structure Pooled where
  conn : ℕ
  since : ℤ
  deriving DecidableEq

def poolIdle : ℤ := 10 * 10 ^ 9

def poolPerEndpoint : ℕ := 4

def Pooled.stale (now : ℤ) (e : Pooled) : Bool := poolIdle ≤ now - e.since

/-- The idle connections of a key after `put`, those dropped for their age, and
whether the connection was added. -/
def putIdle (list : List Pooled) (conn : ℕ) (now : ℤ) : List Pooled × List Pooled × Bool :=
  let expired := list.takeWhile (Pooled.stale now)
  let fresh := list.dropWhile (Pooled.stale now)
  if poolPerEndpoint ≤ fresh.length then (fresh, expired, false)
  else (fresh ++ [⟨conn, now⟩], expired, true)

def putCloses (lang : Lang) (list : List Pooled) (conn : ℕ) (now : ℤ) : List ℕ :=
  let (_, expired, added) := putIdle list conn now
  let own := if added then [] else [conn]
  match lang with
  | .go => own ++ expired.map Pooled.conn
  | .cpp => expired.map Pooled.conn ++ own

/-- The place of a call: in `take`, opening a connection, using one, in `put`, closing on its way
out. -/
inductive PoolPc where
  | start
  | taking (now : ℤ)
  | judging (now : ℤ) (e : Pooled)
  | evicting (now : ℤ) (c : ℕ)
  | dialing
  | taken (c : ℕ)
  | busy (c : ℕ) (interrupted : Bool)
  | putting (c : ℕ)
  | leaving (cs : List ℕ)
  | done
  deriving DecidableEq

def PoolPc.conns : PoolPc → List ℕ
  | .judging _ e => [e.conn]
  | .evicting _ c | .taken c | .busy c _ | .putting c => [c]
  | .leaving cs => cs
  | _ => []

def PoolPc.intact : PoolPc → List ℕ
  | .judging _ e => [e.conn]
  | .taken c | .busy c false | .putting c => [c]
  | _ => []

structure PoolCall (κ : Type) where
  key : κ
  ended : Bool
  pc : PoolPc
  deriving DecidableEq

structure Taken where
  conn : ℕ
  since : ℤ
  now : ℤ
  closed : Bool
  deriving DecidableEq

structure PoolSystem (κ : Type) where
  idle : κ → List Pooled
  closed : List Bool
  opener : List ℕ
  calls : List (PoolCall κ)
  fired : List ℕ
  taken : List Taken

inductive PoolMove where
  | begin (now : ℤ)
  | pop
  | judge (now : ℤ) (fit : Bool)
  | evict
  | dial (ok : Bool)
  | use (ok : Bool)
  | cancel
  | fire
  | finish (keep : Bool)
  | put (now : ℤ)
  | drop
  | again (now : ℤ)
  | ret
  deriving DecidableEq

inductive PoolAct (κ : Type) where
  | call (key : κ)
  | move (k : ℕ) (m : PoolMove)
  | callback (c : ℕ)
  deriving DecidableEq

variable {κ : Type} [DecidableEq κ]

def PoolSystem.start : PoolSystem κ := ⟨fun _ => [], [], [], [], [], []⟩

def PoolSystem.isClosed (s : PoolSystem κ) (c : ℕ) : Bool := s.closed.getD c true

def PoolSystem.close (s : PoolSystem κ) (c : ℕ) : PoolSystem κ :=
  { s with closed := s.closed.set c true }

def PoolSystem.update (s : PoolSystem κ) (k : ℕ) (y : PoolCall κ) (list : List Pooled) :
    PoolSystem κ :=
  { s with
    idle := fun key => if key = y.key then list else s.idle key
    calls := s.calls.set k y }

def PoolSystem.goto (s : PoolSystem κ) (k : ℕ) (y : PoolCall κ) (pc : PoolPc) :
    PoolSystem κ :=
  s.update k { y with pc := pc } (s.idle y.key)

def PoolSystem.move (lang : Lang) (s : PoolSystem κ) (k : ℕ) (y : PoolCall κ) :
    PoolMove → Option (PoolSystem κ)
  | .begin now => if y.pc = .start then some (s.goto k y (.taking now)) else none
  | .pop =>
    match y.pc with
    | .taking now =>
      match (s.idle y.key).getLast? with
      | none => some (s.goto k y .dialing)
      | some e => some (s.update k { y with pc := .judging now e } (s.idle y.key).dropLast)
    | _ => none
  | .judge t fit =>
    match y.pc with
    | .judging now e =>
      -- in C++ the clock is read here, in Go it is the argument
      if lang = .go ∧ t ≠ now then none
      else if t - e.since < poolIdle ∧ fit = true then
        some { s.goto k y (.taken e.conn) with
          taken := s.taken ++ [⟨e.conn, e.since, t, s.isClosed e.conn⟩] }
      else some (s.goto k y (.evicting now e.conn))
    | _ => none
  | .evict =>
    match y.pc with
    | .evicting now c => some ((s.close c).goto k y (.taking now))
    | _ => none
  | .dial ok =>
    if y.pc = .dialing then
      if ok then some { s.goto k y (.taken s.closed.length) with
        closed := s.closed ++ [false], opener := s.opener ++ [k] }
      else some (s.goto k y (.leaving []))
    else none
  | .use ok =>
    match y.pc with
    | .taken c =>
      if lang = .go ∧ (s.isClosed c = true ∨ ok = false) then
        some (s.goto k y (.leaving [c]))
      else some (s.goto k y (.busy c false))
    | _ => none
  | .cancel => some (s.update k { y with ended := true } (s.idle y.key))
  | .fire =>
    match y.pc with
    | .busy c false =>
      if lang = .go ∧ y.ended = true then
        some { s.goto k y (.busy c true) with fired := s.fired ++ [c] }
      else none
    | _ => none
  | .finish keep =>
    match y.pc with
    | .busy c interrupted =>
      if !interrupted && keep && !y.ended then some (s.goto k y (.putting c))
      else some (s.goto k y (.leaving [c]))
    | _ => none
  | .put now =>
    match y.pc with
    | .putting c =>
      let list := s.idle y.key
      some (s.update k { y with pc := .leaving (putCloses lang list c now) }
        (putIdle list c now).1)
    | _ => none
  | .drop =>
    match y.pc with
    | .leaving (c :: cs) => some ((s.close c).goto k y (.leaving cs))
    | _ => none
  | .again now => if y.pc = .leaving [] then some (s.goto k y (.taking now)) else none
  | .ret => if y.pc = .leaving [] then some (s.goto k y .done) else none

def poolStep (lang : Lang) (s : PoolSystem κ) : PoolAct κ → Option (PoolSystem κ)
  | .call key => some { s with calls := s.calls ++ [⟨key, false, .start⟩] }
  | .move k m => s.calls[k]?.bind fun y => s.move lang k y m
  | .callback c =>
    if c ∈ s.fired then some { s.close c with fired := s.fired.erase c } else none

inductive PoolPlace (κ : Type) where
  | slot (key : κ)
  | call (k : ℕ)
  deriving DecidableEq

def PoolSystem.held (s : PoolSystem κ) : PoolPlace κ → List ℕ
  | .slot key => (s.idle key).map Pooled.conn
  | .call k => (s.calls[k]?.map fun y => y.pc.conns).getD []

def PoolSystem.intact (s : PoolSystem κ) : PoolPlace κ → List ℕ
  | .slot key => (s.idle key).map Pooled.conn
  | .call k => (s.calls[k]?.map fun y => y.pc.intact).getD []

end Listen
