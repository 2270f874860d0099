import Mathlib.Data.Int.Basic
import AbstractionIdentity.Text.Bytes

/-!
# Attributes of a peer and the strength of their evidence

An attribute is a value with a rung of the proof ladder and the reason it is no stronger. `unknown`
sits at the lowest rung with the zero value, which `atLeast` never hands out. A rung is a byte, as
in the code: nothing keeps a policy or an error from naming one that is not on the ladder.
-/

namespace Identity

open Text

abbrev Proof := UInt8

namespace Proof

def none : Proof := 0

def claimed : Proof := 1

def invalid : Proof := 2

def unsigned : Proof := 3

def unmet : Proof := 4

def pid : Proof := 5

def bound : Proof := 6

def kernel : Proof := 7

def signed : Proof := 8

end Proof

/-- The attribute that fell short, the rung demanded, the rung there was, and the reason the
platform gave. -/
structure ProofError where
  attributeName : Bytes
  want : Proof
  got : Proof
  why : Bytes
  deriving DecidableEq

structure Attr (T : Type) where
  name : Bytes
  value : T
  proof : Proof
  why : Bytes
  deriving DecidableEq

def attr {T : Type} (name : Bytes) (value : T) (proof : Proof) (why : Bytes) : Attr T :=
  ⟨name, value, proof, why⟩

def unknown {T : Type} [Inhabited T] (name why : Bytes) : Attr T := ⟨name, default, .none, why⟩

def Attr.atLeast {T : Type} (a : Attr T) (min : Proof) : Except ProofError T :=
  if min ≤ a.proof ∧ .none < a.proof then .ok a.value
  else .error ⟨a.name, min, a.proof, a.why⟩

theorem atLeast_attr {T : Type} (name : Bytes) (value : T) {least proof : Proof} (why : Bytes)
    (h : least ≤ proof) (hsome : .none < proof) :
    (attr name value proof why).atLeast least = .ok value := if_pos ⟨h, hsome⟩

inductive Attribute where
  | user
  | process
  | path
  | package
  | code
  deriving DecidableEq

def Attribute.all : List Attribute := [.user, .process, .path, .package, .code]

def Attribute.name : Attribute → Bytes
  | .user => ascii "user"
  | .process => ascii "process"
  | .path => ascii "path"
  | .package => ascii "package"
  | .code => ascii "code"

theorem Attribute.mem_all (k : Attribute) : k ∈ Attribute.all := by
  cases k <;> decide

structure User where
  kind : String
  uid : ℤ
  gid : ℤ
  securityContext : Bytes
  deriving DecidableEq

instance : Inhabited User := ⟨⟨"", 0, 0, []⟩⟩

structure Process where
  pid : ℤ
  startTime : ℤ
  recycled : Bool
  deriving DecidableEq

instance : Inhabited Process := ⟨⟨0, 0, false⟩⟩

/-- A peer with the platform's records of a user, a process and a code signature. -/
structure PeerOf (U P C : Type) where
  platform : String
  transport : String
  user : Attr U
  process : Attr P
  path : Attr Bytes
  package : Attr Bytes
  code : Attr C
  deriving DecidableEq

abbrev Peer := PeerOf User Process Unit

end Identity
