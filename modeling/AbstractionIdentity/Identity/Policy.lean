import AbstractionIdentity.Identity.Proof

/-!
# Policies and the proofs they demand

A policy is the least rung for each attribute (`Need`). An error is a tree, which `errors.As` looks
through from the outside in and from left to right.
-/

namespace Identity

open Text

/-- An error value: a `ProofError`, or any other error with what its own `As` answers for a
`ProofError` and the errors it wraps. -/
inductive Err where
  | proof (e : ProofError)
  | other (as : Option ProofError) (unwrap : List Err)

def Err.wrap (e : Err) : Err := .other none [e]

mutual

def Err.asProofError : Err → Option ProofError
  | .proof e => some e
  | .other (some e) _ => some e
  | .other none errs => Err.firstProofError errs

def Err.firstProofError : List Err → Option ProofError
  | [] => none
  | e :: errs => match e.asProofError with
      | some found => some found
      | none => Err.firstProofError errs

end

def join (errs : List ProofError) : Option Err :=
  if errs = [] then none else some (.other none (errs.map .proof))

theorem firstProofError_map (errs : List ProofError) :
    Err.firstProofError (errs.map .proof) = errs.head? := by
  cases errs with
  | nil => rfl
  | cons e errs => rfl

theorem join_eq_none_iff {errs : List ProofError} : join errs = none ↔ errs = [] := by
  rw [join]
  split_ifs with h <;> simp [h]

theorem asProofError_of_join {errs : List ProofError} {e : Err} (h : join errs = some e) :
    e.asProofError = errs.head? := by
  rw [join] at h
  split_ifs at h
  cases h
  exact firstProofError_map errs

@[simp] theorem asProofError_wrap (e : Err) : e.wrap.asProofError = e.asProofError := by
  rw [Err.wrap, Err.asProofError, Err.firstProofError]
  cases e.asProofError <;> rfl

theorem asProofError_iterate_wrap (n : ℕ) (e : Err) :
    (Err.wrap^[n] e).asProofError = e.asProofError := by
  induction n with
  | zero => rfl
  | succ n ih => rw [Function.iterate_succ_apply', asProofError_wrap, ih]

def Attr.short {T : Type} (a : Attr T) (min : Proof) : Option ProofError :=
  if Proof.none < min then
    match a.atLeast min with
    | .ok _ => none
    | .error e => some e
  else none

theorem short_eq {T : Type} (a : Attr T) (min : Proof) :
    a.short min = if a.proof < min then some ⟨a.name, min, a.proof, a.why⟩ else none := by
  have hnone : Proof.none.toNat = 0 := rfl
  rw [Attr.short, Attr.atLeast]
  simp only [UInt8.lt_iff_toNat_lt, UInt8.le_iff_toNat_le, hnone]
  by_cases hmin : 0 < min.toNat
  · by_cases hlt : a.proof.toNat < min.toNat
    · rw [if_pos hmin, if_pos hlt, if_neg (by omega)]
    · rw [if_pos hmin, if_neg hlt, if_pos (by omega)]
  · rw [if_neg hmin, if_neg (by omega)]

structure Need where
  user : Proof
  process : Proof
  path : Proof
  package : Proof
  code : Proof
  deriving DecidableEq

def Need.of (n : Need) : Attribute → Proof
  | .user => n.user
  | .process => n.process
  | .path => n.path
  | .package => n.package
  | .code => n.code

section Check

variable {U P C : Type}

def PeerOf.name (p : PeerOf U P C) : Attribute → Bytes
  | .user => p.user.name
  | .process => p.process.name
  | .path => p.path.name
  | .package => p.package.name
  | .code => p.code.name

def PeerOf.proof (p : PeerOf U P C) : Attribute → Proof
  | .user => p.user.proof
  | .process => p.process.proof
  | .path => p.path.proof
  | .package => p.package.proof
  | .code => p.code.proof

def PeerOf.why (p : PeerOf U P C) : Attribute → Bytes
  | .user => p.user.why
  | .process => p.process.why
  | .path => p.path.why
  | .package => p.package.why
  | .code => p.code.why

def PeerOf.short (p : PeerOf U P C) (n : Need) : Attribute → Option ProofError
  | .user => p.user.short n.user
  | .process => p.process.short n.process
  | .path => p.path.short n.path
  | .package => p.package.short n.package
  | .code => p.code.short n.code

def PeerOf.check (p : PeerOf U P C) (n : Need) : Option Err :=
  join (Attribute.all.filterMap (p.short n))

def PeerOf.firstShort (p : PeerOf U P C) (n : Need) : Option Attribute :=
  Attribute.all.find? fun k => p.proof k < n.of k

variable {p : PeerOf U P C} {n : Need}

theorem peerShort_eq (p : PeerOf U P C) (n : Need) (k : Attribute) : p.short n k =
      if p.proof k < n.of k then some ⟨p.name k, n.of k, p.proof k, p.why k⟩ else none := by
  cases k <;> exact short_eq _ _

theorem check_eq_none_iff : p.check n = none ↔ ∀ k, n.of k ≤ p.proof k := by
  rw [PeerOf.check, join_eq_none_iff, List.filterMap_eq_nil_iff]
  constructor
  · intro h k
    have hk := h k (Attribute.mem_all k)
    rw [peerShort_eq] at hk
    split_ifs at hk with hlt
    exact UInt8.not_lt.1 hlt
  · intro h k _
    rw [peerShort_eq, if_neg (UInt8.not_lt.2 (h k))]

theorem findSome?_eq_find? {α β : Type} (f : α → Option β) (l : List α) :
    l.findSome? f = (l.find? fun x => (f x).isSome).bind f := by
  induction l with
  | nil => rfl
  | cons x l ih =>
    rw [List.findSome?_cons, List.find?_cons]
    cases hx : f x with
    | none => simpa using ih
    | some y => simp [hx]

theorem asProofError_of_check {e : Err} (h : p.check n = some e) : ∃ k, p.firstShort n = some k ∧
      e.asProofError = some ⟨p.name k, n.of k, p.proof k, p.why k⟩ := by
  have hsome : ∀ k, (p.short n k).isSome = decide (p.proof k < n.of k) := by
    intro k
    rw [peerShort_eq]
    split_ifs with hlt <;> simp [hlt]
  have hfound : e.asProofError = (p.firstShort n).bind (p.short n) := by
    rw [asProofError_of_join h, List.head?_filterMap, findSome?_eq_find?, PeerOf.firstShort]
    simp only [hsome]
  cases hk : p.firstShort n with
  | none =>
    -- then nothing falls short, and there is no error
    have hnone : p.check n = none := by
      refine check_eq_none_iff.2 fun k => UInt8.not_lt.1 fun hlt => ?_
      have hno := List.find?_eq_none.1 hk k (Attribute.mem_all k)
      exact hno (by simpa using hlt)
    rw [hnone] at h
    cases h
  | some k =>
    have hlt : p.proof k < n.of k := by simpa using List.find?_some hk
    refine ⟨k, rfl, ?_⟩
    rw [hfound, hk, Option.bind_some, peerShort_eq, if_pos hlt]

end Check

/-- What a platform can prove at best on a transport, whether it can bind a peer there, and
the reason for each ceiling. -/
structure Limits where
  platform : String
  transport : String
  best : Need
  bindable : Bool
  why : Attribute → Bytes

def Limits.short (l : Limits) (n : Need) (k : Attribute) : Option ProofError :=
  if l.best.of k < n.of k then some ⟨k.name, n.of k, l.best.of k, l.why k⟩ else none

def Limits.canEver (l : Limits) (n : Need) : Option Err :=
  join (Attribute.all.filterMap (l.short n))

theorem canEver_eq_none_iff {l : Limits} {n : Need} :
    l.canEver n = none ↔ ∀ k, n.of k ≤ l.best.of k := by
  rw [Limits.canEver, join_eq_none_iff, List.filterMap_eq_nil_iff]
  constructor
  · intro h k
    have hk := h k (Attribute.mem_all k)
    rw [Limits.short] at hk
    split_ifs at hk with hlt
    exact UInt8.not_lt.1 hlt
  · intro h k _
    rw [Limits.short, if_neg (UInt8.not_lt.2 (h k))]

end Identity
