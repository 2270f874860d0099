import AbstractionIdentity.Identity.Policy
import AbstractionIdentity.Listen.Response

/-!
# What a refusal says

A refusal is a control word and two tokens, made of the `ProofError` that `errors.As` finds. So it
is a function of the policy and of which attribute is the first to fall short
(`refusal_discloses_policy`).
-/

namespace Listen

open Text Stream Identity List

def proofAttributes : List Bytes := ["", "user", "process", "path", "package", "code"].map ascii

/-- The tokens for an error: its attribute and the rung it demands, if both are in the
vocabulary of a refusal. -/
def refusalToken (e : ProofError) : Bytes :=
  match proofAttributes.zipIdx.find? fun (name, i) =>
      e.attributeName = name ∧ i ≠ 0 ∧ Proof.none < e.want ∧ e.want ≤ Proof.signed with
  | some (_, i) => [.ofNat i, e.want]
  | none => [0, 0]

def refusalTokensOf (err : Option Err) : Bytes :=
  match err.bind Err.asProofError with
  | some e => refusalToken e
  | none => [0, 0]

def proofRefusalBytes (err : Option Err) : Bytes := word proofRefusalHeader ++ refusalTokensOf err

def refusedAttribute (attr : UInt8) : Bytes := proofAttributes.getD attr.toNat []

def token : Attribute → UInt8
  | .user => 1
  | .process => 2
  | .path => 3
  | .package => 4
  | .code => 5

theorem refusedAttribute_token (k : Attribute) : refusedAttribute (token k) = k.name := by
  cases k <;> decide

theorem validTokens_refusalToken (e : ProofError) : validTokens (refusalToken e) = true := by
  rw [refusalToken]
  cases hfound : proofAttributes.zipIdx.find? fun (name, i) =>
      e.attributeName = name ∧ i ≠ 0 ∧ Proof.none < e.want ∧ e.want ≤ Proof.signed with
  | none => rfl
  | some found =>
    obtain ⟨name, i⟩ := found
    have hmem := mem_of_find?_eq_some hfound
    have htest := List.find?_some hfound
    simp only [decide_eq_true_eq] at htest
    obtain ⟨-, hi, hpos, hle⟩ := htest
    have hlt : i < 6 := by
      have hget := mem_zipIdx' hmem
      exact hget.1
    have hnat : (UInt8.ofNat i).toNat = i := by
      rw [UInt8.toNat_ofNat']
      omega
    have hne : UInt8.ofNat i ≠ 0 := by
      intro h
      rw [h] at hnat
      exact hi hnat.symm
    have hwant : e.want ≠ 0 := by
      intro h
      rw [h] at hpos
      exact absurd hpos (by decide)
    have hrung : e.want.toNat ≤ 8 := hle
    simp [validTokens, hnat, hlt, hrung, hne, hwant]

theorem refusalTokensOf_valid (err : Option Err) : validTokens (refusalTokensOf err) = true := by
  rw [refusalTokensOf]
  split
  · exact validTokens_refusalToken _
  · rfl

theorem readProofRefusal_of_valid {chunk : ℕ → Bytes → ℕ} {attr required : UInt8}
    (h : validTokens [attr, required] = true) :
    readProofRefusal chunk [attr, required] = .refused attr required := by
  rw [readProofRefusal, readExact_of_le chunk _ (by simp)]
  simp only [take_succ_cons, take_zero, refusalOf]
  rw [if_neg]
  intro hbad
  rw [(validTokens_eq_false_iff attr required).2 hbad] at h
  cases h

theorem refusalToken_eq {e : ProofError} {k : Attribute} (hname : e.attributeName = k.name)
    (hpos : Proof.none < e.want) (hle : e.want ≤ Proof.signed) :
    refusalToken e = [token k, e.want] := by
  rw [refusalToken, hname]
  cases k <;> simp [proofAttributes, Attribute.name, List.zipIdx, ascii, token, hpos, hle]

section Check

variable {U P C : Type}

def OwnNames (p : PeerOf U P C) : Prop := ∀ k, p.name k = k.name

def OnLadder (n : Need) : Prop := ∀ k, n.of k ≤ Proof.signed

theorem refusalTokensOf_check {p : PeerOf U P C} {n : Need} (hp : OwnNames p) (hn : OnLadder n)
    {e : Err} (h : p.check n = some e) (wraps : ℕ) :
    ∃ k, p.firstShort n = some k ∧
      refusalTokensOf (some (Err.wrap^[wraps] e)) = [token k, n.of k] := by
  obtain ⟨k, hk, hfound⟩ := asProofError_of_check h
  have hlt : p.proof k < n.of k := by simpa using List.find?_some hk
  have hpos : Proof.none < n.of k := by
    rw [UInt8.lt_iff_toNat_lt] at hlt ⊢
    have hnone : Proof.none.toNat = 0 := rfl
    omega
  refine ⟨k, hk, ?_⟩
  rw [refusalTokensOf, Option.bind_some, asProofError_iterate_wrap, hfound]
  exact refusalToken_eq (hp k) hpos (hn k)

end Check

/-- Callers of which the same attribute is the first to fall short are sent the same bytes. Every
error makes a refusal that is read as one, and that of a check names this attribute and the rung
demanded of it. -/
theorem refusal_discloses_policy (chunk : ℕ → Bytes → ℕ) :
    (∀ {U P C U' P' C' : Type} (p : PeerOf U P C) (q : PeerOf U' P' C') (n : Need) (ep eq : Err),
      OnLadder n → OwnNames p → OwnNames q → p.check n = some ep → q.check n = some eq →
      p.firstShort n = q.firstShort n →
      proofRefusalBytes (some ep) = proofRefusalBytes (some eq)) ∧
    (∀ err : Option Err, ∃ attr required,
      proofRefusalBytes err = word proofRefusalHeader ++ [attr, required] ∧
      readProofRefusal chunk [attr, required] = .refused attr required) ∧
    (∀ {U P C : Type} (p : PeerOf U P C) (n : Need) (e : Err) (wraps : ℕ),
      OnLadder n → OwnNames p → p.check n = some e →
      ∃ k attr, p.firstShort n = some k ∧ proofRefusalBytes (some (Err.wrap^[wraps] e)) =
          word proofRefusalHeader ++ [attr, n.of k] ∧
        readProofRefusal chunk [attr, n.of k] = .refused attr (n.of k) ∧
        refusedAttribute attr = k.name) := by
  refine ⟨?_, ?_, ?_⟩
  · intro U P C U' P' C' p q n ep eq hn hp hq hep heq hfirst
    obtain ⟨k, hk, htokens⟩ := refusalTokensOf_check hp hn hep 0
    obtain ⟨k', hk', htokens'⟩ := refusalTokensOf_check hq hn heq 0
    rw [← hfirst, hk] at hk'
    cases hk'
    rw [proofRefusalBytes, proofRefusalBytes]
    exact congrArg _ (htokens.trans htokens'.symm)
  · intro err
    have hvalid := refusalTokensOf_valid err
    rw [proofRefusalBytes]
    match refusalTokensOf err, hvalid with
    | [attr, required], hvalid =>
      exact ⟨attr, required, rfl, readProofRefusal_of_valid hvalid⟩
  · intro U P C p n e wraps hn hp he
    obtain ⟨k, hk, htokens⟩ := refusalTokensOf_check hp hn he wraps
    have hvalid := refusalTokensOf_valid (some (Err.wrap^[wraps] e))
    rw [htokens] at hvalid
    refine ⟨k, token k, hk, ?_, readProofRefusal_of_valid hvalid, refusedAttribute_token k⟩
    rw [proofRefusalBytes, htokens]

def caller (path : Bytes) (rung : UInt8) (why : Bytes) : PeerOf Unit Unit Unit where
  platform := "linux"
  transport := "unix"
  user := ⟨ascii "user", (), 7, []⟩
  process := ⟨ascii "process", (), 7, []⟩
  path := ⟨ascii "path", path, rung, why⟩
  package := ⟨ascii "package", [], 0, why⟩
  code := ⟨ascii "code", (), 0, []⟩

theorem caller_ownNames (path : Bytes) (rung : UInt8) (why : Bytes) :
    OwnNames (caller path rung why) := by
  intro k
  cases k <;> rfl

/-- Two callers of different images, proven at different rungs for different reasons. -/
theorem refusal_discloses_policy_twoCallers :
    ∃ e e', (caller [47, 97] 5 [1]).check ⟨7, 7, 6, 6, 0⟩ = some e ∧
      (caller [47, 98] 0 [2]).check ⟨7, 7, 6, 6, 0⟩ = some e' ∧
      proofRefusalBytes (some e) = proofRefusalBytes (some e') := by
  refine ⟨_, _, rfl, rfl, ?_⟩
  have hn : OnLadder ⟨7, 7, 6, 6, 0⟩ := by
    intro k
    cases k <;> decide
  exact (refusal_discloses_policy fun _ _ => 1).1 (caller [47, 97] 5 [1]) (caller [47, 98] 0 [2])
    ⟨7, 7, 6, 6, 0⟩ _ _ hn (caller_ownNames _ _ _) (caller_ownNames _ _ _) rfl rfl (by decide)

end Listen
