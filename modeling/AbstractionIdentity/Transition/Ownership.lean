import Mathlib.Data.List.Perm.Subperm

/-!
# Exclusive ownership

Tokens lie in places, no token in two of them nor twice in one. Tokens pass between two places or
are dropped (`Exclusive.transfer`), and a new one appears in one place (`Exclusive.fresh`).
-/

namespace Ownership

variable {ι α : Type*} {held held' : ι → List α}

structure Exclusive (held : ι → List α) : Prop where
  nodup : ∀ p, (held p).Nodup
  apart : ∀ p q x, x ∈ held p → x ∈ held q → p = q

theorem exclusive_nil : Exclusive fun _ : ι => ([] : List α) :=
  ⟨fun _ => List.nodup_nil, fun _ _ _ h => by cases h⟩

theorem Exclusive.nodup_append (h : Exclusive held) {p q : ι} (hne : p ≠ q) :
    (held p ++ held q).Nodup := by
  refine List.nodup_append.2 ⟨h.nodup p, h.nodup q, fun x hx y hy heq => ?_⟩
  exact hne (h.apart p q x hx (heq ▸ hy))

/-- Tokens pass between two places, or are dropped there. -/
theorem Exclusive.transfer (h : Exclusive held) {p q : ι} (hne : p ≠ q)
    (hrest : ∀ r, r ≠ p → r ≠ q → held' r = held r)
    (hsub : (held' p ++ held' q).Subperm (held p ++ held q)) : Exclusive held' := by
  have hnodup : (held' p ++ held' q).Nodup := by
    obtain ⟨l, hperm, hl⟩ := id hsub
    exact hperm.nodup_iff.1 (hl.nodup (h.nodup_append hne))
  obtain ⟨hp, hq, hpq⟩ := List.nodup_append.1 hnodup
  -- a token of the two places was in one of them before
  have hfrom : ∀ r x, r = p ∨ r = q → x ∈ held' r → x ∈ held p ∨ x ∈ held q := by
    rintro r x (rfl | rfl) hx
    · exact List.mem_append.1 (hsub.subset (List.mem_append_left _ hx))
    · exact List.mem_append.1 (hsub.subset (List.mem_append_right _ hx))
  have hother : ∀ r s x, r = p ∨ r = q → ¬ (s = p ∨ s = q) → x ∈ held' r → x ∉ held' s := by
    intro r s x hr hs hx hxs
    rw [not_or] at hs
    rw [hrest s hs.1 hs.2] at hxs
    rcases hfrom r x hr hx with hx | hx
    · exact hs.1 (h.apart s p x hxs hx)
    · exact hs.2 (h.apart s q x hxs hx)
  constructor
  · intro r
    by_cases hr : r = p ∨ r = q
    · rcases hr with rfl | rfl
      · exact hp
      · exact hq
    · rw [not_or] at hr
      rw [hrest r hr.1 hr.2]
      exact h.nodup r
  · intro r s x hx hy
    by_cases hr : r = p ∨ r = q
    · by_cases hs : s = p ∨ s = q
      · rcases hr with rfl | rfl <;> rcases hs with rfl | rfl
        · rfl
        · exact absurd rfl (hpq x hx x hy)
        · exact absurd rfl (hpq x hy x hx)
        · rfl
      · exact absurd hy (hother r s x hr hs hx)
    · by_cases hs : s = p ∨ s = q
      · exact absurd hx (hother s r x hs hr hy)
      · rw [not_or] at hr hs
        rw [hrest r hr.1 hr.2] at hx
        rw [hrest s hs.1 hs.2] at hy
        exact h.apart r s x hx hy

theorem Exclusive.fresh (h : Exclusive held) {p : ι} {x : α} (hp : held' p = [x])
    (hrest : ∀ r, r ≠ p → held' r = held r) (hx : ∀ r, x ∉ held r) : Exclusive held' := by
  have hnot : ∀ r, r ≠ p → x ∉ held' r := by
    intro r hr
    rw [hrest r hr]
    exact hx r
  constructor
  · intro r
    by_cases hr : r = p
    · rw [hr, hp]
      simp
    · rw [hrest r hr]
      exact h.nodup r
  · intro r s y hr hs
    by_cases hrp : r = p <;> by_cases hsp : s = p
    · rw [hrp, hsp]
    · rw [hrp, hp, List.mem_singleton] at hr
      exact absurd (hr ▸ hs) (hnot s hsp)
    · rw [hsp, hp, List.mem_singleton] at hs
      exact absurd (hs ▸ hr) (hnot r hrp)
    · rw [hrest r hrp] at hr
      rw [hrest s hsp] at hs
      exact h.apart r s y hr hs

end Ownership
