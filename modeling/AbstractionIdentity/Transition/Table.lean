import Mathlib.Algebra.Order.Ring.Int
import Mathlib.Data.List.Basic

/-!
# Tables of processes

A system of several processes, threads or connections keeps them in a list. A step
replaces one entry or adds one at the end; what stands at a place afterwards is the
new entry or what stood there before.
-/

namespace Transition

open List

variable {α : Type*} {l : List α} {i j : ℕ} {a b x : α}

theorem lookup_set (h : (l.set i a)[j]? = some b) : j = i ∧ b = a ∨ j ≠ i ∧ l[j]? = some b := by
  by_cases hij : j = i
  · subst hij
    rw [List.getElem?_set_self'] at h
    obtain ⟨-, -, rfl⟩ := Option.map_eq_some_iff.1 h
    exact .inl ⟨rfl, rfl⟩
  · rw [List.getElem?_set_ne (Ne.symm hij)] at h
    exact .inr ⟨hij, h⟩

theorem lookup_set_iff (hi : l[i]? = some x) :
    (l.set i a)[j]? = some b ↔ j = i ∧ b = a ∨ j ≠ i ∧ l[j]? = some b := by
  refine ⟨lookup_set, ?_⟩
  rintro (⟨rfl, rfl⟩ | ⟨hij, h⟩)
  · rw [List.getElem?_set_self', hi]
    rfl
  · rwa [List.getElem?_set_ne (Ne.symm hij)]

theorem lookup_concat_iff :
    (l ++ [a])[j]? = some b ↔ j = l.length ∧ b = a ∨ j ≠ l.length ∧ l[j]? = some b := by
  rw [List.getElem?_append]
  split_ifs with hlt
  · simp [Nat.ne_of_lt hlt]
  · by_cases hj : j = l.length
    · simp [hj, eq_comm]
    · have hnone : l[j]? = none := List.getElem?_eq_none (by omega)
      have hlast : [a][j - l.length]? = none := by
        refine List.getElem?_eq_none ?_
        rw [length_singleton]
        omega
      simp [hj, hnone, hlast]

theorem forall_concat {p : α → Prop} (h : ∀ (i : ℕ) (x : α), l[i]? = some x → p x)
    (ha : p a) (i : ℕ) (x : α) (hx : (l ++ [a])[i]? = some x) : p x := by
  rcases lookup_concat_iff.1 hx with ⟨-, rfl⟩ | ⟨-, hx⟩
  · exact ha
  · exact h i x hx

theorem countP_set_of_lookup {p : α → Bool} (hi : l[i]? = some x) : ((l.set i a).countP p : ℤ) =
      l.countP p - (if p x then 1 else 0) + if p a then 1 else 0 := by
  obtain ⟨hlt, rfl⟩ := List.getElem?_eq_some_iff.1 hi
  have hpos : p l[i] = true → 0 < l.countP p := fun hp =>
    countP_pos_iff.2 ⟨l[i], getElem_mem hlt, hp⟩
  rw [countP_set hlt]
  split_ifs with hx ha
  · have hcount := hpos hx
    omega
  · have hcount := hpos hx
    omega
  all_goals omega

theorem countP_flatten_set {ls : List (List α)} {xs ys : List α} {p : α → Bool}
    (hi : ls[i]? = some xs) :
    ((ls.set i ys).flatten.countP p : ℤ) = ls.flatten.countP p - xs.countP p + ys.countP p := by
  induction ls generalizing i with
  | nil => cases hi
  | cons zs ls ih =>
    cases i with
    | zero =>
      obtain rfl : zs = xs := by simpa using hi
      simp only [set_cons_zero, flatten_cons, countP_append]
      omega
    | succ i =>
      rw [List.getElem?_cons_succ] at hi
      have hrest := ih hi
      simp only [set_cons_succ, flatten_cons, countP_append]
      omega

end Transition
