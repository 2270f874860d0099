import Mathlib.Data.List.Basic
import Mathlib.Data.List.Induction

/-!
# The deepest part of a path with a property

`deepest p` goes up from the whole path, taking off the last name, to the first part with the
property `p`, and keeps the names it took off. The names are given with the last one first.
-/

namespace Text

open List

variable {α : Type} {p : List α → Bool}

def deepest (p : List α → Bool) : List α → List α → Option (List α × List α)
  | [], rest => if p [] then some ([], rest) else none
  | name :: above, rest =>
    if p (name :: above).reverse then some ((name :: above).reverse, rest)
    else deepest p above (name :: rest)

theorem deepest_concat (path : List α) (name : α) (rest : List α) :
    deepest p (path ++ [name]).reverse rest =
      if p (path ++ [name]) then some (path ++ [name], rest)
      else deepest p path.reverse (name :: rest) := by
  rw [reverse_append, reverse_singleton, singleton_append, deepest, reverse_cons, reverse_reverse]

theorem deepest_of_holds {path : List α} (h : p path = true) (rest : List α) :
    deepest p path.reverse rest = some (path, rest) := by
  rcases eq_nil_or_concat' path with rfl | ⟨path, name, rfl⟩
  · exact if_pos h
  · rw [deepest_concat, if_pos h]

theorem deepest_append {path missing : List α}
    (h : ∀ m, m ≠ [] → m <+: missing → p (path ++ m) = false) (rest : List α) :
    deepest p (path ++ missing).reverse rest = deepest p path.reverse (missing ++ rest) := by
  induction missing using List.reverseRecOn generalizing rest with
  | nil => rw [append_nil, nil_append]
  | append_singleton missing name ih =>
    have hlast := h (missing ++ [name]) (by simp) (prefix_refl _)
    rw [← append_assoc] at hlast ⊢
    rw [deepest_concat, if_neg (Bool.eq_false_iff.1 hlast),
      ih fun m hm hgrown => h m hm (hgrown.trans (prefix_append _ _)), append_assoc]
    rfl

theorem deepest_eq_some {path rest found below : List α}
    (h : deepest p path.reverse rest = some (found, below)) :
    ∃ missing, path = found ++ missing ∧ below = missing ++ rest ∧ p found = true ∧
      ∀ m, m ≠ [] → m <+: missing → p (found ++ m) = false := by
  induction path using List.reverseRecOn generalizing rest with
  | nil =>
    rw [reverse_nil, deepest] at h
    split_ifs at h with hholds
    cases h
    exact ⟨[], rfl, rfl, hholds, fun m hm hgrown => absurd (prefix_nil.1 hgrown) hm⟩
  | append_singleton path name ih =>
    rw [deepest_concat] at h
    split_ifs at h with hholds
    · cases h
      refine ⟨[], by simp, rfl, hholds, fun m hm hgrown => ?_⟩
      exact absurd (prefix_nil.1 hgrown) hm
    · obtain ⟨missing, rfl, rfl, hfound, hmissing⟩ := ih h
      refine ⟨missing ++ [name], append_assoc .., by simp, hfound, fun m hm hgrown => ?_⟩
      rcases prefix_concat_iff.1 hgrown with rfl | hgrown
      · rw [← append_assoc]
        exact Bool.eq_false_iff.2 hholds
      · exact hmissing m hm hgrown

end Text
