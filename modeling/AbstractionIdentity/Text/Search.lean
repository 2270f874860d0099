import AbstractionIdentity.Text.Bytes
import Mathlib.Data.List.Infix

/-!
# The first occurrence of a text

`cutText pat s` is the text before and after the first `pat` in `s`. In `s ++ pat ++ t` that is the
one after `s` if `pat` is not in `s` and no beginning of it is an end of it
(`Unbordered.cutText_append`).
-/

namespace Text

open List Option

variable {pat s t : Bytes}

def cutText (pat : Bytes) : Bytes → Option (Bytes × Bytes)
  | [] => none
  | b :: s =>
    if pat.isPrefixOf (b :: s) then some ([], (b :: s).drop pat.length)
    else (cutText pat s).map fun r => (b :: r.1, r.2)

theorem begins_iff : pat.isPrefixOf s = true ↔ pat <+: s := isPrefixOf_iff_prefix

theorem cutText_cons_of_not {b : UInt8} (h : ¬ pat <+: b :: s) :
    cutText pat (b :: s) = (cutText pat s).map fun r => (b :: r.1, r.2) := by
  rw [cutText, if_neg]
  rwa [begins_iff]

theorem cutText_of_start (hpat : pat ≠ []) (h : pat <+: s) :
    cutText pat s = some ([], s.drop pat.length) := by
  cases s with
  | nil => exact absurd (prefix_nil.1 h) hpat
  | cons b s => rw [cutText, if_pos (begins_iff.2 h)]

theorem eq_of_cutText {a b : Bytes} (h : cutText pat s = some (a, b)) : s = a ++ (pat ++ b) := by
  induction s generalizing a b with
  | nil => cases h
  | cons c s ih =>
    rw [cutText] at h
    split_ifs at h with hpre
    · cases h
      rw [begins_iff] at hpre
      exact (prefix_append_drop hpre)
    · obtain ⟨⟨a', b'⟩, hr, heq⟩ := map_eq_some_iff.1 h
      cases heq
      rw [ih hr]
      rfl

theorem cutText_isSome_of_infix (hpat : pat ≠ []) (h : pat <:+: s) : (cutText pat s).isSome := by
  induction s with
  | nil => exact absurd (infix_nil.1 h) hpat
  | cons b s ih =>
    by_cases hpre : pat <+: b :: s
    · rw [cutText_of_start hpat hpre]
      rfl
    · rcases infix_cons_iff.1 h with hpre' | hinfix
      · exact absurd hpre' hpre
      · rw [cutText_cons_of_not hpre, isSome_map]
        exact ih hinfix

theorem cutText_append_of_some {a b : Bytes} (h : cutText pat s = some (a, b)) :
    cutText pat (s ++ t) = some (a, b ++ t) := by
  induction s generalizing a b with
  | nil => cases h
  | cons c s ih =>
    rw [cutText] at h
    split_ifs at h with hpre
    · cases h
      rw [begins_iff] at hpre
      have hlonger : pat <+: c :: (s ++ t) := hpre.trans (prefix_append (c :: s) t)
      rw [cons_append, cutText, if_pos (begins_iff.2 hlonger)]
      exact congrArg (fun r => some ([], r)) (drop_append_of_le_length hpre.length_le)
    · obtain ⟨⟨a', b'⟩, hr, heq⟩ := map_eq_some_iff.1 h
      cases heq
      have hnot : ¬ pat <+: c :: (s ++ t) := by
        intro hlonger
        have hlen : pat.length ≤ (c :: s).length := by
          rw [eq_of_cutText hr]
          simp only [length_cons, length_append]
          omega
        refine hpre (begins_iff.2 ?_)
        exact prefix_of_prefix_length_le hlonger (prefix_append (c :: s) t) hlen
      rw [cons_append, cutText_cons_of_not hnot, ih hr]
      rfl

theorem cutText_append_of_no_start {x : Bytes} (hpat : pat ≠ []) (h : ∀ b ∈ x, pat.head? ≠ some b) :
    cutText pat (x ++ s) = (cutText pat s).map fun r => (x ++ r.1, r.2) := by
  induction x with
  | nil => simp
  | cons b x ih =>
    have hnot : ¬ pat <+: b :: (x ++ s) := by
      intro hpre
      cases pat with
      | nil => exact hpat rfl
      | cons c pat =>
        refine h b mem_cons_self ?_
        rw [(cons_prefix_cons.1 hpre).1]
        rfl
    rw [cons_append, cutText_cons_of_not hnot,
      ih fun c hc => h c (mem_cons_of_mem b hc), Option.map_map]
    rfl

def Unbordered (pat : Bytes) : Prop :=
  ∀ k < pat.length, 0 < k → pat.take k ≠ pat.drop (pat.length - k)

instance : Decidable (Unbordered pat) := inferInstanceAs (Decidable (∀ k < pat.length, 0 < k → _))

theorem Unbordered.cutText_append (hpat : pat ≠ []) (hborder : Unbordered pat)
    (h : cutText pat s = none) : cutText pat (s ++ (pat ++ t)) = some (s, t) := by
  induction s with
  | nil =>
    rw [nil_append, cutText_of_start hpat (prefix_append pat t), drop_left]
  | cons b s ih =>
    have hpre : ¬ pat <+: b :: s := by
      intro hpre
      rw [cutText_of_start hpat hpre] at h
      cases h
    have hnone : cutText pat s = none := by
      rw [cutText_cons_of_not hpre, map_eq_none_iff] at h
      exact h
    have hnot : ¬ pat <+: b :: (s ++ (pat ++ t)) := by
      intro hlong
      have hlong' : pat <+: (b :: s) ++ (pat ++ t) := hlong
      have hlen : (b :: s).length < pat.length := by
        refine Nat.lt_of_not_le fun hle => hpre ?_
        exact prefix_of_prefix_length_le hlong' (prefix_append _ _) hle
      -- the occurrence is `b :: s` and a beginning of `pat`, which is then an end of it
      have hdrop : pat.drop (b :: s).length <+: pat ++ t := by
        have hd := List.IsPrefix.drop hlong' (b :: s).length
        rwa [drop_left] at hd
      have htake : pat.drop (b :: s).length = pat.take (pat.length - (b :: s).length) := by
        have hlen' : (pat.drop (b :: s).length).length = pat.length - (b :: s).length := length_drop
        rw [← hlen', prefix_iff_eq_take.1 hdrop, length_take, length_append,
          take_append_of_le_length (by omega), hlen']
        congr 1
        omega
      refine hborder (pat.length - (b :: s).length) ?_ (by omega) ?_
      · rw [length_cons]
        rw [length_cons] at hlen
        omega
      · rw [← htake]
        congr 1
        omega
    rw [cons_append, cutText_cons_of_not hnot, ih hnone]
    rfl

end Text
