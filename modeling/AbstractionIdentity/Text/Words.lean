import AbstractionIdentity.Text.Bytes

/-!
# Words between separators of several bytes

`words seps s` are the maximal nonempty pieces of `s` that the byte strings in `seps` leave;
`wordsFrom` is the scan, with the rest of a separator to be skipped and the word so far.
-/

namespace Text

open List

variable {seps : List Bytes} {s t : Bytes}

def sepAt (seps : List Bytes) (s : Bytes) : Option Bytes := seps.find? fun w => w.isPrefixOf s

def flush (word : Bytes) : List Bytes := if word = [] then [] else [word]

def wordsFrom (seps : List Bytes) : ℕ → Bytes → Bytes → List Bytes
  | _, word, [] => flush word
  | skip + 1, word, _ :: s => wordsFrom seps skip word s
  | 0, word, b :: s =>
    match sepAt seps (b :: s) with
    | some w => flush word ++ wordsFrom seps (w.length - 1) [] s
    | none => wordsFrom seps 0 (word ++ [b]) s

def words (seps : List Bytes) (s : Bytes) : List Bytes := wordsFrom seps 0 [] s

theorem sepAt_eq_none_iff : sepAt seps s = none ↔ ∀ w ∈ seps, ¬ w <+: s := by
  simp [sepAt, List.find?_eq_none]

theorem prefix_of_sepAt {w : Bytes} (h : sepAt seps s = some w) : w ∈ seps ∧ w <+: s := by
  rw [sepAt] at h
  have hpre := List.find?_some h
  exact ⟨mem_of_find?_eq_some h, isPrefixOf_iff_prefix.1 hpre⟩

theorem sepAt_filter_congr {p : Bytes → Bool} (h : ∀ w ∈ seps, w <+: s ↔ p w = true ∧ w <+: t) :
    sepAt seps s = sepAt (seps.filter p) t := by
  rw [sepAt, sepAt, List.find?_filter, ← List.head?_filter, ← List.head?_filter]
  congr 1
  refine filter_congr fun w hw => ?_
  rw [Bool.eq_iff_iff, decide_eq_true_iff, isPrefixOf_iff_prefix, isPrefixOf_iff_prefix]
  exact h w hw

theorem sepAt_congr (h : ∀ w ∈ seps, w <+: s ↔ w <+: t) : sepAt seps s = sepAt seps t := by
  have hall : seps.filter (fun _ => true) = seps := filter_true seps
  rw [sepAt_filter_congr (p := fun _ => true) fun w hw => by simpa using h w hw, hall]

theorem nil_not_mem_flush (word : Bytes) : [] ∉ flush word := by
  rw [flush]
  split_ifs with h
  · exact not_mem_nil
  · rw [mem_singleton]
    exact fun hnil => h hnil.symm

theorem nil_not_mem_wordsFrom (skip : ℕ) (word s : Bytes) : [] ∉ wordsFrom seps skip word s := by
  fun_induction wordsFrom seps skip word s with
  | case1 => exact nil_not_mem_flush _
  | case2 _ _ _ _ ih => exact ih
  | case3 _ _ _ _ _ ih => exact not_mem_append (nil_not_mem_flush _) ih
  | case4 _ _ _ _ ih => exact ih

theorem length_flatten_wordsFrom (skip : ℕ) (word s : Bytes) :
    (wordsFrom seps skip word s).flatten.length ≤ word.length + s.length := by
  have hflush : ∀ word : Bytes, (flush word).flatten.length = word.length := by
    intro word
    rw [flush]
    split_ifs with h
    · rw [h]
      rfl
    · simp
  fun_induction wordsFrom seps skip word s with
  | case1 => simp [hflush]
  | case2 skip word b s ih =>
    rw [length_cons]
    omega
  | case3 word b s w hw ih =>
    rw [flatten_append, length_append, hflush, length_cons]
    rw [length_nil] at ih
    omega
  | case4 word b s hw ih =>
    rw [length_append, length_singleton] at ih
    rw [length_cons]
    omega

theorem words_eq_singleton_of_head (h : (words seps s).head? = some s) : words seps s = [s] := by
  cases hws : words seps s with
  | nil => simp [hws] at h
  | cons w ws =>
    obtain rfl : w = s := by simpa [hws] using h
    cases ws with
    | nil => rfl
    | cons w' ws =>
      have hlen := @length_flatten_wordsFrom seps 0 [] w
      have hne : w' ≠ [] := by
        rintro rfl
        refine @nil_not_mem_wordsFrom seps 0 [] w ?_
        rw [← words, hws]
        simp
      have hpos := length_pos_iff.2 hne
      rw [← words, hws] at hlen
      simp only [flatten_cons, length_append, length_nil] at hlen
      omega

theorem wordsFrom_append_of_no_start {word x : Bytes}
    (h : ∀ b ∈ x, ∀ w ∈ seps, ∃ c ∈ w.head?, c ≠ b) :
    wordsFrom seps 0 word (x ++ s) = wordsFrom seps 0 (word ++ x) s := by
  induction x generalizing word with
  | nil => rw [nil_append, append_nil]
  | cons b x ih =>
    have hnone : sepAt seps (b :: (x ++ s)) = none := by
      refine sepAt_eq_none_iff.2 fun w hw hpre => ?_
      obtain ⟨c, hc, hne⟩ := h b mem_cons_self w hw
      obtain ⟨w', rfl⟩ := List.head?_eq_some_iff.1 hc
      exact hne (cons_prefix_cons.1 hpre).1
    rw [cons_append, wordsFrom, hnone]
    dsimp only
    rw [ih fun c hc => h c (mem_cons_of_mem _ hc), append_assoc]
    rfl

theorem wordsFrom_of_no_sep {word : Bytes} (h : ∀ w ∈ seps, ¬ w <:+: s) :
    wordsFrom seps 0 word s = flush (word ++ s) := by
  induction s generalizing word with
  | nil => rw [wordsFrom, append_nil]
  | cons b s ih =>
    have hnone : sepAt seps (b :: s) = none :=
      sepAt_eq_none_iff.2 fun w hw hpre => h w hw hpre.isInfix
    have htail : ∀ w ∈ seps, ¬ w <:+: s := fun w hw hin =>
      h w hw (hin.trans (suffix_cons b s).isInfix)
    rw [wordsFrom, hnone]
    dsimp only
    rw [ih htail, append_assoc]
    rfl

theorem words_of_no_sep (hne : s ≠ []) (h : ∀ w ∈ seps, ¬ w <:+: s) : words seps s = [s] := by
  rw [words, wordsFrom_of_no_sep h, nil_append, flush, if_neg hne]

structure Cuts (seps : List Bytes) (c : UInt8) : Prop where
  mem : [c] ∈ seps
  other : ∀ w ∈ seps, w = [c] ∨ c ∉ w
  nonempty : [] ∉ seps

theorem Cuts.sepAt_self {c : UInt8} (h : Cuts seps c) : sepAt seps (c :: t) = some [c] := by
  cases hw : sepAt seps (c :: t) with
  | none =>
    exact absurd (prefix_append [c] t) (sepAt_eq_none_iff.1 hw [c] h.mem)
  | some w =>
    obtain ⟨hmem, hpre⟩ := prefix_of_sepAt hw
    rcases h.other w hmem with rfl | hnot
    · rfl
    · cases w with
      | nil => exact absurd hmem h.nonempty
      | cons b w =>
        obtain rfl := (cons_prefix_cons.1 hpre).1
        exact absurd mem_cons_self hnot

theorem Cuts.prefix_iff {c : UInt8} (h : Cuts seps c) {w : Bytes} (hw : w ∈ seps)
    (hs : s ≠ []) : w <+: s ++ c :: t ↔ w <+: s := by
  refine ⟨fun hpre => ?_, fun hpre => hpre.trans (prefix_append _ _)⟩
  rcases Nat.lt_or_ge s.length w.length with hlt | hle
  · -- the separator would hold the byte `c`
    have hcut : s ++ [c] <+: w := by
      have hall : s ++ [c] <+: s ++ c :: t := ⟨t, by simp⟩
      refine prefix_of_prefix_length_le hall hpre ?_
      rw [length_append, length_singleton]
      omega
    have hmem : c ∈ w := hcut.subset (by simp)
    rcases h.other w hw with rfl | hnot
    · have hpos := length_pos_iff.2 hs
      rw [length_singleton] at hlt
      omega
    · exact absurd hmem hnot
  · exact prefix_of_prefix_length_le hpre (prefix_append _ _) hle

theorem Cuts.wordsFrom_append {c : UInt8} (h : Cuts seps c) {skip : ℕ} {word : Bytes}
    (hskip : skip ≤ s.length) :
    wordsFrom seps skip word (s ++ c :: t) = wordsFrom seps skip word s ++ words seps t := by
  induction s generalizing skip word with
  | nil =>
    obtain rfl : skip = 0 := Nat.le_zero.1 hskip
    rw [nil_append, wordsFrom.eq_def, wordsFrom]
    dsimp only
    rw [h.sepAt_self]
    rfl
  | cons b s ih =>
    cases skip with
    | succ skip =>
      rw [cons_append, wordsFrom, wordsFrom]
      exact ih (Nat.le_of_succ_le_succ hskip)
    | zero =>
      have hsame : sepAt seps (b :: (s ++ c :: t)) = sepAt seps (b :: s) :=
        sepAt_congr fun w hw => h.prefix_iff hw (cons_ne_nil b s)
      rw [cons_append, wordsFrom, wordsFrom, hsame]
      cases hw : sepAt seps (b :: s) with
      | none => exact ih (Nat.zero_le _)
      | some w =>
        have hlen := (prefix_of_sepAt hw).2.length_le
        rw [length_cons] at hlen
        dsimp only
        rw [ih (by omega), append_assoc]

theorem Cuts.words_append {c : UInt8} (h : Cuts seps c) :
    words seps (s ++ c :: t) = words seps s ++ words seps t :=
  h.wordsFrom_append (Nat.zero_le _)

end Text
