import AbstractionIdentity.Text.Path
import Mathlib.Data.List.Flatten

/-!
# Records of separated fields

Fields are joined with a separator byte that nothing escapes. `pieces` are the fields cut at the
separators; the joined text determines them and nothing else (`join_eq_join_iff`).
-/

namespace Text

open List

variable {sep : UInt8}

theorem split_append_sep (s t : Bytes) :
    split sep (s ++ sep :: t) = split sep s ++ split sep t := by
  induction s with
  | nil => simp [split]
  | cons b s ih =>
    rw [cons_append, split, split, ih]
    split_ifs
    · simp
    · cases hs : split sep s with
      | nil => exact absurd hs (split_ne_nil sep s)
      | cons p ps => simp

theorem join_cons {parts : List Bytes} (h : parts ≠ []) (part : Bytes) :
    join sep (part :: parts) = part ++ sep :: join sep parts := by
  cases parts with
  | nil => exact absurd rfl h
  | cons p ps => rfl

theorem join_split (sep : UInt8) (s : Bytes) : join sep (split sep s) = s := by
  induction s with
  | nil => rfl
  | cons b s ih =>
    rw [split]
    split_ifs with hb
    · rw [join_cons (split_ne_nil sep s), ih, hb]
      rfl
    · cases hs : split sep s with
      | nil => exact absurd hs (split_ne_nil sep s)
      | cons p ps =>
        rw [hs] at ih
        cases ps with
        | nil => simpa [join] using ih
        | cons p' ps => simpa [join] using ih

def pieces (sep : UInt8) (record : List Bytes) : List Bytes := record.flatMap (split sep)

def cuts (sep : UInt8) (record : List Bytes) : List ℕ :=
  record.map fun field => (split sep field).length

theorem split_join {record : List Bytes} (h : record ≠ []) :
    split sep (join sep record) = pieces sep record := by
  induction record with
  | nil => exact absurd rfl h
  | cons x xs ih =>
    cases xs with
    | nil => simp [join, pieces]
    | cons y ys =>
      rw [join_cons (by simp), split_append_sep, ih (by simp)]
      simp [pieces]

theorem join_pieces {record : List Bytes} (h : record ≠ []) :
    join sep (pieces sep record) = join sep record := by
  rw [← split_join h, join_split]

theorem join_eq_join_iff {xs ys : List Bytes} (hx : xs ≠ []) (hy : ys ≠ []) :
    join sep xs = join sep ys ↔ pieces sep xs = pieces sep ys := by
  constructor
  · intro h
    rw [← split_join hx, h, split_join hy]
  · intro h
    rw [← join_pieces hx, h, join_pieces hy]

theorem eq_of_pieces_eq {xs ys : List Bytes} (hpieces : pieces sep xs = pieces sep ys)
    (hcuts : cuts sep xs = cuts sep ys) : xs = ys := by
  have hmap : xs.map (split sep) = ys.map (split sep) := by
    rw [eq_iff_flatten_eq]
    refine ⟨?_, ?_⟩
    · rw [pieces, pieces, flatMap_def, flatMap_def] at hpieces
      exact hpieces
    · rw [map_map, map_map]
      exact hcuts
  have hinj : Function.Injective (split sep) := fun s t h => by
    rw [← join_split sep s, h, join_split]
  exact map_injective_iff.2 hinj hmap

theorem split_eq_singleton {s : Bytes} (h : sep ∉ s) : split sep s = [s] := by
  induction s with
  | nil => rfl
  | cons b s ih =>
    rw [mem_cons, not_or] at h
    rw [split, if_neg (Ne.symm h.1), ih h.2]

theorem pieces_eq_self {record : List Bytes} (h : ∀ field ∈ record, sep ∉ field) :
    pieces sep record = record := by
  induction record with
  | nil => rfl
  | cons x xs ih =>
    rw [pieces, flatMap_cons, split_eq_singleton (h x mem_cons_self)]
    have hxs := ih fun field hf => h field (mem_cons_of_mem x hf)
    rw [pieces] at hxs
    rw [hxs]
    rfl

theorem toNat_of_mem_toDigits {n : ℕ} {c : Char} (h : c ∈ Nat.toDigits 10 n) :
    48 ≤ c.toNat ∧ c.toNat ≤ 57 := by
  have hdigit := Nat.isDigit_of_mem_toDigits (by decide) (by decide) h
  rw [Char.isDigit, Bool.and_eq_true, decide_eq_true_iff, decide_eq_true_iff] at hdigit
  exact hdigit

theorem digit_of_mem_decimal {n : ℕ} {b : UInt8} (h : b ∈ decimal n) :
    48 ≤ b.toNat ∧ b.toNat ≤ 57 := by
  obtain ⟨c, hc, rfl⟩ := mem_map.1 h
  have hrange := toNat_of_mem_toDigits hc
  rw [UInt8.toNat_ofNat']
  omega

theorem decimal_injective : Function.Injective decimal := by
  -- the digits as characters are recovered from their bytes
  have hback : ∀ n, (decimal n).map (fun b => Char.ofNat b.toNat) = Nat.toDigits 10 n := by
    intro n
    rw [decimal, map_map, map_congr_left, map_id]
    intro c hc
    have hrange := toNat_of_mem_toDigits hc
    rw [Function.comp_apply, UInt8.toNat_ofNat', Nat.mod_eq_of_lt (by omega)]
    exact Char.ofNat_toNat c
  intro m n h
  rw [← Nat.ofDigitChars_toDigits (b := 10) (n := m) (by decide) (by decide), ← hback, h,
    hback, Nat.ofDigitChars_toDigits (by decide) (by decide)]

theorem foldlM_digits {l : List Char} (h : ∀ c ∈ l, 48 ≤ c.toNat ∧ c.toNat ≤ 57) (acc : ℕ) :
    (l.map fun c => UInt8.ofNat c.toNat).foldlM (fun n b =>
      if 48 ≤ b ∧ b ≤ 57 then some (10 * n + (b.toNat - 48)) else none) acc =
        some (Nat.ofDigitChars 10 l acc) := by
  induction l generalizing acc with
  | nil => rfl
  | cons c l ih =>
    have hrange := h c mem_cons_self
    have hval : (UInt8.ofNat c.toNat).toNat = c.toNat := by
      rw [UInt8.toNat_ofNat']
      omega
    have hdigit : 48 ≤ UInt8.ofNat c.toNat ∧ UInt8.ofNat c.toNat ≤ 57 := by
      rw [UInt8.le_iff_toNat_le, UInt8.le_iff_toNat_le, hval]
      exact hrange
    rw [map_cons, foldlM_cons, if_pos hdigit, hval, Nat.ofDigitChars_cons]
    exact ih (fun d hd => h d (mem_cons_of_mem c hd)) _

theorem digits_decimal (n : ℕ) : digits (decimal n) = some n := by
  have hfold := @foldlM_digits (Nat.toDigits 10 n) (fun c hc => toNat_of_mem_toDigits hc) 0
  rw [Nat.ofDigitChars_toDigits (by decide) (by decide)] at hfold
  rw [decimal, digits.eq_def]
  split
  next hnil => simp at hnil
  · exact hfold

theorem atoi_decimal {n : ℕ} (h : n < 2 ^ 63) : atoi (decimal n) = some (n : ℤ) := by
  have hdigits := digits_decimal n
  have hsign : ∀ b rest, decimal n = b :: rest → b ≠ 45 ∧ b ≠ 43 := by
    intro b rest heq
    have hrange := digit_of_mem_decimal (heq ▸ mem_cons_self : b ∈ decimal n)
    constructor <;> rintro rfl <;> simp at hrange
  rw [atoi.eq_def]
  split
  next ds heq => exact absurd rfl (hsign 45 ds heq).1
  next ds heq => exact absurd rfl (hsign 43 ds heq).2
  · rw [hdigits, Option.bind_some, if_pos h]

def itoa (n : ℤ) : Bytes := if n < 0 then 45 :: decimal n.natAbs else decimal n.natAbs

theorem itoa_injective : Function.Injective itoa := by
  intro m n h
  have hsign : ∀ k l, 45 :: decimal k ≠ decimal l := by
    intro k l heq
    have hmem : (45 : UInt8) ∈ decimal l := heq ▸ mem_cons_self
    have hdigit := digit_of_mem_decimal hmem
    simp at hdigit
  rw [itoa, itoa] at h
  split_ifs at h with hm hn hn
  · have habs := decimal_injective (List.cons.inj h).2
    omega
  · exact absurd h (hsign _ _)
  · exact absurd h.symm (hsign _ _)
  · have habs := decimal_injective h
    omega

theorem zero_not_mem_itoa (n : ℤ) : 0 ∉ itoa n := by
  have hdecimal : 0 ∉ decimal n.natAbs := by
    intro h
    have hdigit := digit_of_mem_decimal h
    simp at hdigit
  rw [itoa]
  split_ifs
  · simpa using hdecimal
  · exact hdecimal

end Text
