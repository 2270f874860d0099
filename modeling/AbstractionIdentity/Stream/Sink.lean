import AbstractionIdentity.Text.Bytes

/-!
# Writing a byte string in parts

A loop of writes hands a writer what is left of the buffer until nothing is, an error is reported,
or a count that is not positive or outside the buffer. A writer that takes at least one byte at a
time is given the whole string (`writeParts_eq`).
-/

namespace Stream

open Text List

variable {ε : Type*}

/-- The count and the error a writer reports for a buffer, after it has taken the bytes
given first. -/
abbrev Writer (ε : Type*) := Bytes → Bytes → ℤ × Option ε

structure Sunk (ε : Type*) where
  out : Bytes
  written : ℕ
  err : Option ε

def writeLoop (w : Writer ε) (short : ε) : ℕ → Bytes → Sunk ε → Sunk ε
  | 0, _, s => s
  | fuel + 1, part, s =>
    if part = [] then s
    else
      let (n, err) := w s.out part
      if n < 0 ∨ (part.length : ℤ) < n then { s with err := some short }
      else
        let taken : Sunk ε := ⟨s.out ++ part.take n.toNat, s.written + n.toNat, err⟩
        if err.isSome then taken
        else if n ≤ 0 then { taken with err := some short }
        else writeLoop w short fuel (part.drop n.toNat) taken

def writeParts (w : Writer ε) (short : ε) : List Bytes → Sunk ε → Sunk ε
  | [], s => s
  | part :: parts, s =>
    let s := writeLoop w short part.length part s
    if s.err.isSome then s else writeParts w short parts s

def Writer.Progress (w : Writer ε) : Prop :=
  ∀ out part, part ≠ [] → ∃ n : ℕ, 0 < n ∧ n ≤ part.length ∧ w out part = ((n : ℤ), none)

theorem writeLoop_eq {w : Writer ε} (hw : w.Progress) (short : ε) {fuel : ℕ} {part : Bytes}
    (h : part.length ≤ fuel) (out : Bytes) (written : ℕ) :
    writeLoop w short fuel part ⟨out, written, none⟩ =
      ⟨out ++ part, written + part.length, none⟩ := by
  induction fuel generalizing part out written with
  | zero =>
    obtain rfl : part = [] := eq_nil_of_length_eq_zero (Nat.le_zero.1 h)
    simp [writeLoop]
  | succ fuel ih =>
    rw [writeLoop]
    by_cases hnil : part = []
    · simp [hnil]
    · obtain ⟨n, hpos, hle, hn⟩ := hw out part hnil
      have hrange : ¬ ((n : ℤ) < 0 ∨ (part.length : ℤ) < n) := by omega
      have hsome : ¬ (n : ℤ) ≤ 0 := by omega
      have hrest : (part.drop n).length ≤ fuel := by
        rw [length_drop]
        omega
      simp only [if_neg hnil, hn, if_neg hrange, if_neg hsome, Option.isSome_none,
        Bool.false_eq_true, ↓reduceIte, Int.toNat_natCast]
      rw [ih hrest, append_assoc, take_append_drop, length_drop]
      congr 1
      omega

theorem writeParts_eq {w : Writer ε} (hw : w.Progress) (short : ε) (parts : List Bytes)
    (out : Bytes) (written : ℕ) :
    writeParts w short parts ⟨out, written, none⟩ =
      ⟨out ++ parts.flatten, written + parts.flatten.length, none⟩ := by
  induction parts generalizing out written with
  | nil => simp [writeParts]
  | cons part parts ih =>
    rw [writeParts, writeLoop_eq hw short le_rfl]
    simp only [Option.isSome_none, Bool.false_eq_true, ↓reduceIte]
    rw [ih, flatten_cons, append_assoc, length_append, Nat.add_assoc]

end Stream
