import Mathlib.Algebra.Order.Ring.Int
import Mathlib.Data.List.Basic

/-!
# Byte strings

Text as a list of bytes, with the operations of readers of small text files; each is total and
returns `none` where the text is not of the form asked for.
-/

namespace Text

abbrev Bytes := List UInt8

/-- The bytes of an ASCII literal. -/
def ascii (s : String) : Bytes := s.toList.map fun c => UInt8.ofNat c.toNat

def cutSuffix (s suf : Bytes) : Option Bytes :=
  if suf <:+ s then some (s.take (s.length - suf.length)) else none

theorem cutSuffix_append (s suf : Bytes) : cutSuffix (s ++ suf) suf = some s := by
  rw [cutSuffix, if_pos (List.suffix_append s suf)]
  simp

theorem cutSuffix_eq_none {s suf : Bytes} (h : ¬ suf <:+ s) : cutSuffix s suf = none := if_neg h

theorem cutSuffix_eq_none_iff {s suf : Bytes} : cutSuffix s suf = none ↔ ¬ suf <:+ s := by
  refine ⟨fun h hsuf => ?_, cutSuffix_eq_none⟩
  obtain ⟨t, rfl⟩ := hsuf
  rw [cutSuffix_append] at h
  cases h

def split (sep : UInt8) : Bytes → List Bytes
  | [] => [[]]
  | b :: s =>
    if b = sep then [] :: split sep s
    else match split sep s with
      | [] => [[b]]
      | p :: ps => (b :: p) :: ps

/-- The white space of ASCII. Go also counts NEL, NBSP and the spaces of Unicode; the texts read
with these functions are written by the kernel in ASCII. -/
def isSpace (b : UInt8) : Bool := b = 32 || (9 ≤ b && b ≤ 13)

/-- `strings.TrimSpace` of an ASCII text. -/
def trimSpace (s : Bytes) : Bytes := ((s.dropWhile isSpace).reverse.dropWhile isSpace).reverse

def digits : Bytes → Option ℕ
  | [] => none
  | s => s.foldlM (fun n b =>
    if 48 ≤ b ∧ b ≤ 57 then some (10 * n + (b.toNat - 48)) else none) 0

def atoi (s : Bytes) : Option ℤ :=
  match s with
  | 45 :: ds => (digits ds).bind fun n =>
    if n ≤ 2 ^ 63 then some (-(n : ℤ)) else none
  | 43 :: ds => (digits ds).bind fun n =>
    if n < 2 ^ 63 then some (n : ℤ) else none
  | ds => (digits ds).bind fun n => if n < 2 ^ 63 then some (n : ℤ) else none

example : atoi (trimSpace (ascii "\t4711 ")) = some 4711 := by decide

/-- `strings.Fields` of an ASCII text; `Linux.stringsFields` is the one for any bytes. -/
def fields (s : Bytes) : List Bytes := (s.splitOnP isSpace).filter (· ≠ [])

def cut (sep : UInt8) (s : Bytes) : Option (Bytes × Bytes) :=
  if sep ∈ s then some (s.takeWhile (· ≠ sep), (s.dropWhile (· ≠ sep)).drop 1) else none

def hexDigit (b : UInt8) : Option ℕ :=
  if 48 ≤ b ∧ b ≤ 57 then some (b.toNat - 48)
  else if 65 ≤ b ∧ b ≤ 70 then some (b.toNat - 55)
  else if 97 ≤ b ∧ b ≤ 102 then some (b.toNat - 87)
  else none

def hex : Bytes → Option ℕ
  | [] => none
  | s => s.foldlM (fun n b => (hexDigit b).map (16 * n + ·)) 0

def decimal (n : ℕ) : Bytes := (Nat.toDigits 10 n).map fun c => UInt8.ofNat c.toNat

example : (fields (ascii "  0: 0100007F:C350 ")).map (cut 58) =
    [some (ascii "0", []), some (ascii "0100007F", ascii "C350")] := by decide

example : hex (ascii "C350") = some 50000 ∧ decimal 50000 = ascii "50000" := by decide

end Text
