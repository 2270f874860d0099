import AbstractionIdentity.Text.Bytes
import Mathlib.Tactic.SplitIfs

/-!
# Reading numbers and text from bytes

The readers of a byte slice fail with a `Fault` where the index expression they model would be out
of range.
-/

namespace Text

open List

/-- What a reader of untrusted bytes must never do: index out of range, or loop without end. -/
inductive Fault where
  | outOfRange
  | noFuel
  deriving DecidableEq

def u8At (data : Bytes) (i : ℕ) : Except Fault ℕ :=
  match data.drop i with
  | a :: _ => .ok a.toNat
  | _ => .error .outOfRange

/-- `binary.LittleEndian.Uint16(data[i:])`. -/
def u16At (data : Bytes) (i : ℕ) : Except Fault ℕ :=
  match data.drop i with
  | a :: b :: _ => .ok (a.toNat + 256 * b.toNat)
  | _ => .error .outOfRange

/-- `binary.LittleEndian.Uint32(data[i:])`. -/
def u32At (data : Bytes) (i : ℕ) : Except Fault ℕ :=
  match data.drop i with
  | a :: b :: c :: d :: _ =>
    .ok (a.toNat + 256 * b.toNat + 65536 * c.toNat + 16777216 * d.toNat)
  | _ => .error .outOfRange

/-- `data[i:j]`. -/
def slice (data : Bytes) (i j : ℕ) : Except Fault Bytes :=
  if i ≤ j ∧ j ≤ data.length then .ok ((data.drop i).take (j - i)) else .error .outOfRange

/-- `utf16.Decode`: a surrogate without its other half is U+FFFD. -/
def decode : List ℕ → List Char
  | [] => []
  | u :: rest =>
    if 0xd800 ≤ u ∧ u < 0xdc00 then
      match rest with
      | v :: rest' =>
        if 0xdc00 ≤ v ∧ v < 0xe000 then
          Char.ofNat (0x10000 + (u - 0xd800) * 0x400 + (v - 0xdc00)) :: decode rest'
        else Char.ofNat 0xfffd :: decode (v :: rest')
      | [] => [Char.ofNat 0xfffd]
    else if 0xdc00 ≤ u ∧ u < 0xe000 then Char.ofNat 0xfffd :: decode rest
    else Char.ofNat u :: decode rest

section Total

variable {data : Bytes}

theorem u8At_ok {i : ℕ} (h : i + 1 ≤ data.length) : ∃ u, u8At data i = .ok u := by
  have hlen : (data.drop i).length = data.length - i := length_drop
  rw [u8At]
  generalize data.drop i = tail at hlen ⊢
  rcases tail with _ | ⟨a, rest⟩
  · rw [length_nil] at hlen
    omega
  · exact ⟨_, rfl⟩

theorem u16At_ok {i : ℕ} (h : i + 2 ≤ data.length) : ∃ u, u16At data i = .ok u ∧ u ≤ 65535 := by
  have hlen : (data.drop i).length = data.length - i := length_drop
  rw [u16At]
  generalize data.drop i = tail at hlen ⊢
  rcases tail with _ | ⟨a, _ | ⟨b, rest⟩⟩
  · rw [length_nil] at hlen
    omega
  · rw [length_singleton] at hlen
    omega
  · refine ⟨_, rfl, ?_⟩
    have ha := a.toNat_lt
    have hb := b.toNat_lt
    omega

theorem u32At_ok {i : ℕ} (h : i + 4 ≤ data.length) : ∃ u, u32At data i = .ok u ∧ u < 2 ^ 32 := by
  have hlen : (data.drop i).length = data.length - i := length_drop
  rw [u32At]
  generalize data.drop i = tail at hlen ⊢
  rcases tail with _ | ⟨a, _ | ⟨b, _ | ⟨c, _ | ⟨d, rest⟩⟩⟩⟩
  · rw [length_nil] at hlen
    omega
  · rw [length_cons, length_nil] at hlen
    omega
  · rw [length_cons, length_cons, length_nil] at hlen
    omega
  · rw [length_cons, length_cons, length_cons, length_nil] at hlen
    omega
  · refine ⟨_, rfl, ?_⟩
    have ha := a.toNat_lt
    have hb := b.toNat_lt
    have hc := c.toNat_lt
    have hd := d.toNat_lt
    omega

def le32 (n : ℕ) : Bytes :=
  [UInt8.ofNat n, UInt8.ofNat (n / 256), UInt8.ofNat (n / 65536), UInt8.ofNat (n / 16777216)]

theorem u32At_le32 {start rest : Bytes} {i n : ℕ} (hi : start.length = i) (hn : n < 2 ^ 32) :
    u32At (start ++ (le32 n ++ rest)) i = .ok n := by
  rw [u32At, ← hi, drop_left, le32]
  simp only [cons_append, nil_append, UInt8.toNat_ofNat']
  exact congrArg Except.ok (by omega)

end Total

end Text
