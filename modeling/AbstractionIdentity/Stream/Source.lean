import AbstractionIdentity.Text.Bytes

/-!
# Reading a byte string to its end

One read with room for `cap` bytes returns at least one of those that are left, as many as `chunk`
says. What a loop of reads gets does not depend on the sizes of the reads (`readFull_eq`).
-/

namespace Stream

open Text List

def readSome (chunk : ℕ → Bytes → ℕ) (cap : ℕ) (inn : Bytes) : Option (Bytes × Bytes) :=
  if inn = [] then none
  else
    let n := min (max 1 (chunk cap inn)) cap
    some (inn.take n, inn.drop n)

def readLoop (chunk : ℕ → Bytes → ℕ) : ℕ → ℕ → Bytes → Bytes → Bytes × Bytes
  | 0, _, got, inn => (got, inn)
  | fuel + 1, want, got, inn =>
    if want = 0 then (got, inn)
    else match readSome chunk want inn with
      | none => (got, inn)
      | some (bs, rest) => readLoop chunk fuel (want - bs.length) (got ++ bs) rest

/-- What a loop of reads for `n` bytes gets, and what is left. Every read brings a byte,
so that `n` reads are enough. -/
def readFull (chunk : ℕ → Bytes → ℕ) (n : ℕ) (inn : Bytes) : Bytes × Bytes :=
  readLoop chunk n n [] inn

theorem readSome_nil (chunk : ℕ → Bytes → ℕ) (cap : ℕ) : readSome chunk cap [] = none := rfl

theorem readSome_eq_some {chunk : ℕ → Bytes → ℕ} {cap : ℕ} {inn bs rest : Bytes}
    (h : readSome chunk cap inn = some (bs, rest)) (hcap : 0 < cap) :
    inn = bs ++ rest ∧ bs ≠ [] ∧ bs.length ≤ cap := by
  rw [readSome] at h
  split_ifs at h with hinn
  simp only [Option.some.injEq, Prod.mk.injEq] at h
  obtain ⟨rfl, rfl⟩ := h
  have hpos : 0 < inn.length := length_pos_iff.2 hinn
  refine ⟨(take_append_drop _ _).symm, ?_, ?_⟩
  · rw [← length_pos_iff, length_take]
    omega
  · rw [length_take]
    omega

theorem readLoop_eq (chunk : ℕ → Bytes → ℕ) {fuel want : ℕ} (h : want ≤ fuel) (got inn : Bytes) :
    readLoop chunk fuel want got inn = (got ++ inn.take want, inn.drop want) := by
  induction fuel generalizing want got inn with
  | zero =>
    have hwant : want = 0 := Nat.le_zero.1 h
    simp [readLoop, hwant]
  | succ fuel ih =>
    rw [readLoop]
    split_ifs with hwant
    · simp [hwant]
    · by_cases hinn : inn = []
      · simp [hinn, readSome_nil]
      · rw [readSome, if_neg hinn]
        simp only
        generalize hn : min (max 1 (chunk want inn)) want = n
        have hpos : 0 < inn.length := length_pos_iff.2 hinn
        have hlen : (inn.take n).length = min n inn.length := length_take
        rw [ih (by omega), hlen, append_assoc]
        rcases le_total n inn.length with hle | hle
        · have hsum : want = n + (want - n) := by omega
          rw [min_eq_left hle, drop_drop, ← take_add, ← hsum]
        · rw [take_of_length_le hle, drop_eq_nil_of_le hle,
            take_of_length_le (by omega : inn.length ≤ want),
            drop_eq_nil_of_le (by omega : inn.length ≤ want)]
          simp

/-- Exactly `n` bytes and what is left, or the error for a stream that ends with the
bytes it gave. -/
def readExact {ε : Type*} (chunk : ℕ → Bytes → ℕ) (fail : Bytes → ε) (n : ℕ) (inn : Bytes) :
    Except ε (Bytes × Bytes) :=
  let (got, rest) := readFull chunk n inn
  if got.length = n then .ok (got, rest) else .error (fail got)

theorem readFull_eq (chunk : ℕ → Bytes → ℕ) (n : ℕ) (inn : Bytes) :
    readFull chunk n inn = (inn.take n, inn.drop n) := by
  rw [readFull, readLoop_eq chunk le_rfl, nil_append]

theorem readExact_of_le {ε : Type*} (chunk : ℕ → Bytes → ℕ) (fail : Bytes → ε) {n : ℕ}
    {inn : Bytes} (h : n ≤ inn.length) :
    readExact chunk fail n inn = .ok (inn.take n, inn.drop n) := by
  rw [readExact, readFull_eq]
  simp [h]

theorem readExact_of_lt {ε : Type*} (chunk : ℕ → Bytes → ℕ) (fail : Bytes → ε) {n : ℕ}
    {inn : Bytes} (h : inn.length < n) : readExact chunk fail n inn = .error (fail inn) := by
  rw [readExact, readFull_eq]
  simp [take_of_length_le h.le, h.ne]

theorem readExact_ne {ε : Type*} (chunk : ℕ → Bytes → ℕ) {fail : Bytes → ε} {e : ε}
    (h : ∀ got, fail got ≠ e) (n : ℕ) (inn : Bytes) : readExact chunk fail n inn ≠ .error e := by
  rcases Nat.lt_or_ge inn.length n with hlt | hle
  · rw [readExact_of_lt chunk _ hlt]
    simpa using h inn
  · rw [readExact_of_le chunk _ hle]
    simp

theorem readSome_one (chunk : ℕ → Bytes → ℕ) (b : UInt8) (inn : Bytes) :
    readSome chunk 1 (b :: inn) = some ([b], inn) := by
  have hone : min (max 1 (chunk 1 (b :: inn))) 1 = 1 := by omega
  rw [readSome, if_neg (by simp), hone]
  rfl

end Stream
