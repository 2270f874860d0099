import AbstractionIdentity.Linux.MountInfo
import AbstractionIdentity.Linux.Procfs
import Mathlib.Tactic.Ring

/-!
# The start time of a process

`processStartTime` takes the start in clock ticks from `/proc/<pid>/stat`. A process can choose any
name, so the numbers are looked for after the last parenthesis. Every sum and product is `int64`
of the exact one; none of them overflows (`processStartTime_exact`).
-/

namespace Linux

open Text List

def int64 (x : ℤ) : ℤ := (x + 2 ^ 63) % 2 ^ 64 - 2 ^ 63

theorem int64_of_fits {x : ℤ} (hlow : -2 ^ 63 ≤ x) (hhigh : x < 2 ^ 63) : int64 x = x := by
  rw [int64]
  omega

theorem int64_natCast {n : ℕ} (h : n < 2 ^ 63) : int64 n = n := int64_of_fits (by omega) (by omega)

/-! ## Times -/

/-- `time.Time` without a monotonic reading: nanoseconds, and seconds since the year 1 in 64
bits. -/
structure Time where
  wall : ℤ
  ext : ℤ
  deriving DecidableEq

def unixToInternal : ℤ := 62135596800

def Time.unix (t : Time) : ℤ := int64 (t.ext - unixToInternal)

def Time.nanosecond (t : Time) : ℤ := t.wall

def unixTime (sec nsec : ℤ) : Time := ⟨nsec, int64 (sec + unixToInternal)⟩

def timeUnix (sec nsec : ℤ) : Time :=
  if nsec < 0 ∨ 10 ^ 9 ≤ nsec then
    let n := nsec.tdiv (10 ^ 9)
    let rest := nsec - n * 10 ^ 9
    if rest < 0 then unixTime (int64 (int64 (sec + n) - 1)) (rest + 10 ^ 9)
    else unixTime (int64 (sec + n)) rest
  else unixTime sec nsec

theorem unix_unixTime {sec nsec : ℤ} (hlow : -2 ^ 63 ≤ sec) (hhigh : sec < 2 ^ 63) :
    (unixTime sec nsec).unix = sec := by
  unfold unixTime Time.unix int64 unixToInternal
  dsimp only
  omega

/-! ## The program -/

inductive StartTimeError where
  | read (err : ReadError)
  | form
  | tooFewFields
  | number
  | boot
  deriving DecidableEq

def afterLast (c : UInt8) (s : Bytes) : Option Bytes :=
  if c ∈ s then some (s.reverse.takeWhile (· ≠ c)).reverse else none

def starttimeIndex : ℕ := 19

/-- The arguments are the outcome of reading `/proc/<pid>/stat`, the result of `bootEpoch` and
the rate of the clock. -/
def processStartTime (stat : Except ReadError Bytes) (boot : Except StartTimeError Time)
    (hz : ℤ) : Except StartTimeError Time :=
  match stat with
  | .error err => .error (.read err)
  | .ok s =>
    match afterLast 41 s with
    | none => .error .form
    | some rest =>
      match (stringsFields rest)[starttimeIndex]? with
      | none => .error .tooFewFields
      | some field =>
        match atoi field with
        | none => .error .number
        | some ticks =>
          boot.map fun boot =>
            let seconds := int64 (ticks.tdiv hz)
            let nanos := int64 ((int64 (ticks.tmod hz * 10 ^ 9)).tdiv hz)
            timeUnix (int64 (boot.unix + seconds)) nanos

/-! ## The line the kernel writes -/

/-- A line of `/proc/<pid>/stat`: the name is any byte string, between it and the start time there
are the state of the process and eighteen numbers. -/
structure StatLine where
  pid : ℕ
  comm : Bytes
  state : UInt8
  before : List ℤ
  ticks : ℕ
  after : List ℤ
  letter : 65 ≤ state.toNat ∧ state.toNat ≤ 122
  length_before : before.length = 18

namespace StatLine

def columns (l : StatLine) : List Bytes :=
  [l.state] :: (l.before.map itoa ++ decimal l.ticks :: l.after.map itoa)

def text (l : StatLine) : Bytes :=
  decimal l.pid ++ [32, 40] ++ l.comm ++ 41 :: (32 :: (join 32 l.columns ++ [10]))

end StatLine

theorem visible_of_mem_itoa {n : ℤ} {b : UInt8} (h : b ∈ itoa n) :
    33 ≤ b.toNat ∧ b.toNat < 128 ∧ b ≠ 41 := by
  have hdigits : ∀ k : ℕ, b ∈ decimal k → 33 ≤ b.toNat ∧ b.toNat < 128 ∧ b ≠ 41 := by
    intro k hk
    have hdigit := digit_of_mem_decimal hk
    refine ⟨by omega, by omega, ?_⟩
    rintro rfl
    simp at hdigit
  rw [itoa] at h
  split_ifs at h
  · rcases mem_cons.1 h with rfl | h
    · decide
    · exact hdigits _ h
  · exact hdigits _ h

theorem itoa_ne_nil (n : ℤ) : itoa n ≠ [] := by
  rw [itoa]
  split_ifs
  · exact cons_ne_nil _ _
  · exact decimal_ne_nil _

theorem visible_column {l : StatLine} {column : Bytes} (h : column ∈ l.columns) :
    column ≠ [] ∧ ∀ b ∈ column, 33 ≤ b.toNat ∧ b.toNat < 128 ∧ b ≠ 41 := by
  have hnumbers : ∀ {numbers : List ℤ}, column ∈ numbers.map itoa →
      column ≠ [] ∧ ∀ b ∈ column, 33 ≤ b.toNat ∧ b.toNat < 128 ∧ b ≠ 41 := by
    intro numbers hcolumn
    obtain ⟨n, -, rfl⟩ := mem_map.1 hcolumn
    exact ⟨itoa_ne_nil n, fun b hb => visible_of_mem_itoa hb⟩
  rw [StatLine.columns, mem_cons, mem_append, mem_cons] at h
  rcases h with rfl | h | rfl | h
  · refine ⟨cons_ne_nil _ _, fun b hb => ?_⟩
    have hletter := l.letter
    rw [mem_singleton.1 hb]
    refine ⟨by omega, by omega, ?_⟩
    rintro heq
    rw [heq] at hletter
    simp at hletter
  · exact hnumbers h
  · exact ⟨decimal_ne_nil _, fun b hb =>
      visible_of_mem_itoa (n := l.ticks) (by rw [itoa, if_neg (by omega)]; exact hb)⟩
  · exact hnumbers h

theorem afterLast_append {c : UInt8} {a b : Bytes} (h : c ∉ b) :
    afterLast c (a ++ c :: b) = some b := by
  have hall : ∀ x ∈ b.reverse, decide (x ≠ c) = true := by
    intro x hx
    rw [decide_eq_true_iff]
    rintro rfl
    exact h (mem_reverse.1 hx)
  rw [afterLast, if_pos (by simp), reverse_append, reverse_cons, append_assoc,
    takeWhile_append_of_pos hall]
  simp

theorem not_mem_join {c sep : UInt8} (hsep : c ≠ sep) {columns : List Bytes}
    (h : ∀ column ∈ columns, c ∉ column) : c ∉ join sep columns := by
  induction columns with
  | nil => exact not_mem_nil
  | cons column columns ih =>
    have hrest := ih fun column' hc => h column' (mem_cons_of_mem column hc)
    cases columns with
    | nil => simpa [join] using h column mem_cons_self
    | cons column' columns =>
      rw [join_cons (cons_ne_nil _ _), mem_append, mem_cons]
      rintro (hc | hc | hc)
      · exact h column mem_cons_self hc
      · exact hsep hc
      · exact hrest hc

theorem cuts_newline : Cuts whiteSpace 10 := ⟨by decide, by decide, by decide⟩

theorem stringsFields_stat (l : StatLine) :
    ∃ rest, afterLast 41 l.text = some rest ∧ stringsFields rest = l.columns := by
  have hjoin : (41 : UInt8) ∉ join 32 l.columns :=
    not_mem_join (by decide) fun column hc hmem => ((visible_column hc).2 41 hmem).2.2 rfl
  have hparen : (41 : UInt8) ∉ 32 :: (join 32 l.columns ++ [10]) := by
    simp [hjoin]
  refine ⟨_, afterLast_append hparen, ?_⟩
  have hspace : stringsFields (32 :: (join 32 l.columns ++ [10])) =
      stringsFields (join 32 l.columns ++ [10]) :=
    @Cuts.words_append whiteSpace [] _ 32 cuts_space
  have hnewline : stringsFields (join 32 l.columns ++ [10]) = stringsFields (join 32 l.columns) :=
    (cuts_newline.words_append).trans (append_nil _)
  rw [hspace, hnewline, stringsFields_join]
  have hself : ∀ columns : List Bytes, (∀ column ∈ columns, column ∈ l.columns) →
      columns.flatMap stringsFields = columns := by
    intro columns hcolumns
    induction columns with
    | nil => rfl
    | cons column columns ih =>
      have hvisible := visible_column (hcolumns column mem_cons_self)
      rw [flatMap_cons, ih fun c hc => hcolumns c (mem_cons_of_mem column hc),
        stringsFields_of_visible hvisible.1 fun b hb =>
          ⟨(hvisible.2 b hb).1, (hvisible.2 b hb).2.1⟩]
      rfl
  exact hself l.columns fun _ hc => hc

theorem columns_starttime (l : StatLine) : l.columns[starttimeIndex]? = some (decimal l.ticks) := by
  have hlen : (l.before.map itoa).length = 18 := by rw [length_map, l.length_before]
  rw [StatLine.columns, starttimeIndex, List.getElem?_cons_succ,
    List.getElem?_append_right (by omega), hlen]
  rfl

/-! ## The result -/

theorem div_mul_add (ticks hz : ℕ) (hhz : 0 < hz) :
    ticks * 10 ^ 9 / hz = ticks / hz * 10 ^ 9 + ticks % hz * 10 ^ 9 / hz := by
  have hsplit : ticks * 10 ^ 9 = hz * (ticks / hz * 10 ^ 9) + ticks % hz * 10 ^ 9 := by
    conv_lhs => rw [← Nat.div_add_mod ticks hz]
    ring
  rw [hsplit, Nat.mul_add_div hhz]

/-- For every name of the process the start time is the boot time and the ticks, rounded down to
the nanosecond. -/
theorem processStartTime_exact (l : StatLine) (boot : Time) {hz : ℕ} (hticks : l.ticks < 2 ^ 63)
    (hhz : 1 ≤ hz) (hhz' : hz ≤ 10 ^ 9) (hfits : boot.unix + (l.ticks / hz : ℕ) < 2 ^ 63) :
    ∃ t, processStartTime (.ok l.text) (.ok boot) hz = .ok t ∧
      t.unix = boot.unix + (l.ticks / hz : ℕ) ∧ 0 ≤ t.nanosecond ∧ t.nanosecond < 10 ^ 9 ∧
      t.unix * 10 ^ 9 + t.nanosecond = boot.unix * 10 ^ 9 + (l.ticks * 10 ^ 9 / hz : ℕ) := by
  obtain ⟨rest, hafter, hfields⟩ := stringsFields_stat l
  have hboot : -2 ^ 63 ≤ boot.unix := by
    rw [Time.unix, int64]
    omega
  have hseconds : int64 ((l.ticks : ℤ).tdiv hz) = (l.ticks / hz : ℕ) := by
    have hle : l.ticks / hz ≤ l.ticks := Nat.div_le_self _ _
    rw [← Int.ofNat_tdiv]
    exact int64_natCast (hle.trans_lt hticks)
  have hmod : l.ticks % hz < hz := Nat.mod_lt _ hhz
  have hproduct : l.ticks % hz * 10 ^ 9 < 2 ^ 63 := by omega
  have hnanos : l.ticks % hz * 10 ^ 9 / hz < 10 ^ 9 := by
    rw [Nat.div_lt_iff_lt_mul hhz, Nat.mul_comm]
    exact Nat.mul_lt_mul_of_pos_left hmod (by decide)
  have hnanos_eq : int64 ((int64 ((l.ticks : ℤ).tmod hz * 10 ^ 9)).tdiv hz) =
      (l.ticks % hz * 10 ^ 9 / hz : ℕ) := by
    have hcast : (l.ticks : ℤ).tmod hz * 10 ^ 9 = (l.ticks % hz * 10 ^ 9 : ℕ) := by
      rw [← Int.ofNat_tmod]
      push_cast
      rfl
    rw [hcast, int64_natCast hproduct, ← Int.ofNat_tdiv]
    exact int64_natCast (hnanos.trans (by decide))
  have hlow : -2 ^ 63 ≤ boot.unix + (l.ticks / hz : ℕ) :=
    hboot.trans (Int.le_add_of_nonneg_right (Int.natCast_nonneg _))
  have hnonneg : (0 : ℤ) ≤ (l.ticks % hz * 10 ^ 9 / hz : ℕ) := Int.natCast_nonneg _
  have hless : ((l.ticks % hz * 10 ^ 9 / hz : ℕ) : ℤ) < 10 ^ 9 := by exact_mod_cast hnanos
  have hresult : processStartTime (.ok l.text) (.ok boot) hz =
      .ok (unixTime (boot.unix + (l.ticks / hz : ℕ)) (l.ticks % hz * 10 ^ 9 / hz : ℕ)) := by
    rw [processStartTime]
    simp only [hafter, hfields, columns_starttime, atoi_decimal hticks, Except.map, hseconds,
      hnanos_eq, int64_of_fits hlow hfits]
    rw [timeUnix, if_neg (not_or.2 ⟨hnonneg.not_gt, hless.not_ge⟩)]
  refine ⟨_, hresult, unix_unixTime hlow hfits, hnonneg, hless, ?_⟩
  rw [unix_unixTime hlow hfits, div_mul_add l.ticks hz hhz]
  change _ + ((l.ticks % hz * 10 ^ 9 / hz : ℕ) : ℤ) = _
  push_cast
  ring

def forgedStat : StatLine :=
  ⟨7, [41, 32, 82, 32, 49, 10], 83, List.replicate 18 (-1), 12345678, [4096],
    ⟨Nat.le_of_ble_eq_true rfl, Nat.le_of_ble_eq_true rfl⟩, rfl⟩

theorem processStartTime_exact_forged :
    ∃ t, processStartTime (.ok forgedStat.text) (.ok (timeUnix 1700000000 0)) (100 : ℕ) = .ok t ∧
      t.unix = (timeUnix 1700000000 0).unix + (forgedStat.ticks / 100 : ℕ) := by
  obtain ⟨t, ht, hunix, -⟩ := @processStartTime_exact forgedStat (timeUnix 1700000000 0) 100
    (by decide) (by decide) (by decide) (by decide)
  exact ⟨t, ht, hunix⟩

end Linux
