import AbstractionIdentity.Text.ByteReader

/-!
# Names as the file system compares them

`SamePathName` compares two names unit by unit through the uppercase table of the system;
`PathNameKey` maps a name through the table. UTF-16 without a stray surrogate is read back from its
characters (`WellFormed.encode_decode`), and the table makes none.
-/

namespace Windows.PathName

open Text List

/-! ## Encodings -/

/-- `[]rune(s)` if `utf8.ValidString(s)`. -/
def runes (s : Bytes) : Option (List Char) := (List.toByteArray s).utf8Decode?.map Array.toList

def utf8 (cs : List Char) : Bytes := cs.flatMap String.utf8EncodeChar

def unitsOf (c : Char) : List UInt16 :=
  if c.toNat < 0x10000 then [.ofNat c.toNat]
  else
    [.ofNat (0xd800 + (c.toNat - 0x10000) / 0x400), .ofNat (0xdc00 + (c.toNat - 0x10000) % 0x400)]

def encode (cs : List Char) : List UInt16 := cs.flatMap unitsOf

def decodeUnits (units : List UInt16) : List Char := decode (units.map UInt16.toNat)

def High (u : UInt16) : Prop := 0xd800 ≤ u.toNat ∧ u.toNat < 0xdc00

def Low (u : UInt16) : Prop := 0xdc00 ≤ u.toNat ∧ u.toNat < 0xe000

def Surrogate (u : UInt16) : Prop := 0xd800 ≤ u.toNat ∧ u.toNat < 0xe000

/-! ## Names -/

/-- The uppercase table of the system: it maps surrogates to themselves, and nothing else to a
surrogate. -/
structure UpcaseTable where
  map : UInt16 → UInt16
  surrogate : ∀ u, Surrogate u → map u = u
  other : ∀ u, ¬ Surrogate u → ¬ Surrogate (map u)

instance : Inhabited UpcaseTable := ⟨⟨id, fun _ _ => rfl, fun _ h => h⟩⟩

variable (table : UpcaseTable)

def compareStringOrdinal (a b : List UInt16) : Bool := a.map table.map = b.map table.map

def ordinalEqualIgnoringCase (a b : Bytes) : Bool :=
  match runes a, runes b with
  | some ra, some rb =>
    if (encode ra).length ≠ (encode rb).length then false
    else if (encode ra).length = 0 then true
    else compareStringOrdinal table (encode ra) (encode rb)
  | _, _ => a = b

def upcaseKey (p : Bytes) : Bytes :=
  match runes p with
  | none => p
  | some r => utf8 (decodeUnits ((encode r).map table.map))

/-! ## UTF-8 -/

theorem toByteArray_utf8 (cs : List Char) : List.toByteArray (utf8 cs) = cs.utf8Encode := rfl

theorem runes_utf8 (cs : List Char) : runes (utf8 cs) = some cs := by
  rw [runes, toByteArray_utf8, List.utf8Decode?_utf8Encode, Option.map_some, toList_toArray]

theorem utf8_injective : Function.Injective utf8 := by
  intro cs ds h
  have hruns := runes_utf8 cs
  rw [h, runes_utf8] at hruns
  exact (Option.some.inj hruns).symm

/-! ## UTF-16 -/

inductive WellFormed : List UInt16 → Prop where
  | nil : WellFormed []
  | unit {u : UInt16} {rest : List UInt16} : ¬ Surrogate u → WellFormed rest →
      WellFormed (u :: rest)
  | pair {high low : UInt16} {rest : List UInt16} : High high → Low low → WellFormed rest →
      WellFormed (high :: low :: rest)

theorem toNat_ofNat_char {n : ℕ} (h : n.isValidChar) : (Char.ofNat n).toNat = n := by
  rw [Char.ofNat, dif_pos h]
  rfl

theorem unitsOf_unit {u : UInt16} (h : ¬ Surrogate u) : unitsOf (Char.ofNat u.toNat) = [u] := by
  have hlt := u.toNat_lt
  have hvalid : u.toNat.isValidChar := by
    rw [Surrogate] at h
    rw [Nat.isValidChar]
    omega
  rw [unitsOf, toNat_ofNat_char hvalid, if_pos hlt, UInt16.ofNat_toNat]

theorem unitsOf_pair {high low : UInt16} (hhigh : High high) (hlow : Low low) :
    unitsOf (Char.ofNat (0x10000 + (high.toNat - 0xd800) * 0x400 + (low.toNat - 0xdc00))) =
      [high, low] := by
  obtain ⟨h1, h2⟩ := hhigh
  obtain ⟨h3, h4⟩ := hlow
  have hvalid : (0x10000 + (high.toNat - 0xd800) * 0x400 + (low.toNat - 0xdc00)).isValidChar := by
    rw [Nat.isValidChar]
    omega
  rw [unitsOf, toNat_ofNat_char hvalid, if_neg (by omega)]
  have hfirst : 0xd800 + (0x10000 + (high.toNat - 0xd800) * 0x400 + (low.toNat - 0xdc00) -
      0x10000) / 0x400 = high.toNat := by omega
  have hsecond : 0xdc00 + (0x10000 + (high.toNat - 0xd800) * 0x400 + (low.toNat - 0xdc00) -
      0x10000) % 0x400 = low.toNat := by omega
  rw [hfirst, hsecond, UInt16.ofNat_toNat, UInt16.ofNat_toNat]

theorem WellFormed.encode_decode {units : List UInt16} (h : WellFormed units) :
    encode (decodeUnits units) = units := by
  induction h with
  | nil => rfl
  | @unit u rest hu hrest ih =>
    have hhigh : ¬ (0xd800 ≤ u.toNat ∧ u.toNat < 0xdc00) := fun hh =>
      hu ⟨hh.1, by omega⟩
    have hlow : ¬ (0xdc00 ≤ u.toNat ∧ u.toNat < 0xe000) := fun hl =>
      hu ⟨by omega, hl.2⟩
    have hdecode : decodeUnits (u :: rest) = Char.ofNat u.toNat :: decodeUnits rest := by
      rw [decodeUnits, map_cons, decode.eq_def]
      dsimp only
      rw [if_neg hhigh, if_neg hlow]
      rfl
    rw [hdecode, encode, flatMap_cons, unitsOf_unit hu]
    exact congrArg (u :: ·) ih
  | @pair high low rest hhigh hlow hrest ih =>
    have hhigh_range : 0xd800 ≤ high.toNat ∧ high.toNat < 0xdc00 := hhigh
    have hlow_range : 0xdc00 ≤ low.toNat ∧ low.toNat < 0xe000 := hlow
    have hdecode : decodeUnits (high :: low :: rest) =
        Char.ofNat (0x10000 + (high.toNat - 0xd800) * 0x400 + (low.toNat - 0xdc00)) ::
          decodeUnits rest := by
      rw [decodeUnits, map_cons, map_cons, decode, if_pos hhigh_range, if_pos hlow_range]
      rfl
    rw [hdecode, encode, flatMap_cons, unitsOf_pair hhigh hlow]
    exact congrArg (high :: low :: ·) ih

theorem wellFormed_map_encode (cs : List Char) : WellFormed ((encode cs).map table.map) := by
  induction cs with
  | nil => exact .nil
  | cons c cs ih =>
    have hvalid : c.toNat.isValidChar := c.valid
    rw [Nat.isValidChar] at hvalid
    have hcons : encode (c :: cs) = unitsOf c ++ encode cs := rfl
    rw [hcons, map_append, unitsOf]
    by_cases hbmp : c.toNat < 0x10000
    · rw [if_pos hbmp]
      refine .unit (table.other _ ?_) ih
      rw [Surrogate, UInt16.toNat_ofNat']
      omega
    · rw [if_neg hbmp, map_cons, map_cons, map_nil]
      have hhigh : High (.ofNat (0xd800 + (c.toNat - 0x10000) / 0x400)) := by
        rw [High, UInt16.toNat_ofNat']
        omega
      have hlow : Low (.ofNat (0xdc00 + (c.toNat - 0x10000) % 0x400)) := by
        rw [Low, UInt16.toNat_ofNat']
        omega
      rw [table.surrogate _ ⟨hhigh.1, by have := hhigh.2; omega⟩,
        table.surrogate _ ⟨by have := hlow.1; omega, hlow.2⟩]
      exact .pair hhigh hlow ih

/-! ## Keys and names -/

theorem ordinalEqual_of_runes {a b : Bytes} {ra rb : List Char} (ha : runes a = some ra)
    (hb : runes b = some rb) :
    ordinalEqualIgnoringCase table a b = true ↔
      (encode ra).map table.map = (encode rb).map table.map := by
  have hlength : (encode ra).map table.map = (encode rb).map table.map →
      (encode ra).length = (encode rb).length := fun h => by
    simpa using congrArg List.length h
  rw [ordinalEqualIgnoringCase, ha, hb]
  dsimp only
  split_ifs with hlen hzero
  · exact iff_of_false (by simp) fun h => hlen (hlength h)
  · rw [not_not] at hlen
    have hnil : encode ra = [] := eq_nil_of_length_eq_zero hzero
    have hnil' : encode rb = [] := eq_nil_of_length_eq_zero (hlen ▸ hzero)
    rw [hnil, hnil']
    simp
  · rw [compareStringOrdinal, decide_eq_true_iff]

theorem upcaseKey_eq_iff {a b : Bytes} :
    upcaseKey table a = upcaseKey table b ↔ ordinalEqualIgnoringCase table a b = true := by
  cases ha : runes a with
  | none =>
    have hkey : upcaseKey table a = a := by rw [upcaseKey, ha]
    have hsame : ordinalEqualIgnoringCase table a b = true ↔ a = b := by
      rw [ordinalEqualIgnoringCase, ha]
      exact decide_eq_true_iff
    rw [hkey, hsame]
    cases hb : runes b with
    | none => rw [upcaseKey, hb]
    | some rb =>
      refine iff_of_false (fun heq => ?_) fun heq => ?_
      · rw [upcaseKey, hb] at heq
        rw [heq, runes_utf8] at ha
        cases ha
      · rw [heq, hb] at ha
        cases ha
  | some ra =>
    have hkey : upcaseKey table a = utf8 (decodeUnits ((encode ra).map table.map)) := by
      rw [upcaseKey, ha]
    cases hb : runes b with
    | none =>
      have hsame : ordinalEqualIgnoringCase table a b = true ↔ a = b := by
        rw [ordinalEqualIgnoringCase, ha, hb]
        exact decide_eq_true_iff
      rw [hkey, hsame, upcaseKey, hb]
      refine iff_of_false (fun heq => ?_) fun heq => ?_
      · dsimp only at heq
        rw [← heq, runes_utf8] at hb
        cases hb
      · rw [heq, hb] at ha
        cases ha
    | some rb =>
      have hkey' : upcaseKey table b = utf8 (decodeUnits ((encode rb).map table.map)) := by
        rw [upcaseKey, hb]
      rw [hkey, hkey', ordinalEqual_of_runes table ha hb]
      refine ⟨fun heq => ?_, fun heq => by rw [heq]⟩
      have hchars := utf8_injective heq
      rw [← (wellFormed_map_encode table ra).encode_decode, hchars,
        (wellFormed_map_encode table rb).encode_decode]

/-- `SamePathName` and `PathNameKey` of Windows: two names have one key exactly if they are the
same name, and being the same name is an equivalence. -/
theorem pathNameKey_eq_iff (table : UpcaseTable) :
    (∀ a b : Bytes, upcaseKey table a = upcaseKey table b ↔
      ordinalEqualIgnoringCase table a b = true) ∧
      Equivalence fun a b : Bytes => ordinalEqualIgnoringCase table a b = true := by
  refine ⟨fun a b => upcaseKey_eq_iff table, fun a => ?_, fun {a b} hab => ?_,
    fun {a b c} hab hbc => ?_⟩
  · exact (upcaseKey_eq_iff table).1 rfl
  · exact (upcaseKey_eq_iff table).1 ((upcaseKey_eq_iff table).2 hab).symm
  · exact (upcaseKey_eq_iff table).1
      (((upcaseKey_eq_iff table).2 hab).trans ((upcaseKey_eq_iff table).2 hbc))

end Windows.PathName
