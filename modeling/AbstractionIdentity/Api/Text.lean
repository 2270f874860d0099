import Mathlib.Data.List.Basic
import AbstractionIdentity.Text.Bytes

/-!
# Strings of a record

The records of the package `api` are JSON. `esc` writes a string and `str` reads one. `Spells t s`
relates the text between two quotes and the string it stands for: the reader accepts these texts
and no others, provided that the string is UTF-8 (`str_iff`).
-/

namespace Api

open Text List Option

/-! ## Writing -/

def hexChar (n : ℕ) : UInt8 := if n < 10 then .ofNat (48 + n) else .ofNat (87 + n)

def escByte (c : UInt8) : Bytes :=
  if c = 34 then [92, 34]
  else if c = 92 then [92, 92]
  else if c = 8 then [92, 98]
  else if c = 12 then [92, 102]
  else if c = 10 then [92, 110]
  else if c = 13 then [92, 114]
  else if c = 9 then [92, 116]
  else if c < 32 then [92, 117, 48, 48, hexChar (c.toNat / 16), hexChar (c.toNat % 16)]
  else [c]

def esc (s : Bytes) : Bytes := 34 :: (s.flatMap escByte ++ [34])

/-! ## UTF-8 -/

def appendRune (cp : ℕ) : Bytes :=
  if cp < 0x80 then [.ofNat cp]
  else if cp < 0x800 then [.ofNat (0xC0 + cp / 64), .ofNat (0x80 + cp % 64)]
  else if cp < 0x10000 then
    [.ofNat (0xE0 + cp / 4096), .ofNat (0x80 + cp / 64 % 64), .ofNat (0x80 + cp % 64)]
  else
    [.ofNat (0xF0 + cp / 262144), .ofNat (0x80 + cp / 4096 % 64), .ofNat (0x80 + cp / 64 % 64),
      .ofNat (0x80 + cp % 64)]

/-- The length of a sequence that starts with `c`, and the bits `c` has of the character. -/
def lead (c : UInt8) : Option (ℕ × ℕ) :=
  if c.toNat / 32 = 0x6 then some (2, c.toNat % 32)
  else if c.toNat / 16 = 0xE then some (3, c.toNat % 16)
  else if c.toNat / 8 = 0x1E then some (4, c.toNat % 8)
  else none

def continued (cp : ℕ) (b : UInt8) : Option ℕ :=
  if b.toNat / 64 ≠ 0x2 then none else some (cp * 64 + b.toNat % 64)

def lowest (n : ℕ) : ℕ := [0, 0, 0x80, 0x800, 0x10000].getD n 0

/-- One round of `validUTF8`: what is left after the character that starts with `c`. -/
def validRune (c : UInt8) (t : Bytes) : Option Bytes :=
  if c.toNat < 0x80 then some t
  else (lead c).bind fun m =>
    if t.length + 1 < m.1 then none
    else ((t.take (m.1 - 1)).foldlM continued m.2).bind fun cp =>
      if cp < lowest m.1 ∨ 0x10FFFF < cp ∨ 0xD800 ≤ cp ∧ cp ≤ 0xDFFF then none
      else some (t.drop (m.1 - 1))

def validLoop : ℕ → Bytes → Bool
  | _, [] => true
  | 0, _ => false
  | fuel + 1, c :: t => (validRune c t).any (validLoop fuel)

def validUTF8 (b : Bytes) : Bool := validLoop b.length b

theorem foldlM_continued_cons {b : UInt8} {bs : Bytes} {cp n : ℕ} :
    (b :: bs).foldlM continued cp = some n ↔
      b.toNat / 64 = 2 ∧ bs.foldlM continued (cp * 64 + b.toNat % 64) = some n := by
  rw [foldlM_cons, continued]
  by_cases hb : b.toNat / 64 = 2 <;> simp [hb]

theorem foldlM_continued_nil {cp n : ℕ} : [].foldlM continued cp = some n ↔ cp = n := by
  rw [foldlM_nil]
  exact some_inj

theorem ofNat_eq_of_toNat {b : UInt8} {n : ℕ} (h : n = b.toNat) : UInt8.ofNat n = b := by
  rw [h, UInt8.ofNat_toNat]

theorem val_ofNat {n : ℕ} (h : n.isValidChar) : (Char.ofNat n).val.toNat = n := by
  rw [Char.ofNat, dif_pos h]
  rfl

theorem validRune_sound {c : UInt8} {t q : Bytes} (h : validRune c t = some q) :
    ∃ ch : Char, c :: t = String.utf8EncodeChar ch ++ q := by
  have hc := c.toNat_lt
  rw [validRune] at h
  split_ifs at h with hone
  · cases h
    refine ⟨Char.ofNat c.toNat, ?_⟩
    have hval := @val_ofNat c.toNat (.inl (by omega))
    simp only [String.utf8EncodeChar, hval, show c.toNat ≤ 127 by omega, ↓reduceIte]
    simp
  obtain ⟨m, hm, h⟩ := bind_eq_some_iff.1 h
  split_ifs at h with hlen
  obtain ⟨cp, hcp, h⟩ := bind_eq_some_iff.1 h
  split_ifs at h with hbad
  cases h
  simp only [not_or, not_lt, not_and, not_le] at hbad
  obtain ⟨hlow, hhigh, hsur⟩ := hbad
  refine ⟨Char.ofNat cp, ?_⟩
  have hval : (Char.ofNat cp).val.toNat = cp := by
    apply val_ofNat
    rw [Nat.isValidChar]
    omega
  simp only [String.utf8EncodeChar, hval]
  clear hval
  rw [lead] at hm
  -- the three leads: each fixes how many bytes follow and which code points they can make
  split_ifs at hm with h2 h3 h4 <;> cases hm
  · obtain _ | ⟨x, t⟩ := t
    · simp at hlen
    have hx := x.toNat_lt
    simp only [Nat.add_one_sub_one, take_succ_cons, take_zero, foldlM_continued_cons,
      foldlM_continued_nil] at hcp
    change 0x80 ≤ cp at hlow
    rw [if_neg (by omega), if_pos (by omega), @ofNat_eq_of_toNat c _ (by omega),
      @ofNat_eq_of_toNat x _ (by omega)]
    rfl
  · obtain _ | ⟨x, _ | ⟨y, t⟩⟩ := t
    · simp at hlen
    · simp at hlen
    have hx := x.toNat_lt
    have hy := y.toNat_lt
    simp only [Nat.add_one_sub_one, take_succ_cons, take_zero, foldlM_continued_cons,
      foldlM_continued_nil] at hcp
    change 0x800 ≤ cp at hlow
    rw [if_neg (by omega), if_neg (by omega), if_pos (by omega), @ofNat_eq_of_toNat c _ (by omega),
      @ofNat_eq_of_toNat x _ (by omega), @ofNat_eq_of_toNat y _ (by omega)]
    rfl
  · obtain _ | ⟨x, _ | ⟨y, _ | ⟨z, t⟩⟩⟩ := t
    · simp at hlen
    · simp at hlen
    · simp at hlen
    have hx := x.toNat_lt
    have hy := y.toNat_lt
    have hz := z.toNat_lt
    simp only [Nat.add_one_sub_one, take_succ_cons, take_zero, foldlM_continued_cons,
      foldlM_continued_nil] at hcp
    change 0x10000 ≤ cp at hlow
    rw [if_neg (by omega), if_neg (by omega), if_neg (by omega),
      @ofNat_eq_of_toNat c _ (by omega), @ofNat_eq_of_toNat x _ (by omega),
      @ofNat_eq_of_toNat y _ (by omega), @ofNat_eq_of_toNat z _ (by omega)]
    rfl

theorem toNat_ofNat_byte {n : ℕ} (h : n < 256) : (UInt8.ofNat n).toNat = n := by
  rw [UInt8.toNat_ofNat']
  omega

theorem validRune_of_lead {c : UInt8} {bs q : Bytes} {n first cp : ℕ} (hc : 0x80 ≤ c.toNat)
    (hlead : lead c = some (n, first)) (hlen : bs.length + 1 = n)
    (hcp : bs.foldlM continued first = some cp) (hlow : lowest n ≤ cp)
    (hvalid : cp.isValidChar) : validRune c (bs ++ q) = some q := by
  rw [Nat.isValidChar] at hvalid
  have hbs : n - 1 = bs.length := by omega
  rw [validRune, if_neg (by omega), hlead, bind_some]
  dsimp only
  rw [hbs, take_left, hcp, if_neg (by rw [length_append]; omega), bind_some,
    if_neg (by omega), drop_left]

theorem validRune_complete (ch : Char) (q : Bytes) :
    ∃ c t, String.utf8EncodeChar ch ++ q = c :: t ∧ validRune c t = some q := by
  have hvalid : ch.val.toNat.isValidChar := ch.valid
  have hmax : ch.val.toNat < 0x110000 := by
    rw [Nat.isValidChar] at hvalid
    omega
  generalize hv : ch.val.toNat = v at hvalid hmax
  simp only [String.utf8EncodeChar, hv]
  split_ifs with h1 h2 h3
  · refine ⟨_, _, rfl, ?_⟩
    rw [validRune, toNat_ofNat_byte (by omega), if_pos (by omega)]
    rfl
  · refine ⟨_, [_] ++ q, rfl, @validRune_of_lead _ _ _ 2 (v / 64) v ?_ ?_ rfl ?_ ?_ hvalid⟩
    · rw [toNat_ofNat_byte] <;> omega
    · rw [lead, toNat_ofNat_byte (by omega), if_pos (by omega)]
      simp
      omega
    · simp only [foldlM_continued_cons, foldlM_continued_nil]
      rw [toNat_ofNat_byte (by omega)]
      omega
    · change 0x80 ≤ v
      omega
  · refine ⟨_, [_, _] ++ q, rfl, @validRune_of_lead _ _ _ 3 (v / 4096) v ?_ ?_ rfl ?_ ?_ hvalid⟩
    · rw [toNat_ofNat_byte] <;> omega
    · rw [lead, toNat_ofNat_byte (by omega), if_neg (by omega), if_pos (by omega)]
      simp
      omega
    · simp only [foldlM_continued_cons, foldlM_continued_nil]
      rw [toNat_ofNat_byte (by omega), toNat_ofNat_byte (by omega)]
      omega
    · change 0x800 ≤ v
      omega
  · refine ⟨_, [_, _, _] ++ q, rfl,
      @validRune_of_lead _ _ _ 4 (v / 262144) v ?_ ?_ rfl ?_ ?_ hvalid⟩
    · rw [toNat_ofNat_byte] <;> omega
    · rw [lead, toNat_ofNat_byte (by omega), if_neg (by omega), if_neg (by omega),
        if_pos (by omega)]
      simp
      omega
    · simp only [foldlM_continued_cons, foldlM_continued_nil]
      rw [toNat_ofNat_byte (by omega), toNat_ofNat_byte (by omega), toNat_ofNat_byte (by omega)]
      omega
    · change 0x10000 ≤ v
      omega

theorem validLoop_sound {fuel : ℕ} {b : Bytes} (h : validLoop fuel b = true) :
    ∃ cs : List Char, b = cs.flatMap String.utf8EncodeChar := by
  induction fuel generalizing b with
  | zero =>
    cases b with
    | nil => exact ⟨[], rfl⟩
    | cons c t => cases h
  | succ fuel ih =>
    cases b with
    | nil => exact ⟨[], rfl⟩
    | cons c t =>
      obtain ⟨q, hq, hrest⟩ := (any_eq_true _ _).1 h
      obtain ⟨ch, hch⟩ := validRune_sound hq
      obtain ⟨cs, rfl⟩ := ih hrest
      exact ⟨ch :: cs, by rw [hch, flatMap_cons]⟩

theorem validLoop_complete (cs : List Char) {fuel : ℕ} (h : cs.length ≤ fuel) :
    validLoop fuel (cs.flatMap String.utf8EncodeChar) = true := by
  induction cs generalizing fuel with
  | nil => cases fuel <;> rfl
  | cons ch cs ih =>
    obtain _ | fuel := fuel
    · cases h
    rw [flatMap_cons]
    obtain ⟨c, t, hct, hrune⟩ := validRune_complete ch (cs.flatMap String.utf8EncodeChar)
    rw [hct, validLoop, hrune]
    exact ih (Nat.le_of_succ_le_succ h)

/-- The test accepts exactly the UTF-8 encodings of characters: no overlong form, no surrogate
and nothing above U+10FFFF. -/
theorem validUTF8_iff (b : Bytes) :
    validUTF8 b = true ↔ ∃ cs : List Char, b = cs.flatMap String.utf8EncodeChar := by
  refine ⟨validLoop_sound, ?_⟩
  rintro ⟨cs, rfl⟩
  apply validLoop_complete
  induction cs with
  | nil => exact Nat.le_refl 0
  | cons ch cs ih =>
    have hpos := ch.utf8Size_pos
    rw [flatMap_cons, length_append, String.length_utf8EncodeChar, length_cons]
    omega

/-! ## Reading -/

/-- The words of the refusals of a string. -/
inductive Word where
  | malformed
  | badString
  | wrongType
  deriving DecidableEq

def Word.text : Word → String
  | .malformed => "malformed"
  | .badString => "bad_string"
  | .wrongType => "wrong_type"

structure Refusal where
  word : Word
  offset : ℕ
  deriving DecidableEq

def Refusal.error (e : Refusal) : Bytes :=
  ascii "refused: " ++ ascii e.word.text ++ ascii " at byte " ++ decimal e.offset

structure Reader where
  pos : ℕ
  rest : Bytes
  deriving DecidableEq

abbrev Read (T : Type) := Except Refusal (T × Reader)

namespace Reader

def refuse {T : Type} (r : Reader) (word : Word) : Except Refusal T := .error ⟨word, r.pos⟩

def here (r : Reader) : UInt8 := r.rest.headD 0

def skip (r : Reader) (n : ℕ) : Reader := ⟨r.pos + n, r.rest.drop n⟩

def hex4 (r : Reader) : Read ℕ :=
  if r.rest.length < 4 then r.refuse .badString
  else match hex (r.rest.take 4) with
    | some u => .ok (u, r.skip 4)
    | none => r.refuse .badString

def letter (c : UInt8) : Option UInt8 :=
  if c = 34 ∨ c = 92 ∨ c = 47 then some c
  else if c = 98 then some 8
  else if c = 102 then some 12
  else if c = 110 then some 10
  else if c = 114 then some 13
  else if c = 116 then some 9
  else none

def isHigh (u : ℕ) : Bool := 0xD800 ≤ u && u ≤ 0xDBFF

def isLow (u : ℕ) : Bool := 0xDC00 ≤ u && u ≤ 0xDFFF

def pairRune (u v : ℕ) : ℕ := 0x10000 + (u - 0xD800) * 1024 + (v - 0xDC00)

def unit (r : Reader) (u : ℕ) : Read Bytes :=
  if isLow u then r.refuse .badString
  else if isHigh u then
    if [92, 117] <+: r.rest then (r.skip 2).hex4.bind fun m =>
      if isLow m.1 then .ok (appendRune (pairRune u m.1), m.2) else m.2.refuse .badString
    else r.refuse .badString
  else .ok (appendRune u, r)

def escape (r : Reader) : Read Bytes :=
  match (r.skip 1).rest with
  | [] => (r.skip 1).refuse .malformed
  | c :: _ =>
    match letter c with
    | some b => .ok ([b], r.skip 2)
    | none =>
      if c = 117 then (r.skip 2).hex4.bind fun m => m.2.unit m.1
      else (r.skip 2).refuse .badString

def strLoop : ℕ → Reader → Bytes → Read Bytes
  | 0, r, _ => r.refuse .malformed
  | fuel + 1, r, out =>
    match r.rest with
    | [] => r.refuse .malformed
    | c :: _ =>
      if c = 34 then
        if validUTF8 out then .ok (out, r.skip 1) else (r.skip 1).refuse .badString
      else if c < 32 then r.refuse .badString
      else if c = 92 then r.escape.bind fun m => strLoop fuel m.2 (out ++ m.1)
      else strLoop fuel (r.skip 1) (out ++ [c])

def str (r : Reader) : Read Bytes :=
  if r.here ≠ 34 then r.refuse .wrongType else strLoop r.rest.length (r.skip 1) []

end Reader

open Reader

/-! ## What a text spells -/

/-- The text behind a backslash and the bytes it stands for. -/
inductive Escape : Bytes → Bytes → Prop
  | letter {c b : UInt8} : Reader.letter c = some b → Escape [c] [b]
  | unit {ds : Bytes} {u : ℕ} : ds.length = 4 → hex ds = some u → Reader.isLow u = false →
      Reader.isHigh u = false → Escape (117 :: ds) (appendRune u)
  | pair {ds es : Bytes} {u v : ℕ} : ds.length = 4 → hex ds = some u → Reader.isHigh u = true →
      es.length = 4 → hex es = some v → Reader.isLow v = true →
      Escape (117 :: (ds ++ 92 :: 117 :: es)) (appendRune (Reader.pairRune u v))

inductive Spells : Bytes → Bytes → Prop
  | nil : Spells [] []
  | plain {c : UInt8} {t s : Bytes} : c ≠ 34 → ¬ c < 32 → c ≠ 92 → Spells t s →
      Spells (c :: t) (c :: s)
  | escape {u bs t s : Bytes} : Escape u bs → Spells t s → Spells (92 :: (u ++ t)) (bs ++ s)

section Reading

variable {p : ℕ} {rest : Bytes} {r : Reader}

theorem read_bind_iff {T U : Type} {x : Read T} {f : T × Reader → Read U} {m : U × Reader} :
    x.bind f = .ok m ↔ ∃ a r, x = .ok (a, r) ∧ f (a, r) = .ok m := by
  cases x with
  | error e => simp [Except.bind]
  | ok a => simp [Except.bind, Prod.ext_iff]

theorem here_eq_iff {c : UInt8} (hc : c ≠ 0) : here ⟨p, rest⟩ = c ↔ ∃ q, rest = c :: q := by
  cases rest with
  | nil => simp [here, hc.symm]
  | cons b q => simp [here]

theorem hex4_iff {u : ℕ} : Reader.hex4 ⟨p, rest⟩ = .ok (u, r) ↔
    ∃ ds q, rest = ds ++ q ∧ ds.length = 4 ∧ hex ds = some u ∧ r = ⟨p + 4, q⟩ := by
  constructor
  · intro h
    rw [hex4] at h
    dsimp only at h
    split_ifs at h with hlen
    · cases h
    cases hhex : hex (rest.take 4) with (rw [hhex] at h; cases h)
    | some v =>
      refine ⟨rest.take 4, rest.drop 4, (take_append_drop 4 rest).symm, ?_, hhex, rfl⟩
      rw [length_take]
      omega
  · rintro ⟨ds, q, rfl, hlen, hhex, rfl⟩
    have htake : (ds ++ q).take 4 = ds := by rw [← hlen, take_left]
    have hdrop : (ds ++ q).drop 4 = q := by rw [← hlen, drop_left]
    rw [hex4, if_neg (by simp [hlen])]
    simp only [htake, hhex, skip, hdrop]

theorem unit_sound {u : ℕ} {ds bs : Bytes} (hlen : ds.length = 4) (hds : hex ds = some u)
    (h : unit ⟨p, rest⟩ u = .ok (bs, r)) :
    ∃ es q, rest = es ++ q ∧ Escape (117 :: (ds ++ es)) bs ∧ r = ⟨p + es.length, q⟩ := by
  rw [unit] at h
  cases hlow : isLow u with simp only [hlow, Bool.false_eq_true, ↓reduceIte] at h
  | true => cases h
  | false =>
    cases hhigh : isHigh u with simp only [hhigh, Bool.false_eq_true, ↓reduceIte] at h
    | false =>
      cases h
      exact ⟨[], rest, rfl, by simpa using Escape.unit hlen hds hlow hhigh, rfl⟩
    | true =>
      split_ifs at h with hpre
      · obtain ⟨t, rfl⟩ := hpre
        obtain ⟨v, r', hhex, h⟩ := read_bind_iff.1 h
        obtain ⟨es, q, ht, hlen', hes, rfl⟩ := hex4_iff.1 hhex
        cases hv : isLow v with simp only [hv, Bool.false_eq_true, ↓reduceIte] at h
        | false => cases h
        | true =>
          simp only [Except.ok.injEq, Prod.mk.injEq] at h
          obtain ⟨rfl, rfl⟩ := h
          have ht : t = es ++ q := by simpa using ht
          refine ⟨92 :: 117 :: es, q, by simp [ht], .pair hlen hds hhigh hlen' hes hv, ?_⟩
          simp [hlen']
      · cases h

theorem escape_sound {bs : Bytes} (h : Reader.escape ⟨p, 92 :: rest⟩ = .ok (bs, r)) :
    ∃ u q, rest = u ++ q ∧ Escape u bs ∧ r = ⟨p + 1 + u.length, q⟩ := by
  cases rest with simp only [escape, skip, drop_succ_cons, drop_zero] at h
  | nil => cases h
  | cons c rest =>
    cases hc : letter c with simp only [hc] at h
    | some b =>
      cases h
      exact ⟨[c], rest, rfl, .letter hc, rfl⟩
    | none =>
      split_ifs at h with hu
      · subst hu
        obtain ⟨u, r', hhex, h⟩ := read_bind_iff.1 h
        obtain ⟨ds, q, rfl, hlen, hds, rfl⟩ := hex4_iff.1 hhex
        obtain ⟨es, q, rfl, hesc, rfl⟩ := unit_sound hlen hds h
        refine ⟨117 :: (ds ++ es), q, by simp, hesc, ?_⟩
        simp [hlen]
        omega
      · cases h

theorem escape_complete {u bs q : Bytes} (h : Escape u bs) :
    escape ⟨p, 92 :: (u ++ q)⟩ = .ok (bs, ⟨p + 1 + u.length, q⟩) := by
  cases h with
  | letter hc => simp [escape, skip, hc]
  | @unit ds u hlen hds hlow hhigh =>
    have hhex := (@hex4_iff (p + 2) _ _ u).2 ⟨ds, q, rfl, hlen, hds, rfl⟩
    simp only [escape, skip, drop_succ_cons, drop_zero, cons_append]
    refine read_bind_iff.2 ⟨u, _, hhex, ?_⟩
    simp [unit, hlow, hhigh, hlen]
  | @pair ds es u v hlen hds hhigh hlen' hes hlow =>
    have hhex := (@hex4_iff (p + 2) _ _ u).2 ⟨ds, 92 :: 117 :: (es ++ q), rfl, hlen, hds, rfl⟩
    have hhex' := (@hex4_iff (p + 2 + 4 + 2) _ _ v).2 ⟨es, q, rfl, hlen', hes, rfl⟩
    have hnot : isLow u = false := by
      simp only [isHigh, Bool.and_eq_true, decide_eq_true_eq] at hhigh
      simp only [isLow, Bool.and_eq_false_iff, decide_eq_false_iff_not]
      omega
    simp only [escape, skip, drop_succ_cons, drop_zero, cons_append, append_assoc]
    refine read_bind_iff.2 ⟨u, _, hhex, ?_⟩
    rw [unit, hnot, hhigh]
    simp only [Bool.false_eq_true, ↓reduceIte]
    rw [if_pos ⟨es ++ q, rfl⟩]
    refine read_bind_iff.2 ⟨v, _, hhex', ?_⟩
    simp [hlow, hlen, hlen']

theorem strLoop_sound {fuel : ℕ} {out s : Bytes} (h : strLoop fuel ⟨p, rest⟩ out = .ok (s, r)) :
    ∃ t q bs, rest = t ++ 34 :: q ∧ Spells t bs ∧ s = out ++ bs ∧ validUTF8 s = true ∧
      r = ⟨p + t.length + 1, q⟩ := by
  induction fuel generalizing p rest out with
  | zero => cases h
  | succ fuel ih =>
    cases rest with rw [strLoop] at h
    | nil => cases h
    | cons c rest =>
      simp only at h
      split_ifs at h with hquote hvalid hcontrol hback
      · cases h
        exact ⟨[], rest, [], by simp [hquote], .nil, by simp, hvalid, rfl⟩
      · cases h
      · cases h
      · subst hback
        obtain ⟨bs, r', hesc, h⟩ := read_bind_iff.1 h
        obtain ⟨u, q, rfl, hu, rfl⟩ := escape_sound hesc
        obtain ⟨t, q, bs', rfl, ht, rfl, hs, rfl⟩ := ih h
        refine ⟨92 :: (u ++ t), q, bs ++ bs', by simp, .escape hu ht, by simp, hs, ?_⟩
        simp
        omega
      · obtain ⟨t, q, bs, hrest, ht, rfl, hs, rfl⟩ := ih h
        obtain rfl : rest = t ++ 34 :: q := hrest
        refine ⟨c :: t, q, c :: bs, rfl, .plain hquote hcontrol hback ht, by simp, hs, ?_⟩
        simp
        omega

theorem strLoop_plain {fuel : ℕ} {c : UInt8} {out : Bytes} (hquote : c ≠ 34)
    (hcontrol : ¬ c < 32) (hback : c ≠ 92) :
    strLoop (fuel + 1) ⟨p, c :: rest⟩ out =
      strLoop fuel ⟨p + 1, rest⟩ (out ++ [c]) := by
  rw [strLoop]
  dsimp only
  rw [if_neg hquote, if_neg hcontrol, if_neg hback]
  rfl

theorem strLoop_complete {fuel : ℕ} {out t bs q : Bytes} (h : Spells t bs)
    (hfuel : t.length < fuel) (hvalid : validUTF8 (out ++ bs) = true) :
    strLoop fuel ⟨p, t ++ 34 :: q⟩ out =
      .ok (out ++ bs, ⟨p + t.length + 1, q⟩) := by
  induction h generalizing fuel p out with obtain _ | fuel := fuel <;> [cases hfuel; skip]
  | nil => simp_all [strLoop, skip]
  | @plain c t s hquote hcontrol hback ht ih =>
    rw [show out ++ c :: s = (out ++ [c]) ++ s by simp] at hvalid ⊢
    rw [cons_append, strLoop_plain hquote hcontrol hback,
      ih (Nat.lt_of_succ_lt_succ hfuel) hvalid, length_cons]
    simp only [Nat.add_right_comm p 1, Nat.add_assoc]
  | @escape u bs t s hu ht ih =>
    rw [← append_assoc] at hvalid ⊢
    have hlen : t.length < fuel := by
      simp at hfuel
      omega
    rw [cons_append, append_assoc, strLoop]
    refine read_bind_iff.2 ⟨bs, _, escape_complete hu, ?_⟩
    rw [ih hlen hvalid]
    simp
    omega

theorem str_sound {s : Bytes} (h : Reader.str ⟨p, rest⟩ = .ok (s, r)) :
    ∃ t q, rest = 34 :: (t ++ 34 :: q) ∧ Spells t s ∧ validUTF8 s = true ∧
      r = ⟨p + t.length + 2, q⟩ := by
  rw [str] at h
  split_ifs at h with hquote
  · cases h
  obtain ⟨rest, rfl⟩ := (here_eq_iff (by decide)).1 (not_not.1 hquote)
  obtain ⟨t, q, bs, hrest, ht, rfl, hs, rfl⟩ := strLoop_sound h
  obtain rfl : rest = t ++ 34 :: q := hrest
  refine ⟨t, q, rfl, ht, hs, ?_⟩
  rw [Nat.add_right_comm p 1]

theorem str_complete {s t q : Bytes} (ht : Spells t s) (hs : validUTF8 s = true) :
    str ⟨p, 34 :: (t ++ 34 :: q)⟩ = .ok (s, ⟨p + t.length + 2, q⟩) := by
  rw [str, if_neg (not_not.2 ((here_eq_iff (by decide)).2 ⟨_, rfl⟩))]
  have h := @strLoop_complete (p + 1) (34 :: (t ++ 34 :: q)).length [] t s q ht
    (by rw [length_cons, length_append]; omega) hs
  rw [Nat.add_right_comm p 1] at h
  exact h

end Reading

/-- The reader accepts a string exactly if the text between its quotes spells it, and it is UTF-8;
it stops behind the second quote. -/
theorem str_iff (p : ℕ) (rest s : Bytes) (r : Reader) : Reader.str ⟨p, rest⟩ = .ok (s, r) ↔
      ∃ t q, rest = 34 :: (t ++ 34 :: q) ∧ Spells t s ∧ validUTF8 s = true ∧
        r = ⟨p + t.length + 2, q⟩ := by
  refine ⟨str_sound, ?_⟩
  rintro ⟨t, q, rfl, ht, hs, rfl⟩
  exact str_complete ht hs

/-! ## What `esc` writes -/

theorem hex_hexChar : ∀ n < 32, hex [48, 48, hexChar (n / 16), hexChar (n % 16)] = some n := by
  decide

theorem spells_escByte (c : UInt8) {t s : Bytes} (h : Spells t s) :
    Spells (escByte c ++ t) (c :: s) := by
  have hletter : ∀ l : UInt8, letter l = some c → Spells (92 :: l :: t) (c :: s) :=
    fun l hl => .escape (.letter hl) h
  rw [escByte]
  split_ifs with h1 h2 h3 h4 h5 h6 h7 h8
  · exact hletter 34 (by simp [h1, letter])
  · exact hletter 92 (by simp [h2, letter])
  · exact hletter 98 (by simp [h3, letter])
  · exact hletter 102 (by simp [h4, letter])
  · exact hletter 110 (by simp [h5, letter])
  · exact hletter 114 (by simp [h6, letter])
  · exact hletter 116 (by simp [h7, letter])
  · have hc : c.toNat < 32 := UInt8.lt_iff_toNat_lt.1 h8
    have hunit := Escape.unit rfl (hex_hexChar c.toNat hc) (by simp [isLow]; omega)
      (by simp [isHigh]; omega)
    rw [appendRune, if_pos (by omega), UInt8.ofNat_toNat] at hunit
    exact .escape hunit h
  · exact .plain h1 h8 h2 h

theorem spells_esc (s : Bytes) : Spells (s.flatMap escByte) s := by
  induction s with
  | nil => exact .nil
  | cons c s ih =>
    rw [flatMap_cons]
    exact spells_escByte c ih

/-- What `esc` writes, in front of any text, is read back exactly if it is UTF-8. -/
theorem str_esc_iff (p : ℕ) (s q : Bytes) :
    Reader.str ⟨p, esc s ++ q⟩ = .ok (s, ⟨p + (esc s).length, q⟩) ↔
      validUTF8 s = true := by
  constructor
  · intro h
    obtain ⟨-, -, -, -, hs, -⟩ := str_sound h
    exact hs
  · intro hs
    have h := @str_complete p s _ q (spells_esc s) hs
    simpa [esc, Nat.add_assoc] using h

end Api
