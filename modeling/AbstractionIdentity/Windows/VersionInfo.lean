import AbstractionIdentity.Text.ByteReader
import Mathlib.Tactic.SplitIfs

/-!
# Reading a version resource

A version resource is one `VS_VERSIONINFO` block; every length is taken from the bytes. An index out
of range and a loop that does not end are the two `Fault`s; neither happens (`parseVersionInfo_ok`),
and blocks are visited at increasing offsets (`childLoop_ok`).
-/

namespace Windows.Version

open Text List

/-! ## Text -/

def isSpace (c : Char) : Bool :=
  [0x9, 0xa, 0xb, 0xc, 0xd, 0x20, 0x85, 0xa0, 0x1680, 0x2028, 0x2029, 0x202f, 0x205f,
    0x3000].contains c.toNat || 0x2000 ≤ c.toNat && c.toNat ≤ 0x200a

def trimSpace (s : List Char) : List Char :=
  ((s.dropWhile isSpace).reverse.dropWhile isSpace).reverse

def lower (c : Char) : Char := if 65 ≤ c.toNat ∧ c.toNat ≤ 90 then Char.ofNat (c.toNat + 32) else c

/-- `strings.EqualFold` with a text of hexadecimal digits. Of the letters in it none folds to a
character beyond ASCII. -/
def equalFold (s digits : List Char) : Bool := s.map lower = digits.map lower

def hexDigit (n : ℕ) : Char := Char.ofNat (if n < 10 then 48 + n else 87 + n)

def hex4 (n : ℕ) : List Char := [n / 4096 % 16, n / 256 % 16, n / 16 % 16, n % 16].map hexDigit

/-! ## Blocks -/

structure VersionBlock where
  key : List Char
  value : Bytes
  children : ℕ
  stop : ℕ
  deriving DecidableEq

def align4 (n : ℕ) : ℕ := (n + 3) / 4 * 4

/-- The loop over UTF-16 units up to the first NUL or the limit: the units before it, and the
offset after the NUL. -/
def units (data : Bytes) (limit : ℕ) : ℕ → ℕ → Except Fault (List ℕ × Option ℕ)
  | 0, _ => .error .noFuel
  | fuel + 1, pos =>
    if pos + 2 ≤ limit then
      (u16At data pos).bind fun u =>
        if u = 0 then .ok ([], some (pos + 2))
        else (units data limit fuel (pos + 2)).map fun r => (u :: r.1, r.2)
    else .ok ([], none)

def utf16z (data : Bytes) (start limit : ℕ) : Except Fault (Option (List Char × ℕ)) :=
  (units data limit (data.length + 1) start).map fun r => r.2.map fun pos => (decode r.1, pos)

def textValue (value : Bytes) : Except Fault (List Char) :=
  (units value value.length (value.length + 1) 0).map fun r => trimSpace (decode r.1)

def blockAfterKey (data : Bytes) (key : List Char) (pos valueLength stop : ℕ) :
    Except Fault (Option VersionBlock) :=
  let valueStart := if stop < pos then stop else pos
  let valueEnd := if stop < pos then stop else min (pos + valueLength) stop
  (slice data valueStart valueEnd).map fun value => some ⟨key, value, align4 valueEnd, stop⟩

def versionBlockAt (data : Bytes) (start limit : ℕ) : Except Fault (Option VersionBlock) :=
  if limit < start + 6 then .ok none
  else
    (u16At data start).bind fun length =>
    (u16At data (start + 2)).bind fun valueLength =>
    (u16At data (start + 4)).bind fun kind =>
      if length < 6 ∨ limit < start + length then .ok none
      else
        (utf16z data (start + 6) (start + length)).bind fun
          | none => .ok none
          | some (key, pos) =>
            blockAfterKey data key (align4 pos)
              (if kind = 1 then valueLength * 2 else valueLength) (start + length)

def childLoop (data : Bytes) (stop : ℕ) : ℕ → ℕ → Except Fault (List (ℕ × Option VersionBlock))
  | 0, _ => .error .noFuel
  | fuel + 1, pos =>
    if pos + 6 ≤ stop then
      (versionBlockAt data pos stop).bind fun
        | none => .ok [(pos, none)]
        | some child =>
          (childLoop data stop fuel (align4 child.stop)).map ((pos, some child) :: ·)
    else .ok []

def childBlocks (data : Bytes) (b : VersionBlock) : Except Fault (List VersionBlock) :=
  (childLoop data b.stop (data.length + 1) b.children).map (·.filterMap Prod.snd)

/-! ## Strings -/

structure ImageVersion where
  description : List Char
  originalName : List Char
  deriving DecidableEq

def translationStep (translation : List Char) (v : VersionBlock) : Except Fault (List Char) :=
  if v.key = "Translation".toList ∧ 4 ≤ v.value.length ∧ translation = [] then
    (u16At v.value 0).bind fun language =>
      (u16At v.value 2).map fun page => hex4 language ++ hex4 page
  else .ok translation

def translationLoop : List VersionBlock → List Char → Except Fault (List Char)
  | [], translation => .ok translation
  | v :: vs, translation => (translationStep translation v).bind (translationLoop vs)

def collect (data : Bytes) :
    List VersionBlock → List VersionBlock × List Char → Except Fault (List VersionBlock × List Char)
  | [], found => .ok found
  | child :: rest, found =>
    if child.key = "StringFileInfo".toList then
      (childBlocks data child).bind fun tables => collect data rest (found.1 ++ tables, found.2)
    else if child.key = "VarFileInfo".toList then
      (childBlocks data child).bind fun vs =>
      (translationLoop vs found.2).bind fun translation =>
        collect data rest (found.1, translation)
    else collect data rest found

def stringLoop : List VersionBlock → ImageVersion → Except Fault ImageVersion
  | [], version => .ok version
  | s :: rest, version =>
    if s.key = "FileDescription".toList then
      (textValue s.value).bind fun text => stringLoop rest { version with description := text }
    else if s.key = "OriginalFilename".toList then
      (textValue s.value).bind fun text => stringLoop rest { version with originalName := text }
    else stringLoop rest version

/-- `none` is `errNoVersion`. -/
def parseVersionInfo (data : Bytes) : Except Fault (Option ImageVersion) :=
  (versionBlockAt data 0 data.length).bind fun
    | none => .ok none
    | some root =>
      if root.key ≠ "VS_VERSION_INFO".toList then .ok none
      else
        (childBlocks data root).bind fun children =>
        (collect data children ([], [])).bind fun found =>
          match found.1 with
          | [] => .ok none
          | first :: tables =>
            let table := ((first :: tables).find? fun t => equalFold t.key found.2).getD first
            (childBlocks data table).bind fun strings =>
            (stringLoop strings ⟨[], []⟩).map some

/-! ## No fault for any bytes -/

section Safe

variable {data : Bytes}

theorem le_align4 (n : ℕ) : n ≤ align4 n ∧ align4 n < n + 4 := by
  rw [align4]
  omega

theorem units_ok {limit fuel pos : ℕ} (hlimit : limit ≤ data.length) (hround : 0 < fuel)
    (hfuel : limit < pos + 2 * fuel) :
    ∃ r, units data limit fuel pos = .ok r ∧
      ∀ stop, r.2 = some stop → pos + 2 ≤ stop ∧ stop ≤ limit := by
  induction fuel generalizing pos with
  | zero => exact absurd hround (Nat.lt_irrefl 0)
  | succ fuel ih =>
    rw [units]
    split_ifs with hpos
    · obtain ⟨u, hu, -⟩ := @u16At_ok data pos (by omega)
      rw [hu, Except.bind]
      split_ifs
      · refine ⟨_, rfl, fun stop hstop => ?_⟩
        cases hstop
        omega
      · obtain ⟨r, hr, hstop⟩ := @ih (pos + 2) (by omega) (by omega)
        rw [hr]
        refine ⟨_, rfl, fun stop h => ?_⟩
        have hle := hstop stop h
        omega
    · exact ⟨_, rfl, fun stop h => (by cases h)⟩

theorem utf16z_ok {start limit : ℕ} (hlimit : limit ≤ data.length) :
    ∃ r, utf16z data start limit = .ok r ∧
      ∀ key stop, r = some (key, stop) → start + 2 ≤ stop ∧ stop ≤ limit := by
  obtain ⟨r, hr, hstop⟩ := @units_ok data limit (data.length + 1) start hlimit (by omega) (by omega)
  rw [utf16z, hr]
  refine ⟨_, rfl, fun key stop h => hstop stop ?_⟩
  obtain ⟨pos, hpos, heq⟩ := Option.map_eq_some_iff.1 h
  cases heq
  exact hpos

theorem textValue_ok (value : Bytes) : ∃ text, textValue value = .ok text := by
  obtain ⟨r, hr, -⟩ :=
    @units_ok value value.length (value.length + 1) 0 le_rfl (by omega) (by omega)
  rw [textValue, hr]
  exact ⟨_, rfl⟩

theorem blockAfterKey_ok {key : List Char} {pos valueLength stop : ℕ} (hstop : stop ≤ data.length) :
    ∃ b, blockAfterKey data key pos valueLength stop = .ok (some b) ∧ b.stop = stop := by
  have hrange : (if stop < pos then stop else pos) ≤
      (if stop < pos then stop else min (pos + valueLength) stop) ∧
      (if stop < pos then stop else min (pos + valueLength) stop) ≤ data.length := by
    split_ifs
    · exact ⟨le_rfl, hstop⟩
    · omega
  rw [blockAfterKey, slice, if_pos hrange]
  exact ⟨_, rfl, rfl⟩

theorem versionBlockAt_ok {start limit : ℕ} (hlimit : limit ≤ data.length) :
    ∃ r, versionBlockAt data start limit = .ok r ∧
      ∀ b, r = some b → start + 6 ≤ b.stop ∧ b.stop ≤ limit := by
  rw [versionBlockAt]
  split_ifs with hhead
  · exact ⟨none, rfl, fun b h => (by cases h)⟩
  · obtain ⟨length, hlength, -⟩ := @u16At_ok data start (by omega)
    obtain ⟨valueLength, hvalue, -⟩ := @u16At_ok data (start + 2) (by omega)
    obtain ⟨kind, hkind, -⟩ := @u16At_ok data (start + 4) (by omega)
    rw [hlength, Except.bind, hvalue, Except.bind, hkind, Except.bind]
    by_cases hbad : length < 6 ∨ limit < start + length
    · rw [if_pos hbad]
      exact ⟨none, rfl, fun b h => (by cases h)⟩
    · rw [if_neg hbad]
      rw [not_or, not_lt, not_lt] at hbad
      obtain ⟨r, hr, -⟩ := @utf16z_ok data (start + 6) (start + length) (by omega)
      rw [hr, Except.bind]
      cases r with
      | none => exact ⟨none, rfl, fun b h => (by cases h)⟩
      | some found =>
        obtain ⟨key, pos⟩ := found
        obtain ⟨b, hb, hstop⟩ := @blockAfterKey_ok data key (align4 pos)
          (if kind = 1 then valueLength * 2 else valueLength) (start + length) (by omega)
        refine ⟨some b, hb, fun b' h => ?_⟩
        cases h
        omega

theorem childLoop_ok {stop fuel pos : ℕ} (hstop : stop ≤ data.length) (hround : 0 < fuel)
    (hfuel : stop < pos + fuel) :
    ∃ r, childLoop data stop fuel pos = .ok r ∧ (r.map Prod.fst).Pairwise (· < ·) ∧
      (∀ visit ∈ r, pos ≤ visit.1) ∧ ∀ visit ∈ r, ∀ b, visit.2 = some b → b.stop ≤ stop := by
  induction fuel generalizing pos with
  | zero => exact absurd hround (Nat.lt_irrefl 0)
  | succ fuel ih =>
    rw [childLoop]
    split_ifs with hpos
    · obtain ⟨r, hr, hblock⟩ := @versionBlockAt_ok data pos stop hstop
      rw [hr, Except.bind]
      cases r with
      | none =>
        refine ⟨_, rfl, pairwise_singleton _ _, fun visit hvisit => ?_,
          fun visit hvisit b hb => ?_⟩
        · rw [mem_singleton.1 hvisit]
        · rw [mem_singleton.1 hvisit] at hb
          cases hb
      | some child =>
        obtain ⟨hhead, hend⟩ := hblock child rfl
        have halign := le_align4 child.stop
        obtain ⟨rest, hrest, hsorted, hfrom, hends⟩ := @ih (align4 child.stop) (by omega) (by omega)
        dsimp only
        rw [hrest]
        refine ⟨_, rfl, ?_, fun visit hvisit => ?_, fun visit hvisit b hb => ?_⟩
        · rw [map_cons, pairwise_cons]
          refine ⟨fun next hnext => ?_, hsorted⟩
          obtain ⟨visit, hvisit, rfl⟩ := mem_map.1 hnext
          have hle := hfrom visit hvisit
          change pos < visit.1
          omega
        · rcases mem_cons.1 hvisit with rfl | hvisit
          · exact le_rfl
          · have hle := hfrom visit hvisit
            omega
        · rcases mem_cons.1 hvisit with rfl | hvisit
          · cases hb
            exact hend
          · exact hends visit hvisit b hb
    · refine ⟨_, rfl, List.Pairwise.nil, fun visit hvisit => ?_, fun visit hvisit => ?_⟩
      · cases hvisit
      · cases hvisit

theorem childBlocks_ok {b : VersionBlock} (hb : b.stop ≤ data.length) :
    ∃ children, childBlocks data b = .ok children ∧
      ∀ child ∈ children, child.stop ≤ data.length := by
  obtain ⟨r, hr, -, -, hends⟩ :=
    @childLoop_ok data b.stop (data.length + 1) b.children hb (by omega) (by omega)
  rw [childBlocks, hr]
  refine ⟨_, rfl, fun child hchild => ?_⟩
  obtain ⟨visit, hvisit, hsome⟩ := mem_filterMap.1 hchild
  exact (hends visit hvisit child hsome).trans hb

theorem translationLoop_ok (vs : List VersionBlock) (translation : List Char) :
    ∃ r, translationLoop vs translation = .ok r := by
  induction vs generalizing translation with
  | nil => exact ⟨_, rfl⟩
  | cons v vs ih =>
    rw [translationLoop, translationStep]
    split_ifs with hentry
    · obtain ⟨language, hlanguage, -⟩ := @u16At_ok v.value 0 (by omega)
      obtain ⟨page, hpage, -⟩ := @u16At_ok v.value 2 (by omega)
      rw [hlanguage, Except.bind, hpage]
      exact ih _
    · exact ih _

theorem collect_ok {children : List VersionBlock} {found : List VersionBlock × List Char}
    (hchildren : ∀ child ∈ children, child.stop ≤ data.length)
    (hfound : ∀ table ∈ found.1, table.stop ≤ data.length) :
    ∃ r, collect data children found = .ok r ∧ ∀ table ∈ r.1, table.stop ≤ data.length := by
  induction children generalizing found with
  | nil => exact ⟨found, rfl, hfound⟩
  | cons child rest ih =>
    have hrest : ∀ child ∈ rest, child.stop ≤ data.length := fun c hc =>
      hchildren c (mem_cons_of_mem _ hc)
    obtain ⟨blocks, hblocks, hends⟩ := childBlocks_ok (hchildren child mem_cons_self)
    rw [collect]
    split_ifs
    · rw [hblocks, Except.bind]
      refine ih hrest fun table htable => ?_
      rcases mem_append.1 htable with htable | htable
      · exact hfound table htable
      · exact hends table htable
    · obtain ⟨translation, htranslation⟩ := translationLoop_ok blocks found.2
      rw [hblocks, Except.bind, htranslation, Except.bind]
      exact ih hrest hfound
    · exact ih hrest hfound

theorem stringLoop_ok (strings : List VersionBlock) (version : ImageVersion) :
    ∃ r, stringLoop strings version = .ok r := by
  induction strings generalizing version with
  | nil => exact ⟨_, rfl⟩
  | cons s rest ih =>
    obtain ⟨text, htext⟩ := textValue_ok s.value
    rw [stringLoop]
    split_ifs
    · rw [htext, Except.bind]
      exact ih _
    · rw [htext, Except.bind]
      exact ih _
    · exact ih _

theorem parseVersionInfo_ok (data : Bytes) : ∃ r, parseVersionInfo data = .ok r := by
  obtain ⟨r, hr, hblock⟩ := @versionBlockAt_ok data 0 data.length le_rfl
  rw [parseVersionInfo, hr, Except.bind]
  cases r with
  | none => exact ⟨none, rfl⟩
  | some root =>
    dsimp only
    split_ifs
    · exact ⟨none, rfl⟩
    · obtain ⟨children, hchildren, hends⟩ := childBlocks_ok (hblock root rfl).2
      obtain ⟨found, hfound, htables⟩ :=
        @collect_ok data children ([], []) hends (fun table htable => (by cases htable))
      rw [hchildren, Except.bind, hfound, Except.bind]
      split
      · exact ⟨none, rfl⟩
      next first tables hcons =>
        have htable : (((first :: tables).find? fun t => equalFold t.key found.2).getD first).stop ≤
              data.length := by
          refine htables _ ?_
          rw [hcons]
          cases hfind : (first :: tables).find? fun t => equalFold t.key found.2 with
          | none => exact mem_cons_self
          | some table => exact mem_of_find?_eq_some hfind
        obtain ⟨strings, hstrings, -⟩ := childBlocks_ok htable
        obtain ⟨version, hversion⟩ := stringLoop_ok strings ⟨[], []⟩
        rw [hstrings, Except.bind, hversion]
        exact ⟨_, rfl⟩

end Safe

end Windows.Version
