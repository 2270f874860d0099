import AbstractionIdentity.Text.Clean
import AbstractionIdentity.Windows.LocalPathSound

/-!
# The gate of the JavaScript addon on Windows

The addon's `local_path` reads UTF-16; the units it looks at are below 128, so the model is the
UTF-8 text, with lengths in units. `localPath` replaces every slash before it looks at a prefix;
the addon keeps a spelling on `\\?\` in backslashes, and asks for devices before the full path
drops components. `SameReading` says where that makes no difference.
-/

namespace Windows

open Text List

def Env.clear (env : Env) (parts : List Bytes) : Bool := !parts.any env.reservedDeviceName

structure Env.Checked (env : Env) (s : Bytes) : Prop where
  drive : driveAbsolute s = true
  names : env.clear (split 92 (s.drop 3)) = true
  here : env.pathDriveType (s.take 3) ≠ .remote

def Env.FullLocal (env : Env) (s : Bytes) : Prop :=
  env.fullPathError s = none ∧ env.Checked (env.fullName s).text

namespace Addon

def unitsOf (b : UInt8) : ℕ :=
  if b < 128 then 1 else if b < 192 then 0 else if b < 240 then 1 else 2

def units (s : Bytes) : ℕ := (s.map unitsOf).sum

inductive Failure where
  | invalidArgument (path reason : Bytes)
  | notLocal (path reason : Bytes)
  | system (operation path reason : Bytes)
  deriving DecidableEq

def ntLead : Bytes := [92, 63, 63, 92]

def extendedLead : Bytes := [92, 92, 63, 92]

def extendedDrivePath (path : Bytes) : Bool :=
  extendedLead.isPrefixOf path && driveAbsolute (path.drop 4)

def driveRootLength (path : Bytes) : ℕ := if extendedDrivePath path then 7 else 3

def fullPath (env : Env) (path : Bytes) : Except Failure Bytes :=
  match env.fullPathError path with
  | some err => .error (.system (ascii "resolve") path err)
  | none =>
    let full := (env.fullName path).text
    if 32768 < units full + 1 then
      .error (.system (ascii "resolve") path (ascii "ERROR_FILENAME_EXCED_RANGE"))
    else .ok full

def reservedDeviceName (env : Env) (component : Bytes) : Bool :=
  let name := ((component.takeWhile fun b => b ≠ 46 && b ≠ 58).reverse.dropWhile
    (· == 32)).reverse
  if units name < 3 || 7 < units name then false
  else if !(ascii "CcPpAaNnLl").contains (name.headD 0) then false
  else deviceNames.any (env.samePathName name)

def rejectReservedComponents (env : Env) (path : Bytes) : Except Failure Unit :=
  if (split 92 (path.drop (driveRootLength path))).any (reservedDeviceName env) then
    .error (.notLocal path (ascii "a reserved device name is a path component"))
  else .ok ()

def extendedPath (env : Env) (input : Bytes) : Except Failure Bytes :=
  if driveAbsolute (input.drop 4) then
    (rejectReservedComponents env input).map fun _ => input
  else .error (.notLocal input (ascii "a device or non-drive extended path"))

/-- `local_path` from the full path on. -/
def fullLocalPath (env : Env) (input path : Bytes) : Except Failure Bytes :=
  (if driveAbsolute path then rejectReservedComponents env path else .ok ()).bind fun _ =>
  (fullPath env path).bind fun full =>
    if [92, 92].isPrefixOf full then
      .error (.notLocal input (ascii "its full path is a UNC or device path"))
    else if driveAbsolute full then
      (rejectReservedComponents env full).map fun _ => full
    else .error (.notLocal input (ascii "it names no absolute drive letter"))

/-- `local_path` of every other spelling. -/
def normalizedPath (env : Env) (input : Bytes) : Except Failure Bytes :=
  let path := backslashed input
  if ntLead.isPrefixOf path then .error (.notLocal input (ascii "an NT object path"))
  else if extendedLead.isPrefixOf path then
    if driveAbsolute (path.drop 4) then fullLocalPath env input (path.drop 4)
    else .error (.notLocal input (ascii "a device or non-drive extended path"))
  else if [92, 92].isPrefixOf path then
    .error (.notLocal input (ascii "a UNC or device path"))
  else fullLocalPath env input path

/-- The end of `local_path`, which returns the path it was given. -/
def checkDriveType (env : Env) (input path : Bytes) : Except Failure Bytes :=
  let root := if extendedDrivePath path then (path.drop 4).take 3 else path.take 3
  if env.pathDriveType root = .remote then .error (.notLocal input (ascii "a network drive"))
  else .ok path

def localPath (env : Env) (input : Bytes) : Except Failure Bytes :=
  if input = [] then .error (.invalidArgument input (ascii "the path is empty"))
  else if 0 ∈ input then .error (.notLocal input (ascii "the path contains NUL"))
  else if ntLead.isPrefixOf input then .error (.notLocal input (ascii "an NT object path"))
  else
    (if extendedLead.isPrefixOf input then extendedPath env input
      else normalizedPath env input).bind (checkDriveType env input)

def upper (b : UInt8) : UInt8 := if 97 ≤ b ∧ b ≤ 122 then b - 32 else b

end Addon

open Addon

/-! ## Device names -/

section Device

variable {env : Env}

theorem unitsOf_upper (b : UInt8) : Addon.unitsOf (Addon.upper b) = Addon.unitsOf b := by
  rw [upper]
  split_ifs with hletter
  · have hmin : 97 ≤ b.toNat := hletter.1
    have hmax : b.toNat ≤ 122 := hletter.2
    have h128 : (128 : UInt8).toNat = 128 := rfl
    have hle : (32 : UInt8) ≤ b := by
      rw [UInt8.le_iff_toNat_le]
      exact le_trans (by decide) hmin
    have hlow : b < 128 := by
      rw [UInt8.lt_iff_toNat_lt]
      omega
    have hshift : b - 32 < 128 := by
      rw [UInt8.lt_iff_toNat_lt, UInt8.toNat_sub_of_le _ _ hle]
      omega
    rw [unitsOf, unitsOf, if_pos hshift, if_pos hlow]
  · rfl

theorem units_map_upper (s : Bytes) : Addon.units (s.map Addon.upper) = Addon.units s := by
  rw [units, units, map_map]
  congr 1
  exact map_congr_left fun b _ => unitsOf_upper b

theorem addon_reservedDeviceName
    (hfold : ∀ name, ∀ device ∈ deviceNames, env.samePathName name device = true →
      name.map upper = device) (part : Bytes) :
    reservedDeviceName env part = env.reservedDeviceName part := by
  have hlengths : ∀ device ∈ deviceNames, (3 ≤ device.length ∧ device.length ≤ 7) ∧
      3 ≤ units device ∧ units device ≤ 7 := by decide +kernel
  rw [reservedDeviceName, Env.reservedDeviceName]
  generalize ((part.takeWhile fun b => b ≠ 46 && b ≠ 58).reverse.dropWhile (· == 32)).reverse = name
  cases hany : deviceNames.any (env.samePathName name) with
  | false =>
    split_ifs <;> rfl
  | true =>
    obtain ⟨device, hmem, hsame⟩ := any_eq_true.1 hany
    have hname := hfold name device hmem hsame
    have hbytes : name.length = device.length := by
      rw [← hname, length_map]
    have hunits : units name = units device := by
      rw [← hname, units_map_upper]
    obtain ⟨⟨hlow, hhigh⟩, hlow', hhigh'⟩ := hlengths device hmem
    have hin : ¬ (units name < 3 ∨ 7 < units name) := by omega
    have hin' : ¬ (name.length < 3 ∨ 7 < name.length) := by omega
    simp only [Bool.or_eq_true, decide_eq_true_iff, hin, hin', false_or, if_false]

end Device

/-! ## What each of the two accepts -/

theorem bind_eq_ok_iff {ε α β : Type} {x : Except ε α} {f : α → Except ε β} {b : β} :
    x.bind f = .ok b ↔ ∃ a, x = .ok a ∧ f a = .ok b := by
  cases x with
  | error err => exact ⟨fun h => (by cases h), fun ⟨_, h, _⟩ => (by cases h)⟩
  | ok a => exact ⟨fun h => ⟨a, rfl, h⟩, fun ⟨_, h, hf⟩ => (by cases h; exact hf)⟩

theorem map_eq_ok_iff {ε α β : Type} {x : Except ε α} {f : α → β} {b : β} :
    x.map f = .ok b ↔ ∃ a, x = .ok a ∧ f a = b := by
  cases x with
  | error err => exact ⟨fun h => (by cases h), fun ⟨_, h, _⟩ => (by cases h)⟩
  | ok a =>
    exact ⟨fun h => ⟨a, rfl, by cases h; rfl⟩, fun ⟨_, h, hf⟩ => (by cases h; rw [← hf]; rfl)⟩

section Accept

variable {env : Env}

variable {path rest : Bytes}

theorem checkDrive_eq_ok_iff {s : Bytes} : env.checkDrive path s = .ok () ↔ env.Checked s := by
  rw [Env.checkDrive]
  constructor
  · intro h
    by_cases hdrive : driveAbsolute s = true
    · rw [if_pos hdrive] at h
      split at h
      · cases h
      next hfind =>
        split_ifs at h with htype
        refine ⟨hdrive, ?_, htype⟩
        rw [Env.clear, Bool.not_eq_true', any_eq_false]
        exact List.find?_eq_none.1 hfind
    · rw [if_neg hdrive] at h
      cases h
  · intro h
    have hfind : (split 92 (s.drop 3)).find? env.reservedDeviceName = none := by
      have hnames := h.names
      rw [Env.clear, Bool.not_eq_true', any_eq_false] at hnames
      exact List.find?_eq_none.2 hnames
    rw [if_pos h.drive, hfind]
    exact if_neg h.here

theorem localPath_eq_ok_iff (hne : path ≠ []) (hnul : 0 ∉ path) :
    env.localPath path = .ok () ↔ ∃ s, env.localName path = .ok s ∧ env.Checked s := by
  rw [Env.localPath, if_neg hne, if_neg hnul]
  cases hname : env.localName path with
  | error err =>
    refine ⟨fun h => (by cases h), ?_⟩
    rintro ⟨s, h, -⟩
    cases h
  | ok s =>
    refine checkDrive_eq_ok_iff.trans ⟨fun h => ⟨s, rfl, h⟩, ?_⟩
    rintro ⟨s', hs, h⟩
    cases hs
    exact h

theorem clear_concat_nil (parts : List Bytes) : env.clear (parts ++ [[]]) = env.clear parts := by
  have hnil : env.reservedDeviceName [] = false := rfl
  rw [Env.clear, Env.clear, any_append, any_cons, hnil, any_nil, Bool.or_false, Bool.or_false]

theorem driveAbsolute_cons_of_not {b : UInt8} (h : isLetter b = false) (s : Bytes) :
    driveAbsolute (b :: s) = false := by
  rw [Bool.eq_false_iff]
  intro habs
  obtain ⟨letter, rest, heq, hletter⟩ := (driveAbsolute_iff _).1 habs
  cases heq
  rw [h] at hletter
  cases hletter

theorem not_checked_of_head {b : UInt8} (h : isLetter b = false) (s : Bytes) :
    ¬ env.Checked (b :: s) := by
  intro hs
  have habs := hs.drive
  rw [driveAbsolute_cons_of_not h] at habs
  cases habs

theorem FullName.clean_below (f : FullName) : f.clean.below = join 92 f.parts := by
  have hparts : f.clean.parts = f.parts := by
    rw [FullName.clean]
    dsimp only
    rw [resolve_of_names fun part hpart => (f.names part hpart).1, nil_append]
  have hfolder : f.clean.folder = false := rfl
  rw [FullName.below, hparts, hfolder]
  simp

theorem FullName.slash_not_mem_join (f : FullName) : 47 ∉ join 92 f.parts := by
  intro hmem
  rcases mem_join hmem with hsep | ⟨part, hpart, hb⟩
  · cases hsep
  · exact (f.names part hpart).2 hb

theorem clear_below (f : FullName) :
    env.clear (split 92 f.below) = env.clear (split 92 (join 92 f.parts)) := by
  rw [FullName.below]
  split_ifs
  · rw [split_append_sep, ← clear_concat_nil (split 92 (join 92 f.parts))]
    rfl
  · rw [append_nil]

theorem checked_clean_iff (f : FullName) :
    env.Checked (backslashed f.clean.text) ↔ env.Checked f.text := by
  have hroot : f.clean.root = f.root := rfl
  rw [FullName.text, FullName.text, hroot, f.clean_below, backslashed_append,
    backslashed_of_not_mem f.slash_not_mem_join]
  cases f.root with
  | drive letter =>
    by_cases hletter : isLetter letter = true
    · have hslash : letter ≠ 47 := by
        rintro rfl
        cases hletter
      have hself : backslashed (Root.drive letter).text = (Root.drive letter).text := by
        rw [Root.text, backslashed_cons, if_neg hslash]
        rfl
      rw [hself]
      exact ⟨fun h => ⟨h.drive, (clear_below f).trans h.names, h.here⟩,
        fun h => ⟨h.drive, (clear_below f).symm.trans h.names, h.here⟩⟩
    · rw [Bool.not_eq_true] at hletter
      have hback : isLetter (if letter = 47 then 92 else letter) = false := by
        split_ifs
        · rfl
        · exact hletter
      exact iff_of_false (not_checked_of_head hback _) (not_checked_of_head hletter _)
  | wide lead tail high =>
    have hslash : lead ≠ 47 := by
      rintro rfl
      exact absurd high (by decide)
    have hletter := isLetter_of_high high
    have hback : isLetter (if lead = 47 then 92 else lead) = false := by
      rwa [if_neg hslash]
    exact iff_of_false (not_checked_of_head hback _) (not_checked_of_head hletter _)
  | share server name =>
    exact iff_of_false (not_checked_of_head rfl _) (not_checked_of_head rfl _)
  | device mark =>
    exact iff_of_false (not_checked_of_head rfl _) (not_checked_of_head rfl _)

theorem not_checked_of_share {s : Bytes} (h : [92, 92] <+: s) : ¬ env.Checked s := by
  obtain ⟨rest, rfl⟩ := h
  exact fun hs => absurd hs.drive (by simp [driveAbsolute])

def PlainSpelling (s : Bytes) : Prop := ¬ Addon.ntLead <+: s ∧ ¬ [92, 92] <+: s

theorem localName_plain_eq (h : PlainSpelling (backslashed path)) :
    (∃ s, env.localName path = .ok s ∧ env.Checked s) ↔ env.FullLocal (backslashed path) := by
  rw [Env.localName]
  split
  next heq => exact absurd ⟨_, heq.symm⟩ h.1
  next heq => exact absurd ⟨_, heq.symm⟩ h.2
  next heq => exact absurd ⟨_, heq.symm⟩ h.2
  · rw [Env.abs]
    cases herror : env.fullPathError (backslashed path) with
    | some err =>
      constructor
      · rintro ⟨s, hok, -⟩
        cases hok
      · intro hfull
        rw [Env.FullLocal, herror] at hfull
        cases hfull.1
    | none =>
      dsimp only
      rw [Env.FullLocal, ← checked_clean_iff, herror]
      split_ifs with hshare
      · constructor
        · rintro ⟨s, hok, -⟩
          cases hok
        · exact fun hfull => absurd hfull.2 (not_checked_of_share hshare)
      · constructor
        · rintro ⟨s, hok, hs⟩
          cases hok
          exact ⟨rfl, hs⟩
        · exact fun hfull => ⟨_, rfl, hfull.2⟩

theorem localPath_extended_iff (hne : path ≠ []) (hnul : 0 ∉ path)
    (hpath : backslashed path = 92 :: 92 :: 63 :: 92 :: rest) :
    env.localPath path = .ok () ↔ env.Checked rest := by
  rw [localPath_eq_ok_iff hne hnul]
  simp only [Env.localName, hpath]
  split_ifs with hdrive
  · constructor
    · rintro ⟨s, hok, hs⟩
      cases hok
      exact hs
    · exact fun h => ⟨rest, rfl, h⟩
  · constructor
    · rintro ⟨s, hok, -⟩
      cases hok
    · exact fun h => absurd h.drive hdrive

theorem not_localPath_of_lead (h : Addon.ntLead <+: backslashed path ∨
      [92, 92] <+: backslashed path ∧ ¬ extendedLead <+: backslashed path) :
    env.localPath path ≠ .ok () := by
  intro hok
  obtain ⟨letter, rest, hname, -⟩ := localPath_ok hok
  rw [Env.localName] at hname
  split at hname
  · cases hname
  next heq =>
    rcases h with ⟨t, ht⟩ | ⟨-, hno⟩
    · rw [heq] at ht
      cases ht
    · exact hno ⟨_, heq.symm⟩
  · cases hname
  next hnt hextended hshare =>
    rcases h with ⟨t, ht⟩ | ⟨⟨t, ht⟩, -⟩
    · exact hnt _ ht.symm
    · exact hshare _ ht.symm

variable (hfold : ∀ name, ∀ device ∈ deviceNames, env.samePathName name device = true →
  name.map upper = device)
include hfold

theorem reject_eq_ok_iff (path : Bytes) : Addon.rejectReservedComponents env path = .ok () ↔
      env.clear (split 92 (path.drop (driveRootLength path))) = true := by
  have hfun : reservedDeviceName env = env.reservedDeviceName :=
    funext (addon_reservedDeviceName hfold)
  rw [rejectReservedComponents, hfun, Env.clear]
  split_ifs with hany
  · simp [hany]
  · simp [hany]

omit hfold in
theorem driveRootLength_of_drive (h : driveAbsolute path = true) :
    extendedDrivePath path = false ∧ driveRootLength path = 3 := by
  obtain ⟨letter, rest, rfl, hletter⟩ := (driveAbsolute_iff path).1 h
  have hno : extendedDrivePath (letter :: 58 :: 92 :: rest) = false := by
    rw [extendedDrivePath, extendedLead]
    simp [List.isPrefixOf]
  exact ⟨hno, by rw [driveRootLength, hno]; rfl⟩

omit hfold in
theorem driveRootLength_of_extended {raw : Bytes} (h : driveAbsolute raw = true) :
    extendedDrivePath (92 :: 92 :: 63 :: 92 :: raw) = true ∧
      driveRootLength (92 :: 92 :: 63 :: 92 :: raw) = 7 := by
  have hyes : extendedDrivePath (92 :: 92 :: 63 :: 92 :: raw) = true := by
    rw [extendedDrivePath, extendedLead]
    simpa [List.isPrefixOf] using h
  exact ⟨hyes, by rw [driveRootLength, hyes]; rfl⟩

variable (hcap : ∀ s, env.fullPathError s = none → Addon.units (env.fullName s).text ≤ 32767)
include hcap

omit hfold in
theorem addon_fullPath_eq_ok_iff (path full : Bytes) : Addon.fullPath env path = .ok full ↔
      env.fullPathError path = none ∧ full = (env.fullName path).text := by
  rw [fullPath]
  cases herror : env.fullPathError path with
  | some err => exact ⟨fun h => (by cases h), fun h => (by cases h.1)⟩
  | none =>
    have hle := hcap path herror
    dsimp only
    rw [if_neg (by omega)]
    exact ⟨fun h => ⟨rfl, by cases h; rfl⟩, fun h => by rw [h.2]⟩

/-- From the full path on, the addon asks what `localPath` asks, and first for devices among
the components as they are written. -/
theorem fullLocalPath_eq_ok_iff (input path full : Bytes) :
    fullLocalPath env input path = .ok full ↔
      (driveAbsolute path = true → env.clear (split 92 (path.drop 3)) = true) ∧
      env.fullPathError path = none ∧ full = (env.fullName path).text ∧
      driveAbsolute full = true ∧ env.clear (split 92 (full.drop 3)) = true := by
  have hfirst : (if driveAbsolute path then rejectReservedComponents env path else .ok ()) =
      .ok () ↔ (driveAbsolute path = true → env.clear (split 92 (path.drop 3)) = true) := by
    split_ifs with hdrive
    · rw [reject_eq_ok_iff hfold, (driveRootLength_of_drive hdrive).2]
      exact ⟨fun h _ => h, fun h => h hdrive⟩
    · exact ⟨fun _ h => absurd h hdrive, fun _ => rfl⟩
  have hlast : ∀ s : Bytes, (if [92, 92].isPrefixOf s then
          .error (.notLocal input (ascii "its full path is a UNC or device path"))
        else if driveAbsolute s then (rejectReservedComponents env s).map fun _ => s
        else .error (.notLocal input (ascii "it names no absolute drive letter"))) =
          Except.ok (ε := Addon.Failure) full ↔
        full = s ∧ driveAbsolute s = true ∧ env.clear (split 92 (s.drop 3)) = true := by
    intro s
    by_cases hdrive : driveAbsolute s = true
    · have hshare : [92, 92].isPrefixOf s = false := by
        obtain ⟨letter, rest, rfl, hletter⟩ := (driveAbsolute_iff s).1 hdrive
        simp [List.isPrefixOf]
      rw [hshare, if_neg Bool.false_ne_true, if_pos hdrive, map_eq_ok_iff]
      refine ⟨fun ⟨_, hreject, heq⟩ => ⟨heq.symm, hdrive, ?_⟩, fun h => ⟨(), ?_, h.1.symm⟩⟩
      · rw [reject_eq_ok_iff hfold, (driveRootLength_of_drive hdrive).2] at hreject
        exact hreject
      · rw [reject_eq_ok_iff hfold, (driveRootLength_of_drive hdrive).2]
        exact h.2.2
    · refine ⟨fun h => ?_, fun h => absurd h.2.1 hdrive⟩
      split_ifs at h
  rw [fullLocalPath, bind_eq_ok_iff]
  refine ⟨fun ⟨_, hok, h⟩ => ?_, fun ⟨hclear, herror, heq, hrest⟩ => ⟨(), hfirst.2 hclear, ?_⟩⟩
  · obtain ⟨s, hs, h⟩ := bind_eq_ok_iff.1 h
    obtain ⟨herror, hs⟩ := (addon_fullPath_eq_ok_iff hcap path s).1 hs
    obtain ⟨rfl, hdrive, hclear⟩ := (hlast s).1 h
    subst hs
    exact ⟨hfirst.1 hok, herror, rfl, hdrive, hclear⟩
  · subst heq
    refine bind_eq_ok_iff.2 ⟨_, (addon_fullPath_eq_ok_iff hcap path _).2 ⟨herror, rfl⟩, ?_⟩
    exact (hlast _).2 ⟨rfl, hrest⟩

theorem addon_full_iff (input path : Bytes) :
    (∃ p, (fullLocalPath env input path).bind (checkDriveType env input) = .ok p) ↔
      (driveAbsolute path = true → env.clear (split 92 (path.drop 3)) = true) ∧
        env.FullLocal path := by
  constructor
  · rintro ⟨p, h⟩
    obtain ⟨full, hfull, h⟩ := bind_eq_ok_iff.1 h
    obtain ⟨hclear, herror, rfl, hdrive, hnames⟩ :=
      (fullLocalPath_eq_ok_iff hfold hcap input path full).1 hfull
    rw [checkDriveType, (driveRootLength_of_drive hdrive).1] at h
    refine ⟨hclear, herror, hdrive, hnames, fun htype => ?_⟩
    rw [if_neg Bool.false_ne_true, if_pos htype] at h
    cases h
  · rintro ⟨hclear, herror, hchecked⟩
    have hfull := (fullLocalPath_eq_ok_iff hfold hcap input path _).2
      ⟨hclear, herror, rfl, hchecked.drive, hchecked.names⟩
    refine ⟨(env.fullName path).text, bind_eq_ok_iff.2 ⟨_, hfull, ?_⟩⟩
    rw [checkDriveType, (driveRootLength_of_drive hchecked.drive).1]
    rw [if_neg Bool.false_ne_true, if_neg hchecked.here]

omit hcap in
theorem addon_extended_iff (raw : Bytes) (hnul : 0 ∉ 92 :: 92 :: 63 :: 92 :: raw) :
    (∃ p, localPath env (92 :: 92 :: 63 :: 92 :: raw) = .ok p) ↔ env.Checked raw := by
  have hlead : extendedLead.isPrefixOf (92 :: 92 :: 63 :: 92 :: raw) = true := by
    simp [extendedLead, List.isPrefixOf]
  have hnt : ntLead.isPrefixOf (92 :: 92 :: 63 :: 92 :: raw) = false := by
    simp [ntLead, List.isPrefixOf]
  rw [localPath, if_neg (cons_ne_nil _ _), if_neg hnul, hnt,
    if_neg Bool.false_ne_true, if_pos hlead, extendedPath, drop_succ_cons,
    drop_succ_cons, drop_succ_cons, drop_succ_cons, drop_zero]
  by_cases hdrive : driveAbsolute raw = true
  · obtain ⟨hextended, hlength⟩ := driveRootLength_of_extended hdrive
    have hreject := reject_eq_ok_iff hfold (92 :: 92 :: 63 :: 92 :: raw)
    rw [hlength] at hreject
    rw [if_pos hdrive]
    constructor
    · rintro ⟨p, h⟩
      obtain ⟨path, hpath, h⟩ := bind_eq_ok_iff.1 h
      obtain ⟨_, hok, rfl⟩ := map_eq_ok_iff.1 hpath
      refine ⟨hdrive, hreject.1 hok, fun htype => ?_⟩
      rw [checkDriveType, hextended] at h
      rw [if_pos rfl, if_pos (by exact htype)] at h
      cases h
    · intro h
      refine ⟨92 :: 92 :: 63 :: 92 :: raw, bind_eq_ok_iff.2 ⟨92 :: 92 :: 63 :: 92 :: raw, ?_, ?_⟩⟩
      · exact map_eq_ok_iff.2 ⟨(), hreject.2 h.names, rfl⟩
      · rw [checkDriveType, hextended]
        exact if_neg h.here
  · rw [if_neg hdrive]
    exact ⟨fun ⟨_, h⟩ => (by cases h), fun h => absurd h.drive hdrive⟩

omit hfold hcap in
theorem addon_localPath_normalized (hne : path ≠ []) (hnul : 0 ∉ path)
    (hnt : ¬ ntLead <+: backslashed path) (hlead : ¬ extendedLead <+: path) :
    localPath env path =
      (normalizedPath env path).bind (checkDriveType env path) := by
  have hnt' : ¬ ntLead.isPrefixOf path = true := by
    rw [List.isPrefixOf_iff_prefix]
    rintro ⟨t, rfl⟩
    exact hnt ⟨backslashed t, rfl⟩
  rw [localPath, if_neg hne, if_neg hnul, if_neg hnt',
    if_neg (fun h => hlead (List.isPrefixOf_iff_prefix.1 h))]

theorem addon_slashed_iff (hne : path ≠ []) (hnul : 0 ∉ path) (hlead : ¬ extendedLead <+: path)
    (hpath : backslashed path = 92 :: 92 :: 63 :: 92 :: rest) :
    (∃ p, localPath env path = .ok p) ↔
      driveAbsolute rest = true ∧ env.clear (split 92 (rest.drop 3)) = true ∧
        env.FullLocal rest := by
  have hnt : ¬ ntLead <+: backslashed path := by
    rw [hpath]
    simp [ntLead]
  have hextended : extendedLead.isPrefixOf (backslashed path) = true := by
    rw [hpath]
    simp [extendedLead, List.isPrefixOf]
  have hdrop : (backslashed path).drop 4 = rest := by
    rw [hpath]
    rfl
  rw [addon_localPath_normalized hne hnul hnt hlead, normalizedPath,
    if_neg (fun h => hnt (List.isPrefixOf_iff_prefix.1 h)), if_pos hextended, hdrop]
  by_cases hdrive : driveAbsolute rest = true
  · rw [if_pos hdrive, addon_full_iff hfold hcap]
    exact ⟨fun h => ⟨hdrive, h.1 hdrive, h.2⟩, fun h => ⟨fun _ => h.2.1, h.2.2⟩⟩
  · rw [if_neg hdrive]
    exact ⟨fun ⟨_, h⟩ => (by cases h), fun h => absurd h.1 hdrive⟩

theorem addon_plain_iff (hne : path ≠ []) (hnul : 0 ∉ path)
    (hplain : PlainSpelling (backslashed path)) : (∃ p, localPath env path = .ok p) ↔
      (driveAbsolute (backslashed path) = true →
        env.clear (split 92 ((backslashed path).drop 3)) = true) ∧
        env.FullLocal (backslashed path) := by
  have hextended : ¬ extendedLead <+: backslashed path := by
    rintro ⟨t, ht⟩
    exact hplain.2 ⟨63 :: 92 :: t, ht⟩
  have hlead : ¬ extendedLead <+: path := by
    rintro ⟨t, rfl⟩
    exact hextended ⟨backslashed t, rfl⟩
  rw [addon_localPath_normalized hne hnul hplain.1 hlead, normalizedPath,
    if_neg (fun h => hplain.1 (List.isPrefixOf_iff_prefix.1 h)),
    if_neg (fun h => hextended (List.isPrefixOf_iff_prefix.1 h)),
    if_neg (fun h => hplain.2 (List.isPrefixOf_iff_prefix.1 h)), addon_full_iff hfold hcap]

omit hfold hcap in
theorem not_addon_of_lead (h : Addon.ntLead <+: backslashed path ∨
      [92, 92] <+: backslashed path ∧ ¬ extendedLead <+: backslashed path) :
    ¬ ∃ p, localPath env path = .ok p := by
  rintro ⟨p, hok⟩
  rw [localPath] at hok
  split_ifs at hok with hne hnul hnt hlead
  · obtain ⟨t, rfl⟩ := isPrefixOf_iff_prefix.1 hlead
    rcases h with ⟨t', ht⟩ | ⟨-, hno⟩
    · cases ht
    · exact hno ⟨backslashed t, rfl⟩
  · obtain ⟨s, hs, -⟩ := bind_eq_ok_iff.1 hok
    rw [normalizedPath] at hs
    split_ifs at hs with hnt' hext hdrive hshare
    · rcases h with h | ⟨-, hno⟩
      · exact hnt' (List.isPrefixOf_iff_prefix.2 h)
      · exact hno (List.isPrefixOf_iff_prefix.1 hext)
    · rcases h with h | ⟨h, -⟩
      · exact hnt' (List.isPrefixOf_iff_prefix.2 h)
      · exact hshare (List.isPrefixOf_iff_prefix.2 h)

omit hfold hcap in
theorem fullName_drive {letter : UInt8} {more : Bytes} (hslash : 47 ∉ letter :: 58 :: 92 :: more)
    (hletter : isLetter letter = true) :
    env.fullName (letter :: 58 :: 92 :: more) = .under (.drive letter) (.top (.drive letter)) more ∨
      ∃ device, (resolve [] (components more)).getLast?.bind env.dosDevice = some device ∧
        env.fullName (letter :: 58 :: 92 :: more) =
          .under (.device 46) (.top (.device 46)) device := by
  have hback : letter ≠ 92 := by
    rintro rfl
    cases hletter
  have hlow : ¬ 128 ≤ letter := fun h => by
    rw [isLetter_of_high h] at hletter
    cases hletter
  have hcut : cutDrive (letter :: 58 :: 92 :: more) = some (.drive letter, 92 :: more) := by
    have hunit : unitLength letter = some 1 := by
      rw [unitLength, if_pos]
      rw [UInt8.not_le] at hlow
      rw [UInt8.lt_iff_toNat_lt] at hlow ⊢
      have h128 : (128 : UInt8).toNat = 128 := rfl
      have h192 : (192 : UInt8).toNat = 192 := rfl
      omega
    rw [cutDrive, hunit]
    exact dif_neg hlow
  have hlocal : env.fullLocal (letter :: 58 :: 92 :: more) =
      .under (.drive letter) (.top (.drive letter)) more := by
    rw [Env.fullLocal, hcut]
    · rfl
    · intro rest heq
      cases heq
      exact hback rfl
  rw [Env.fullName, backslashed_of_not_mem hslash]
  split
  next heq => cases heq
  next heq => cases heq
  next heq => cases heq
  · rw [hlocal]
    dsimp only
    split
    next device hdevice => exact .inr ⟨device, hdevice, rfl⟩
    · exact .inl rfl

omit hfold hcap in
theorem checked_of_fullLocal (hslash : 47 ∉ rest) (hdrive : driveAbsolute rest = true)
    (hclear : env.clear (split 92 (rest.drop 3)) = true) (h : env.FullLocal rest) :
    env.Checked rest := by
  obtain ⟨letter, more, rfl, hletter⟩ := (driveAbsolute_iff rest).1 hdrive
  refine ⟨hdrive, hclear, ?_⟩
  have hchecked := h.2
  rcases @fullName_drive env letter more hslash hletter with hfull | ⟨device, -, hfull⟩
  · rw [hfull] at hchecked
    exact hchecked.here
  · rw [hfull] at hchecked
    exact absurd hchecked (not_checked_of_head rfl _)

end Accept

/-- The spelling holds a NUL; or its `\\?\` prefix is in backslashes, and on a local drive the
slashes in it change nothing; or the prefix has slashes, and what follows has a full path that
passes; or there is no prefix, and no device name is lost on the way to a full path that passes. -/
def Env.SameReading (env : Env) (path : Bytes) : Prop :=
  0 ∉ path →
    match backslashed path with
    | 92 :: 92 :: 63 :: 92 :: rest =>
      if Addon.extendedLead.isPrefixOf path then
        driveAbsolute rest = true → env.pathDriveType (rest.take 3) ≠ .remote →
          (env.clear (split 92 (rest.drop 3)) = true ↔
            path[6]? = some 92 ∧ env.clear (split 92 (path.drop 7)) = true)
      else env.Checked rest → env.FullLocal rest
    | s => driveAbsolute s = true → env.FullLocal s → env.clear (split 92 (s.drop 3)) = true

theorem driveAbsolute_iff_backslashed {raw : Bytes} : driveAbsolute raw = true ↔
      driveAbsolute (backslashed raw) = true ∧ raw[2]? = some 92 := by
  constructor
  · intro h
    obtain ⟨letter, rest, rfl, hletter⟩ := (driveAbsolute_iff raw).1 h
    have hslash : letter ≠ 47 := by
      rintro rfl
      cases hletter
    rw [backslashed_cons, if_neg hslash]
    exact ⟨hletter, rfl⟩
  · rintro ⟨h, hsep⟩
    obtain ⟨letter, rest, heq, hletter⟩ := (driveAbsolute_iff _).1 h
    obtain ⟨a, b, c, t, rfl⟩ : ∃ a b c t, raw = a :: b :: c :: t := by
      have hlen := congrArg List.length heq
      rw [backslashed, length_map] at hlen
      rcases raw with _ | ⟨a, _ | ⟨b, _ | ⟨c, t⟩⟩⟩
      · cases hlen
      · cases hlen
      · cases hlen
      · exact ⟨a, b, c, t, rfl⟩
    obtain rfl : c = 92 := by simpa using hsep
    rw [backslashed_cons, backslashed_cons] at heq
    simp only [List.cons.injEq] at heq
    obtain ⟨ha, hb, -⟩ := heq
    rw [← ha] at hletter
    rw [eq_of_isLetter_backslash hletter] at hletter
    obtain rfl : b = 58 := by
      split_ifs at hb
      · cases hb
      · exact hb
    exact hletter

theorem checked_extended_iff {env : Env} {raw : Bytes} :
    (env.Checked raw ↔ env.Checked (backslashed raw)) ↔ (driveAbsolute (backslashed raw) = true →
        env.pathDriveType ((backslashed raw).take 3) ≠ .remote →
          (env.clear (split 92 ((backslashed raw).drop 3)) = true ↔
            raw[2]? = some 92 ∧ env.clear (split 92 (raw.drop 3)) = true)) := by
  have hsame := @driveAbsolute_iff_backslashed raw
  have htake : driveAbsolute raw = true → (backslashed raw).take 3 = raw.take 3 := by
    intro h
    obtain ⟨letter, rest, rfl, hletter⟩ := (driveAbsolute_iff raw).1 h
    have hslash : letter ≠ 47 := by
      rintro rfl
      cases hletter
    rw [backslashed_cons, if_neg hslash]
    rfl
  constructor
  · intro h hdrive htype
    refine ⟨fun hclear => ?_, fun ⟨hsep, hclear⟩ => ?_⟩
    · have hraw := h.2 ⟨hdrive, hclear, htype⟩
      exact ⟨(hsame.1 hraw.drive).2, hraw.names⟩
    · have habs := hsame.2 ⟨hdrive, hsep⟩
      rw [htake habs] at htype
      exact (h.1 ⟨habs, hclear, htype⟩).names
  · intro h
    refine ⟨fun hraw => ?_, fun hback => ?_⟩
    · obtain ⟨hdrive, hsep⟩ := hsame.1 hraw.drive
      have htype := hraw.here
      rw [← htake hraw.drive] at htype
      exact ⟨hdrive, (h hdrive htype).2 ⟨hsep, hraw.names⟩, htype⟩
    · obtain ⟨hsep, hclear⟩ := (h hback.drive hback.here).1 hback.names
      have habs := hsame.2 ⟨hback.drive, hsep⟩
      have htype := hback.here
      rw [htake habs] at htype
      exact ⟨habs, hclear, htype⟩

/-- On a system whose full paths have at most 32767 units, the addon accepts exactly what
`localPath` accepts if and only if they read the same in it. -/
theorem addon_localPath_agrees_iff (env : Env)
    (hfold : ∀ name, ∀ device ∈ deviceNames, env.samePathName name device = true →
      name.map Addon.upper = device)
    (hcap : ∀ s, env.fullPathError s = none → Addon.units (env.fullName s).text ≤ 32767)
    (path : Bytes) (hne : path ≠ []) :
    ((∃ p, Addon.localPath env path = .ok p) ↔ env.localPath path = .ok ()) ↔
      env.SameReading path := by
  rw [Env.SameReading]
  by_cases hnul : 0 ∈ path
  · have haddon : ¬ ∃ p, localPath env path = .ok p := by
      rintro ⟨p, h⟩
      rw [localPath, if_neg hne, if_pos hnul] at h
      cases h
    have hgo : env.localPath path ≠ .ok () := by
      rw [Env.localPath, if_neg hne, if_pos hnul]
      exact fun h => by cases h
    exact iff_of_true (iff_of_false haddon hgo) fun h => absurd hnul h
  rw [forall_prop_of_true hnul]
  split
  next rest hpath =>
    rw [localPath_extended_iff hne hnul hpath]
    split_ifs with hlead
    · obtain ⟨raw, rfl⟩ := isPrefixOf_iff_prefix.1 hlead
      obtain rfl : backslashed raw = rest := by
        have hcons : backslashed (extendedLead ++ raw) =
            92 :: 92 :: 63 :: 92 :: backslashed raw := rfl
        rw [hcons] at hpath
        simpa using hpath
      rw [show extendedLead ++ raw = 92 :: 92 :: 63 :: 92 :: raw from rfl] at hnul ⊢
      rw [addon_extended_iff hfold raw hnul, checked_extended_iff]
      rfl
    · have hlead' : ¬ extendedLead <+: path := fun h =>
        hlead (List.isPrefixOf_iff_prefix.2 h)
      rw [addon_slashed_iff hfold hcap hne hnul hlead' hpath]
      have hslash : 47 ∉ rest := fun hmem => by
        refine slash_not_mem_backslashed path ?_
        rw [hpath]
        simp [hmem]
      refine ⟨fun h hchecked => (h.2 hchecked).2.2, fun h => ⟨fun hall => ?_, fun hchecked => ?_⟩⟩
      · exact checked_of_fullLocal hslash hall.1 hall.2.1 hall.2.2
      · exact ⟨hchecked.drive, hchecked.names, h hchecked⟩
  next hno =>
    by_cases hplain : PlainSpelling (backslashed path)
    · rw [addon_plain_iff hfold hcap hne hnul hplain, localPath_eq_ok_iff hne hnul,
        localName_plain_eq hplain]
      exact ⟨fun h hdrive hfull => (h.2 hfull).1 hdrive,
        fun h => ⟨fun hall => hall.2, fun hfull => ⟨fun hdrive => h hdrive hfull, hfull⟩⟩⟩
    · have hlead : ntLead <+: backslashed path ∨
          [92, 92] <+: backslashed path ∧ ¬ extendedLead <+: backslashed path := by
        by_contra hnot
        rw [not_or] at hnot
        refine hplain ⟨hnot.1, fun hshare => hnot.2 ⟨hshare, ?_⟩⟩
        rintro ⟨t, ht⟩
        exact hno t ht.symm
      refine iff_of_true (iff_of_false (not_addon_of_lead hlead) (not_localPath_of_lead hlead)) ?_
      intro hdrive
      obtain ⟨t, ht⟩ | ⟨⟨t, ht⟩, -⟩ := hlead
      · rw [← ht] at hdrive
        cases hdrive
      · rw [← ht] at hdrive
        cases hdrive

def limitedEnv : Env :=
  { sampleEnv with
    fullPathError := fun s =>
      if 32767 < Addon.units (sampleEnv.fullName s).text then some (ascii "too long") else none }

/-- A plain path is read alike. -/
theorem addon_localPath_agrees_iff_plain :
    ((∃ p, Addon.localPath limitedEnv (ascii "C:\\app\\x.exe") = .ok p) ↔
        limitedEnv.localPath (ascii "C:\\app\\x.exe") = .ok ()) ∧
      limitedEnv.localPath (ascii "C:\\app\\x.exe") = .ok () := by
  have hfold : ∀ name, ∀ device ∈ deviceNames, limitedEnv.samePathName name device = true →
      name.map upper = device := by
    have hupper : ∀ device ∈ deviceNames, device.map upper = device := by decide +kernel
    intro name device hmem hsame
    obtain rfl : name = device := by simpa [limitedEnv, sampleEnv] using hsame
    exact hupper name hmem
  have hcap : ∀ s, limitedEnv.fullPathError s = none →
      units (limitedEnv.fullName s).text ≤ 32767 := by
    intro s h
    by_contra hlong
    rw [not_le] at hlong
    have hsome : limitedEnv.fullPathError s = some (ascii "too long") := if_pos hlong
    rw [hsome] at h
    cases h
  refine ⟨(addon_localPath_agrees_iff limitedEnv hfold hcap _ (by decide)).2 ?_, by decide +kernel⟩
  intro _ _ _
  decide +kernel

/-- `localPath` replaces the slash of a `\\?\` path that it says it reads as written. -/
theorem addon_refuses_slashed_drive : limitedEnv.localPath (ascii "\\\\?\\C:/app") = .ok () ∧
      Addon.localPath limitedEnv (ascii "\\\\?\\C:/app") = .error (.notLocal (ascii "\\\\?\\C:/app")
          (ascii "a device or non-drive extended path")) := by
  decide +kernel

end Windows
