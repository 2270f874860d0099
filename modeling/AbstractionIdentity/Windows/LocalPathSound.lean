import AbstractionIdentity.Windows.LocalPath

/-!
# What the gate lets through

A spelling on no `\\?\` prefix is checked through the full path the open uses. A `\\?\` spelling is
checked as if it were used as written, which is so only when the prefix is written with
backslashes. `KeepsDrive` is exactly what is missing.
-/

namespace Windows

open Text List FullName

theorem backslashed_cons (b : UInt8) (s : Bytes) :
    backslashed (b :: s) = (if b = 47 then 92 else b) :: backslashed s := rfl

theorem backslashed_append (s t : Bytes) :
    backslashed (s ++ t) = backslashed s ++ backslashed t := map_append

variable {env : Env} {path rest s : Bytes}

theorem backslashed_of_not_mem (h : 47 ∉ s) : backslashed s = s := by
  induction s with
  | nil => rfl
  | cons b s ih =>
    obtain ⟨hb, hs⟩ : 47 ≠ b ∧ 47 ∉ s := by simpa using h
    rw [backslashed_cons, if_neg (Ne.symm hb), ih hs]

theorem backslashed_idem (s : Bytes) : backslashed (backslashed s) = backslashed s :=
  backslashed_of_not_mem (slash_not_mem_backslashed s)

theorem driveAbsolute_iff (s : Bytes) : driveAbsolute s = true ↔
      ∃ letter rest, s = letter :: 58 :: 92 :: rest ∧ isLetter letter = true := by
  constructor
  · intro h
    rw [driveAbsolute.eq_def] at h
    split at h
    · exact ⟨_, _, rfl, h⟩
    · cases h
  · rintro ⟨letter, rest, rfl, h⟩
    exact h

theorem isLetter_of_high {b : UInt8} (h : 128 ≤ b) : isLetter b = false := by
  have hor : b.toNat ≤ (b ||| 32).toNat := by
    rw [UInt8.toNat_or]
    exact Nat.left_le_or
  have hhigh : 128 ≤ b.toNat := h
  have hnot : ¬ b ||| 32 ≤ 122 := by
    intro hle
    have hle' : (b ||| 32).toNat ≤ 122 := hle
    omega
  simp [isLetter, hnot]

theorem eq_of_isLetter_backslash {b : UInt8}
    (h : isLetter (if b = 47 then 92 else b) = true) : (if b = 47 then 92 else b) = b := by
  split_ifs at h ⊢ with hb
  · exact absurd h (by decide)
  · rfl

theorem getDriveType_ne_remote {root : Bytes}
    (h : env.pathDriveType root ≠ .remote) : env.getDriveType root ≠ .remote := by
  rw [Env.pathDriveType] at h
  split_ifs at h with hmarked
  · exact absurd rfl h
  · exact h

theorem checkDrive_ok (h : env.checkDrive path s = .ok ()) :
    ∃ letter rest, s = letter :: 58 :: 92 :: rest ∧ isLetter letter = true ∧
      env.getDriveType [letter, 58, 92] ≠ .remote := by
  by_cases habs : driveAbsolute s = true
  · rw [Env.checkDrive, if_pos habs] at h
    obtain ⟨letter, rest, rfl, hletter⟩ := (driveAbsolute_iff s).1 habs
    split at h
    · cases h
    · by_cases hremote : env.pathDriveType [letter, 58, 92] = .remote
      · rw [if_pos (by exact hremote)] at h
        cases h
      · exact ⟨letter, rest, rfl, hletter, getDriveType_ne_remote hremote⟩
  · rw [Env.checkDrive, if_neg habs] at h
    cases h

theorem localPath_ok (h : env.localPath path = .ok ()) :
    ∃ letter rest, env.localName path = .ok (letter :: 58 :: 92 :: rest) ∧
      isLetter letter = true ∧ env.getDriveType [letter, 58, 92] ≠ .remote := by
  rw [Env.localPath] at h
  split_ifs at h
  cases hname : env.localName path with
  | error err =>
    rw [hname] at h
    cases h
  | ok s =>
    rw [hname] at h
    obtain ⟨letter, rest, rfl, hletter, htype⟩ := checkDrive_ok h
    exact ⟨letter, rest, rfl, hletter, htype⟩

theorem localName_prefixed (hpath : backslashed path = 92 :: 92 :: 63 :: 92 :: rest)
    (h : env.localName path = .ok s) : s = rest := by
  simp only [Env.localName, hpath] at h
  split_ifs at h
  cases h
  rfl

theorem backslashed_of_verbatim (h : verbatim path = true) :
    (∃ rest, path = 92 :: 92 :: 63 :: 92 :: rest) ∨
      ∃ rest, path = 92 :: 63 :: 63 :: 92 :: rest := by
  rw [verbatim, Bool.or_eq_true, isPrefixOf_iff_prefix, isPrefixOf_iff_prefix] at h
  rcases h with ⟨rest, rfl⟩ | ⟨rest, rfl⟩
  · exact .inl ⟨rest, rfl⟩
  · exact .inr ⟨rest, rfl⟩

theorem fullName_backslashed (env : Env) (path : Bytes) :
    env.fullName (backslashed path) = env.fullName path := by
  rw [Env.fullName, backslashed_idem, ← Env.fullName]

theorem localName_plain (hpath : ∀ rest, backslashed path ≠ 92 :: 92 :: 63 :: 92 :: rest)
    (h : env.localName path = .ok s) :
    s = backslashed (env.fullName path).clean.text ∧ ¬ [92, 92] <+: s ∧ verbatim path = false := by
  rw [Env.localName] at h
  split at h
  · cases h
  · next rest heq => exact absurd heq (hpath rest)
  · cases h
  · next hobject _ _ =>
      have hplain : verbatim path = false := by
        by_contra hv
        rcases backslashed_of_verbatim (by simpa using hv) with ⟨rest, rfl⟩ | ⟨rest, rfl⟩
        · exact hpath (backslashed rest) rfl
        · exact hobject (backslashed rest) rfl
      rw [Env.abs] at h
      split at h
      · cases h
      · next abs habs =>
          split at habs
          · cases habs
          · cases habs
            rw [fullName_backslashed] at h
            split_ifs at h with hshare
            cases h
            exact ⟨rfl, hshare, hplain⟩

/-- There is no `\\?\` prefix; or it is in backslashes, and so is the separator after the drive; or
it has a slash, and the rest stays below a local drive once its dot components are resolved. -/
def Env.KeepsDrive (env : Env) (path : Bytes) : Prop :=
  match backslashed path with
  | 92 :: 92 :: 63 :: 92 :: rest =>
    if verbatim path then path[6]? = some 92
    else ∃ letter more, resolve [] (components rest) = [letter, 58] :: more ∧
      (more ≠ [] ∨ rest.getLast? = some 92) ∧ isLetter letter = true ∧
      env.getDriveType [letter, 58, 92] ≠ .remote
  | _ => True

theorem isLocal_plain (hpath : ∀ rest, backslashed path ≠ 92 :: 92 :: 63 :: 92 :: rest)
    (h : env.localPath path = .ok ()) : env.IsLocal (env.openTarget path) := by
  obtain ⟨letter, rest, hname, hletter, htype⟩ := localPath_ok h
  obtain ⟨hs, hshare, hplain⟩ := localName_plain hpath hname
  rw [hs] at hshare
  rw [text, backslashed_append] at hs hshare
  rw [Env.openTarget, if_neg (by simp [hplain])]
  cases hroot : (env.fullName path).root with
  | drive l =>
    simp only [FullName.clean, hroot, Root.text, backslashed_cons, cons_append,
      List.cons.injEq] at hs
    have hl : letter = l := by
      rw [hs.1]
      exact eq_of_isLetter_backslash (hs.1 ▸ hletter)
    exact ⟨letter, by simp only [hroot, hl], hletter, htype⟩
  | wide lead tail high =>
    -- the name would begin with a byte beyond ASCII, which is no letter
    simp only [FullName.clean, hroot, Root.text, backslashed_cons, cons_append,
      List.cons.injEq] at hs
    have hlead : letter = lead := by
      rw [hs.1]
      exact eq_of_isLetter_backslash (hs.1 ▸ hletter)
    rw [hlead, isLetter_of_high high] at hletter
    cases hletter
  | share server name =>
    refine absurd ?_ hshare
    simp [FullName.clean, hroot, Root.text, backslashed_cons]
  | device mark =>
    refine absurd ?_ hshare
    simp [FullName.clean, hroot, Root.text, backslashed_cons]

theorem isLocal_deviceTarget_iff (env : Env) (name : Bytes) : env.IsLocal (deviceTarget name) ↔
      ∃ letter rest, name = letter :: 58 :: 92 :: rest ∧ isLetter letter = true ∧
        env.getDriveType [letter, 58, 92] ≠ .remote := by
  constructor
  · rintro ⟨letter, htarget, hletter, htype⟩
    rw [deviceTarget] at htarget
    split_ifs at htarget with habs
    obtain ⟨l, rest, rfl, _⟩ := (driveAbsolute_iff name).1 habs
    obtain rfl : l = letter := by simpa using htarget
    exact ⟨l, rest, rfl, hletter, htype⟩
  · rintro ⟨letter, rest, rfl, hletter, htype⟩
    refine ⟨letter, ?_, hletter, htype⟩
    rw [deviceTarget, if_pos ((driveAbsolute_iff _).2 ⟨letter, rest, rfl, hletter⟩)]
    rfl

theorem append_eq_drive_iff {part tail : Bytes} {letter : UInt8} (hpart : IsName 92 part)
    (htail : tail = [] ∨ ∃ t, tail = 92 :: t) :
    (∃ rest, part ++ tail = letter :: 58 :: 92 :: rest) ↔ part = [letter, 58] ∧ tail ≠ [] := by
  constructor
  · rintro ⟨rest, h⟩
    match part, hpart with
    | [], hpart => exact absurd rfl hpart.ne_nil
    | [a], _ =>
      rcases htail with rfl | ⟨t, rfl⟩
      · simp at h
      · simp at h
    | [a, b], _ =>
      simp only [cons_append, nil_append, List.cons.injEq] at h
      obtain ⟨rfl, rfl, rfl⟩ := h
      exact ⟨rfl, by simp⟩
    | a :: b :: c :: part, hpart =>
      simp only [cons_append, List.cons.injEq] at h
      obtain ⟨_, _, rfl, _⟩ := h
      exact absurd (by simp) hpart.no_sep
  · rintro ⟨rfl, hne⟩
    rcases htail with rfl | ⟨t, rfl⟩
    · exact absurd rfl hne
    · exact ⟨t, rfl⟩

theorem below_eq_drive_iff (f : FullName) (letter : UInt8) :
    (∃ rest, f.below = letter :: 58 :: 92 :: rest) ↔
      ∃ more, f.parts = [letter, 58] :: more ∧ (more ≠ [] ∨ f.folder = true) := by
  match hparts : f.parts with
  | [] => simp [below, hparts, join]
  | [part] =>
    have hpart : IsName 92 part := (f.names part (by simp [hparts])).1
    have hbelow : f.below = part ++ if f.folder then [92] else [] := by
      simp [below, hparts, join]
    rw [hbelow, append_eq_drive_iff hpart (by cases f.folder <;> simp)]
    cases f.folder <;> simp
  | part :: part' :: parts =>
    have hpart : IsName 92 part := (f.names part (by simp [hparts])).1
    have hbelow : f.below = part ++ (92 :: join 92 (part' :: parts) ++
        if f.folder then [92] else []) := by
      simp [below, hparts, join_cons_cons]
    rw [hbelow, append_eq_drive_iff hpart (by simp)]
    simp

theorem openTarget_normalized (hpath : backslashed path = 92 :: 92 :: 63 :: 92 :: rest)
    (hv : verbatim path = false) :
    env.openTarget path = deviceTarget
      (under (.device 63) (.top (.device 63)) rest).below := by
  simp only [Env.openTarget, hv, Env.fullName, hpath]
  rfl

theorem isLocal_normalized_iff (hpath : backslashed path = 92 :: 92 :: 63 :: 92 :: rest)
    (hv : verbatim path = false) :
    env.IsLocal (env.openTarget path) ↔ env.KeepsDrive path := by
  have hrest : backslashed rest = rest := by
    refine backslashed_of_not_mem fun hmem => slash_not_mem_backslashed path ?_
    simp [hpath, hmem]
  rw [openTarget_normalized hpath hv, isLocal_deviceTarget_iff]
  simp only [Env.KeepsDrive, hpath, hv]
  constructor
  · rintro ⟨letter, below, hbelow, hletter, htype⟩
    obtain ⟨more, hparts, hmore⟩ := (below_eq_drive_iff _ letter).1 ⟨below, hbelow⟩
    refine ⟨letter, more, hparts, ?_, hletter, htype⟩
    simpa [under, hrest] using hmore
  · rintro ⟨letter, more, hparts, hmore, hletter, htype⟩
    obtain ⟨below, hbelow⟩ := (below_eq_drive_iff
      (under (.device 63) (.top (.device 63)) rest) letter).2
      ⟨more, hparts, by simpa [under, hrest] using hmore⟩
    exact ⟨letter, below, hbelow, hletter, htype⟩

theorem isLocal_verbatim_iff
    (hpath : path = 92 :: 92 :: 63 :: 92 :: s) (h : env.localPath path = .ok ()) :
    env.IsLocal (env.openTarget path) ↔ env.KeepsDrive path := by
  subst hpath
  obtain ⟨letter, rest, hname, hletter, htype⟩ := localPath_ok h
  have hs : letter :: 58 :: 92 :: rest = backslashed s := localName_prefixed rfl hname
  have htarget : env.openTarget (92 :: 92 :: 63 :: 92 :: s) = deviceTarget s := rfl
  have hkeeps : env.KeepsDrive (92 :: 92 :: 63 :: 92 :: s) ↔ s[2]? = some 92 := by
    rw [Env.KeepsDrive]
    rfl
  rw [htarget, hkeeps, isLocal_deviceTarget_iff]
  match s with
  | [] => simp [backslashed] at hs
  | [_] => simp [backslashed] at hs
  | [_, _] => simp [backslashed] at hs
  | a :: b :: c :: s =>
    simp only [backslashed_cons, List.cons.injEq] at hs
    have ha : letter = a := hs.1.trans (eq_of_isLetter_backslash (hs.1 ▸ hletter))
    have hb : b = 58 := by
      have h58 := hs.2.1
      split_ifs at h58
      · cases h58
      · exact h58.symm
    constructor
    · rintro ⟨l, rest', heq, _⟩
      simp only [List.cons.injEq] at heq
      simp [heq.2.2.1]
    · intro hc
      obtain rfl : c = 92 := by simpa using hc
      exact ⟨letter, s, by rw [ha, hb], hletter, htype⟩

/-- An accepted path is opened on a local drive exactly when it keeps its drive
from the check to the open. -/
theorem openHandle_local_iff (env : Env) (path : Bytes) (t : Target)
    (h : env.openHandle path = .ok t) : env.IsLocal t ↔ env.KeepsDrive path := by
  obtain ⟨hlocal, rfl⟩ : env.localPath path = .ok () ∧ env.openTarget path = t := by
    rw [Env.openHandle] at h
    cases hl : env.localPath path with
    | error err =>
      rw [hl] at h
      cases h
    | ok u =>
      rw [hl] at h
      exact ⟨rfl, Except.ok.inj h⟩
  by_cases hprefixed : ∃ rest, backslashed path = 92 :: 92 :: 63 :: 92 :: rest
  · obtain ⟨rest, hpath⟩ := hprefixed
    cases hv : verbatim path with
    | false => exact isLocal_normalized_iff hpath hv
    | true =>
      rcases backslashed_of_verbatim hv with ⟨s, hs⟩ | ⟨s, rfl⟩
      · exact isLocal_verbatim_iff hs hlocal
      · cases hpath
  · push Not at hprefixed
    have hkeeps : env.KeepsDrive path := by
      rw [Env.KeepsDrive]
      split
      · next rest heq => exact absurd heq (hprefixed rest)
      · trivial
    exact iff_of_true (isLocal_plain hprefixed hlocal) hkeeps

def sampleEnv : Env where
  cwd := .top (.drive 67)
  driveDir letter := .top (.drive letter)
  fullPathError _ := none
  dosDevice _ := none
  getDriveType root := if root = [67, 58, 92] then .fixed else .noRootDir
  networkDrives := 0
  samePathName := (· == ·)

theorem openHandle_local_sample : sampleEnv.openHandle (ascii "C:\\app\\x.exe") = .ok (.drive 67) ∧
      (sampleEnv.IsLocal (.drive 67) ↔ sampleEnv.KeepsDrive (ascii "C:\\app\\x.exe")) :=
  ⟨by decide, openHandle_local_iff sampleEnv _ _ (by decide)⟩

/-- The prefix written with slashes passes as the drive path it seems to be, and
the open climbs over the drive to a share. -/
theorem openHandle_reaches_share : sampleEnv.openHandle (ascii "//?/C:/../UNC/192.0.2.1/share/f") =
        .ok (.device (ascii "UNC\\192.0.2.1\\share\\f")) ∧
      ¬ sampleEnv.IsLocal (.device (ascii "UNC\\192.0.2.1\\share\\f")) :=
  ⟨by decide, by rintro ⟨letter, h, _⟩; cases h⟩

end Windows
