import AbstractionIdentity.Text.Path

/-!
# The gate before an open on Windows

`localPath` reads the spelling of a path, its full path and the type of its drive; `openHandle` then
hands the same spelling to `CreateFile`, which converts it on its own (`fullName`). Only a spelling
on the `\\?\` prefix, written with backslashes, is used as it is (`verbatim`).
-/

namespace Windows

open Text

/-- `strings.ReplaceAll` of every slash by a backslash. -/
def backslashed (s : Bytes) : Bytes := s.map fun b => if b = 47 then 92 else b

def components (s : Bytes) : List Bytes := split 92 (backslashed s)

def isLetter (b : UInt8) : Bool := 97 ≤ b ||| 32 && b ||| 32 ≤ 122

def driveAbsolute : Bytes → Bool
  | letter :: 58 :: 92 :: _ => isLetter letter
  | _ => false

/-- The part of a path that `..` cannot cross: a drive, a share, or a prefix of
the device namespace. A character beyond ASCII before a colon is read as a
drive as well, one that `isLetter` never accepts. -/
inductive Root where
  | drive (letter : UInt8)
  | wide (lead : UInt8) (tail : Bytes) (high : 128 ≤ lead)
  | share (server name : Bytes)
  | device (mark : UInt8)
  deriving DecidableEq

def Root.text : Root → Bytes
  | .drive letter => [letter, 58, 92]
  | .wide lead tail _ => lead :: tail ++ [58, 92]
  | .share server name => 92 :: 92 :: server ++ 92 :: name ++ [92]
  | .device mark => [92, 92, mark, 92]

/-- A full path: a root and the names below it, none of which holds a separator
or stands for another folder. `folder` is a trailing separator. -/
structure FullName where
  root : Root
  parts : List Bytes
  folder : Bool
  names : ∀ part ∈ parts, IsName 92 part ∧ 47 ∉ part

def FullName.below (f : FullName) : Bytes :=
  join 92 f.parts ++ if f.folder && f.parts ≠ [] then [92] else []

def FullName.text (f : FullName) : Bytes := f.root.text ++ f.below

theorem slash_not_mem_backslashed (s : Bytes) : 47 ∉ backslashed s := by
  intro h
  obtain ⟨b, _, hb⟩ := List.mem_map.1 h
  split_ifs at hb with hslash
  · cases hb
  · exact hslash hb

theorem names_resolve {base : List Bytes}
    (hbase : ∀ part ∈ base, IsName 92 part ∧ 47 ∉ part) (s : Bytes) :
    ∀ part ∈ resolve base (components s), IsName 92 part ∧ 47 ∉ part := by
  intro part hpart
  rcases mem_resolve hpart with hold | ⟨hmem, hnil, hdot, hdotdot⟩
  · exact hbase part hold
  · refine ⟨⟨hnil, hdot, hdotdot, sep_not_mem_split hmem⟩, fun hslash => ?_⟩
    exact slash_not_mem_backslashed s (mem_of_mem_split hmem hslash)

def FullName.under (root : Root) (base : FullName) (rest : Bytes) : FullName where
  root := root
  parts := resolve base.parts (components rest)
  folder := (backslashed rest).getLast? = some 92
  names := names_resolve base.names rest

def FullName.top (root : Root) : FullName := ⟨root, [], false, by simp⟩

/-- `filepath.Clean` of a full path: the volume stays, the components are
resolved once more and a trailing separator goes. -/
def FullName.clean (f : FullName) : FullName where
  root := f.root
  parts := resolve [] f.parts
  folder := false
  names part hpart := by
    rcases mem_resolve hpart with hold | ⟨hmem, _⟩
    · cases hold
    · exact f.names part hmem

inductive DriveType where
  | unknown
  | noRootDir
  | removable
  | fixed
  | remote
  | cdrom
  | ramdisk
  deriving DecidableEq

/-- The system the process runs on: its current folder and the one it keeps for
each drive, the drive types, the file system's comparison of names, and the
names Win32 reads as a device in any folder. -/
structure Env where
  cwd : FullName
  driveDir : UInt8 → FullName
  fullPathError : Bytes → Option Bytes
  dosDevice : Bytes → Option Bytes
  getDriveType : Bytes → DriveType
  networkDrives : UInt32
  samePathName : Bytes → Bytes → Bool

/-- The bytes of the UTF-8 encoding of one UTF-16 unit, by its lead byte; none
where the character takes two units. -/
def unitLength (lead : UInt8) : Option ℕ :=
  if lead < 192 then some 1 else if lead < 224 then some 2
  else if lead < 240 then some 3 else none

def cutDrive (s : Bytes) : Option (Root × Bytes) :=
  match s with
  | [] => none
  | lead :: tail =>
    match unitLength lead with
    | none => none
    | some n =>
      match tail.drop (n - 1) with
      | 58 :: rest =>
        if high : 128 ≤ lead then some (.wide lead (tail.take (n - 1)) high, rest)
        else some (.drive lead, rest)
      | _ => none

/-- The full path of a spelling that is on no prefix of its own: on a drive, or
relative to the current folder or to its root. -/
def Env.fullLocal (env : Env) (s : Bytes) : FullName :=
  match s with
  | 92 :: rest => .under env.cwd.root (.top env.cwd.root) rest
  | s =>
    match cutDrive s with
    | some (root, 92 :: rest) => .under root (.top root) rest
    | some (.drive letter, rest) => .under (.drive letter) (env.driveDir letter) rest
    | some (root, rest) => .under root (.top root) rest
    | none => .under env.cwd.root env.cwd s

/-- `GetFullPathName`: what Windows makes of every spelling that it does not use
as it is. It also takes trailing dots and spaces from each name, which is left out: no test on the
result asks how a name ends, and a device name is found before them. -/
def Env.fullName (env : Env) (path : Bytes) : FullName :=
  match backslashed path with
  | 92 :: 92 :: 63 :: 92 :: rest => .under (.device 63) (.top (.device 63)) rest
  | 92 :: 92 :: 46 :: 92 :: rest => .under (.device 46) (.top (.device 46)) rest
  | 92 :: 92 :: rest =>
    match split 92 rest with
    | server :: name :: more =>
      .under (.share server name) (.top (.share server name)) (join 92 more)
    | _ => .top (.share rest [])
  | s =>
    let f := env.fullLocal s
    match f.parts.getLast?.bind env.dosDevice with
    | some device => .under (.device 46) (.top (.device 46)) device
    | none => f

def Env.abs (env : Env) (path : Bytes) : Except Bytes Bytes :=
  match env.fullPathError path with
  | some err => .error err
  | none => .ok (env.fullName path).clean.text

/-- `GetDriveType` of a drive root, or remote for a letter marked as such. -/
def Env.pathDriveType (env : Env) (root : Bytes) : DriveType :=
  let letter := root.headD 0 ||| 32
  if 97 ≤ letter ∧ letter ≤ 122 ∧
      env.networkDrives &&& ((1 : UInt32) <<< (letter - 97).toUInt32) ≠ 0 then .remote
  else env.getDriveType root

def deviceNames : List Bytes :=
  ["CON", "PRN", "AUX", "NUL", "CONIN$", "CONOUT$"].map ascii ++
    [ascii "COM", ascii "LPT"].flatMap fun port =>
      ((["0", "1", "2", "3", "4", "5", "6", "7", "8", "9"].map ascii) ++
        [[194, 185], [194, 178], [194, 179]]).map (port ++ ·)

/-- The component names a DOS device, whatever extension, stream or trailing
spaces follow the name. -/
def Env.reservedDeviceName (env : Env) (part : Bytes) : Bool :=
  let name := ((part.takeWhile fun b => b ≠ 46 && b ≠ 58).reverse.dropWhile
    (· == 32)).reverse
  if name.length < 3 || 7 < name.length || !(ascii "CcPpAaNnLl").contains (name.headD 0)
  then false
  else deviceNames.any (env.samePathName name)

inductive LocalPathError where
  | empty
  | notLocal (path reason : Bytes)
  deriving DecidableEq

/-- What `localPath` takes the path to be: the rest of a `\\?\` spelling, or
the full path of any other. -/
def Env.localName (env : Env) (path : Bytes) : Except LocalPathError Bytes :=
  let refuse (reason : Bytes) := Except.error (LocalPathError.notLocal path reason)
  match backslashed path with
  | 92 :: 63 :: 63 :: 92 :: _ => refuse (ascii "an NT object path")
  | 92 :: 92 :: 63 :: 92 :: rest =>
    if driveAbsolute rest then .ok rest
    else refuse (ascii "a \\\\?\\ path naming no drive letter")
  | 92 :: 92 :: _ => refuse (ascii "a UNC or \\\\.\\ device path")
  | s =>
    match env.abs s with
    | .error err => refuse (ascii "it has no full path: " ++ err)
    | .ok abs =>
      if [92, 92] <+: backslashed abs then
        refuse (ascii "its full path is a UNC or \\\\.\\ device path")
      else .ok (backslashed abs)

def Env.checkDrive (env : Env) (path s : Bytes) : Except LocalPathError Unit :=
  let refuse (reason : Bytes) := Except.error (LocalPathError.notLocal path reason)
  if driveAbsolute s then
    match (split 92 (s.drop 3)).find? env.reservedDeviceName with
    | some part => refuse (ascii "it names the device " ++ part)
    | none =>
      if env.pathDriveType (s.take 3) = .remote then refuse (ascii "a network drive")
      else .ok ()
  else refuse (ascii "it names no drive letter")

def Env.localPath (env : Env) (path : Bytes) : Except LocalPathError Unit :=
  if path = [] then .error .empty
  else if 0 ∈ path then .error (.notLocal path (ascii "it holds a NUL"))
  else (env.localName path).bind (env.checkDrive path)

/-- What an open addresses: a path on a drive letter, a share, or another object
of the device namespace. -/
inductive Target where
  | drive (letter : UInt8)
  | share
  | device (name : Bytes)
  deriving DecidableEq

def deviceTarget (name : Bytes) : Target :=
  if driveAbsolute name then .drive (name.headD 0) else .device name

def verbatim (path : Bytes) : Bool :=
  [92, 92, 63, 92].isPrefixOf path || [92, 63, 63, 92].isPrefixOf path

/-- What `CreateFile` of the spelling addresses. -/
def Env.openTarget (env : Env) (path : Bytes) : Target :=
  if verbatim path then deviceTarget (path.drop 4)
  else
    let f := env.fullName path
    match f.root with
    | .drive letter => .drive letter
    | .wide _ _ _ => .device f.text
    | .share _ _ => .share
    | .device _ => deviceTarget f.below

/-- `openHandle`: the target of the open it goes on to make. -/
def Env.openHandle (env : Env) (path : Bytes) : Except LocalPathError Target :=
  (env.localPath path).map fun _ => env.openTarget path

def Env.IsLocal (env : Env) (t : Target) : Prop :=
  ∃ letter, t = .drive letter ∧ isLetter letter = true ∧
    env.getDriveType [letter, 58, 92] ≠ .remote

end Windows
