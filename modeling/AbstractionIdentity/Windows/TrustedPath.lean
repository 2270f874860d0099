import Mathlib.Data.BitVec
import Mathlib.Data.List.Basic
import Mathlib.Tactic.SplitIfs

/-!
# Files only trusted principals can change

`check` walks from a file to the root of its volume and refuses an entry of a DACL that gives an
untrusted principal one bit of a hand-picked mask. The other side is the access evaluation of
Windows, `grantedAccess`. They meet in `mapGeneric_and_eq_zero`: a mask clear of the picked bits
stays clear of the rights they stand for.
-/

namespace Windows

open List

abbrev AccessMask := BitVec 32

def delete : AccessMask := 0x10000
def readControl : AccessMask := 0x20000
def writeDac : AccessMask := 0x40000
def writeOwner : AccessMask := 0x80000
def genericAll : AccessMask := 0x10000000
def genericExecute : AccessMask := 0x20000000
def genericWrite : AccessMask := 0x40000000
def genericRead : AccessMask := 0x80000000

def fileChange : AccessMask :=
  0x2 ||| 0x4 ||| 0x10 ||| 0x100 ||| delete ||| writeDac ||| writeOwner |||
    genericAll ||| genericWrite

def folderChange : AccessMask := 0x40 ||| delete ||| writeDac ||| writeOwner ||| genericAll

def executableFolderChange : AccessMask := folderChange ||| 0x2 ||| 0x4 ||| genericWrite

/-- The `AceType` of an entry; the numbers of `ACCESS_ALLOWED_ACE_TYPE` and
`ACCESS_DENIED_ACE_TYPE` are 0 and 1. -/
inductive AceType where
  | allowed
  | denied
  | other (type : UInt8)
  deriving DecidableEq

structure Ace (Sid : Type*) where
  inheritOnly : Bool
  type : AceType
  mask : AccessMask
  sid : Sid
  deriving DecidableEq

/-- A security descriptor as its getters read it: the owner may be missing, the
DACL may be missing, and `GetAce` may fail on an entry. -/
structure Descriptor (Sid Err : Type*) where
  owner : Except Err (Option Sid)
  dacl : Except Err (Option (List (Except Err (Ace Sid))))

structure FileObject (Sid Err : Type*) where
  attributes : Except Err (BitVec 32)
  security : Except Err (Descriptor Sid Err)

inductive Refusal (Sid Err : Type*) where
  | failed (err : Err)
  | reparsePoint
  | notFolder
  | isFolder
  | ownedBy (owner : Option Sid)
  | noDacl
  | entryType (type : UInt8)
  | mayChange (sid : Sid) (access : AccessMask)
  deriving DecidableEq

/-- `refused i` names the object `chain[i]`; `notLocal` is the answer for a path
that is not absolute or begins with two backslashes. -/
inductive CheckErr (Sid Err : Type*) where
  | owners (err : Err)
  | notLocal
  | refused (i : ℕ) (why : Refusal Sid Err)
  deriving DecidableEq

structure Owners where
  sids : List String
  account : Bool
  deriving DecidableEq

section Check

variable {Sid Err Name : Type*} [DecidableEq Sid]

/-- `Owners.sids`: `stringToSid` parses one principal, `tokenUser` is the account
of the calling process. -/
def Owners.parse (stringToSid : String → Except Err Sid) (tokenUser : Except Err Sid)
    (o : Owners) : Except Err (List Sid) := do
  let out ← o.sids.mapM stringToSid
  if o.account then
    let user ← tokenUser
    return out ++ [user]
  else return out

def among (sid : Sid) (trusted : List Sid) : Bool := trusted.any (sid = ·)

def kind (o : FileObject Sid Err) (folder : Bool) : Except (Refusal Sid Err) Unit :=
  match o.attributes with
  | .error err => .error (.failed err)
  | .ok attributes =>
    if attributes &&& 0x400 ≠ 0 then .error .reparsePoint
    else if folder ≠ (attributes &&& 0x10 ≠ 0 : Bool) then
      if folder then .error .notFolder else .error .isFolder
    else .ok ()

def checkEntries (mask : AccessMask) (trusted : List Sid) :
    List (Except Err (Ace Sid)) → Except (Refusal Sid Err) Unit
  | [] => .ok ()
  | .error err :: _ => .error (.failed err)
  | .ok ace :: rest =>
    if ace.inheritOnly then checkEntries mask trusted rest
    else match ace.type with
      | .denied => checkEntries mask trusted rest
      | .other type => .error (.entryType type)
      | .allowed =>
        if ace.mask &&& mask ≠ 0 ∧ among ace.sid trusted = false then
          .error (.mayChange ace.sid (ace.mask &&& mask))
        else checkEntries mask trusted rest

def checkDescriptor (sd : Descriptor Sid Err) (mask : AccessMask)
    (trusted : List Sid) : Except (Refusal Sid Err) Unit :=
  match sd.owner with
  | .error err => .error (.failed err)
  | .ok none => .error (.ownedBy none)
  | .ok (some owner) =>
    if among owner trusted = false then .error (.ownedBy (some owner))
    else match sd.dacl with
      | .error err => .error (.failed err)
      | .ok none => .error .noDacl
      | .ok (some aces) => checkEntries mask trusted aces

def access (o : FileObject Sid Err) (mask : AccessMask) (trusted : List Sid) :
    Except (Refusal Sid Err) Unit :=
  match o.security with
  | .error err => .error (.failed err)
  | .ok sd => checkDescriptor sd mask trusted

/-- `filepath.Dir` of a clean path, as the names below the volume root: the root
is its own folder. -/
def dir (path : List Name) : List Name := path.dropLast

/-- The loop that appends the folders from `folder` on, until one is its own
folder. The count bounds the number of further rounds. -/
def folders : ℕ → List Name → List (List Name)
  | 0, folder => [folder]
  | rounds + 1, folder =>
    folder :: if folder.isEmpty then [] else folders rounds (dir folder)

def chain (path : List Name) : List (List Name) := path :: folders path.length (dir path)

def maskAt (executable : Bool) (i : ℕ) : AccessMask :=
  if i = 1 ∧ executable = true then executableFolderChange
  else if i > 0 then folderChange
  else fileChange

def checkKinds (volume : List Name → FileObject Sid Err) :
    List (List Name × ℕ) → Except (CheckErr Sid Err) Unit
  | [] => .ok ()
  | (path, i) :: rest =>
    match kind (volume path) (i > 0) with
    | .error why => .error (.refused i why)
    | .ok () => checkKinds volume rest

def checkAccess (volume : List Name → FileObject Sid Err) (executable : Bool)
    (trusted : List Sid) : List (List Name × ℕ) → Except (CheckErr Sid Err) Unit
  | [] => .ok ()
  | (path, i) :: rest =>
    match access (volume path) (maskAt executable i) trusted with
    | .error why => .error (.refused i why)
    | .ok () => checkAccess volume executable trusted rest

/-- `check`. The path is `none` when it is not absolute or names a share, and
otherwise the names below the root of its volume. -/
def check (stringToSid : String → Except Err Sid) (tokenUser : Except Err Sid)
    (volume : List Name → FileObject Sid Err) (path : Option (List Name))
    (owners : Owners) (executable : Bool) : Except (CheckErr Sid Err) Unit :=
  match owners.parse stringToSid tokenUser with
  | .error err => .error (.owners err)
  | .ok trusted =>
    match path with
    | none => .error .notLocal
    | some path =>
      match checkKinds volume (chain path).zipIdx.reverse with
      | .error err => .error err
      | .ok () => checkAccess volume executable trusted (chain path).zipIdx

end Check

/-! ### The access evaluation of Windows -/

def fileGeneric : List (AccessMask × AccessMask) :=
  [(genericRead, 0x120089), (genericWrite, 0x120116), (genericExecute, 0x1200A0),
    (genericAll, 0x1F01FF)]

def mapGeneric (mask : AccessMask) : AccessMask :=
  fileGeneric.foldl (fun rights g => rights ||| if mask &&& g.1 ≠ 0 then g.2 else 0)
    (mask &&& 0x0FFFFFFF)

section Evaluation

variable {Sid Err : Type*}

/-- The entries in order: an entry that applies to the token decides the rights
of its mask that no earlier entry has decided. An entry of another type, or one
that cannot be read, is taken at its widest. -/
def evaluate (token : Sid → Bool) :
    List (Except Err (Ace Sid)) → AccessMask → AccessMask → AccessMask
  | [], granted, _ => granted
  | .error _ :: _, _, _ => BitVec.allOnes 32
  | .ok ace :: rest, granted, denied =>
    if ace.inheritOnly then evaluate token rest granted denied
    else match ace.type with
      | .other _ => BitVec.allOnes 32
      | .allowed =>
        if token ace.sid then
          evaluate token rest (granted ||| mapGeneric ace.mask &&& ~~~denied) denied
        else evaluate token rest granted denied
      | .denied =>
        if token ace.sid then
          evaluate token rest granted (denied ||| mapGeneric ace.mask &&& ~~~granted)
        else evaluate token rest granted denied

/-- What a token with the SIDs `token` and no overriding privilege is granted on an
object; without a DACL that is everything. -/
def grantedAccess (token : Sid → Bool) (sd : Descriptor Sid Err) : AccessMask :=
  let implicit := match sd.owner with
    | .ok (some owner) => if token owner then readControl ||| writeDac else 0
    | _ => 0
  match sd.dacl with
  | .ok (some aces) => evaluate token aces implicit 0
  | _ => BitVec.allOnes 32

end Evaluation

/-- The rights that change the object `chain[i]`, the file, a folder, or the folder of an
executable. -/
def changes (executable : Bool) (i : ℕ) : List AccessMask :=
  if i = 0 then [0x2, 0x4, 0x100, delete, writeDac, writeOwner]
  else [delete, 0x40, writeDac, writeOwner] ++
    if i = 1 ∧ executable = true then [0x2, 0x4] else []

/-! ### Masks -/

theorem zero_and (right : AccessMask) : 0 &&& right = 0 := BitVec.zero_and

variable {mask right : AccessMask}

theorem and_eq_zero_of_subset {picked : AccessMask}
    (hmask : mask &&& picked = 0) (hright : right &&& picked = right) :
    mask &&& right = 0 := by
  rw [← hright, BitVec.and_comm right, ← BitVec.and_assoc, hmask, zero_and]

theorem or_and_eq_zero {a b : AccessMask} (ha : a &&& right = 0)
    (hb : b &&& right = 0) : (a ||| b) &&& right = 0 := by
  rw [BitVec.and_or_distrib_right, ha, hb, BitVec.or_self]

theorem foldl_generic_and_eq_zero {generics : List (AccessMask × AccessMask)}
    (h : ∀ g ∈ generics, mask &&& g.1 = 0 ∨ g.2 &&& right = 0) {rights : AccessMask}
    (hrights : rights &&& right = 0) :
    generics.foldl (fun rights g => rights ||| if mask &&& g.1 ≠ 0 then g.2 else 0)
      rights &&& right = 0 := by
  induction generics generalizing rights with
  | nil => exact hrights
  | cons g generics ih =>
    refine ih (fun g' hg' => h g' (.tail _ hg')) (or_and_eq_zero hrights ?_)
    rcases h g (.head _) with hg | hg
    · rw [if_neg (not_not.2 hg), zero_and]
    · split_ifs
      · exact hg
      · rw [zero_and]

/-- A right is covered by the picked bits: it is one of them, and so is every
generic right it is part of. -/
def Covers (picked right : AccessMask) : Prop :=
  right &&& picked = right ∧
    ∀ g ∈ fileGeneric, g.1 &&& picked = g.1 ∨ g.2 &&& right = 0

theorem mapGeneric_and_eq_zero {picked : AccessMask}
    (hmask : mask &&& picked = 0) (hcovers : Covers picked right) :
    mapGeneric mask &&& right = 0 := by
  obtain ⟨hright, hgenerics⟩ := hcovers
  refine foldl_generic_and_eq_zero (fun g hg => ?_) ?_
  · rcases hgenerics g hg with hpicked | hapart
    · exact .inl (and_eq_zero_of_subset hmask hpicked)
    · exact .inr hapart
  · rw [BitVec.and_assoc, BitVec.and_comm 0x0FFFFFFF, ← BitVec.and_assoc,
      and_eq_zero_of_subset hmask hright, zero_and]

theorem covers_fileChange (hright : right ∈ [0x2, 0x4, 0x100, delete, writeDac, writeOwner]) :
    Covers fileChange right := by
  simp only [mem_cons, not_mem_nil, or_false] at hright
  rcases hright with rfl | rfl | rfl | rfl | rfl | rfl <;>
    simp [Covers, fileGeneric, fileChange, delete, writeDac, writeOwner, genericAll,
      genericExecute, genericWrite, genericRead]

theorem covers_folderChange (hright : right ∈ [delete, 0x40, writeDac, writeOwner]) :
    Covers folderChange right := by
  simp only [mem_cons, not_mem_nil, or_false] at hright
  rcases hright with rfl | rfl | rfl | rfl <;>
    simp [Covers, fileGeneric, folderChange, delete, writeDac, writeOwner, genericAll,
      genericExecute, genericWrite, genericRead]

theorem covers_executableFolderChange
    (hright : right ∈ [delete, 0x40, writeDac, writeOwner, 0x2, 0x4]) :
    Covers executableFolderChange right := by
  simp only [mem_cons, not_mem_nil, or_false] at hright
  rcases hright with rfl | rfl | rfl | rfl | rfl | rfl <;>
    simp [Covers, fileGeneric, executableFolderChange, folderChange, delete, writeDac,
      writeOwner, genericAll, genericExecute, genericWrite, genericRead]

theorem covers_maskAt (executable : Bool) (i : ℕ)
    (hright : right ∈ changes executable i) : Covers (maskAt executable i) right := by
  by_cases hfile : i = 0
  · subst hfile
    exact covers_fileChange (by simpa [changes] using hright)
  · by_cases hadd : i = 1 ∧ executable = true
    · rw [maskAt, if_pos hadd]
      rw [changes, if_neg hfile, if_pos hadd] at hright
      exact covers_executableFolderChange hright
    · rw [maskAt, if_neg hadd, if_pos (Nat.pos_of_ne_zero hfile)]
      rw [changes, if_neg hfile, if_neg hadd, append_nil] at hright
      exact covers_folderChange hright

/-- Entries that pass the scan give an untrusted token none of the rights the scan's
mask covers, whatever order they stand in. -/
theorem evaluate_and_eq_zero {Sid Err : Type*} [DecidableEq Sid]
    {trusted : List Sid} {token : Sid → Bool}
    (htoken : ∀ sid, token sid = true → among sid trusted = false)
    (hcovers : Covers mask right) {aces : List (Except Err (Ace Sid))}
    (hok : checkEntries mask trusted aces = .ok ()) {granted denied : AccessMask}
    (hgranted : granted &&& right = 0) :
    evaluate token aces granted denied &&& right = 0 := by
  -- along the entries, what is granted so far stays clear of `right`
  induction aces generalizing granted denied with
  | nil => exact hgranted
  | cons entry rest ih =>
    cases entry with
    | error err => cases hok
    | ok ace =>
      rw [checkEntries] at hok
      rw [evaluate]
      by_cases hinherit : ace.inheritOnly = true
      · rw [if_pos hinherit] at hok ⊢
        exact ih hok hgranted
      · rw [if_neg hinherit] at hok ⊢
        cases htype : ace.type with
        | other type =>
          rw [htype] at hok
          cases hok
        | denied =>
          rw [htype] at hok
          dsimp only at hok ⊢
          split_ifs
          · exact ih hok hgranted
          · exact ih hok hgranted
        | allowed =>
          rw [htype] at hok
          dsimp only at hok ⊢
          split_ifs at hok with hrefused
          split_ifs with hheld
          · -- the entry applies, so its principal is not trusted and its mask is clear
            have hmask : ace.mask &&& mask = 0 := by
              by_contra hne
              exact hrefused ⟨hne, htoken _ hheld⟩
            refine ih hok (or_and_eq_zero hgranted ?_)
            rw [BitVec.and_assoc, BitVec.and_comm (~~~denied), ← BitVec.and_assoc,
              mapGeneric_and_eq_zero hmask hcovers, zero_and]
          · exact ih hok hgranted

section Accepted

variable {Sid Err Name : Type*} [DecidableEq Sid] {trusted : List Sid}
  {volume : List Name → FileObject Sid Err} {executable : Bool}

theorem grantedAccess_and_eq_zero {token : Sid → Bool}
    (htoken : ∀ sid, token sid = true → among sid trusted = false)
    {mask right : AccessMask} (hcovers : Covers mask right) {sd : Descriptor Sid Err}
    (hok : checkDescriptor sd mask trusted = .ok ()) :
    grantedAccess token sd &&& right = 0 := by
  rw [checkDescriptor.eq_def] at hok
  split at hok
  · cases hok
  · cases hok
  · next owner howner =>
      split_ifs at hok with hamong
      have hnot : token owner = false := by
        by_contra hheld
        exact hamong (htoken owner (by simpa using hheld))
      split at hok
      · cases hok
      · cases hok
      · next aces hdacl =>
          simp only [grantedAccess, howner, hdacl, hnot, Bool.false_eq_true, if_false]
          exact evaluate_and_eq_zero htoken hcovers hok (zero_and _)

theorem checkDescriptor_of_access {o : FileObject Sid Err} {mask : AccessMask}
    (hok : access o mask trusted = .ok ()) :
    ∃ sd, o.security = .ok sd ∧ checkDescriptor sd mask trusted = .ok () := by
  rw [access.eq_def] at hok
  split at hok
  · cases hok
  · next sd hsd => exact ⟨sd, hsd, hok⟩

theorem access_of_checkAccess {objects : List (List Name × ℕ)}
    (hok : checkAccess volume executable trusted objects = .ok ()) {path : List Name}
    {i : ℕ} (hmem : (path, i) ∈ objects) :
    access (volume path) (maskAt executable i) trusted = .ok () := by
  induction objects with
  | nil => cases hmem
  | cons object rest ih =>
    obtain ⟨path', i'⟩ := object
    rw [checkAccess] at hok
    split at hok
    · cases hok
    · next haccess =>
        rcases mem_cons.1 hmem with heq | hmem
        · cases heq
          exact haccess
        · exact ih hok hmem

omit [DecidableEq Sid] in
theorem kind_of_checkKinds {objects : List (List Name × ℕ)}
    (hok : checkKinds volume objects = .ok ()) {path : List Name} {i : ℕ}
    (hmem : (path, i) ∈ objects) : kind (volume path) (i > 0) = .ok () := by
  induction objects with
  | nil => cases hmem
  | cons object rest ih =>
    obtain ⟨path', i'⟩ := object
    rw [checkKinds] at hok
    split at hok
    · cases hok
    · next hkind =>
        rcases mem_cons.1 hmem with heq | hmem
        · cases heq
          exact hkind
        · exact ih hok hmem

theorem getElem?_folders (rounds : ℕ) (folder : List Name) (i : ℕ)
    (hrounds : folder.length ≤ rounds) (hi : i ≤ folder.length) :
    (folders rounds folder)[i]? = some (folder.take (folder.length - i)) := by
  induction rounds generalizing folder i with
  | zero =>
    obtain rfl : folder = [] := length_eq_zero_iff.1 (by omega)
    obtain rfl : i = 0 := by simpa using hi
    rfl
  | succ rounds ih =>
    rw [folders]
    cases i with
    | zero => simp
    | succ i =>
      have hne : folder.isEmpty = false := by
        cases folder with
        | nil => simp at hi
        | cons => rfl
      have hlen : (dir folder).length = folder.length - 1 := length_dropLast
      have htake : (dir folder).take ((dir folder).length - i) =
          folder.take (folder.length - (i + 1)) := by
        rw [hlen, dir, dropLast_eq_take, take_take]
        congr 1
        omega
      rw [hne, List.getElem?_cons_succ, if_neg (by decide),
        ih (dir folder) i (by omega) (by omega), htake]

theorem getElem?_chain (path : List Name) (i : ℕ) (hi : i ≤ path.length) :
    (chain path)[i]? = some (path.take (path.length - i)) := by
  cases i with
  | zero => simp [chain]
  | succ i =>
    have hlen : (dir path).length = path.length - 1 := length_dropLast
    rw [chain, List.getElem?_cons_succ, getElem?_folders _ _ _ (by omega) (by omega), hlen, dir,
      dropLast_eq_take, take_take]
    congr 2
    omega

/-- If `check` accepts a path, a token without a trusted SID is granted no right that changes the
file, a folder above it, or the contents of an executable's folder; none of these is a reparse
point. -/
theorem check_sound {stringToSid : String → Except Err Sid} {tokenUser : Except Err Sid}
    {owners : Owners} (hparse : owners.parse stringToSid tokenUser = .ok trusted) {path : List Name}
    (hok : check stringToSid tokenUser volume (some path) owners executable = .ok ())
    {token : Sid → Bool} (htoken : ∀ sid, token sid = true → among sid trusted = false)
    (i : ℕ) (hi : i ≤ path.length) :
    kind (volume (path.take (path.length - i))) (i > 0) = .ok () ∧
      ∃ sd, (volume (path.take (path.length - i))).security = .ok sd ∧
        ∀ right ∈ changes executable i, grantedAccess token sd &&& right = 0 := by
  have hmem : (path.take (path.length - i), i) ∈ (chain path).zipIdx :=
    mem_zipIdx_iff_getElem?.2 (getElem?_chain path i hi)
  rw [check, hparse] at hok
  dsimp only at hok
  split at hok
  · cases hok
  · next hkinds =>
      refine ⟨kind_of_checkKinds hkinds (mem_reverse.2 hmem), ?_⟩
      obtain ⟨sd, hsd, hdescriptor⟩ := checkDescriptor_of_access (access_of_checkAccess hok hmem)
      exact ⟨sd, hsd, fun right hright =>
        grantedAccess_and_eq_zero htoken (covers_maskAt executable i hright) hdescriptor⟩

/-- A volume whose objects SYSTEM (18) owns: it may do everything, everyone (0)
may read and add files, and what everyone may do below is decided there. -/
def sharedVolume (path : List String) : FileObject ℕ Unit where
  attributes := .ok (if path.length = 2 then 0x20 else 0x10)
  security := .ok
    { owner := .ok (some 18)
      dacl := .ok (some
        [.ok ⟨false, .denied, delete, 0⟩, .ok ⟨false, .allowed, genericAll, 18⟩,
          .ok ⟨false, .allowed, if path.length = 2 then genericRead else 0x6, 0⟩,
          .ok ⟨true, .allowed, genericAll, 0⟩]) }

theorem check_sound_sharedVolume :
    check (fun _ => .ok 18) (.error ()) sharedVolume (some ["data", "file"])
        ⟨["S-1-5-18"], false⟩ false = .ok () ∧
      ∃ sd, (sharedVolume ["data"]).security = .ok sd ∧
        grantedAccess (· = 0) sd &&& (0x40 : AccessMask) = 0 := by
  have hparse : Owners.parse (fun _ => .ok 18) (.error ()) ⟨["S-1-5-18"], false⟩ = .ok [18] := rfl
  have hok : check (fun _ => .ok 18) (.error ()) sharedVolume (some ["data", "file"])
      ⟨["S-1-5-18"], false⟩ false = .ok () := by
    simp [check, hparse, checkKinds, checkAccess, chain, folders, dir, kind, access,
      checkDescriptor, checkEntries, among, maskAt, sharedVolume, fileChange, folderChange,
      delete, writeDac, writeOwner, genericAll, genericWrite, genericRead]
  have htoken : ∀ sid : ℕ, decide (sid = 0) = true → among sid [18] = false := by
    simp [among]
  obtain ⟨-, sd, hsd, hrights⟩ := check_sound hparse hok htoken 1 (by decide)
  exact ⟨hok, sd, hsd, hrights _ (by simp [changes])⟩

end Accepted

end Windows
