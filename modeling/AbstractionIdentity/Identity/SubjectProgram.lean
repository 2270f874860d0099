import AbstractionIdentity.Identity.Proof
import AbstractionIdentity.Text.Clean
import AbstractionIdentity.Windows.LocalPath

/-!
# Subject programs

A caller is named by its package family or the canonical spelling of its image path. A store
checks a name by its form alone, and two names are compared by the files they lead to where both
exist, and as names otherwise. The platform is a parameter (`Host`).
-/

namespace Identity

open Text List

def packagedProgram : Bytes := ascii "msix:"

/-- A platform and the state of its file system. `fileKey` is `none` for a path that is
refused or cannot be read, `packageInstallPath` for a package that is not installed. -/
structure Host where
  isAbs : Bytes → Bool
  clean : Bytes → Bytes
  canonicalProgramPath : Bytes → Bytes
  samePathName : Bytes → Bytes → Bool
  fileKey : Bytes → Option Bytes
  packageInstallPath : Bytes → Option Bytes
  within : Bytes → Bytes → Bool
  ne_nil : ∀ path, isAbs path = true → path ≠ []
  not_packaged : ∀ path, isAbs path = true → ¬ packagedProgram <+: path
  isAbs_clean : ∀ path, isAbs path = true → isAbs (clean path) = true
  clean_clean : ∀ path, isAbs path = true → clean (clean path) = clean path
  isAbs_canonical : ∀ path, isAbs path = true → clean path = path →
    isAbs (canonicalProgramPath path) = true
  clean_canonical : ∀ path, isAbs path = true → clean path = path →
    clean (canonicalProgramPath path) = canonicalProgramPath path

def isLowerOrDigit (b : UInt8) : Bool := (97 ≤ b && b ≤ 122) || (48 ≤ b && b ≤ 57)

def isPackageByte (b : UInt8) : Bool := isLowerOrDigit b || (65 ≤ b && b ≤ 90) || b = 46 || b = 45

/-- The expression `packageFamily`: 3 to 50 bytes of a package name, an underscore, and a
publisher id of 13 bytes. -/
def isPackageFamily (s : Bytes) : Bool :=
  let name := s.take (s.length - 14)
  match s.drop (s.length - 14) with
  | 95 :: publisher =>
    3 ≤ name.length && name.length ≤ 50 && name.all isPackageByte &&
      publisher.length = 13 && publisher.all isLowerOrDigit
  | _ => false

/-- `PackageFamily`; `none` is its `false`. -/
def packageFamily (fullName : Bytes) : Option Bytes :=
  match split 95 fullName with
  | [name, _, _, _, publisher] =>
    if isPackageFamily (name ++ 95 :: publisher) then some (name ++ 95 :: publisher) else none
  | _ => none

example : packageFamily (ascii "Contoso.App_1.2.0.0_x64__8wekyb3d8bbwe") =
    some (ascii "Contoso.App_8wekyb3d8bbwe") := by decide

inductive SubjectError where
  | noPeer
  | proof (e : ProofError)
  | notAbsolute
  deriving DecidableEq

def holdsControl (s : Bytes) : Bool := s.any fun b => b = 0 || b = 13 || b = 10

namespace Host

variable (h : Host)

def packageOf (p : Peer) (path : Bytes) : Option Bytes :=
  match p.package.atLeast .signed with
  | .error _ => none
  | .ok full =>
    match packageFamily full with
    | none => none
    | some family =>
      match h.packageInstallPath full with
      | none => none
      | some root => if h.within path (h.clean root) then some family else none

def subjectProgram (p : Option Peer) (pathProof : Proof) : Except SubjectError Bytes :=
  match p with
  | none => .error .noPeer
  | some p =>
    match p.path.atLeast pathProof with
    | .error e => .error (.proof e)
    | .ok path =>
      if h.isAbs path = false then .error .notAbsolute
      else match h.packageOf p (h.clean path) with
        | some family => .ok (packagedProgram ++ family)
        | none => .ok (h.canonicalProgramPath (h.clean path))

def normalizeSubjectProgram (program : Bytes) : Bytes :=
  if packagedProgram <+: program then program
  else h.canonicalProgramPath (h.clean program)

def validSubjectProgram (program : Bytes) : Bool :=
  if packagedProgram <+: program then isPackageFamily (program.drop packagedProgram.length)
  else program ≠ [] && program.length ≤ 4096 && h.isAbs program && h.clean program = program &&
    !holdsControl program

def comparableSubjectProgram (program : Bytes) : Bool :=
  if packagedProgram <+: program then h.validSubjectProgram program
  else program ≠ [] && program.length ≤ 4096 && h.isAbs program && !holdsControl program

def programKey (program : Bytes) : Bytes :=
  if packagedProgram <+: program then [] else (h.fileKey program).getD []

def sameNormalizedSubjectProgramKeyed (a b keyA keyB : Bytes) : Bool :=
  if !h.validSubjectProgram a || !h.validSubjectProgram b then false
  else if a = b then true
  else if packagedProgram <+: a ∨ packagedProgram <+: b then h.samePathName a b
  else if keyA = [] then h.samePathName a b
  else if keyB = [] then h.samePathName a b
  else keyA = keyB

def sameNormalizedSubjectProgram (a b : Bytes) : Bool :=
  h.sameNormalizedSubjectProgramKeyed a b (h.programKey a) (h.programKey b)

def sameSubjectProgram (a b : Bytes) : Bool :=
  if !h.comparableSubjectProgram a || !h.comparableSubjectProgram b then false
  else h.sameNormalizedSubjectProgram (h.normalizeSubjectProgram a) (h.normalizeSubjectProgram b)

end Host

/-! ## Names that are produced -/

section Valid

variable {h : Host}

/-- The length and the bytes that `validSubjectProgram` asks of a path. -/
def Fits (s : Bytes) : Prop := s.length ≤ 4096 ∧ holdsControl s = false

theorem isPackageFamily_of_packageFamily {full family : Bytes}
    (hfamily : packageFamily full = some family) : isPackageFamily family = true := by
  rw [packageFamily] at hfamily
  split at hfamily
  · split_ifs at hfamily with hmatch
    cases hfamily
    exact hmatch
  · cases hfamily

theorem isPackageFamily_of_packageOf {p : Peer} {path family : Bytes}
    (hfamily : h.packageOf p path = some family) : isPackageFamily family = true := by
  rw [Host.packageOf] at hfamily
  split at hfamily
  · cases hfamily
  · split at hfamily
    · cases hfamily
    next full _ found hfound =>
      split at hfamily
      · cases hfamily
      · split_ifs at hfamily
        cases hfamily
        exact isPackageFamily_of_packageFamily hfound

theorem valid_packaged {family : Bytes} (hfamily : isPackageFamily family = true) :
    h.validSubjectProgram (packagedProgram ++ family) = true := by
  rw [Host.validSubjectProgram, if_pos (prefix_append _ _), drop_left]
  exact hfamily

theorem valid_path_iff {path : Bytes} (habs : h.isAbs path = true) (hclean : h.clean path = path) :
    h.validSubjectProgram path = true ↔ Fits path := by
  rw [Host.validSubjectProgram, if_neg (h.not_packaged path habs), Fits]
  simp [h.ne_nil path habs, habs, hclean]

theorem comparable_path_iff {path : Bytes} (habs : h.isAbs path = true) :
    h.comparableSubjectProgram path = true ↔ Fits path := by
  rw [Host.comparableSubjectProgram, if_neg (h.not_packaged path habs), Fits]
  simp [h.ne_nil path habs, habs]

theorem sameNormalized_self (a : Bytes) :
    h.sameNormalizedSubjectProgram a a = h.validSubjectProgram a := by
  rw [Host.sameNormalizedSubjectProgram, Host.sameNormalizedSubjectProgramKeyed]
  cases h.validSubjectProgram a <;> simp

theorem sameSubjectProgram_self (a : Bytes) : h.sameSubjectProgram a a =
      (h.comparableSubjectProgram a && h.validSubjectProgram (h.normalizeSubjectProgram a)) := by
  rw [Host.sameSubjectProgram, sameNormalized_self]
  cases h.comparableSubjectProgram a <;> simp

/-- The image of the peer is in the folder of its proven package, or its path fits in both its
canonical spelling and the canonical spelling of that. -/
def Host.Nameable (h : Host) (p : Peer) : Prop :=
  (h.packageOf p (h.clean p.path.value)).isSome ∨
    Fits (h.canonicalProgramPath (h.clean p.path.value)) ∧
      Fits (h.canonicalProgramPath (h.canonicalProgramPath (h.clean p.path.value)))

theorem path_of_atLeast {p : Peer} {pathProof : Proof} {path : Bytes}
    (hpath : p.path.atLeast pathProof = .ok path) : p.path.value = path := by
  rw [Attr.atLeast] at hpath
  split_ifs at hpath
  cases hpath
  rfl

/-- A program that is named is valid and the same as itself exactly if it is a package family, or
the canonical image path has at most 4096 bytes and no NUL, CR or LF. -/
theorem subjectProgram_valid_iff (h : Host) (p : Option Peer) (pathProof : Proof)
    (program : Bytes) (hok : h.subjectProgram p pathProof = .ok program) :
    ∃ peer, p = some peer ∧
      (h.validSubjectProgram program = true ∧ h.sameSubjectProgram program program = true ↔
        h.Nameable peer) := by
  cases p with
  | none => cases hok
  | some peer =>
    refine ⟨peer, rfl, ?_⟩
    rw [Host.subjectProgram] at hok
    split at hok
    · cases hok
    next path hpath =>
      have hvalue := path_of_atLeast hpath
      split_ifs at hok with hrel
      have habs : h.isAbs path = true := by simpa using hrel
      rw [Host.Nameable, hvalue]
      rw [sameSubjectProgram_self, Bool.and_eq_true]
      cases hpackage : h.packageOf peer (h.clean path) with
      | some family =>
        rw [hpackage] at hok
        cases hok
        have hvalid := @valid_packaged h _ (isPackageFamily_of_packageOf hpackage)
        have hhead : packagedProgram <+: packagedProgram ++ family := prefix_append _ _
        simp only [Host.comparableSubjectProgram, Host.normalizeSubjectProgram,
          if_pos hhead, hvalid, Option.isSome_some, true_or, and_self]
      | none =>
        rw [hpackage] at hok
        cases hok
        have hcanon := h.isAbs_canonical _ (h.isAbs_clean path habs) (h.clean_clean path habs)
        have hclean := h.clean_canonical _ (h.isAbs_clean path habs) (h.clean_clean path habs)
        have hagain := h.isAbs_canonical _ hcanon hclean
        have hagainClean := h.clean_canonical _ hcanon hclean
        rw [Host.normalizeSubjectProgram, if_neg (h.not_packaged _ hcanon), hclean,
          valid_path_iff hcanon hclean, comparable_path_iff hcanon,
          valid_path_iff hagain hagainClean]
        simp

end Valid

def posixHost (samePathName : Bytes → Bytes → Bool) (fileKey : Bytes → Option Bytes) : Host where
  isAbs path := path.head? = some 47
  clean path := if path.head? = some 47 then clean 47 path else path
  canonicalProgramPath path := path
  samePathName := samePathName
  fileKey := fileKey
  packageInstallPath _ := none
  within _ _ := false
  ne_nil path habs := by
    rintro rfl
    cases habs
  not_packaged path habs := by
    rintro ⟨rest, rfl⟩
    revert habs
    simp [packagedProgram, ascii]
  isAbs_clean path habs := by
    rw [if_pos (of_decide_eq_true habs)]
    rfl
  clean_clean path habs := by
    have hhead : (clean 47 path).head? = some 47 := rfl
    rw [if_pos (of_decide_eq_true habs), if_pos hhead, clean_clean]
  isAbs_canonical path habs hclean := habs
  clean_canonical path habs hclean := hclean

def pathPeer (path : Bytes) : Peer where
  platform := "linux"
  transport := "unix"
  user := unknown (ascii "user") []
  process := unknown (ascii "process") []
  path := attr (ascii "path") path .kernel []
  package := unknown (ascii "package") []
  code := unknown (ascii "code") []

theorem subjectProgram_valid_iff_plain :
    (posixHost (· = ·) fun _ => none).validSubjectProgram (ascii "/usr/bin/a b") = true := by
  have hok : (posixHost (· = ·) fun _ => none).subjectProgram
      (some (pathPeer (ascii "/usr//bin/a b"))) .bound = .ok (ascii "/usr/bin/a b") := by
    decide +kernel
  obtain ⟨peer, hpeer, hiff⟩ := subjectProgram_valid_iff _ _ _ _ hok
  cases hpeer
  refine (hiff.2 (.inr ?_)).1
  refine ⟨⟨?_, ?_⟩, ?_, ?_⟩ <;> decide +kernel

/-- The image path of a running program with a newline in its name. -/
theorem subjectProgram_names_newline :
    (posixHost (· = ·) fun _ => none).subjectProgram (some (pathPeer (ascii "/tmp/a\nb"))) .bound =
        .ok (ascii "/tmp/a\nb") ∧
      (posixHost (· = ·) fun _ => none).validSubjectProgram (ascii "/tmp/a\nb") = false ∧
      (posixHost (· = ·) fun _ => none).sameSubjectProgram (ascii "/tmp/a\nb")
        (ascii "/tmp/a\nb") = false := by
  decide +kernel

/-! ## Names that are compared -/

section Compare

variable {h : Host}

theorem sameNormalized_iff (hname : Equivalence fun a b => h.samePathName a b = true)
    {a b : Bytes} (ha : h.validSubjectProgram a = true) (hb : h.validSubjectProgram b = true) :
    h.sameNormalizedSubjectProgram a b = true ↔
      if h.programKey a ≠ [] ∧ h.programKey b ≠ [] then h.programKey a = h.programKey b
      else h.samePathName a b = true := by
  have hkey : ∀ c, packagedProgram <+: c → h.programKey c = [] := fun c hc => if_pos hc
  rw [Host.sameNormalizedSubjectProgram, Host.sameNormalizedSubjectProgramKeyed, ha, hb]
  by_cases heq : a = b
  · subst heq
    simp [hname.refl a]
  · by_cases hpackaged : packagedProgram <+: a ∨ packagedProgram <+: b
    · have hnot : ¬ (h.programKey a ≠ [] ∧ h.programKey b ≠ []) := by
        rintro ⟨hka, hkb⟩
        rcases hpackaged with hp | hp
        · exact hka (hkey a hp)
        · exact hkb (hkey b hp)
      rw [if_neg hnot]
      simp [heq, hpackaged]
    · by_cases hka : h.programKey a = []
      · simp [heq, hpackaged, hka]
      · by_cases hkb : h.programKey b = []
        · simp [heq, hpackaged, hka, hkb]
        · simp [heq, hpackaged, hka, hkb]

/-- Where a program without a file has the name of one with a file, the programs with that
file are those with that name. -/
def Host.NamesTellFiles (h : Host) : Prop :=
  ∀ a b c, h.validSubjectProgram a = true → h.validSubjectProgram b = true →
    h.validSubjectProgram c = true → h.programKey a ≠ [] → h.programKey b = [] →
    h.programKey c ≠ [] → h.samePathName a b = true →
    (h.programKey c = h.programKey a ↔ h.samePathName c a = true)

variable (hname : Equivalence fun a b => h.samePathName a b = true)

include hname

theorem sameNormalized_symm {a b : Bytes} (ha : h.validSubjectProgram a = true)
    (hb : h.validSubjectProgram b = true) (hab : h.sameNormalizedSubjectProgram a b = true) :
    h.sameNormalizedSubjectProgram b a = true := by
  rw [sameNormalized_iff hname ha hb] at hab
  rw [sameNormalized_iff hname hb ha]
  split_ifs at hab with hkeys
  · rw [if_pos hkeys.symm]
    exact hab.symm
  · rw [if_neg fun hk => hkeys hk.symm]
    exact hname.symm hab

theorem sameNormalized_trans (htell : h.NamesTellFiles) {a b c : Bytes}
    (ha : h.validSubjectProgram a = true) (hb : h.validSubjectProgram b = true)
    (hc : h.validSubjectProgram c = true) (hab : h.sameNormalizedSubjectProgram a b = true)
    (hbc : h.sameNormalizedSubjectProgram b c = true) :
    h.sameNormalizedSubjectProgram a c = true := by
  rw [sameNormalized_iff hname ha hb] at hab
  rw [sameNormalized_iff hname hb hc] at hbc
  rw [sameNormalized_iff hname ha hc]
  by_cases hka : h.programKey a = []
  · by_cases hkb : h.programKey b = []
    · simp only [hka, hkb, ne_eq, not_true_eq_false, false_and, if_false] at hab hbc ⊢
      exact hname.trans hab hbc
    · by_cases hkc : h.programKey c = []
      · simp only [hka, hkc, ne_eq, not_true_eq_false, false_and, and_false, if_false]
          at hab hbc ⊢
        exact hname.trans hab hbc
      · -- the file of `b` and `c` has one name, which is that of `a`
        simp only [hka, hkb, hkc, ne_eq, not_true_eq_false, not_false_eq_true, false_and,
          and_self, if_false, if_true] at hab hbc ⊢
        have hcb := (htell b a c hb ha hc hkb hka hkc (hname.symm hab)).1 hbc.symm
        exact hname.trans hab (hname.symm hcb)
  · by_cases hkb : h.programKey b = []
    · by_cases hkc : h.programKey c = []
      · simp only [hkb, hkc, ne_eq, not_true_eq_false, and_false, if_false] at hab hbc ⊢
        exact hname.trans hab hbc
      · -- `a` and `c` have the name of `b`, and so one file
        simp only [hka, hkb, hkc, ne_eq, not_true_eq_false, not_false_eq_true, false_and,
          and_false, and_self, if_false, if_true] at hab hbc ⊢
        have hca : h.samePathName c a = true := hname.symm (hname.trans hab hbc)
        exact ((htell a b c ha hb hc hka hkb hkc hab).2 hca).symm
    · by_cases hkc : h.programKey c = []
      · simp only [hka, hkb, hkc, ne_eq, not_true_eq_false, not_false_eq_true, and_false,
          and_self, if_false, if_true] at hab hbc ⊢
        have hba := (htell b c a hb hc ha hkb hkc hka hbc).1 hab
        exact hname.trans hba hbc
      · simp only [hka, hkb, hkc, ne_eq, not_false_eq_true, and_self, if_true] at hab hbc ⊢
        exact hab.trans hbc

theorem namesTellFiles_of_trans
    (htrans : ∀ a b c, h.validSubjectProgram a = true → h.validSubjectProgram b = true →
      h.validSubjectProgram c = true → h.sameNormalizedSubjectProgram a b = true →
      h.sameNormalizedSubjectProgram b c = true → h.sameNormalizedSubjectProgram a c = true) :
    h.NamesTellFiles := by
  intro a b c ha hb hc hka hkb hkc hab
  have hkeyed : h.programKey c ≠ [] ∧ h.programKey a ≠ [] := ⟨hkc, hka⟩
  have hbare : ∀ d, ¬ (h.programKey d ≠ [] ∧ h.programKey b ≠ []) := fun d hk => hk.2 hkb
  have hsame : h.sameNormalizedSubjectProgram a b = true := by
    rw [sameNormalized_iff hname ha hb, if_neg (hbare a)]
    exact hab
  refine ⟨fun hkey => ?_, fun hca => ?_⟩
  · have hfile : h.sameNormalizedSubjectProgram c a = true := by
      rw [sameNormalized_iff hname hc ha, if_pos hkeyed]
      exact hkey
    have hcb := htrans c a b hc ha hb hfile hsame
    rw [sameNormalized_iff hname hc hb, if_neg (hbare c)] at hcb
    exact hname.trans hcb (hname.symm hab)
  · have hcb : h.sameNormalizedSubjectProgram c b = true := by
      rw [sameNormalized_iff hname hc hb, if_neg (hbare c)]
      exact hname.trans hca hab
    have hfile := htrans c b a hc hb ha hcb (sameNormalized_symm hname ha hb hsame)
    rw [sameNormalized_iff hname hc ha, if_pos hkeyed] at hfile
    exact hfile

end Compare

/-- The comparison of valid programs is reflexive and symmetric, and transitive exactly if names
tell files apart wherever a program without a file has the name of one with a file; it is where
names are compared byte by byte. -/
theorem sameNormalizedSubjectProgram_equivalence_iff (h : Host)
    (hname : Equivalence fun a b => h.samePathName a b = true) :
    (∀ a, h.validSubjectProgram a = true → h.sameNormalizedSubjectProgram a a = true) ∧
    (∀ a b, h.validSubjectProgram a = true → h.validSubjectProgram b = true →
      h.sameNormalizedSubjectProgram a b = true → h.sameNormalizedSubjectProgram b a = true) ∧
    ((∀ a b c, h.validSubjectProgram a = true → h.validSubjectProgram b = true →
      h.validSubjectProgram c = true → h.sameNormalizedSubjectProgram a b = true →
      h.sameNormalizedSubjectProgram b c = true → h.sameNormalizedSubjectProgram a c = true) ↔
        h.NamesTellFiles) ∧
    ((∀ a b, h.samePathName a b = true → a = b) → ∀ a b c, h.validSubjectProgram a = true →
      h.validSubjectProgram b = true → h.validSubjectProgram c = true →
      h.sameNormalizedSubjectProgram a b = true → h.sameNormalizedSubjectProgram b c = true →
      h.sameNormalizedSubjectProgram a c = true) := by
  refine ⟨fun a ha => ?_, fun a b ha hb hab => sameNormalized_symm hname ha hb hab,
    ⟨fun htrans => namesTellFiles_of_trans hname htrans, fun htell a b c ha hb hc hab hbc => ?_⟩,
    fun hbytes a b c ha hb hc hab hbc => ?_⟩
  · rw [sameNormalized_self]
    exact ha
  · exact sameNormalized_trans hname htell ha hb hc hab hbc
  · refine sameNormalized_trans hname (fun a b _ _ _ _ hka hkb _ hsame => ?_) ha hb hc hab hbc
    rw [hbytes a b hsame] at hka
    exact absurd hkb hka

/-- Where names are compared byte by byte no two of them are one name. -/
theorem sameNormalizedSubjectProgram_equivalence_iff_posix : Equivalence fun a b : {program //
        (posixHost (· = ·) fun _ => some [49]).validSubjectProgram program = true} =>
      (posixHost (· = ·) fun _ => some [49]).sameNormalizedSubjectProgram a b = true := by
  have hname : Equivalence fun a b =>
      (posixHost (· = ·) fun _ => some [49]).samePathName a b = true := by
    refine ⟨fun a => decide_eq_true rfl, fun hab => ?_, fun hab hbc => ?_⟩
    · exact decide_eq_true (of_decide_eq_true hab).symm
    · exact decide_eq_true ((of_decide_eq_true hab).trans (of_decide_eq_true hbc))
  obtain ⟨hrefl, hsymm, -, htrans⟩ := sameNormalizedSubjectProgram_equivalence_iff _ hname
  refine ⟨fun a => hrefl a a.2, @fun a b hab => ?_, @fun a b c hab hbc => ?_⟩
  · exact hsymm a b a.2 b.2 hab
  · exact htrans (fun _ _ h => of_decide_eq_true h) a b c a.2 b.2 c.2 hab hbc

/-! ### Two files whose names differ in case -/

def isDriveAbs : Bytes → Bool
  | letter :: 58 :: b :: _ => Windows.isLetter letter && (b = 92 || b = 47)
  | _ => false

def cleanDrive : Bytes → Bytes
  | letter :: 58 :: rest => letter :: 58 :: rooted 92 (resolve [] (Windows.components rest))
  | path => path

theorem exists_of_isDriveAbs {path : Bytes} (habs : isDriveAbs path = true) :
    ∃ letter b rest, path = letter :: 58 :: b :: rest ∧ Windows.isLetter letter = true := by
  rw [isDriveAbs.eq_def] at habs
  split at habs
  next letter b rest =>
    rw [Bool.and_eq_true] at habs
    exact ⟨letter, b, rest, rfl, habs.1⟩
  · cases habs

theorem cleanDrive_cleanDrive (letter : UInt8) (rest : Bytes) :
    cleanDrive (cleanDrive (letter :: 58 :: rest)) = cleanDrive (letter :: 58 :: rest) := by
  have hnames := @Windows.names_resolve [] (fun part hpart => by cases hpart) rest
  have hslash : (47 : UInt8) ∉ rooted 92 (resolve [] (Windows.components rest)) := by
    intro hmem
    rcases mem_cons.1 hmem with hsep | hmem
    · cases hsep
    · rcases mem_join hmem with hsep | ⟨part, hpart, hb⟩
      · cases hsep
      · exact (hnames part hpart).2 hb
  have hback : Windows.backslashed (rooted 92 (resolve [] (Windows.components rest))) =
      rooted 92 (resolve [] (Windows.components rest)) := by
    rw [Windows.backslashed]
    conv_rhs => rw [← map_id (rooted 92 (resolve [] (Windows.components rest)))]
    refine map_congr_left fun b hb => ?_
    have hne : b ≠ 47 := fun heq => hslash (heq ▸ hb)
    simp [hne]
  have hclean := @clean_rooted 92 _ fun part hpart => (hnames part hpart).1
  rw [clean] at hclean
  have hparts : Windows.components (rooted 92 (resolve [] (Windows.components rest))) =
      split 92 (rooted 92 (resolve [] (Windows.components rest))) := by
    rw [Windows.components, hback]
  rw [cleanDrive, cleanDrive, hparts, hclean]

def driveHost (samePathName : Bytes → Bytes → Bool) (fileKey : Bytes → Option Bytes) : Host where
  isAbs := isDriveAbs
  clean := cleanDrive
  canonicalProgramPath path := path
  samePathName := samePathName
  fileKey := fileKey
  packageInstallPath _ := none
  within _ _ := false
  ne_nil path habs := by
    rintro rfl
    cases habs
  not_packaged path habs := by
    rintro ⟨rest, rfl⟩
    revert habs
    simp [packagedProgram, ascii, isDriveAbs]
  isAbs_clean path habs := by
    obtain ⟨letter, b, rest, rfl, hletter⟩ := exists_of_isDriveAbs habs
    rw [cleanDrive, rooted, isDriveAbs, hletter]
    rfl
  clean_clean path habs := by
    obtain ⟨letter, b, rest, rfl, -⟩ := exists_of_isDriveAbs habs
    exact cleanDrive_cleanDrive letter (b :: rest)
  isAbs_canonical path habs hclean := habs
  clean_canonical path habs hclean := hclean

def upperAscii (b : UInt8) : UInt8 := if 97 ≤ b ∧ b ≤ 122 then b - 32 else b

/-- The folder `C:\x` tells names apart by case and holds `Foo` and `FOO`. -/
def twinHost : Host :=
  driveHost (fun a b => a.map upperAscii = b.map upperAscii) fun path =>
    if path = ascii "C:\\x\\Foo" then some [49]
    else if path = ascii "C:\\x\\FOO" then some [50] else none

/-- `foo`, which does not exist, is the same program as each of the two files, which are not
the same. -/
theorem sameNormalizedSubjectProgram_not_transitive :
    (Equivalence fun a b => twinHost.samePathName a b = true) ∧
      twinHost.sameNormalizedSubjectProgram (ascii "C:\\x\\Foo") (ascii "C:\\x\\foo") = true ∧
      twinHost.sameNormalizedSubjectProgram (ascii "C:\\x\\foo") (ascii "C:\\x\\FOO") = true ∧
      twinHost.sameNormalizedSubjectProgram (ascii "C:\\x\\Foo") (ascii "C:\\x\\FOO") = false := by
  refine ⟨⟨fun a => decide_eq_true rfl, fun hab => ?_, fun hab hbc => ?_⟩, ?_⟩
  · exact decide_eq_true (of_decide_eq_true hab).symm
  · exact decide_eq_true ((of_decide_eq_true hab).trans (of_decide_eq_true hbc))
  · decide +kernel

end Identity
