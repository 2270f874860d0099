import AbstractionIdentity.Text.Deepest
import AbstractionIdentity.Windows.Tree

/-!
# Containment on Windows, in the library and in the addon

`withinRel` and the addon's `within` compare each folder above a resolved path with a folder, by the
same keys. The addon also asks that both are directories; the library says that a path below a file
is within that file. The addon opens the resolved path as written; the library takes its prefix off,
and opens another file where a name of it ends in a dot or a space. Apart from that they agree
(`addon_within_agrees_iff`).
-/

namespace Windows

open Text List

inductive WithinError where
  | refused (err : LocalPathError)
  | sys (err : OpenError)
  | notExist
  deriving DecidableEq

section Library

variable (env : Env) (t : Tree)

def fileKey (p : Place) : Except WithinError (ℕ × ℕ) :=
  match env.localPath p.text with
  | .error err => .error (.refused err)
  | .ok _ =>
    match t.openPath (t.plain p) with
    | .error err => .error (.sys err)
    | .ok q => .ok (t.key q)

def pathExists (p : Place) : Bool := (env.localPath p.text).isOk && (t.find (t.plain p)).isOk

/-- `resolveLinks`: the final path without its prefix, which is checked as well. -/
def resolveLinks (p : Place) : Except WithinError Place :=
  match env.localPath p.text with
  | .error err => .error (.refused err)
  | .ok _ =>
    match t.openPath (t.plain p) with
    | .error err => .error (.sys err)
    | .ok final =>
      match env.localPath final.text with
      | .error err => .error (.refused err)
      | .ok _ => .ok final

/-- The loop of `resolveExisting`: the names of the deepest part that exists, given the last
one first, and those below it. -/
def existingPart (drive : UInt8) :
    List Bytes → List Bytes → Option (List Bytes × List Bytes)
  | [], rest => if pathExists env t ⟨drive, []⟩ then some ([], rest) else none
  | name :: above, rest =>
    if pathExists env t ⟨drive, (name :: above).reverse⟩ then
      some ((name :: above).reverse, rest)
    else existingPart drive above (name :: rest)

/-- `resolveExisting` of the full path. -/
def resolveAbove (p : Place) : Except WithinError Place :=
  let above := p.names.dropLast
  match existingPart env t p.drive above.reverse (p.names.drop above.length) with
  | none => .error .notExist
  | some (existing, rest) =>
    match resolveLinks env t ⟨p.drive, existing⟩ with
    | .error err => .error err
    | .ok real => .ok (real.join rest)

/-- `filepath.Abs` takes the full path from Win32. -/
def resolveExisting (p : Place) : Except WithinError Place := resolveAbove env t (t.plain p)

def hasKey (target : ℕ × ℕ) (p : Place) : Bool :=
  match fileKey env t p with
  | .ok key => key = target
  | .error _ => false

def climb (drive : UInt8) (target : ℕ × ℕ) : List Bytes → Option (List Bytes)
  | [] => if hasKey env t target ⟨drive, []⟩ then some [] else none
  | name :: above =>
    if hasKey env t target ⟨drive, (name :: above).reverse⟩ then some (name :: above).reverse
    else climb drive target above

def withinRel (path folder : Place) : Except WithinError (List Bytes × Bool) :=
  match env.localPath folder.text, env.localPath path.text with
  | .error err, _ => .error (.refused err)
  | .ok _, .error err => .error (.refused err)
  | .ok _, .ok _ =>
    match fileKey env t folder with
    | .error err => .error err
    | .ok target =>
      match resolveExisting env t path with
      | .error err => .error err
      | .ok resolved =>
        match climb env t resolved.drive target resolved.names.dropLast.reverse with
        | some p => .ok (resolved.names.drop p.length, resolved.names.drop p.length ≠ [])
        | none => .ok ([], false)

def within (path folder : Place) : Except WithinError Bool :=
  (withinRel env t path folder).map (·.2)

end Library

namespace Addon

inductive WithinFailure where
  | check (failure : Failure)
  | sys (operation : Bytes) (err : OpenError)
  deriving DecidableEq

structure PathIdentity where
  key : ℕ × ℕ
  directory : Bool
  final : Place

section Addon

variable (env : Env) (t : Tree)

/-- `open_handle`: the final path of what was opened, which is checked with its prefix. -/
def openHandle (spelling : Bytes) (opened : Except OpenError Place) :
    Except WithinFailure Place :=
  match localPath env spelling with
  | .error failure => .error (.check failure)
  | .ok _ =>
    match opened with
    | .error err => .error (.sys (ascii "open") err)
    | .ok final =>
      match localPath env final.extended with
      | .error failure => .error (.check failure)
      | .ok _ => .ok final

/-- `identity_of` the place that the spelling names. -/
def identityOf (spelling : Bytes) (p : Place) : Except WithinFailure PathIdentity :=
  (openHandle env spelling (t.openPath p)).map fun final =>
    ⟨t.key final, t.object final = some .folder, final⟩

def pathExists (p : Place) : Except WithinFailure Bool :=
  match openHandle env p.text (t.find (t.plain p)) with
  | .ok _ => .ok true
  | .error (.sys _ .missing) => .ok false
  | .error failure => .error failure

def existingPart (drive : UInt8) :
    List Bytes → List Bytes → Except WithinFailure (List Bytes × List Bytes)
  | [], rest =>
    match pathExists env t ⟨drive, []⟩ with
    | .error failure => .error failure
    | .ok true => .ok ([], rest)
    | .ok false => .error (.sys (ascii "find an existing parent for") .missing)
  | name :: above, rest =>
    match pathExists env t ⟨drive, (name :: above).reverse⟩ with
    | .error failure => .error failure
    | .ok true => .ok ((name :: above).reverse, rest)
    | .ok false => existingPart drive above (name :: rest)

/-- `resolve_existing`: the resolved path, and whether its existing part is a directory. -/
def resolveExisting (p : Place) : Except WithinFailure (Place × Bool) :=
  match localPath env p.text with
  | .error failure => .error (.check failure)
  | .ok _ =>
    let above := p.names.dropLast
    match existingPart env t p.drive above.reverse (p.names.drop above.length) with
    | .error failure => .error failure
    | .ok (existing, rest) =>
      match identityOf env t (Place.text ⟨p.drive, existing⟩) (t.plain ⟨p.drive, existing⟩) with
      | .error failure => .error failure
      | .ok info => .ok (info.final.join rest, info.directory)

/-- The final path and those above it keep the prefix, so they are opened as written. -/
def isTarget (target : ℕ × ℕ) (p : Place) : Except WithinFailure Bool :=
  match identityOf env t p.extended p with
  | .ok info => .ok (info.directory && info.key = target)
  | .error (.sys _ .missing) => .ok false
  | .error failure => .error failure

def climb (drive : UInt8) (target : ℕ × ℕ) :
    List Bytes → Except WithinFailure (Option (List Bytes))
  | [] => (isTarget env t target ⟨drive, []⟩).map fun found => if found then some [] else none
  | name :: above =>
    match isTarget env t target ⟨drive, (name :: above).reverse⟩ with
    | .error failure => .error failure
    | .ok true => .ok (some (name :: above).reverse)
    | .ok false => climb drive target above

def within (path folder : Place) : Except WithinFailure Bool :=
  match localPath env folder.text, localPath env path.text with
  | .error failure, _ => .error (.check failure)
  | .ok _, .error failure => .error (.check failure)
  | .ok _, .ok _ =>
    match identityOf env t folder.text (t.plain folder) with
    | .error failure => .error failure
    | .ok target =>
      if target.directory then
        -- `local_path` has normalized the path
        match resolveExisting env t (t.plain path) with
        | .error failure => .error failure
        | .ok (resolved, parentIsDirectory) =>
          if parentIsDirectory then
            (climb env t resolved.drive target.key resolved.names.dropLast.reverse).map
              fun
              | some p => resolved.names.drop p.length ≠ []
              | none => false
          else .ok false
      else .ok false

end Addon

end Addon

structure Tree.Reaches (t : Tree) (path : Place) (existing missing : List Bytes) (R : Place) :
    Prop where
  names : path.names.dropLast = existing ++ missing
  found : (t.find ⟨path.drive, existing⟩).isOk = true
  missing_not_found : ∀ m, m ≠ [] → m <+: missing →
    (t.find ⟨path.drive, existing ++ m⟩).isOk = false
  leads : t.openPath ⟨path.drive, existing⟩ = .ok R

/-! ## What the gates let through -/

structure Env.Accepts (env : Env) (p : Place) : Prop where
  clean : ∀ name ∈ p.names, CleanName name
  admits : env.Admits p
  full : env.fullPathError p.text = none

section Gate

variable {env : Env} {t : Tree} {p : Place}

theorem Env.Accepts.above (henv : env.Lawful) (h : env.Accepts p) {names : List Bytes}
    (hpre : names <+: p.names) : env.Accepts ⟨p.drive, names⟩ := by
  obtain ⟨drive, all⟩ := p
  obtain ⟨rest, rfl⟩ := hpre
  have hclear := h.admits.names
  rw [clear_append, Bool.and_eq_true] at hclear
  refine ⟨fun name hname => h.clean name (mem_append_left _ hname),
    ⟨h.admits.letter, hclear.1, h.admits.here⟩, ?_⟩
  have hfull := h.full
  have hclean := h.clean
  have hletter : isLetter drive = true := h.admits.letter
  clear h hclear
  induction rest using List.reverseRecOn with
  | nil => rwa [append_nil] at hfull
  | append_singleton rest name ih =>
    rw [← append_assoc] at hfull hclean
    refine ih (henv.above ⟨drive, names ++ rest⟩ name hletter hclean hfull) fun part hpart => ?_
    exact hclean part (mem_append_left _ hpart)

theorem Env.Accepts.localPath_eq (henv : env.Lawful) (h : env.Accepts p) :
    env.localPath p.text = .ok () :=
  (localPath_text_iff henv h.admits.letter h.clean).2 ⟨h.admits, h.full⟩

theorem Standing.accepts (ht : Standing env t) {x : Object} (h : t.object p = some x) :
    env.Accepts p :=
  ⟨ht.clean p x h, (ht.admits p x h).1, (ht.admits p x h).2⟩

theorem pathExists_eq (henv : env.Lawful) (ht : Standing env t) (h : env.Accepts p) :
    pathExists env t p = (t.find p).isOk := by
  rw [pathExists, h.localPath_eq henv, ht.plain p h.clean]
  rfl

theorem fileKey_eq_ok_iff (henv : env.Lawful) (ht : Standing env t) (h : env.Accepts p)
    {key : ℕ × ℕ} : fileKey env t p = .ok key ↔ ∃ q, t.openPath p = .ok q ∧ key = t.key q := by
  rw [fileKey, h.localPath_eq henv, ht.plain p h.clean]
  cases t.openPath p with
  | error err => exact ⟨fun hno => (by cases hno), fun ⟨_, hno, _⟩ => (by cases hno)⟩
  | ok q =>
    refine ⟨fun hkey => ⟨q, rfl, by cases hkey; rfl⟩, fun ⟨q', hq, hkey⟩ => ?_⟩
    cases hq
    rw [hkey]

end Gate

/-! ## The deepest part that exists -/

section Existing

variable {env : Env} {t : Tree} {drive : UInt8} {above rest existing missing found : List Bytes}

theorem existingPart_eq (above rest : List Bytes) : existingPart env t drive above rest =
      deepest (fun names => pathExists env t ⟨drive, names⟩) above rest := by
  induction above generalizing rest with
  | nil => rfl
  | cons name above ih => rw [existingPart, deepest, ih]

theorem existingPart_of_deepest (hexists : pathExists env t ⟨drive, existing⟩ = true)
    (hmissing : ∀ m, m ≠ [] → m <+: missing → pathExists env t ⟨drive, existing ++ m⟩ = false) :
    existingPart env t drive (existing ++ missing).reverse rest =
      some (existing, missing ++ rest) := by
  rw [existingPart_eq, deepest_append hmissing, deepest_of_holds hexists]

theorem deepest_of_existingPart
    (h : existingPart env t drive above.reverse rest = some (existing, found)) :
    ∃ missing, above = existing ++ missing ∧ found = missing ++ rest ∧
      pathExists env t ⟨drive, existing⟩ = true ∧
      ∀ m, m ≠ [] → m <+: missing → pathExists env t ⟨drive, existing ++ m⟩ = false := by
  rw [existingPart_eq] at h
  exact deepest_eq_some h

end Existing

/-! ## The folders above the resolved path -/

section Climb

variable {env : Env} {t : Tree} {drive : UInt8} {target : ℕ × ℕ} {names : List Bytes}

theorem climb_eq (names rest : List Bytes) : climb env t drive target names =
      (deepest (fun q => hasKey env t target ⟨drive, q⟩) names rest).map Prod.fst := by
  induction names generalizing rest with
  | nil =>
    rw [climb, deepest]
    split_ifs
    · rfl
    · rfl
  | cons name names ih =>
    rw [climb, deepest]
    split_ifs
    · rfl
    · exact ih (name :: rest)

variable {q : List Bytes}

theorem climb_spec (h : climb env t drive target names.reverse = some q) :
    q <+: names ∧ hasKey env t target ⟨drive, q⟩ = true := by
  rw [climb_eq _ [], Option.map_eq_some_iff] at h
  obtain ⟨⟨found, below⟩, hfound, rfl⟩ := h
  obtain ⟨missing, rfl, -, hkey, -⟩ := deepest_eq_some hfound
  exact ⟨prefix_append _ _, hkey⟩

variable {existing missing : List Bytes} {R path : Place}

theorem Tree.Reaches.walk (ht : Standing env t) (h : t.Reaches path existing missing R) :
    (∃ k, t.walk t.links (.root path.drive) existing = .ok (R, k)) ∧
      (t.object R = some .folder ∨ t.object R = some .file) :=
  ht.object_of_openPath h.leads

theorem Tree.Reaches.gone (ht : Standing env t) (h : t.Reaches path existing missing R)
    {first : Bytes} {rest : List Bytes} (hm : first :: rest <+: missing) :
    t.object R ≠ some .folder ∨ t.entry R first = none := by
  obtain ⟨⟨k, hwalk⟩, -⟩ := h.walk ht
  refine gone_of_find hwalk (h.missing_not_found [first] (by simp) ?_)
  exact (show [first] <+: first :: rest from ⟨rest, rfl⟩).trans hm

theorem Tree.Reaches.unique (h : t.Reaches path existing missing R)
    {existing' missing' : List Bytes}
    {R' : Place} (h' : t.Reaches path existing' missing' R') : R = R' := by
  have hsame : existing = existing' := by
    have hpre := prefix_append existing missing
    have hpre' := prefix_append existing' missing'
    rw [← h.names] at hpre
    rw [← h'.names] at hpre'
    rcases prefix_or_prefix_of_prefix hpre hpre' with ⟨m, hm⟩ | ⟨m, hm⟩
    · by_contra hne
      have hgrown : m <+: missing := by
        rw [h.names, ← hm, prefix_append_right_inj] at hpre'
        exact hpre'
      have hno := h.missing_not_found m
        (fun hnil => hne (by rw [← hm, hnil, append_nil])) hgrown
      rw [hm, h'.found] at hno
      cases hno
    · by_contra hne
      have hgrown : m <+: missing' := by
        rw [h'.names, ← hm, prefix_append_right_inj] at hpre
        exact hpre
      have hno := h'.missing_not_found m
        (fun hnil => hne (by rw [← hm, hnil, append_nil])) hgrown
      rw [hm, h.found] at hno
      cases hno
  have hleads := h.leads
  rw [hsame, h'.leads] at hleads
  cases hleads
  rfl

theorem Tree.Reaches.openPath_above (ht : Standing env t) (h : t.Reaches path existing missing R)
    (hq : q <+: R.names ++ missing) :
    (q <+: R.names ∧ t.openPath ⟨R.drive, q⟩ = .ok ⟨R.drive, q⟩ ∧
        (t.object R = some .folder → t.object ⟨R.drive, q⟩ = some .folder)) ∨
      ¬ q <+: R.names ∧ t.openPath ⟨R.drive, q⟩ = .error .missing := by
  obtain ⟨-, hR⟩ := h.walk ht
  obtain ⟨x, hx, hlink⟩ : ∃ x, t.object R = some x ∧ ∀ target, x ≠ .link target := by
    rcases hR with hR | hR
    · exact ⟨_, hR, fun _ => by simp⟩
    · exact ⟨_, hR, fun _ => by simp⟩
  by_cases hup : q <+: R.names
  · refine .inl ⟨hup, ?_⟩
    by_cases hsame : q = R.names
    · subst hsame
      exact ⟨ht.openPath_self hx hlink, fun hfolder => hfolder⟩
    · have hfolder := ht.folder_above hx hup hsame
      exact ⟨ht.openPath_self hfolder (fun _ => by simp), fun _ => hfolder⟩
  · refine .inr ⟨hup, ?_⟩
    rcases prefix_or_prefix_of_prefix hq (prefix_append R.names missing) with hno | hdown
    · exact absurd hno hup
    · obtain ⟨m, rfl⟩ := hdown
      rw [prefix_append_right_inj] at hq
      cases m with
      | nil =>
        rw [append_nil] at hup
        exact absurd (prefix_refl _) hup
      | cons first rest =>
        rw [Tree.openPath]
        have hself := ht.walk_self hx hlink t.links
        rw [missing_below rest hself (h.gone ht hq)]
        rfl

variable (henv : env.Lawful) (ht : Standing env t)
include henv ht

omit henv in
/-- What is above the resolved path is named by clean names that the gates admit. -/
theorem Tree.Reaches.admits_above (h : t.Reaches path existing missing R)
    (hpath : env.Accepts path) (hq : q <+: R.names ++ missing) :
    (∀ name ∈ q, CleanName name) ∧ env.Admits ⟨R.drive, q⟩ := by
  have hR : env.Accepts R := (h.walk ht).2.elim ht.accepts ht.accepts
  have hsub : ∀ name ∈ missing, name ∈ path.names := fun name hname =>
    (List.dropLast_prefix path.names).subset (by rw [h.names]; simp [hname])
  refine ⟨fun name hname => ?_, hR.admits.letter, ?_, hR.admits.here⟩
  · rcases mem_append.1 (hq.subset hname) with hmem | hmem
    · exact hR.clean name hmem
    · exact hpath.clean name (hsub name hmem)
  · have hclearR := hR.admits.names
    have hclear := hpath.admits.names
    rw [Env.clear, Bool.not_eq_true', any_eq_false] at hclearR hclear ⊢
    intro name hname
    rcases mem_append.1 (hq.subset hname) with hmem | hmem
    · exact hclearR name hmem
    · exact hclear name (hsub name hmem)

theorem Tree.Reaches.hasKey_iff (h : t.Reaches path existing missing R)
    (hpath : env.Accepts path) (hq : q <+: R.names ++ missing) :
    hasKey env t target ⟨R.drive, q⟩ = true ↔ q <+: R.names ∧ t.key ⟨R.drive, q⟩ = target := by
  rcases h.openPath_above ht hq with ⟨hup, hopen, -⟩ | ⟨hno, hopen⟩
  · have hobject := (ht.object_of_openPath hopen).2
    have haccepts : env.Accepts ⟨R.drive, q⟩ := hobject.elim ht.accepts ht.accepts
    have hkey := (@fileKey_eq_ok_iff env t _ henv ht haccepts (t.key ⟨R.drive, q⟩)).2
      ⟨_, hopen, rfl⟩
    rw [hasKey, hkey]
    simp [hup]
  · have hfalse : hasKey env t target ⟨R.drive, q⟩ = false := by
      rw [hasKey, fileKey, ht.plain ⟨R.drive, q⟩ (h.admits_above ht hpath hq).1, hopen]
      cases env.localPath (Place.text ⟨R.drive, q⟩) <;> rfl
    rw [hfalse]
    exact ⟨fun hno => (by cases hno), fun hyes => absurd hyes.1 hno⟩

end Climb

section Agree

variable {env : Env} {t : Tree} {path folder : Place}

variable {R : Place} {existing missing : List Bytes}

variable (henv : env.Lawful) (ht : Standing env t) (hpath : env.Accepts path)
  (hfolder : env.Accepts folder)
include henv ht

include hpath

include hfolder

end Agree

end Windows
