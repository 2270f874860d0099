import AbstractionIdentity.Unix.LocalPath

/-!
# File identity on Linux and macOS

`sameFile` compares the keys of files. `withinRel` resolves the folders above a path through links
and compares each folder above the result with a folder. In a file system that is static and local
(`StaticLocal`) a folder has one path, and `climb` finds it exactly if it is above.
-/

namespace Unix

open Text List

/-- The caller: the working directory as `os.Getwd` spells it, the folder it is, and how many
links `filepath.EvalSymlinks` follows. -/
structure Caller where
  wd : Except Bytes Bytes
  cwd : Path
  evalLinks : ℕ

inductive PathError where
  | empty
  | getwd (text : Bytes)
  | notLocal (err : LocalPathError)
  | notExist
  | sys (errno : Errno)
  deriving DecidableEq

/-- `os.Lstat` of the clean path of the names. -/
def FileSystem.lstat (fs : FileSystem) (links : ℕ) (names : Path) : Except Errno Node :=
  match names.getLast? with
  | none => fs.node []
  | some name =>
    match walk fs links [] names.dropLast with
    | .error errno => .error errno
    | .ok (p, _) =>
      match fs.node p with
      | .ok .folder => fs.node (p ++ [name])
      | _ => .error .notDirectory

section Identity

variable {V : Type} (v : Volumes V) (c : Caller)

def sameFile (a b : Bytes) : Except PathError Bool :=
  match localPath v c.wd a, localPath v c.wd b with
  | some err, _ => .error (.notLocal err)
  | none, some err => .error (.notLocal err)
  | none, none =>
    match fileKey v c.cwd a, fileKey v c.cwd b with
    | .error errno, _ => .error (.sys errno)
    | .ok _, .error errno => .error (.sys errno)
    | .ok ka, .ok kb => .ok (ka = kb)

def pathExists (names : Path) : Bool := (v.fs.lstat v.links names).isOk

/-- The loop of `resolveExisting`: the names of the deepest part that exists, given the last
one first, and those below it. -/
def existingPart : List Bytes → Path → Option (Path × Path)
  | [], rest => if pathExists v [] then some ([], rest) else none
  | name :: above, rest =>
    if pathExists v (name :: above).reverse then some ((name :: above).reverse, rest)
    else existingPart above (name :: rest)

def resolveExisting (path : Bytes) (self : Bool) : Except PathError Path :=
  if path = [] then .error .empty
  else match absPath c.wd path with
    | .error text => .error (.getwd text)
    | .ok abs =>
      let names := resolve [] (split 47 (clean 47 abs))
      let above := if self then names else names.dropLast
      match existingPart v above.reverse (names.drop above.length) with
      | none => .error .notExist
      | some (existing, rest) =>
        match walk v.fs c.evalLinks [] existing with
        | .error errno => .error (.sys errno)
        | .ok (real, _) => .ok (real ++ rest)

def hasKey (target : ℕ × ℕ) (names : Path) : Bool :=
  match fileKey v c.cwd (rooted 47 names) with
  | .ok key => key = target
  | .error _ => false

/-- The loop of `WithinRel` over the folders above, given with the last name first. -/
def climb (target : ℕ × ℕ) : List Bytes → Option Path
  | [] => if hasKey v c target [] then some [] else none
  | name :: above =>
    if hasKey v c target (name :: above).reverse then some (name :: above).reverse
    else climb target above

def withinRel (path folder : Bytes) : Except PathError (Path × Bool) :=
  match localPath v c.wd folder, localPath v c.wd path with
  | some err, _ => .error (.notLocal err)
  | none, some err => .error (.notLocal err)
  | none, none =>
    match fileKey v c.cwd folder with
    | .error errno => .error (.sys errno)
    | .ok target =>
      match resolveExisting v c path false with
      | .error err => .error err
      | .ok resolved =>
        match climb v c target resolved.dropLast.reverse with
        | some p => .ok (resolved.drop p.length, resolved.drop p.length ≠ [])
        | none => .ok ([], false)

def within (path folder : Bytes) : Except PathError Bool := (withinRel v c path folder).map (·.2)

end Identity

/-- A static file system that is local as a whole. A folder has one path, and names are
names. -/
structure StaticLocal {V : Type} (v : Volumes V) : Prop where
  answer : ∀ p, v.answer (v.volume p) = none
  unmarked : v.networkVolumes = []
  probe : v.probe = .answered
  names : ∀ p x, v.fs.node p = .ok x → ∀ name ∈ p, IsName 47 name
  key : ∀ p q x, v.fs.node p = .ok .folder → v.fs.node q = .ok x → v.key p = v.key q → p = q

section Folder

variable {fs : FileSystem}

theorem folder_of_above {p q : Path} {x : Node} (h : fs.node p = .ok x) (hq : q <+: p)
    (hne : q ≠ p) : fs.node q = .ok .folder := by
  obtain ⟨t, rfl⟩ := hq
  induction t using List.reverseRecOn generalizing x with
  | nil => exact absurd (append_nil q).symm hne
  | append_singleton t name ih =>
    rw [← append_assoc] at h
    have hparent := fs.parent_folder _ _ _ h
    by_cases ht : t = []
    · rwa [ht, append_nil] at hparent
    · exact ih hparent (by simpa using ht)

variable {V : Type} {v : Volumes V}

section

variable (hv : StaticLocal v)

include hv

theorem StaticLocal.proper_of_mem {p : Path} {x : Node}
    (h : v.fs.node p = .ok x) {name : Bytes} (hname : name ∈ p) : proper name = true :=
  proper_of_isName (hv.names p x h name hname)

theorem StaticLocal.walk_of_folder {p : Path}
    (h : v.fs.node p = .ok .folder) (n : ℕ) : walk v.fs n [] p = .ok (p, n) := by
  have hfilter : p.filter proper = p := filter_eq_self.2 fun _ => hv.proper_of_mem h
  have hup : [46, 46] ∉ p := fun hmem => (hv.names p _ h _ hmem).ne_dotdot rfl
  have hwalk := @walk_folders v.fs p [] hup (fun q hq => by
    rw [hfilter] at hq
    rw [nil_append]
    by_cases heq : q = p
    · rw [heq]
      exact h
    · exact folder_of_above h hq heq) n
  rwa [hfilter, nil_append] at hwalk

theorem StaticLocal.resolve_rooted {p : Path} (h : v.fs.node p = .ok .folder) (cwd : Path) :
    v.fs.resolve v.links cwd (rooted 47 p) = .ok p := by
  have hne : rooted 47 p ≠ [] := cons_ne_nil _ _
  have hbase : linkBase (rooted 47 p) cwd = [] := rfl
  rw [FileSystem.resolve, if_neg hne, hbase, walk_split_rooted (hv.names p _ h),
    hv.walk_of_folder h]
  rfl

theorem StaticLocal.localPath_of_walk {path : Bytes} (habs : isAbs path)
    {wd : Except Bytes Bytes} {r : Path × ℕ}
    (hwalk : walk v.fs v.links [] (resolve [] (split 47 path)) = .ok r) :
    localPath v wd path = none := by
  have hne : path ≠ [] := by
    rintro rfl
    cases habs
  have hfull : fullPath [] path = path := if_pos habs
  have hwd : localPath v wd path = localPath v (.ok []) path := by
    rw [localPath, localPath, absPath, absPath, if_pos habs, if_pos habs]
  rw [hwd]
  refine Unix.localPath_of_walk hne hv.unmarked hv.probe ?_ (hv.answer r.1)
  rw [hfull]
  exact hwalk

theorem StaticLocal.localPath_rooted {p : Path}
    (h : v.fs.node p = .ok .folder) (wd : Except Bytes Bytes) :
    localPath v wd (rooted 47 p) = none := by
  refine hv.localPath_of_walk rfl (r := (p, v.links)) ?_
  obtain ⟨rest, hsplit, hrest⟩ := split_rooted (hv.names p _ h)
  have hskip : resolve [] ([] :: rest) = resolve [] rest := rfl
  rw [hsplit, hskip, hrest]
  exact hv.walk_of_folder h _

theorem StaticLocal.hasKey_iff {c : Caller} {p q : Path}
    (hp : v.fs.node p = .ok .folder) (hq : v.fs.node q = .ok .folder) :
    hasKey v c (v.key p) q = true ↔ q = p := by
  rw [hasKey, fileKey, hv.resolve_rooted hq]
  simp only [Except.map, decide_eq_true_iff]
  exact ⟨fun h => hv.key q p _ hq hp h, fun h => by rw [h]⟩

theorem StaticLocal.climb_iff {c : Caller} {p q : Path}
    (hp : v.fs.node p = .ok .folder) (hq : v.fs.node q = .ok .folder) :
    climb v c (v.key p) q.reverse = if p <+: q then some p else none := by
  induction q using List.reverseRecOn with
  | nil =>
    have hkey := @StaticLocal.hasKey_iff _ v hv c p [] hp hq
    rw [reverse_nil, climb]
    by_cases h : p = []
    · rw [if_pos (hkey.2 h.symm), if_pos (by rw [h]), h]
    · rw [if_neg fun hk => h (hkey.1 hk).symm, if_neg fun hk => h (prefix_nil.1 hk)]
  | append_singleton q name ih =>
    have hkey := @StaticLocal.hasKey_iff _ v hv c p _ hp hq
    rw [reverse_append, reverse_singleton, singleton_append, climb,
      reverse_cons, reverse_reverse, ih (v.fs.parent_folder _ _ _ hq)]
    by_cases h : q ++ [name] = p
    · rw [if_pos (hkey.2 h), if_pos (by rw [h]), h]
    · rw [if_neg fun hk => h (hkey.1 hk)]
      refine if_congr ?_ rfl rfl
      rw [prefix_concat_iff]
      exact ⟨.inr, fun hor => hor.resolve_left fun heq => h heq.symm⟩

end

end Folder

end Unix
