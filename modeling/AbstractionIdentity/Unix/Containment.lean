import AbstractionIdentity.Text.Deepest
import AbstractionIdentity.Unix.PathIdentity

/-!
# Containment in the directory tree

`CreatedIn` is the folder in which a path has its last component, or would have it once the missing
folders are created. `withinRel` says yes for the folders at or above it.
-/

namespace Unix

open Text List

section Walk

variable {fs : FileSystem}

variable {D here : Path} {n : ℕ} {parts tail : List Bytes} {r : Path × ℕ}

theorem walk_unique {m : ℕ} {r' : Path × ℕ}
    (h : walk fs n here parts = .ok r) (h' : walk fs m here parts = .ok r') : r.1 = r'.1 := by
  rcases Nat.le_total n m with hle | hle
  · obtain ⟨k, rfl⟩ := Nat.exists_eq_add_of_le hle
    rw [walk_mono h k] at h'
    cases h'
    rfl
  · obtain ⟨k, rfl⟩ := Nat.exists_eq_add_of_le hle
    rw [walk_mono h' k] at h
    cases h
    rfl

theorem walk_append_of_ok {k : ℕ} (h : walk fs n here parts = .ok (D, k)) :
    walk fs n here (parts ++ tail) = walk fs k D tail := by
  rw [walk_append, h]
  rfl

theorem walk_append_of_error {errno : Errno} (h : walk fs n here parts = .error errno) :
    walk fs n here (parts ++ tail) = .error errno := by
  rw [walk_append, h]
  rfl

theorem walk_missing {name : Bytes} {errno : Errno}
    (hD : fs.node D = .ok .folder) (hname : proper name = true)
    (hnode : fs.node (D ++ [name]) = .error errno) :
    walk fs n D (name :: tail) = .error errno := by
  obtain ⟨hnil, hdot, hdotdot⟩ := proper_iff.1 hname
  rw [walk_cons, hD]
  dsimp only
  rw [if_neg (not_or.2 ⟨hnil, hdot⟩), if_neg hdotdot, hnode]

theorem folder_of_walk_name {name : Bytes}
    (hname : proper name = true) (h : walk fs n D [name] = .ok r) :
    fs.node D = .ok .folder ∧ ∃ x, fs.node (D ++ [name]) = .ok x := by
  obtain ⟨hnil, hdot, hdotdot⟩ := proper_iff.1 hname
  rw [walk_cons] at h
  split at h
  next hD =>
    rw [if_neg (not_or.2 ⟨hnil, hdot⟩), if_neg hdotdot] at h
    refine ⟨hD, ?_⟩
    cases hnode : fs.node (D ++ [name]) with
    | error errno =>
      rw [hnode] at h
      cases h
    | ok x => exact ⟨x, rfl⟩
  · cases h

theorem node_of_walk {x : Node} (hhere : fs.node here = .ok x) (hx : ∀ target, x ≠ .link target)
    (h : walk fs n here parts = .ok r) :
    ∃ y, fs.node r.1 = .ok y ∧ ∀ target, y ≠ .link target := by
  induction n using Nat.strong_induction_on generalizing here parts x with
  | _ n ihn =>
    induction parts generalizing here x with
    | nil =>
      rw [walk_nil] at h
      cases h
      exact ⟨x, hhere, hx⟩
    | cons part parts ih =>
      rw [walk_cons] at h
      split at h
      next hfolder =>
        split_ifs at h
        · exact ih hhere hx h
        · rcases eq_nil_or_concat' here with rfl | ⟨up, name, rfl⟩
          · exact ih hhere hx h
          · rw [dropLast_concat] at h
            exact ih (fs.parent_folder _ _ _ hhere) (fun _ => by simp) h
        · split at h
          · cases h
          · cases h
          next target m hnode =>
            refine @ihn m (Nat.lt_succ_self m) (linkBase target here) _ .folder ?_ (by simp) h
            rw [linkBase]
            split_ifs
            · exact fs.root_folder
            · exact hfolder
          next links _ _ y hnode hzero hsucc =>
            refine ih hnode (fun target hy => ?_) h
            cases links with
            | zero => exact hzero target rfl hy
            | succ m => exact hsucc target m rfl hy
      · cases h

end Walk

section Exists

variable {V : Type} {v : Volumes V}

theorem pathExists_concat {e D : Path} {k : ℕ} {name : Bytes}
    (hwalk : walk v.fs v.links [] e = .ok (D, k)) (hD : v.fs.node D = .ok .folder) :
    pathExists v (e ++ [name]) = (v.fs.node (D ++ [name])).isOk := by
  rw [pathExists, FileSystem.lstat, List.getLast?_concat, dropLast_concat]
  dsimp only
  rw [hwalk]
  dsimp only
  rw [hD]

variable {e : Path}

theorem pathExists_of_walk (hnames : ∀ name ∈ e, proper name = true) {r : Path × ℕ}
    (hwalk : walk v.fs v.links [] e = .ok r) : pathExists v e = true := by
  rcases eq_nil_or_concat' e with rfl | ⟨e, name, rfl⟩
  · rw [pathExists, FileSystem.lstat]
    simp only [List.getLast?_nil, v.fs.root_folder]
    rfl
  · rw [walk_append] at hwalk
    cases hfirst : walk v.fs v.links [] e with
    | error errno =>
      rw [hfirst] at hwalk
      cases hwalk
    | ok s =>
      rw [hfirst] at hwalk
      obtain ⟨hfolder, x, hx⟩ := folder_of_walk_name (hnames name (by simp)) hwalk
      rw [@pathExists_concat _ v e s.1 s.2 name hfirst hfolder, hx]
      rfl

theorem not_pathExists_of_error {m : Path} {errno : Errno} (hm : m ≠ [])
    (hwalk : walk v.fs v.links [] e = .error errno) : pathExists v (e ++ m) = false := by
  rcases eq_nil_or_concat' m with rfl | ⟨m, name, rfl⟩
  · exact absurd rfl hm
  · rw [pathExists, FileSystem.lstat, ← append_assoc, List.getLast?_concat, dropLast_concat]
    dsimp only
    rw [walk_append_of_error hwalk]
    rfl

theorem not_pathExists_of_missing {m D : Path} {k : ℕ} (hm : m ≠ [])
    (hnames : ∀ name ∈ m, proper name = true) (hwalk : walk v.fs v.links [] e = .ok (D, k))
    (hmissing : v.fs.node D = .ok .folder →
      ∀ name ∈ m.head?, ∀ x, v.fs.node (D ++ [name]) ≠ .ok x) :
    pathExists v (e ++ m) = false := by
  obtain ⟨name, m, rfl⟩ := exists_cons_of_ne_nil hm
  by_cases hD : v.fs.node D = .ok .folder
  · have hnode : ∃ errno, v.fs.node (D ++ [name]) = .error errno := by
      cases hnode : v.fs.node (D ++ [name]) with
      | error errno => exact ⟨errno, rfl⟩
      | ok x => exact absurd hnode (hmissing hD name rfl x)
    obtain ⟨errno, hnode⟩ := hnode
    by_cases hlast : m = []
    · rw [hlast, pathExists_concat hwalk hD, hnode]
      rfl
    · have hstep : walk v.fs v.links [] (e ++ [name]) = .error errno := by
        rw [walk_append_of_ok hwalk]
        exact walk_missing hD (hnames name mem_cons_self) hnode
      rw [append_cons]
      exact not_pathExists_of_error hlast hstep
  · have hstep : ∀ parts, walk v.fs v.links [] (e ++ name :: parts) = .error .notDirectory := by
      intro parts
      rw [walk_append_of_ok hwalk, walk_cons]
      split
      next hfolder => exact absurd hfolder hD
      · rfl
    by_cases hlast : m = []
    · rw [hlast, pathExists, FileSystem.lstat, List.getLast?_concat, dropLast_concat]
      dsimp only
      rw [hwalk]
      dsimp only
      split
      next hfolder => exact absurd hfolder hD
      · rfl
    · rw [append_cons]
      exact not_pathExists_of_error hlast (hstep [])

theorem existingPart_eq (above rest : Path) :
    existingPart v above rest = deepest (pathExists v) above rest := by
  induction above generalizing rest with
  | nil => rfl
  | cons name above ih => rw [existingPart, deepest, ih]

theorem existingPart_of_deepest {existing missing rest : Path}
    (hexists : pathExists v existing = true)
    (hmissing : ∀ m, m ≠ [] → m <+: missing → pathExists v (existing ++ m) = false) :
    existingPart v (existing ++ missing).reverse rest = some (existing, missing ++ rest) := by
  rw [existingPart_eq, deepest_append hmissing, deepest_of_holds hexists]

theorem deepest_of_existingPart {above rest existing found : Path}
    (h : existingPart v above.reverse rest = some (existing, found)) :
    ∃ missing, above = existing ++ missing ∧ found = missing ++ rest ∧
      pathExists v existing = true ∧
      ∀ m, m ≠ [] → m <+: missing → pathExists v (existing ++ m) = false := by
  rw [existingPart_eq] at h
  exact deepest_eq_some h

end Exists

/-! ## Finite file systems -/

def isNameOf (name : Bytes) : Bool := proper name && !name.contains 47

theorem isNameOf_iff {name : Bytes} : isNameOf name = true ↔ IsName 47 name := by
  rw [isNameOf, Bool.and_eq_true, proper_iff]
  simp only [Bool.not_eq_true', contains_eq_mem, decide_eq_false_iff_not]
  exact ⟨fun ⟨⟨hnil, hdot, hdotdot⟩, hsep⟩ => ⟨hnil, hdot, hdotdot, hsep⟩,
    fun h => ⟨⟨h.ne_nil, h.ne_dot, h.ne_dotdot⟩, h.no_sep⟩⟩

def FileSystem.ofEntries (entries : List (Path × Node))
    (hparent : ∀ e ∈ entries, e.1.dropLast = [] ∨ entries.lookup e.1.dropLast = some .folder) :
    FileSystem where
  node p :=
    if p = [] then .ok .folder
    else match entries.lookup p with
      | some x => .ok x
      | none => .error .noEntry
  root_folder := rfl
  parent_folder p name x hx := by
    rw [if_neg (by simp)] at hx
    split at hx
    next y hlookup =>
      have hmem : (p ++ [name], y) ∈ entries := by
        obtain ⟨l₁, l₂, hsplit, -⟩ := List.lookup_eq_some_iff.1 hlookup
        rw [hsplit]
        simp
      have hup := hparent _ hmem
      rw [List.dropLast_concat] at hup
      split_ifs with hp
      · rfl
      · rw [hup.resolve_left hp]
    · cases hx

def finiteVolumes (entries : List (Path × Node))
    (hparent : ∀ e ∈ entries, e.1.dropLast = [] ∨ entries.lookup e.1.dropLast = some .folder) :
    Volumes Unit where
  fs := .ofEntries entries hparent
  links := 40
  volume _ := ()
  answer _ := none
  key p := (1, ([] :: entries.map Prod.fst).idxOf p)
  strerror _ := []
  networkVolumes := []
  probe := .answered

theorem staticLocal_finiteVolumes {entries : List (Path × Node)}
    {hparent : ∀ e ∈ entries, e.1.dropLast = [] ∨ entries.lookup e.1.dropLast = some .folder}
    (hnames : ∀ e ∈ entries, e.1.all isNameOf = true) :
    StaticLocal (finiteVolumes entries hparent) := by
  have hmem : ∀ p x, (finiteVolumes entries hparent).fs.node p = .ok x →
      p = [] ∨ ∃ y, (p, y) ∈ entries := by
    intro p x hx
    by_cases hp : p = []
    · exact .inl hp
    · rw [finiteVolumes, FileSystem.ofEntries] at hx
      dsimp only at hx
      rw [if_neg hp] at hx
      split at hx
      next y hlookup =>
        obtain ⟨l₁, l₂, hsplit, -⟩ := lookup_eq_some_iff.1 hlookup
        exact .inr ⟨y, by rw [hsplit]; simp⟩
      · cases hx
  refine ⟨fun _ => rfl, rfl, rfl, fun p x hx name hname => ?_, fun p q x hp hq hkey => ?_⟩
  · rcases hmem p x hx with rfl | ⟨y, hy⟩
    · cases hname
    · exact isNameOf_iff.1 (all_eq_true.1 (hnames _ hy) name hname)
  · have hlist : ∀ r y, (finiteVolumes entries hparent).fs.node r = .ok y →
        r ∈ [] :: entries.map Prod.fst := by
      intro r y hr
      rcases hmem r y hr with rfl | ⟨z, hz⟩
      · exact mem_cons_self
      · exact mem_cons_of_mem _ (mem_map_of_mem hz)
    exact (idxOf_inj (hlist p _ hp)).1 (Prod.mk.inj hkey).2

/-! ## The folder of the last component -/

/-- The folder that the components lead to from `here`, when the first that is missing and
those behind it are created as folders of their names. -/
def CreatedIn {V : Type} (v : Volumes V) (here : Path) (parts : List Bytes) (dir : Path) : Prop :=
  ∃ existing missing D k, parts = existing ++ missing ∧
    walk v.fs v.links here existing = .ok (D, k) ∧ v.fs.node D = .ok .folder ∧
    (∀ name ∈ missing.head?, ∀ x, v.fs.node (D ++ [name]) ≠ .ok x) ∧ dir = D ++ missing

section Within

variable {V : Type} {v : Volumes V} {c : Caller}

theorem resolveExisting_of_deepest {path abs : Bytes} {self : Bool}
    {existing missing resolved : Path} (hne : path ≠ []) (habs : absPath c.wd path = .ok abs)
    (habove : (if self then resolve [] (split 47 abs) else (resolve [] (split 47 abs)).dropLast) =
      existing ++ missing) (hexists : pathExists v existing = true)
    (hmissing : ∀ m, m ≠ [] → m <+: missing → pathExists v (existing ++ m) = false) :
    resolveExisting v c path self = .ok resolved ↔
      ∃ real k, walk v.fs c.evalLinks [] existing = .ok (real, k) ∧ resolved = real ++ (missing ++
          (resolve [] (split 47 abs)).drop (existing ++ missing).length) := by
  rw [resolveExisting, if_neg hne, habs]
  simp only [resolve_split_clean]
  rw [habove, existingPart_of_deepest hexists hmissing]
  dsimp only
  cases walk v.fs c.evalLinks [] existing with
  | error errno => exact ⟨fun h => (by cases h), fun ⟨_, _, h, _⟩ => (by cases h)⟩
  | ok found =>
    obtain ⟨real, k⟩ := found
    refine ⟨fun h => ⟨real, k, rfl, (Except.ok.inj h).symm⟩, fun ⟨real', k', h, heq⟩ => ?_⟩
    cases h
    rw [heq]

theorem deepest_of_resolveExisting {path : Bytes} {self : Bool} {resolved : Path}
    (h : resolveExisting v c path self = .ok resolved) :
    ∃ abs existing missing real k, path ≠ [] ∧ absPath c.wd path = .ok abs ∧
      (if self then resolve [] (split 47 abs) else (resolve [] (split 47 abs)).dropLast) =
        existing ++ missing ∧
      pathExists v existing = true ∧
      (∀ m, m ≠ [] → m <+: missing → pathExists v (existing ++ m) = false) ∧
      walk v.fs c.evalLinks [] existing = .ok (real, k) ∧
      resolved = real ++ (missing ++
        (resolve [] (split 47 abs)).drop (existing ++ missing).length) := by
  have hne : path ≠ [] := by
    rintro rfl
    cases h
  rw [resolveExisting, if_neg hne] at h
  cases habs : absPath c.wd path with
  | error text =>
    rw [habs] at h
    cases h
  | ok abs =>
    rw [habs] at h
    simp only [resolve_split_clean] at h
    split at h
    · cases h
    next existing rest hpart =>
      obtain ⟨missing, habove, rfl, hexists, hmissing⟩ := deepest_of_existingPart hpart
      split at h
      · cases h
      next real k hreal =>
        cases h
        refine ⟨abs, existing, missing, real, k, hne, rfl, habove, hexists, hmissing, hreal, ?_⟩
        rw [← habove]

theorem hasKey_of_error (target : ℕ × ℕ) {names : Path} {errno : Errno}
    (hnames : ∀ name ∈ names, IsName 47 name)
    (hwalk : walk v.fs v.links [] names = .error errno) : hasKey v c target names = false := by
  have hne : rooted 47 names ≠ [] := cons_ne_nil _ _
  have hbase : linkBase (rooted 47 names) c.cwd = [] := rfl
  rw [hasKey, fileKey, FileSystem.resolve, if_neg hne, hbase, walk_split_rooted hnames, hwalk]
  rfl

theorem climb_eq (target : ℕ × ℕ) (names rest : Path) :
    climb v c target names = (deepest (hasKey v c target) names rest).map Prod.fst := by
  induction names generalizing rest with
  | nil =>
    rw [climb, deepest]
    split_ifs
    · rfl
    · rfl
  | cons name names ih =>
    rw [climb, deepest]
    split_ifs
    · rfl
    · exact ih (name :: rest)

theorem climb_append {target : ℕ × ℕ} {q missing : Path}
    (h : ∀ m, m ≠ [] → m <+: missing → hasKey v c target (q ++ m) = false) :
    climb v c target (q ++ missing).reverse = climb v c target q.reverse := by
  rw [climb_eq target _ [], deepest_append h, climb_eq target _ (missing ++ [])]

variable {F D missing : Path}

theorem prefix_of_missing (hF : v.fs.node F = .ok .folder)
    (hmissing : ∀ name ∈ missing.head?, ∀ x, v.fs.node (D ++ [name]) ≠ .ok x) :
    F <+: D ++ missing ↔ F <+: D := by
  refine ⟨fun h => ?_, fun h => h.trans (prefix_append _ _)⟩
  rcases prefix_or_prefix_of_prefix h (prefix_append D missing) with hup | hdown
  · exact hup
  · obtain ⟨m, rfl⟩ := hdown
    rw [prefix_append_right_inj] at h
    cases m with
    | nil => rw [append_nil]
    | cons name m =>
      obtain ⟨rest, rfl⟩ := h
      have hnode : ∃ x, v.fs.node (D ++ [name]) = .ok x := by
        by_cases hm : m = []
        · exact ⟨.folder, by rw [← hF, hm]⟩
        · refine ⟨.folder, folder_of_above hF ?_ ?_⟩
          · exact ⟨m, by simp⟩
          · simpa using Ne.symm hm
      obtain ⟨x, hx⟩ := hnode
      exact absurd hx (hmissing name rfl x)

theorem StaticLocal.climb_missing (hv : StaticLocal v) (hF : v.fs.node F = .ok .folder)
    (hD : v.fs.node D = .ok .folder) (hnames : ∀ name ∈ missing, IsName 47 name)
    (hmissing : ∀ name ∈ missing.head?, ∀ x, v.fs.node (D ++ [name]) ≠ .ok x) :
    climb v c (v.key F) (D ++ missing).reverse =
      if F <+: D ++ missing then some F else none := by
  have hclimb : climb v c (v.key F) (D ++ missing).reverse = climb v c (v.key F) D.reverse := by
    refine climb_append fun m hm hgrown => ?_
    obtain ⟨name, m, rfl⟩ := exists_cons_of_ne_nil hm
    obtain ⟨rest, hrest⟩ := hgrown
    have hsub : ∀ part ∈ name :: m, IsName 47 part := fun part hpart =>
      hnames part (hrest ▸ mem_append_left _ hpart)
    have hall : ∀ part ∈ D ++ name :: m, IsName 47 part := by
      intro part hpart
      rcases mem_append.1 hpart with hpart | hpart
      · exact hv.names D _ hD part hpart
      · exact hsub part hpart
    have hhead : name ∈ missing.head? := by
      rw [← hrest]
      rfl
    cases hnode : v.fs.node (D ++ [name]) with
    | ok x => exact absurd hnode (hmissing name hhead x)
    | error errno =>
      refine @hasKey_of_error _ v c _ _ errno hall ?_
      rw [walk_append_of_ok (hv.walk_of_folder hD v.links)]
      exact walk_missing hD (proper_of_isName (hsub name mem_cons_self)) hnode
  rw [hclimb, hv.climb_iff hF hD]
  exact if_congr (prefix_of_missing hF hmissing).symm rfl rfl

variable {names : Path}

theorem StaticLocal.walk_below (hv : StaticLocal v)
    (h : v.fs.node (F ++ names) = .ok .folder) (n : ℕ) :
    walk v.fs n F names = .ok (F ++ names, n) := by
  have hall : ∀ name ∈ names, name ∈ F ++ names := fun name hname =>
    mem_append_right F hname
  have hfilter : names.filter proper = names :=
    filter_eq_self.2 fun name hname => hv.proper_of_mem h (hall name hname)
  have hup : [46, 46] ∉ names := fun hmem => (hv.names _ _ h _ (hall _ hmem)).ne_dotdot rfl
  have hwalk := @walk_folders v.fs names F hup (fun q hq => by
    rw [hfilter] at hq
    by_cases heq : q = names
    · rw [heq]
      exact h
    · refine folder_of_above h ((prefix_append_right_inj F).2 hq) ?_
      exact fun hsame => heq (append_cancel_left hsame)) n
  rwa [hfilter] at hwalk

theorem absPath_rooted (hnames : ∀ name ∈ names, IsName 47 name)
    (wd : Except Bytes Bytes) : absPath wd (rooted 47 names) = .ok (rooted 47 names) := by
  have habs : isAbs (rooted 47 names) = true := rfl
  rw [absPath, if_pos habs, clean_rooted hnames]

theorem resolveExisting_of_createdIn {above dir : Path} {last : Bytes}
    (hnames : ∀ name ∈ above ++ [last], IsName 47 name) (hdir : CreatedIn v [] above dir) :
    (∀ resolved, resolveExisting v c (rooted 47 (above ++ [last])) false = .ok resolved →
      resolved = dir ++ [last]) ∧
    (v.links ≤ c.evalLinks →
      resolveExisting v c (rooted 47 (above ++ [last])) false = .ok (dir ++ [last])) := by
  obtain ⟨existing, missing, D, k, rfl, hwalk, hD, hmissing, rfl⟩ := hdir
  have hproper : ∀ name ∈ existing ++ missing, proper name = true := fun name hname =>
    proper_of_isName (hnames name (mem_append_left _ hname))
  have hexists : pathExists v existing = true :=
    pathExists_of_walk (fun name hname => hproper name (mem_append_left _ hname)) hwalk
  have hgone : ∀ m, m ≠ [] → m <+: missing → pathExists v (existing ++ m) = false := by
    intro m hm hgrown
    refine not_pathExists_of_missing hm (fun name hname => ?_) hwalk fun _ name hname => ?_
    · exact hproper name (mem_append_right _ (hgrown.subset hname))
    · obtain ⟨first, m, rfl⟩ := exists_cons_of_ne_nil hm
      obtain ⟨rest, rfl⟩ := hgrown
      exact hmissing name hname
  have hrun := fun resolved => @resolveExisting_of_deepest _ v c
    (rooted 47 (existing ++ missing ++ [last])) (rooted 47 (existing ++ missing ++ [last])) false
    existing missing resolved (cons_ne_nil _ _) (absPath_rooted hnames c.wd)
    (by rw [if_neg Bool.false_ne_true, resolve_split_rooted hnames, dropLast_concat])
    hexists hgone
  rw [resolve_split_rooted hnames, drop_left] at hrun
  refine ⟨fun resolved hok => ?_, fun hlinks => ?_⟩
  · obtain ⟨real, m, hreal, rfl⟩ := (hrun resolved).1 hok
    have hsame : real = D := walk_unique hreal hwalk
    rw [hsame, append_assoc]
  · obtain ⟨d, hd⟩ := Nat.exists_eq_add_of_le hlinks
    have hreal := walk_mono hwalk d
    rw [← hd] at hreal
    exact (hrun _).2 ⟨D, _, hreal, append_assoc _ _ _⟩

theorem StaticLocal.withinRel_eq (hv : StaticLocal v) {path folder : Bytes} {dir : Path}
    {last : Bytes} (hF : v.fs.node F = .ok .folder)
    (hfolder : v.fs.resolve v.links c.cwd folder = .ok F)
    (hD : v.fs.node D = .ok .folder) (hnames : ∀ name ∈ missing, IsName 47 name)
    (hmissing : ∀ name ∈ missing.head?, ∀ x, v.fs.node (D ++ [name]) ≠ .ok x)
    (hdir : dir = D ++ missing)
    (hlocalFolder : localPath v c.wd folder = none) (hlocalPath : localPath v c.wd path = none)
    (hresolved : resolveExisting v c path false = .ok (dir ++ [last])) :
    withinRel v c path folder =
      if F <+: dir then .ok ((dir ++ [last]).drop F.length, true) else .ok ([], false) := by
  rw [withinRel, hlocalFolder, hlocalPath]
  dsimp only
  rw [fileKey, hfolder, Except.map]
  dsimp only
  rw [hresolved]
  dsimp only
  rw [dropLast_concat, hdir, hv.climb_missing hF hD hnames hmissing]
  by_cases hpre : F <+: D ++ missing
  · rw [if_pos hpre, if_pos hpre]
    obtain ⟨t, ht⟩ := hpre
    rw [← ht, append_assoc, drop_left]
    simp
  · rw [if_neg hpre, if_neg hpre]

end Within

/-- For a clean absolute path `withinRel` answers yes exactly if the folder is at or above the
folder of the path's last component, and its remainder leads to the same entry. -/
theorem withinRel_contains_iff {V : Type} (v : Volumes V) (hv : StaticLocal v) (c : Caller)
    (above : Path) (last : Bytes) (hnames : ∀ name ∈ above ++ [last], IsName 47 name)
    (dir : Path) (hdir : CreatedIn v [] above dir) (folder : Bytes) (F : Path)
    (hfolder : v.fs.resolve v.links c.cwd folder = .ok F) (hF : v.fs.node F = .ok .folder)
    (rel : Path) (inside : Bool)
    (hok : withinRel v c (rooted 47 (above ++ [last])) folder = .ok (rel, inside)) :
    (inside = true ↔ F <+: dir) ∧ (inside = true → rel.getLast? = some last ∧
        CreatedIn v (linkBase folder c.cwd) (split 47 folder ++ rel.dropLast) dir) := by
  have hresolve := (@resolveExisting_of_createdIn _ v c above dir last hnames hdir).1
  obtain ⟨existing, missing, D, k, rfl, hwalk, hD, hmissing, rfl⟩ := hdir
  have hbelow : ∀ name ∈ missing, IsName 47 name := fun name hname => hnames name (by simp [hname])
  -- the gate accepted both paths, and the deepest part that exists was resolved
  have hgates : localPath v c.wd folder = none ∧
      localPath v c.wd (rooted 47 (existing ++ missing ++ [last])) = none := by
    rw [withinRel] at hok
    split at hok
    · cases hok
    · cases hok
    next hfirst hsecond => exact ⟨hfirst, hsecond⟩
  have hresolved : resolveExisting v c (rooted 47 (existing ++ missing ++ [last])) false =
      .ok (D ++ missing ++ [last]) := by
    cases hres : resolveExisting v c (rooted 47 (existing ++ missing ++ [last])) false with
    | error err =>
      rw [withinRel, hgates.1, hgates.2] at hok
      dsimp only at hok
      rw [fileKey, hfolder, Except.map, hres] at hok
      cases hok
    | ok resolved => rw [hresolve resolved hres]
  rw [hv.withinRel_eq hF hfolder hD hbelow hmissing rfl hgates.1 hgates.2 hresolved] at hok
  split_ifs at hok with hpre
  · cases hok
    refine ⟨by simp [hpre], fun _ => ?_⟩
    obtain ⟨below, rfl⟩ := (prefix_of_missing hF hmissing).1 hpre
    obtain ⟨m, hspelled⟩ := exists_walk_of_resolve hfolder
    rw [append_assoc, append_assoc, drop_left, ← append_assoc,
      List.getLast?_concat, dropLast_concat]
    refine ⟨rfl, split 47 folder ++ below, missing, F ++ below, m, ?_, ?_, hD, hmissing, ?_⟩
    · rw [append_assoc]
    · rw [walk_append_of_ok hspelled]
      exact hv.walk_below hD m
    · rw [append_assoc]
  · cases hok
    exact ⟨by simp [hpre], fun hno => by cases hno⟩

def aliasEntries : List (Path × Node) := [([ascii "a"], .link (ascii "/x")), ([ascii "x"], .folder)]

theorem withinRel_contains_iff_alias :
    CreatedIn (finiteVolumes aliasEntries (by decide)) [] [ascii "a", ascii "m"]
        [ascii "x", ascii "m"] ∧
      CreatedIn (finiteVolumes aliasEntries (by decide)) []
    (split 47 (ascii "/a/./") ++ [ascii "m"])
        [ascii "x", ascii "m"] := by
  have hdir : CreatedIn (finiteVolumes aliasEntries (by decide)) [] [ascii "a", ascii "m"]
      [ascii "x", ascii "m"] := by
    refine ⟨[ascii "a"], [ascii "m"], [ascii "x"], 39, rfl, ?_, ?_, fun name hname x hx => ?_, rfl⟩
    · decide +kernel
    · decide +kernel
    · obtain rfl : ascii "m" = name := by simpa using hname
      have hnode : (finiteVolumes aliasEntries (by decide)).fs.node ([ascii "x"] ++ [ascii "m"]) =
          .error .noEntry := by decide +kernel
      rw [hnode] at hx
      cases hx
  have hnames : ∀ name ∈ [ascii "a", ascii "m"] ++ [ascii "f"], IsName 47 name := fun name hname =>
    isNameOf_iff.1 (all_eq_true.1 (by decide : [ascii "a", ascii "m", ascii "f"].all
      isNameOf = true) name hname)
  have hok : withinRel (finiteVolumes aliasEntries (by decide)) ⟨.ok [47], [], 255⟩
      (rooted 47 ([ascii "a", ascii "m"] ++ [ascii "f"])) (ascii "/a/./") =
        .ok ([ascii "m", ascii "f"], true) := by decide +kernel
  have h := withinRel_contains_iff _ (staticLocal_finiteVolumes (by decide)) ⟨.ok [47], [], 255⟩
    _ _ hnames _ hdir (ascii "/a/./") [ascii "x"] (by decide +kernel) (by decide +kernel) _ _ hok
  exact ⟨hdir, (h.2 rfl).2⟩

end Unix
