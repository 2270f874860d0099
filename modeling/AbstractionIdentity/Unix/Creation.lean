import AbstractionIdentity.Unix.Containment
import Mathlib.Logic.Relation

/-!
# Keys of places while folders are created

`placeKey` resolves what exists of a path and keeps the names of the rest. When a missing folder is
created, it is real and in the folder it was missing from, so the key is the same
(`PlaceOf.create`).
-/

namespace Unix

open Text List

/-! ## Creating an entry -/

def FileSystem.nodeWith (fs : FileSystem) (p : Path) (x : Node) (q : Path) : Except Errno Node :=
  if q = p then .ok x else if p <+: q then .error .noEntry else fs.node q

variable {fs : FileSystem} {p : Path} {x : Node}

theorem nodeWith_of_not_below {q : Path} (h : ¬ p <+: q) : fs.nodeWith p x q = fs.node q := by
  have hne : q ≠ p := fun heq => h (heq ▸ prefix_refl q)
  rw [FileSystem.nodeWith, if_neg hne, if_neg h]

theorem nodeWith_parent
    (hparent : fs.node p.dropLast = .ok .folder) {q : Path} {name : Bytes} {y : Node}
    (hy : fs.nodeWith p x (q ++ [name]) = .ok y) : fs.nodeWith p x q = .ok .folder := by
  by_cases hp : q ++ [name] = p
  · have hup : ¬ q ++ [name] <+: q := fun h => by
      have hlen := h.length_le
      rw [length_append, length_singleton] at hlen
      omega
    subst hp
    rw [dropLast_concat] at hparent
    rw [nodeWith_of_not_below hup, hparent]
  · rw [FileSystem.nodeWith, if_neg hp] at hy
    split_ifs at hy with hbelow
    have hq : ¬ p <+: q := fun h => hbelow (h.trans (prefix_append _ _))
    rw [nodeWith_of_not_below hq]
    exact fs.parent_folder q name y hy

theorem nodeWith_root (hne : p ≠ []) : fs.nodeWith p x [] = .ok .folder :=
  (nodeWith_of_not_below fun h => hne (prefix_nil.1 h)).trans fs.root_folder

def FileSystem.create (fs : FileSystem) (p : Path) (x : Node) (hne : p ≠ [])
    (hparent : fs.node p.dropLast = .ok .folder) : FileSystem where
  node := fs.nodeWith p x
  root_folder := nodeWith_root hne
  parent_folder _ _ _ hy := nodeWith_parent hparent hy

def Volumes.create {V : Type} (v : Volumes V) (p : Path) (x : Node) (key : ℕ × ℕ) (hne : p ≠ [])
    (hparent : v.fs.node p.dropLast = .ok .folder) : Volumes V :=
  { v with
    fs := v.fs.create p x hne hparent
    volume := Function.update v.volume p (v.volume p.dropLast)
    key := Function.update v.key p key }

section Create

variable {fs : FileSystem} {p : Path} {x : Node} {hne : p ≠ []}
  {hparent : fs.node p.dropLast = .ok .folder}

theorem node_create_self : (fs.create p x hne hparent).node p = .ok x := if_pos rfl

theorem not_prefix_of_node {q : Path} {y : Node} {errno : Errno}
    (hmissing : fs.node p = .error errno) (hq : fs.node q = .ok y) : ¬ p <+: q := by
  intro hpre
  by_cases heq : p = q
  · rw [heq, hq] at hmissing
    cases hmissing
  · rw [folder_of_above hq hpre heq] at hmissing
    cases hmissing

theorem node_create_of_not_below {q : Path} (h : ¬ p <+: q) :
    (fs.create p x hne hparent).node q = fs.node q := nodeWith_of_not_below h

theorem node_create_below (name : Bytes) :
    (fs.create p x hne hparent).node (p ++ [name]) = .error .noEntry := by
  change fs.nodeWith p x (p ++ [name]) = _
  rw [FileSystem.nodeWith, if_neg (by simp), if_pos (prefix_append _ _)]

theorem node_create_of_ok {q : Path} {y : Node} {errno : Errno}
    (hmissing : fs.node p = .error errno) (hq : fs.node q = .ok y) :
    (fs.create p x hne hparent).node q = .ok y := by
  rw [node_create_of_not_below (not_prefix_of_node hmissing hq), hq]

end Create

section Extend

variable {fs fs' : FileSystem}

variable {here : Path} {n : ℕ} {parts : List Bytes}

theorem walk_step {part : Bytes} {x : Node}
    (hfolder : fs.node here = .ok .folder) (hpart : proper part = true)
    (hnode : fs.node (here ++ [part]) = .ok x) (hx : ∀ target, x ≠ .link target) :
    walk fs n here (part :: parts) = walk fs n (here ++ [part]) parts := by
  obtain ⟨hnil, hdot, hdotdot⟩ := proper_iff.1 hpart
  rw [walk_cons, hfolder]
  dsimp only
  rw [if_neg (not_or.2 ⟨hnil, hdot⟩), if_neg hdotdot, hnode]
  cases x with
  | link target => exact absurd rfl (hx target)
  | folder => rfl
  | file => rfl

theorem walk_loop {part : Bytes} {target : Bytes}
    (hfolder : fs.node here = .ok .folder) (hpart : proper part = true)
    (hnode : fs.node (here ++ [part]) = .ok (.link target)) :
    walk fs 0 here (part :: parts) = .error .loop := by
  obtain ⟨hnil, hdot, hdotdot⟩ := proper_iff.1 hpart
  rw [walk_cons, hfolder]
  dsimp only
  rw [if_neg (not_or.2 ⟨hnil, hdot⟩), if_neg hdotdot, hnode]

/-- Where a walk comes to an end for some number of links, entries that are added elsewhere
change nothing about it for any number of links. -/
theorem walk_extend (hext : ∀ q x, fs.node q = .ok x → fs'.node q = .ok x) {r : Path × ℕ}
    (h : walk fs n here parts = .ok r) (m : ℕ) :
    walk fs' m here parts = walk fs m here parts := by
  induction n using Nat.strong_induction_on generalizing here parts m with
  | _ n ihn =>
    induction parts generalizing here m with
    | nil => rw [walk_nil, walk_nil]
    | cons part parts ih =>
      have hfolder : fs.node here = .ok .folder := by
        rw [walk_cons] at h
        split at h
        next hfolder => exact hfolder
        · cases h
      have hfolder' := hext here _ hfolder
      by_cases hup : part = [46, 46]
      · rw [hup, walk_dotdot hfolder] at h
        rw [hup, walk_dotdot hfolder, walk_dotdot hfolder']
        exact ih h m
      by_cases hpart : proper part = true
      swap
      · have hdot := dot_of_not_proper hpart hup
        rw [walk_dot hfolder hdot] at h
        rw [walk_dot hfolder hdot, walk_dot hfolder' hdot]
        exact ih h m
      cases hnode : fs.node (here ++ [part]) with
      | error errno =>
        rw [walk_missing hfolder hpart hnode] at h
        cases h
      | ok x =>
        have hnode' := hext _ _ hnode
        by_cases hx : ∀ target, x ≠ .link target
        · rw [walk_step hfolder hpart hnode hx] at h
          rw [walk_step hfolder hpart hnode hx, walk_step hfolder' hpart hnode' hx]
          exact ih h m
        · push Not at hx
          obtain ⟨target, rfl⟩ := hx
          cases n with
          | zero =>
            rw [walk_loop hfolder hpart hnode] at h
            cases h
          | succ n =>
            rw [walk_link hfolder hpart hnode] at h
            cases m with
            | zero =>
              rw [walk_loop hfolder hpart hnode, walk_loop hfolder' hpart hnode']
            | succ m =>
              rw [walk_link hfolder hpart hnode, walk_link hfolder' hpart hnode']
              exact ihn n (Nat.lt_succ_self n) h m

theorem walk_ok_or_loop {r : Path × ℕ} (h : walk fs n here parts = .ok r) (m : ℕ) :
    (∃ k, walk fs m here parts = .ok (r.1, k)) ∨ walk fs m here parts = .error .loop := by
  rcases Nat.le_total n m with hle | hle
  · obtain ⟨k, rfl⟩ := Nat.exists_eq_add_of_le hle
    exact .inl ⟨_, walk_mono h k⟩
  · obtain ⟨k, rfl⟩ := Nat.exists_eq_add_of_le hle
    exact walk_le h

end Extend

inductive Creates {V : Type} : Volumes V → Volumes V → Prop
  | entry (v : Volumes V) (p : Path) (x : Node) (key : ℕ × ℕ) (hne : p ≠ [])
      (hparent : v.fs.node p.dropLast = .ok .folder) (hmissing : v.fs.node p = .error .noEntry)
      (hx : ∀ target, x ≠ .link target) : Creates v (v.create p x key hne hparent)

/-! ## The key of a place -/

section Place

variable {V : Type} (v : Volumes V) (c : Caller)

/-- `PlaceKey`. Off Windows `trimCreatedNames` and `PathNameKey` keep the spelling. -/
def placeKey (path : Bytes) : Except PathError Bytes :=
  match localPath v c.wd path with
  | some err => .error (.notLocal err)
  | none => (resolveExisting v c path true).map (rooted 47)

/-- The names as they are found: those of `existing` lead to `dir`, and the first of `missing`
is not there. -/
structure PlaceOf (names existing missing dir : Path) : Prop where
  names_eq : names = existing ++ missing
  real : ∃ k, walk v.fs c.evalLinks [] existing = .ok (dir, k)
  seen : ∃ k, walk v.fs v.links [] existing = .ok (dir, k)
  answer : v.answer (v.volume dir) = none
  missing_head : v.fs.node dir = .ok .folder → ∀ name ∈ missing.head?,
    v.fs.node (dir ++ [name]) = .error .noEntry ∨
      v.fs.node (dir ++ [name]) = .error .notDirectory

structure Asked (path abs : Bytes) : Prop where
  ne_nil : path ≠ []
  abs_eq : absPath c.wd path = .ok abs
  unmarked : markedNetwork v.networkVolumes (clean 47 abs) = false
  probe : v.probe = .answered

end Place

section Key

variable {V : Type} {v : Volumes V} {c : Caller} {path abs : Bytes}
  {names existing missing dir : Path}

theorem localPath_eq_none_iff : localPath v c.wd path = none ↔
      ∃ abs, Asked v c path abs ∧ volumeLocal v (resolve [] (split 47 abs)).reverse = none := by
  constructor
  · intro h
    rw [localPath] at h
    split_ifs at h with hne
    cases habs : absPath c.wd path with
    | error text =>
      rw [habs] at h
      cases h
    | ok abs =>
      rw [habs] at h
      dsimp only at h
      split_ifs at h with hmark
      cases hprobe : v.probe with
      | answered =>
        rw [hprobe] at h
        dsimp only at h
        rw [Option.map_eq_none_iff, resolve_split_clean] at h
        exact ⟨abs, ⟨hne, habs, Bool.eq_false_iff.2 hmark, hprobe⟩, h⟩
      | noMount | noSlot | late =>
        rw [hprobe] at h
        cases h
  · rintro ⟨abs, hasked, h⟩
    rw [localPath, if_neg hasked.ne_nil, hasked.abs_eq]
    dsimp only
    rw [if_neg (Bool.eq_false_iff.1 hasked.unmarked), hasked.probe]
    dsimp only
    rw [resolve_split_clean, h]
    rfl

variable {k : ℕ} {v' : Volumes V}

theorem walk_of_missing {n : ℕ} {m : Path} (hm : m ≠ []) (hnames : ∀ name ∈ m, proper name = true)
    (hwalk : walk v.fs n [] existing = .ok (dir, k)) :
    walk v.fs n [] (existing ++ m) = .error .notDirectory ∨
      v.fs.node dir = .ok .folder ∧ ∃ name ∈ m.head?,
        ∀ errno, v.fs.node (dir ++ [name]) = .error errno →
          walk v.fs n [] (existing ++ m) = .error errno := by
  obtain ⟨name, m, rfl⟩ := exists_cons_of_ne_nil hm
  rw [walk_append_of_ok hwalk]
  by_cases hD : v.fs.node dir = .ok .folder
  · refine .inr ⟨hD, name, rfl, fun errno hnode => ?_⟩
    exact walk_missing hD (hnames name mem_cons_self) hnode
  · left
    rw [walk_cons]
    split
    next hfolder => exact absurd hfolder hD
    · rfl

theorem volumeLocal_concat {name : Bytes} (h : volumeAt v (names ++ [name]).reverse = none) :
    volumeLocal v (names ++ [name]).reverse = volumeLocal v names.reverse := by
  rw [reverse_append, reverse_singleton, singleton_append] at h ⊢
  rw [volumeLocal, h]
  rfl

theorem volumeLocal_of_volumeAt {r : Option Bytes} (h : volumeAt v names = some r) :
    volumeLocal v names = r := by
  cases names with
  | nil => rw [volumeLocal, h]; rfl
  | cons name names => rw [volumeLocal, h]; rfl

theorem volumeLocal_of_missing (heq : names = existing ++ missing)
    (hnames : ∀ name ∈ names, IsName 47 name) (hseen : walk v.fs v.links [] existing = .ok (dir, k))
    (hhead : v.fs.node dir = .ok .folder → ∀ name ∈ missing.head?,
      v.fs.node (dir ++ [name]) = .error .noEntry ∨
        v.fs.node (dir ++ [name]) = .error .notDirectory) :
    volumeLocal v names.reverse = v.answer (v.volume dir) := by
  have hsub : ∀ m, m <+: missing → ∀ name ∈ existing ++ m, IsName 47 name := by
    intro m hm name hname
    refine hnames name ?_
    rw [heq]
    exact ((prefix_append_right_inj existing).2 hm).subset hname
  have hbelow : ∀ m, m ≠ [] → m <+: missing → volumeAt v (existing ++ m).reverse = none := by
    intro m hne hm
    have hproper : ∀ name ∈ m, proper name = true := fun name hname =>
      proper_of_isName (hsub m hm name (mem_append_right _ hname))
    rw [volumeAt_reverse (hsub m hm)]
    rcases walk_of_missing hne hproper hseen with hwalk | ⟨hD, name, hfirst, hwalk⟩
    · rw [hwalk]
      rfl
    · have hmem : name ∈ missing.head? := by
        obtain ⟨rest, rfl⟩ := hm
        cases m with
        | nil => exact absurd rfl hne
        | cons first m => exact hfirst
      rcases hhead hD name hmem with hnode | hnode
      · rw [hwalk _ hnode]
        rfl
      · rw [hwalk _ hnode]
        rfl
  have hgo : ∀ m, m <+: missing →
      volumeLocal v (existing ++ m).reverse = volumeLocal v existing.reverse := by
    intro m
    induction m using List.reverseRecOn with
    | nil => intro _; rw [append_nil]
    | append_singleton m name ih =>
      intro hm
      rw [← append_assoc, volumeLocal_concat, ih ((prefix_append _ _).trans hm)]
      rw [append_assoc]
      exact hbelow _ (by simp) hm
  have hat := @volumeAt_reverse _ v existing fun name hname =>
    hsub [] nil_prefix name (by rwa [append_nil])
  rw [hseen] at hat
  rw [heq, hgo missing (prefix_refl _), volumeLocal_of_volumeAt hat]

theorem PlaceOf.volumeLocal_eq (h : PlaceOf v c names existing missing dir)
    (hnames : ∀ name ∈ names, IsName 47 name) : volumeLocal v names.reverse = none := by
  obtain ⟨k, hseen⟩ := h.seen
  rw [volumeLocal_of_missing h.names_eq hnames hseen h.missing_head]
  exact h.answer

theorem PlaceOf.pathExists_eq (h : PlaceOf v c names existing missing dir)
    (hnames : ∀ name ∈ names, IsName 47 name) :
    pathExists v existing = true ∧
      ∀ m, m ≠ [] → m <+: missing → pathExists v (existing ++ m) = false := by
  obtain ⟨k, hseen⟩ := h.seen
  have hproper : ∀ name ∈ existing ++ missing, proper name = true := fun name hname =>
    proper_of_isName (hnames name (by rwa [h.names_eq]))
  refine ⟨pathExists_of_walk (fun name hname => hproper name (mem_append_left _ hname)) hseen,
    fun m hm hgrown => ?_⟩
  refine not_pathExists_of_missing hm
    (fun name hname => hproper name (mem_append_right _ (hgrown.subset hname))) hseen ?_
  intro hD name hname x hnode
  have hmem : name ∈ missing.head? := by
    obtain ⟨rest, rfl⟩ := hgrown
    cases m with
    | nil => exact absurd rfl hm
    | cons first m => exact hname
  rcases h.missing_head hD name hmem with herr | herr
  · rw [hnode] at herr
    cases herr
  · rw [hnode] at herr
    cases herr

theorem placeKey_of_placeOf (hasked : Asked v c path abs)
    (h : PlaceOf v c (resolve [] (split 47 abs)) existing missing dir) :
    placeKey v c path = .ok (rooted 47 (dir ++ missing)) := by
  have hnames : ∀ name ∈ resolve [] (split 47 abs), IsName 47 name :=
    fun _ hname => isName_of_mem_resolve hname
  have hlocal := localPath_eq_none_iff.2 ⟨abs, hasked, h.volumeLocal_eq hnames⟩
  obtain ⟨hexists, hmissing⟩ := h.pathExists_eq hnames
  obtain ⟨k, hreal⟩ := h.real
  rw [placeKey, hlocal]
  dsimp only
  have habove : (if true then resolve [] (split 47 abs) else (resolve [] (split 47 abs)).dropLast) =
      existing ++ missing := h.names_eq
  have hresolved : resolveExisting v c path true = .ok (dir ++ missing) := by
    refine (resolveExisting_of_deepest hasked.ne_nil hasked.abs_eq habove hexists hmissing).2
      ⟨dir, k, hreal, ?_⟩
    rw [h.names_eq, drop_length, append_nil]
  rw [hresolved]
  rfl

theorem not_local_of_error {errno : Errno} (hnames : ∀ name ∈ names, IsName 47 name)
    (hwalk : walk v.fs v.links [] names = .error errno) (hother : errno ≠ .noEntry)
    (hdir : errno ≠ .notDirectory) : volumeLocal v names.reverse ≠ none := by
  have hat := @volumeAt_reverse _ v names hnames
  rw [hwalk] at hat
  dsimp only at hat
  rw [if_pos ⟨hother, hdir⟩] at hat
  rw [volumeLocal_of_volumeAt hat]
  simp

theorem placeOf_of_deepest (heq : names = existing ++ missing)
    (hnames : ∀ name ∈ names, IsName 47 name) (hvolume : volumeLocal v names.reverse = none)
    (hmissing : ∀ m, m ≠ [] → m <+: missing → pathExists v (existing ++ m) = false)
    (hreal : walk v.fs c.evalLinks [] existing = .ok (dir, k)) :
    PlaceOf v c names existing missing dir := by
  -- Too many links for the system would have been refused with the path.
  have hseen : ∃ k, walk v.fs v.links [] existing = .ok (dir, k) := by
    rcases walk_ok_or_loop hreal v.links with hok | hloop
    · exact hok
    · have hall : walk v.fs v.links [] names = .error .loop := by
        rw [heq]
        exact walk_append_of_error hloop
      exact absurd hvolume (not_local_of_error hnames hall (by decide) (by decide))
  obtain ⟨seen, hseen⟩ := hseen
  have hhead : v.fs.node dir = .ok .folder → ∀ name ∈ missing.head?,
      v.fs.node (dir ++ [name]) = .error .noEntry ∨
        v.fs.node (dir ++ [name]) = .error .notDirectory := by
    intro hD name hname
    obtain ⟨rest, rfl⟩ : ∃ rest, missing = name :: rest := by
      cases missing with
      | nil => cases hname
      | cons first rest => exact ⟨rest, by cases hname; rfl⟩
    have hexists := hmissing [name] (by simp) ⟨rest, rfl⟩
    rw [pathExists_concat hseen hD] at hexists
    cases hnode : v.fs.node (dir ++ [name]) with
    | ok x =>
      rw [hnode] at hexists
      cases hexists
    | error errno =>
      by_contra hother
      rw [not_or] at hother
      have hname : IsName 47 name := hnames name (by rw [heq]; simp)
      have hall : walk v.fs v.links [] names = .error errno := by
        rw [heq, walk_append_of_ok hseen]
        exact walk_missing hD (proper_of_isName hname) hnode
      exact not_local_of_error hnames hall (fun h => hother.1 (by rw [h]))
        (fun h => hother.2 (by rw [h])) hvolume
  refine ⟨heq, ⟨k, hreal⟩, ⟨seen, hseen⟩, ?_, hhead⟩
  rwa [volumeLocal_of_missing heq hnames hseen hhead] at hvolume

theorem placeOf_of_placeKey {key : Bytes} (h : placeKey v c path = .ok key) :
    ∃ abs existing missing dir, Asked v c path abs ∧
      PlaceOf v c (resolve [] (split 47 abs)) existing missing dir ∧
      key = rooted 47 (dir ++ missing) := by
  rw [placeKey] at h
  cases hlocal : localPath v c.wd path with
  | some err =>
    rw [hlocal] at h
    cases h
  | none =>
    rw [hlocal] at h
    dsimp only at h
    cases hresolved : resolveExisting v c path true with
    | error err =>
      rw [hresolved] at h
      cases h
    | ok resolved =>
      rw [hresolved] at h
      obtain ⟨abs, hasked, hvolume⟩ := localPath_eq_none_iff.1 hlocal
      obtain ⟨abs', existing, missing, dir, k, -, habs, habove, hexists, hmissing, hreal, heq⟩ :=
        deepest_of_resolveExisting hresolved
      rw [hasked.abs_eq] at habs
      cases habs
      rw [if_pos rfl] at habove
      rw [habove, drop_length, append_nil] at heq
      refine ⟨abs, existing, missing, dir, hasked, ?_, by rw [← heq]; cases h; rfl⟩
      exact placeOf_of_deepest habove (fun _ hname => isName_of_mem_resolve hname) hvolume
        hmissing hreal

/-- A new entry either is the first missing one, which then exists, or has nothing to do with
the place. -/
theorem PlaceOf.create (h : PlaceOf v c names existing missing dir)
    (hproper : ∀ name ∈ names, proper name = true) (hcreate : Creates v v') :
    ∃ existing' missing' dir', PlaceOf v' c names existing' missing' dir' ∧
      dir' ++ missing' = dir ++ missing := by
  obtain ⟨p, x, key, hne, hparent, hmissing, hx⟩ := hcreate
  have hext : ∀ q y, v.fs.node q = .ok y → (v.fs.create p x hne hparent).node q = .ok y :=
    fun q y hq => node_create_of_ok hmissing hq
  obtain ⟨k, hreal⟩ := h.real
  obtain ⟨seen, hseen⟩ := h.seen
  have hreal' := (walk_extend hext hreal c.evalLinks).trans hreal
  have hseen' := (walk_extend hext hseen v.links).trans hseen
  obtain ⟨y, hdir, -⟩ := node_of_walk v.fs.root_folder (fun _ => by simp) hseen
  have hdirp : ¬ p <+: dir := not_prefix_of_node hmissing hdir
  by_cases hfirst : ∃ name rest, missing = name :: rest ∧ p = dir ++ [name]
  · obtain ⟨name, rest, rfl, rfl⟩ := hfirst
    have hD : v.fs.node dir = .ok .folder := by
      rwa [dropLast_concat] at hparent
    have hname : proper name = true := hproper name (by rw [h.names_eq]; simp)
    have hstep : ∀ n, walk (v.fs.create (dir ++ [name]) x hne hparent) n dir [name] =
        .ok (dir ++ [name], n) := by
      intro n
      rw [walk_step (hext _ _ hD) hname node_create_self hx, walk_nil]
    refine ⟨existing ++ [name], rest, dir ++ [name], ⟨?_, ⟨k, ?_⟩, ⟨seen, ?_⟩, ?_, ?_⟩, ?_⟩
    · rw [h.names_eq, append_assoc]
      rfl
    · rw [Volumes.create, walk_append_of_ok hreal']
      exact hstep k
    · rw [Volumes.create, walk_append_of_ok hseen']
      exact hstep seen
    · rw [Volumes.create]
      dsimp only
      rw [Function.update_self, dropLast_concat]
      exact h.answer
    · exact fun _ below _ => .inl (@node_create_below v.fs _ x hne hparent below)
    · rw [append_assoc]
      rfl
  · refine ⟨existing, missing, dir, ⟨h.names_eq, ⟨k, hreal'⟩, ⟨seen, hseen'⟩, ?_, ?_⟩, rfl⟩
    · rw [Volumes.create]
      dsimp only
      rw [Function.update_of_ne (fun heq => hdirp (by rw [heq]))]
      exact h.answer
    · intro hD name hname
      obtain ⟨rest, rfl⟩ : ∃ rest, missing = name :: rest := by
        cases missing with
        | nil => cases hname
        | cons first rest => exact ⟨rest, by cases hname; rfl⟩
      have hsame : (v.create p x key hne hparent).fs.node (dir ++ [name]) =
          v.fs.node (dir ++ [name]) := by
        refine @node_create_of_not_below v.fs p x hne hparent _ fun hpre => ?_
        rcases prefix_concat_iff.1 hpre with heq | hpre
        · exact hfirst ⟨name, rest, rfl, heq⟩
        · exact hdirp hpre
      have hnode : v.fs.node dir = .ok .folder := by
        rw [← hD]
        exact (@node_create_of_not_below v.fs p x hne hparent _ hdirp).symm
      rw [hsame]
      exact h.missing_head hnode name rfl

theorem Asked.create (h : Asked v c path abs) (hcreate : Creates v v') : Asked v' c path abs := by
  obtain ⟨p, x, key, hne, hparent, hmissing, hx⟩ := hcreate
  exact ⟨h.ne_nil, h.abs_eq, h.unmarked, h.probe⟩

theorem placeKey_create {key : Bytes} (h : placeKey v c path = .ok key)
    (hcreate : Creates v v') : placeKey v' c path = .ok key := by
  obtain ⟨abs, existing, missing, dir, hasked, hplace, rfl⟩ := placeOf_of_placeKey h
  obtain ⟨existing', missing', dir', hplace', heq⟩ := hplace.create
    (fun _ hname => proper_of_isName (isName_of_mem_resolve hname)) hcreate
  rw [← heq]
  exact placeKey_of_placeOf (hasked.create hcreate) hplace'

/-- The key of a place stays the same while folders and files are created, its own missing
components among them, in any order and by whatever spelling. -/
theorem placeKey_stable {v' : Volumes V} {key : Bytes} (h : placeKey v c path = .ok key)
    (hrun : Relation.ReflTransGen Creates v v') : placeKey v' c path = .ok key := by
  induction hrun with
  | refl => exact h
  | tail _ hlast ih => exact placeKey_create ih hlast

end Key

def placeEntries : List (Path × Node) :=
  [([ascii "dir"], .folder), ([ascii "alias"], .link (ascii "/dir"))]

def placeVolumes : Volumes Unit := finiteVolumes placeEntries (by decide)

def placeVolumesGrown : Volumes Unit :=
  placeVolumes.create [ascii "dir", ascii "a"] .folder (1, 9) (by decide) rfl

/-- The key of `/alias/a/b` before and after its two missing components are created. -/
theorem placeKey_stable_alias :
    placeKey placeVolumes ⟨.ok [47], [], 255⟩ (ascii "/alias/a/b") = .ok (ascii "/dir/a/b") ∧
      placeKey (placeVolumesGrown.create [ascii "dir", ascii "a", ascii "b"] .file (1, 10)
        (by decide) rfl) ⟨.ok [47], [], 255⟩ (ascii "/alias/a/b") = .ok (ascii "/dir/a/b") := by
  have hkey : placeKey placeVolumes ⟨.ok [47], [], 255⟩ (ascii "/alias/a/b") =
      .ok (ascii "/dir/a/b") := by decide +kernel
  refine ⟨hkey, placeKey_stable hkey ?_⟩
  refine .tail (.single (.entry _ _ _ _ _ _ rfl ?_)) (.entry _ _ _ _ _ _ rfl ?_)
  · exact fun _ => by simp
  · exact fun _ => by simp

end Unix
