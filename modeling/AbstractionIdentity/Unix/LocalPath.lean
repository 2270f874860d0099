import AbstractionIdentity.Unix.Walk
import Mathlib.Data.List.Infix

/-!
# The gate for local paths on Linux and macOS

`localPath` judges the volume of the cleaned absolute path; the read that follows resolves the path
as it was given. `Sound wd path`: no file system makes the gate accept the path while the read
reaches a refused volume. Without a `..` after a name the two walks come to the same file; with one
`detour` is a file system in which they do not.
-/

namespace Unix

open Text List Option

/-- How far the probe of a volume came within the deadline: its mount was not found out, all
probes of the mount were outstanding, it did not answer, or it did. -/
inductive Probe where
  | noMount
  | noSlot
  | late
  | answered
  deriving DecidableEq

/-- A static file system with its volumes; `answer` is what `volumeAnswer` says of a volume,
`none` for one that is local. -/
structure Volumes (V : Type) where
  fs : FileSystem
  links : ℕ
  volume : Path → V
  answer : V → Option Bytes
  key : Path → ℕ × ℕ
  strerror : Errno → Bytes
  networkVolumes : List Bytes
  probe : Probe

inductive LocalPathError where
  | empty
  | notLocal (path reason : Bytes)
  deriving DecidableEq

def LocalPathError.text : LocalPathError → Bytes
  | .empty => ascii "identity: empty path"
  | .notLocal path reason =>
    ascii "identity: " ++ path ++ ascii " is not on a local drive: " ++ reason

/-- The path that `filepath.Abs` cleans. -/
def fullPath (wd path : Bytes) : Bytes := if isAbs path then path else wd ++ 47 :: path

/-- `filepath.Abs`; `wd` is what `os.Getwd` returns. -/
def absPath (wd : Except Bytes Bytes) (path : Bytes) : Except Bytes Bytes :=
  if isAbs path then .ok (clean 47 path)
  else wd.map fun wd => clean 47 (wd ++ 47 :: path)

def markedNetwork (networkVolumes : List Bytes) (abs : Bytes) : Bool :=
  networkVolumes.any fun p => abs = p || (p ++ [47]).isPrefixOf abs

section Gate

variable {V : Type} (v : Volumes V)

/-- One round of `volumeLocal`, for the clean path whose names, the last one first, are given:
its answer, or `none` to go on with the folder above. -/
def volumeAt (names : List Bytes) : Option (Option Bytes) :=
  match v.fs.resolve v.links [] (rooted 47 names.reverse) with
  | .ok p => some (v.answer (v.volume p))
  | .error errno =>
    if errno ≠ .noEntry ∧ errno ≠ .notDirectory then some (some (v.strerror errno)) else none

def volumeLocal : List Bytes → Option Bytes
  | [] => (volumeAt v []).getD (some (ascii "no part of it could be read"))
  | name :: names => (volumeAt v (name :: names)).getD (volumeLocal names)

def localPath (wd : Except Bytes Bytes) (path : Bytes) : Option LocalPathError :=
  if path = [] then some .empty
  else match absPath wd path with
    | .error text => some (.notLocal path text)
    | .ok abs =>
      let abs := clean 47 abs
      if markedNetwork v.networkVolumes abs then
        some (.notLocal path (ascii "a network volume"))
      else match v.probe with
        | .answered =>
          (volumeLocal v (resolve [] (split 47 abs)).reverse).map (.notLocal path)
        | _ => some (.notLocal path (ascii "its volume did not answer in time"))

/-- `fileKey`: the device and inode of the file that `os.Stat` reaches. -/
def fileKey (cwd : Path) (path : Bytes) : Except Errno (ℕ × ℕ) :=
  (v.fs.resolve v.links cwd path).map v.key

end Gate

/-- In every file system in which `wd` leads to the working directory, a file whose key can be
read after the gate accepted its path lies on a local volume. -/
def Sound (wd path : Bytes) : Prop :=
  ∀ (V : Type) (v : Volumes V) (cwd : Path),
    (isAbs path = false → v.fs.resolve v.links [] wd = .ok cwd) →
    localPath v (.ok wd) path = none →
    ∀ key, fileKey v cwd path = .ok key →
      ∃ p, v.fs.resolve v.links cwd path = .ok p ∧ v.answer (v.volume p) = none

section Sound

variable {V : Type} {v : Volumes V} {wd path : Bytes}

theorem absPath_ok : absPath (.ok wd) path = .ok (clean 47 (fullPath wd path)) := by
  rw [absPath, fullPath]
  split_ifs <;> rfl

theorem volumeLocal_of_localPath (h : localPath v (.ok wd) path = none) :
    path ≠ [] ∧ volumeLocal v (resolve [] (split 47 (fullPath wd path))).reverse = none := by
  rw [localPath] at h
  split_ifs at h with hne
  refine ⟨hne, ?_⟩
  rw [absPath_ok] at h
  dsimp only at h
  split_ifs at h
  split at h
  · rwa [map_eq_none_iff, clean_clean, resolve_split_clean] at h
  · cases h

theorem volumeAt_reverse {names : List Bytes} (hnames : ∀ name ∈ names, IsName 47 name) :
    volumeAt v names.reverse =
      match walk v.fs v.links [] names with
      | .ok r => some (v.answer (v.volume r.1))
      | .error errno =>
        if errno ≠ .noEntry ∧ errno ≠ .notDirectory then some (some (v.strerror errno))
        else none := by
  have hne : rooted 47 names ≠ [] := cons_ne_nil _ _
  have hbase : linkBase (rooted 47 names) [] = [] := rfl
  rw [volumeAt, reverse_reverse, FileSystem.resolve, if_neg hne, hbase, walk_split_rooted hnames]
  cases walk v.fs v.links [] names <;> rfl

theorem localPath_of_walk (hne : path ≠ []) (hmark : v.networkVolumes = [])
    (hprobe : v.probe = .answered) {r : Path × ℕ}
    (hwalk : walk v.fs v.links [] (resolve [] (split 47 (fullPath wd path))) = .ok r)
    (hanswer : v.answer (v.volume r.1) = none) : localPath v (.ok wd) path = none := by
  have hat := @volumeAt_reverse _ v (resolve [] (split 47 (fullPath wd path)))
    fun _ hname => isName_of_mem_resolve hname
  rw [hwalk] at hat
  dsimp only at hat
  rw [hanswer] at hat
  have hvolume : volumeLocal v (resolve [] (split 47 (fullPath wd path))).reverse = none := by
    cases hrev : (resolve [] (split 47 (fullPath wd path))).reverse with
    | nil =>
      rw [hrev] at hat
      rw [volumeLocal, hat]
      rfl
    | cons name names =>
      rw [hrev] at hat
      rw [volumeLocal, hat]
      rfl
  rw [localPath, if_neg hne, absPath_ok]
  simp only [clean_clean, resolve_split_clean, hmark, hprobe, hvolume, markedNetwork,
    any_nil, Bool.false_eq_true, if_false, map_none]

theorem volumeAt_of_volumeLocal {names : List Bytes} {r : Option Bytes}
    (h : volumeLocal v names = none) (hat : volumeAt v names = some r) : r = none := by
  cases names with
  | nil => rwa [volumeLocal, hat] at h
  | cons name names => rwa [volumeLocal, hat] at h

theorem answer_of_volumeLocal {names : List Bytes} (hnames : ∀ name ∈ names, IsName 47 name)
    {p : Path} (hwalk : (∃ m, walk v.fs v.links [] names = .ok (p, m)) ∨
      walk v.fs v.links [] names = .error .loop)
    (h : volumeLocal v names.reverse = none) : v.answer (v.volume p) = none := by
  have hat := @volumeAt_reverse _ v names hnames
  rcases hwalk with ⟨m, hwalk⟩ | hwalk
  · rw [hwalk] at hat
    exact volumeAt_of_volumeLocal h hat
  · rw [hwalk] at hat
    cases volumeAt_of_volumeLocal h hat

theorem split_fullPath (h : isAbs path = false) :
    split 47 (fullPath wd path) = split 47 wd ++ split 47 path := by
  rw [fullPath, if_neg (Bool.eq_false_iff.1 h)]
  exact split_append_sep wd path

theorem linkBase_of_isAbs (h : isAbs path = true) (cwd : Path) : linkBase path cwd = [] :=
  if_pos (of_decide_eq_true h)

theorem linkBase_of_not_isAbs (h : isAbs path = false) (cwd : Path) : linkBase path cwd = cwd :=
  if_neg (of_decide_eq_false h)

theorem exists_walk_of_resolve {fs : FileSystem} {links : ℕ} {cwd p : Path}
    (h : fs.resolve links cwd path = .ok p) :
    ∃ m, walk fs links (linkBase path cwd) (split 47 path) = .ok (p, m) := by
  rw [FileSystem.resolve] at h
  split_ifs at h
  cases hwalk : walk fs links (linkBase path cwd) (split 47 path) with
  | error errno =>
    rw [hwalk] at h
    cases h
  | ok r =>
    rw [hwalk] at h
    cases h
    exact ⟨r.2, rfl⟩

theorem walk_fullPath {cwd p : Path} (hwd : wd.head? = some 47)
    (hcwd : isAbs path = false → v.fs.resolve v.links [] wd = .ok cwd)
    (h : v.fs.resolve v.links cwd path = .ok p) :
    (∃ m, walk v.fs v.links [] (split 47 (fullPath wd path)) = .ok (p, m)) ∨
      walk v.fs v.links [] (split 47 (fullPath wd path)) = .error .loop := by
  obtain ⟨m, hwalk⟩ := exists_walk_of_resolve h
  cases habs : isAbs path with
  | true =>
    rw [linkBase_of_isAbs habs] at hwalk
    rw [fullPath, if_pos habs]
    exact .inl ⟨m, hwalk⟩
  | false =>
    obtain ⟨k, hfirst⟩ := exists_walk_of_resolve (hcwd habs)
    rw [linkBase, if_pos hwd] at hfirst
    rw [linkBase_of_not_isAbs habs] at hwalk
    have hle := links_le_of_walk hfirst
    obtain ⟨d, hd⟩ := Nat.exists_eq_add_of_le hle
    dsimp only at hd
    rw [hd] at hwalk
    rw [split_fullPath habs, walk_append, hfirst]
    exact walk_le hwalk

theorem resolve_of_walk_fullPath {fs : FileSystem} {links : ℕ} {r : Path × ℕ}
    (hwd : wd.head? = some 47) (hne : path ≠ [])
    (h : walk fs links [] (split 47 (fullPath wd path)) = .ok r) :
    ∃ cwd, (isAbs path = false → fs.resolve links [] wd = .ok cwd) ∧
      fs.resolve links cwd path = .ok r.1 := by
  cases habs : isAbs path with
  | true =>
    rw [fullPath, if_pos habs] at h
    refine ⟨[], fun hno => (by cases hno), ?_⟩
    rw [FileSystem.resolve, if_neg hne, linkBase_of_isAbs habs, h]
    rfl
  | false =>
    rw [split_fullPath habs, walk_append] at h
    cases hfirst : walk fs links [] (split 47 wd) with
    | error errno =>
      rw [hfirst] at h
      cases h
    | ok c =>
      rw [hfirst] at h
      have hwdne : wd ≠ [] := by
        rintro rfl
        cases hwd
      refine ⟨c.1, fun _ => ?_, ?_⟩
      · rw [FileSystem.resolve, if_neg hwdne, linkBase, if_pos hwd, hfirst]
        rfl
      · obtain ⟨d, hd⟩ := Nat.exists_eq_add_of_le (links_le_of_walk hfirst)
        rw [FileSystem.resolve, if_neg hne, linkBase_of_not_isAbs habs, hd, walk_mono h d]
        rfl

theorem sound_of_not_cancels (hwd : wd.head? = some 47)
    (h : ¬ Cancels (split 47 (fullPath wd path))) : Sound wd path := by
  intro V v cwd hcwd hgate key hkey
  obtain ⟨-, hvolume⟩ := volumeLocal_of_localPath hgate
  rw [fileKey] at hkey
  cases hstat : v.fs.resolve v.links cwd path with
  | error errno =>
    rw [hstat] at hkey
    cases hkey
  | ok p =>
    refine ⟨p, rfl, answer_of_volumeLocal (fun _ hname => isName_of_mem_resolve hname) ?_ hvolume⟩
    have hfull := walk_fullPath hwd hcwd hstat
    rcases walk_clean h v.links with hfail | hclean
    · rw [hfail] at hfull
      rcases hfull with ⟨m, hm⟩ | hm <;> cases hm
    · rw [hclean]
      exact hfull

end Sound

/-! ## A link that leads out of a network volume -/

def detour (names : Path) (hnames : names ≠ []) (target : Bytes) : FileSystem where
  node p :=
    if names <+: p then if p = names then .ok (.link target) else .error .noEntry
    else .ok .folder
  root_folder := if_neg fun h => hnames (List.prefix_nil.1 h)
  parent_folder p name x hx := by
    by_cases hpre : names <+: p ++ [name]
    · rw [if_pos hpre] at hx
      split_ifs at hx with heq
      refine if_neg fun hp => ?_
      have hlen := hp.length_le
      rw [← heq, List.length_append, List.length_singleton] at hlen
      omega
    · exact if_neg fun hp => hpre (hp.trans (List.prefix_append p [name]))

/-- The network volume is at the name `z`, with a local volume mounted `depth + 1` folders of
this name below it. -/
def detourVolumes (names : Path) (hnames : names ≠ []) (z : Bytes) (depth : ℕ) :
    Volumes Bool where
  fs := detour names hnames (rooted 47 (List.replicate (depth + 2) z))
  links := 40
  volume p := decide (List.replicate (depth + 2) z <+: p) || !decide ([z] <+: p)
  answer onLocal := if onLocal then none else some (ascii "nfs")
  key _ := (0, 0)
  strerror _ := []
  networkVolumes := []
  probe := .answered

section Detour

variable {names : Path} {hnames : names ≠ []} {z : Bytes} {depth : ℕ}

theorem detour_folder {p : Path} (h : ¬ names <+: p) :
    (detourVolumes names hnames z depth).fs.node p = .ok .folder := if_neg h

theorem detour_link : (detourVolumes names hnames z depth).fs.node names =
      .ok (.link (rooted 47 (List.replicate (depth + 2) z))) := by
  rw [detourVolumes, detour]
  simp

theorem not_prefix_of_head (hne : names ≠ []) (hz : names.head? ≠ some z) {p : Path}
    (hp : p.head? = some z) : ¬ names <+: p := by
  rintro ⟨t, rfl⟩
  cases names with
  | nil => exact hne rfl
  | cons name names => exact hz hp

theorem walk_detour_target (hz : names.head? ≠ some z) (hname : IsName 47 z)
    (n : ℕ) (tail : List Bytes) :
    walk (detourVolumes names hnames z depth).fs n []
        (split 47 (rooted 47 (List.replicate (depth + 2) z)) ++ tail) =
      walk (detourVolumes names hnames z depth).fs n (List.replicate (depth + 2) z) tail := by
  have hproper := proper_of_isName hname
  have hall : (List.replicate (depth + 2) z).filter proper = List.replicate (depth + 2) z :=
    filter_eq_self.2 fun part hpart => by rw [eq_of_mem_replicate hpart]; exact hproper
  have hup : [46, 46] ∉ List.replicate (depth + 2) z := fun hmem =>
    hname.ne_dotdot (eq_of_mem_replicate hmem).symm
  rw [walk_append, walk_split_rooted fun part hpart => by
    rw [eq_of_mem_replicate hpart]; exact hname]
  rw [walk_folders hup, hall]
  · rfl
  · intro parts hparts
    rw [nil_append]
    refine detour_folder ?_
    cases parts with
    | nil => exact fun h => hnames (prefix_nil.1 h)
    | cons part parts =>
      rw [hall] at hparts
      have hpart := eq_of_mem_replicate (hparts.subset mem_cons_self)
      exact not_prefix_of_head hnames hz (by rw [hpart]; rfl)

theorem walk_detour_below (hz : names.head? ≠ some z) {parts : List Bytes}
    (hup : [46, 46] ∉ parts) (n : ℕ) :
    walk (detourVolumes names hnames z depth).fs n (List.replicate (depth + 2) z) parts =
      .ok (List.replicate (depth + 2) z ++ parts.filter proper, n) :=
  walk_folders hup (fun _ _ => detour_folder (not_prefix_of_head hnames hz rfl)) n

theorem walk_detour_names (hz : names.head? ≠ some z) (hname : IsName 47 z) {here : Path}
    {parts : List Bytes} (hhere : ¬ names <+: here) (hfresh : z ∉ here)
    (hparts : ∀ part ∈ parts, proper part = true ∧ part ≠ z) (n : ℕ) :
    ∃ p m, walk (detourVolumes names hnames z depth).fs (n + 1) here parts = .ok (p, m) ∧
      (detourVolumes names hnames z depth).volume p = true := by
  induction parts generalizing here with
  | nil =>
    refine ⟨here, n + 1, walk_nil _ _, ?_⟩
    have hout : ¬ [z] <+: here := fun h => hfresh (h.subset mem_cons_self)
    simp [detourVolumes, hout]
  | cons part parts ih =>
    obtain ⟨hproper, hne⟩ := hparts part mem_cons_self
    have hrest := fun part' hp => hparts part' (mem_cons_of_mem part hp)
    by_cases hlink : here ++ [part] = names
    · have hnode : (detourVolumes names hnames z depth).fs.node (here ++ [part]) =
          .ok (.link (rooted 47 (List.replicate (depth + 2) z))) := by
        rw [hlink]
        exact detour_link
      have hup : [46, 46] ∉ parts := fun hmem => absurd (hrest _ hmem).1 (by decide)
      have hbase : linkBase (rooted 47 (List.replicate (depth + 2) z)) here = [] := rfl
      refine ⟨List.replicate (depth + 2) z ++ parts.filter proper, n, ?_, ?_⟩
      · rw [walk_link (detour_folder hhere) hproper hnode, hbase, walk_detour_target hz hname]
        exact walk_detour_below hz hup n
      · simp [detourVolumes]
    · have hnext : ¬ names <+: here ++ [part] := by
        rw [prefix_concat_iff]
        exact not_or.2 ⟨fun heq => hlink heq.symm, hhere⟩
      rw [walk_name (detour_folder hhere) hproper (detour_folder hnext)]
      refine ih hnext ?_ hrest
      rw [mem_append, mem_singleton, not_or]
      exact ⟨hfresh, hne.symm⟩

theorem walk_detour_reach (hz : names.head? ≠ some z) (hname : IsName 47 z) {here : Path}
    {parts : List Bytes} (hup : [46, 46] ∉ parts) (hne : parts.filter proper ≠ [])
    (hreach : here ++ parts.filter proper = names) (n : ℕ) (tail : List Bytes) :
    walk (detourVolumes names hnames z depth).fs (n + 1) here (parts ++ tail) =
      walk (detourVolumes names hnames z depth).fs n (List.replicate (depth + 2) z) tail := by
  induction parts generalizing here with
  | nil => exact absurd rfl hne
  | cons part parts ih =>
    rw [mem_cons, not_or] at hup
    have hfolder : ∀ p : Path, p.length < names.length →
        (detourVolumes names hnames z depth).fs.node p = .ok .folder := fun p hlt =>
      detour_folder fun hpre => absurd hpre.length_le (Nat.not_le_of_lt hlt)
    have hlen : here.length < names.length := by
      rw [← hreach, length_append]
      have hpos := length_pos_iff.2 hne
      omega
    rw [cons_append]
    by_cases hproper : proper part = true
    · rw [filter_cons_of_pos hproper] at hreach
      by_cases hlast : parts.filter proper = []
      · rw [hlast] at hreach
        have hnode : (detourVolumes names hnames z depth).fs.node (here ++ [part]) =
            .ok (.link (rooted 47 (List.replicate (depth + 2) z))) := by
          rw [hreach]
          exact detour_link
        have hbase : linkBase (rooted 47 (List.replicate (depth + 2) z)) here = [] := rfl
        rw [walk_link (hfolder here hlen) hproper hnode, hbase, walk_detour_target hz hname,
          walk_append, walk_detour_below hz hup.2, hlast, append_nil]
        rfl
      · have hmore : here ++ [part] ++ parts.filter proper = names := by
          rw [append_assoc]
          exact hreach
        have hnext : (here ++ [part]).length < names.length := by
          have hpos := length_pos_iff.2 hlast
          have hall := congrArg List.length hmore
          rw [length_append] at hall
          omega
        rw [walk_name (hfolder here hlen) hproper (hfolder _ hnext)]
        exact ih hup.2 hlast hmore
    · rw [filter_cons_of_neg hproper] at hreach hne
      rw [walk_dot (hfolder here hlen) (dot_of_not_proper hproper (Ne.symm hup.1))]
      exact ih hup.2 hne hreach

theorem walk_detour_network (hz : names.head? ≠ some z) {parts : List Bytes}
    (hparts : z ∉ parts) {a : ℕ} {s : Path} (hdeep : parts.length < a) (hmax : a ≤ depth + 1)
    (hs : s.head? ≠ some z) (n : ℕ) :
    ∃ b t, walk (detourVolumes names hnames z depth).fs n (List.replicate a z ++ s) parts =
        .ok (List.replicate b z ++ t, n) ∧ 0 < b ∧ b ≤ depth + 1 ∧ t.head? ≠ some z := by
  induction parts generalizing a s with
  | nil => exact ⟨a, s, walk_nil _ _, hdeep, hmax, hs⟩
  | cons part parts ih =>
    rw [length_cons] at hdeep
    rw [mem_cons, not_or] at hparts
    obtain ⟨k, rfl⟩ : ∃ k, a = k + 1 := ⟨a - 1, by omega⟩
    have hfolder : ∀ t, (detourVolumes names hnames z depth).fs.node
        (List.replicate (k + 1) z ++ t) = .ok .folder := fun t =>
      detour_folder (not_prefix_of_head hnames hz rfl)
    by_cases hup : part = [46, 46]
    · rw [hup, walk_dotdot (hfolder s)]
      rcases eq_nil_or_concat' s with rfl | ⟨t, c, rfl⟩
      · have hdrop : (List.replicate (k + 1) z ++ []).dropLast = List.replicate k z ++ [] := by
          rw [append_nil, append_nil, replicate_succ', dropLast_concat]
        rw [hdrop]
        exact ih hparts.2 (by omega) (by omega) hs
      · rw [← append_assoc, dropLast_concat]
        refine ih hparts.2 (by omega) hmax ?_
        cases t with
        | nil => simp
        | cons d t => exact hs
    by_cases hproper : proper part = true
    swap
    · rw [walk_dot (hfolder s) (dot_of_not_proper hproper hup)]
      exact ih hparts.2 (by omega) hmax hs
    · have hnext := hfolder (s ++ [part])
      rw [← append_assoc] at hnext
      rw [walk_name (hfolder s) hproper hnext, append_assoc]
      refine ih hparts.2 (by omega) hmax ?_
      cases s with
      | nil => exact fun heq => hparts.1 (some.inj heq).symm
      | cons d s => exact hs

theorem network_of_shallow {b : ℕ} {t : Path} (hb : 0 < b) (hmax : b ≤ depth + 1)
    (ht : t.head? ≠ some z) :
    (detourVolumes names hnames z depth).volume (List.replicate b z ++ t) = false := by
  have hdeep : ¬ List.replicate (depth + 2) z <+: List.replicate b z ++ t := by
    obtain ⟨k, hk⟩ : ∃ k, depth + 2 = b + (k + 1) := ⟨depth + 1 - b, by omega⟩
    rw [hk, replicate_add, prefix_append_right_inj]
    rintro ⟨u, rfl⟩
    exact ht rfl
  have hin : [z] <+: List.replicate b z ++ t := by
    obtain ⟨k, rfl⟩ : ∃ k, b = k + 1 := ⟨b - 1, by omega⟩
    exact ⟨List.replicate k z ++ t, rfl⟩
  simp [detourVolumes, hdeep, hin]

end Detour

theorem exists_fresh_name (parts : List Bytes) : ∃ z, IsName 47 z ∧ z ∉ parts := by
  refine ⟨List.replicate (parts.flatten.length + 1) 97, ⟨?_, ?_, ?_, ?_⟩, fun hmem => ?_⟩
  · simp
  · simp [replicate_succ]
  · simp [replicate_succ]
  · simp
  · have hle := (sublist_flatten_of_mem hmem).length_le
    rw [length_replicate] at hle
    omega

/-- A list in which a `..` comes after a name is read into the network volume of a detour. -/
theorem exists_detour_of_cancels {parts taken : List Bytes} (h : Cancels parts)
    (htaken : parts ⊆ taken) :
    ∃ names hnames z depth q, IsName 47 z ∧ z ∉ taken ∧ names.head? ≠ some z ∧
      walk (detourVolumes names hnames z depth).fs 40 [] parts = .ok (q, 39) ∧
      q.head? = some z ∧ (detourVolumes names hnames z depth).volume q = false := by
  obtain ⟨lead, name, mid, post, hparts, hlead, hname, hmid⟩ := lead_of_cancels h
  obtain ⟨z, hz, hfresh⟩ := exists_fresh_name taken
  have hproper : (name :: mid).filter proper = name :: mid.filter proper := filter_cons_of_pos hname
  have hnames : name :: mid.filter proper ≠ [] := cons_ne_nil _ _
  have hzname : (name :: mid.filter proper).head? ≠ some z := by
    intro heq
    refine hfresh (htaken ?_)
    rw [hparts, ← some.inj heq]
    simp
  have hzpost : z ∉ post := fun hmem => hfresh (htaken (by rw [hparts]; simp [hmem]))
  obtain ⟨b, t, hpost, hb, hmax, ht⟩ := @walk_detour_network _ hnames z (post.length) hzname
    post hzpost (post.length + 1) [] (Nat.lt_succ_self _) (Nat.le_refl _) (by simp) 39
  have hup : [46, 46] ∉ name :: mid := by
    rw [mem_cons, not_or]
    exact ⟨(proper_iff.1 hname).2.2.symm, hmid⟩
  have hreach := @walk_detour_reach _ hnames z post.length hzname hz [] (name :: mid) hup
    (by rw [hproper]; exact hnames) (by rw [hproper]; rfl) 39 ([46, 46] :: post)
  refine ⟨_, hnames, z, post.length, List.replicate b z ++ t, hz, hfresh, hzname, ?_, ?_,
    network_of_shallow hb hmax ht⟩
  · rw [hparts, walk_root_lead hlead]
    refine hreach.trans ?_
    rw [walk_dotdot (detour_folder (not_prefix_of_head hnames hzname rfl)),
      replicate_succ', dropLast_concat]
    rw [append_nil] at hpost
    exact hpost
  · obtain ⟨a, rfl⟩ : ∃ a, b = a + 1 := ⟨b - 1, by omega⟩
    rfl

/-- A `..` after a name: there is a file system in which the gate accepts the path and the read
goes to a network volume. -/
theorem not_sound_of_cancels {wd path : Bytes} (hwd : wd.head? = some 47) (hne : path ≠ [])
    (h : Cancels (split 47 (fullPath wd path))) : ¬ Sound wd path := by
  obtain ⟨names, hnames, z, depth, q, hz, hfresh, hzname, hread, -, hnetwork⟩ :=
    exists_detour_of_cancels h (Subset.refl _)
  -- the cleaned path leads to the local volume
  have hclean : ∀ part ∈ resolve [] (split 47 (fullPath wd path)),
      proper part = true ∧ part ≠ z := by
    intro part hpart
    refine ⟨proper_of_isName (isName_of_mem_resolve hpart), ?_⟩
    rintro rfl
    rcases mem_resolve hpart with hnil | ⟨hmem, -⟩
    · cases hnil
    · exact hfresh hmem
  obtain ⟨p, m, hgate, hlocal⟩ := @walk_detour_names _ hnames z depth hzname hz [] _
    (fun hpre => hnames (prefix_nil.1 hpre)) not_mem_nil hclean 39
  obtain ⟨cwd, hcwd, hstat⟩ := resolve_of_walk_fullPath hwd hne hread
  intro hsound
  have haccept : localPath (detourVolumes _ hnames z depth) (.ok wd) path = none := by
    refine localPath_of_walk hne rfl rfl hgate ?_
    dsimp only
    rw [hlocal]
    rfl
  have hkey : fileKey (detourVolumes _ hnames z depth) cwd path = .ok (0, 0) := by
    have hlinks : (detourVolumes _ hnames z depth).fs.resolve
        (detourVolumes _ hnames z depth).links cwd path = _ := hstat
    rw [fileKey, hlinks]
    rfl
  obtain ⟨q', hq, hanswer⟩ := hsound Bool _ cwd hcwd haccept (0, 0) hkey
  obtain rfl : q = q' := Except.ok.inj (hstat.symm.trans hq)
  rw [hnetwork] at hanswer
  cases hanswer

/-- The gate protects the read of a path, in all file systems, if and only if no `..` of the
full path comes after a name; an empty path is refused. -/
theorem localPath_sound_iff (wd path : Bytes) (hwd : wd.head? = some 47) :
    Sound wd path ↔ path = [] ∨ ¬ Cancels (split 47 (fullPath wd path)) := by
  refine ⟨fun hsound => ?_, ?_⟩
  · by_contra hnot
    rw [not_or, not_not] at hnot
    exact not_sound_of_cancels hwd hnot.1 hnot.2 hsound
  · rintro (rfl | hcancel)
    · intro V v cwd hcwd hgate
      cases hgate
    · exact sound_of_not_cancels hwd hcancel

theorem localPath_sound_iff_home :
    Sound (ascii "/") (ascii "/home/./f") ∧ ¬ Sound (ascii "/") (ascii "/l/../x") := by
  refine ⟨(localPath_sound_iff _ _ rfl).2 (.inr (by decide)), fun h => ?_⟩
  rcases (localPath_sound_iff _ _ rfl).1 h with hnil | hcancel
  · exact absurd hnil (by decide)
  · exact hcancel (by decide)

/-- The link `/l` leads to a local volume at `/z/z/z` in the network volume at `/z`: the gate
judges `/l/../x` as `/x`, which is local, and the read goes to `/z/z/x`. -/
theorem localPath_accepts_network :
    localPath (detourVolumes [[108]] (by decide) [122] 1) (.ok [47]) (ascii "/l/../x") = none ∧
      (detourVolumes [[108]] (by decide) [122] 1).fs.resolve 40 [] (ascii "/l/../x") =
        .ok [[122], [122], [120]] ∧
      fileKey (detourVolumes [[108]] (by decide) [122] 1) [] (ascii "/l/../x") = .ok (0, 0) ∧
      (detourVolumes [[108]] (by decide) [122] 1).volume [[122], [122], [120]] = false ∧
      (detourVolumes [[108]] (by decide) [122] 1).answer false ≠ none := by
  decide +kernel

end Unix
