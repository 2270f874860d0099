import AbstractionIdentity.Unix.Creation

/-!
# Containment in a folder that may not exist yet

`insideRel` asks `withinRel` for a folder that exists (`inside_created`) and compares spellings for
one that does not (`inside_missing`). They differ for a path that leads to the folder by another
spelling (`inside_create_iff`).
-/

namespace Unix

open Text List

/-- `os.Lstat`. A path that ends in a separator or a dot is followed to its end. -/
def FileSystem.lstatAt (fs : FileSystem) (links : ℕ) (cwd : Path) (path : Bytes) :
    Except Errno Node :=
  if path = [] then .error .noEntry
  else
    let parts := split 47 path
    match parts.getLast? with
    | none => .error .noEntry
    | some last =>
      if proper last then
        match walk fs links (linkBase path cwd) parts.dropLast with
        | .error errno => .error errno
        | .ok (p, _) =>
          match fs.node p with
          | .ok .folder => fs.node (p ++ [last])
          | _ => .error .notDirectory
      else
        match walk fs links (linkBase path cwd) parts with
        | .error errno => .error errno
        | .ok (p, _) => fs.node p

def trimSeparators (s : Bytes) : Bytes := (s.reverse.dropWhile (· = 47)).reverse

def cutPrefix (s lead : Bytes) : Option Bytes :=
  if lead <+: s then some (s.drop lead.length) else none

section Inside

variable {V : Type} (v : Volumes V) (c : Caller)

/-- The comparison of spellings in `InsideRel`. -/
def spelledInside (path folder : Bytes) : Bytes × Bool :=
  match cutPrefix (filepathClean path) (trimSeparators (filepathClean folder) ++ [47]) with
  | none => ([], false)
  | some rest => if rest = [] then ([], false) else (rest, true)

def insideRel (path folder : Bytes) : Except PathError (Bytes × Bool) :=
  match withinRel v c path folder with
  | .ok (rel, inside) => .ok (join 47 rel, inside)
  | .error (.notLocal (.notLocal p reason)) => .error (.notLocal (.notLocal p reason))
  | .error err =>
    match v.fs.lstatAt v.links c.cwd folder with
    | .error .noEntry => .ok (spelledInside path folder)
    | _ => .error err

def inside (path folder : Bytes) : Bool :=
  match insideRel v c path folder with
  | .ok (_, answer) => answer
  | .error _ => false

end Inside

theorem trimSeparators_rooted {names : Path} (hne : names ≠ [])
    (hnames : ∀ name ∈ names, IsName 47 name) :
    trimSeparators (rooted 47 names) = rooted 47 names := by
  have hlast : ∃ s b, rooted 47 names = s ++ [b] ∧ b ≠ 47 := by
    obtain ⟨above, last, rfl⟩ := eq_nil_or_concat' names |>.resolve_left hne
    have hname := hnames last (by simp)
    obtain ⟨s, b, rfl⟩ := eq_nil_or_concat' last |>.resolve_left hname.ne_nil
    have hb : b ≠ 47 := fun h => hname.no_sep (by simp [h])
    by_cases habove : above = []
    · exact ⟨47 :: s, b, by rw [habove]; rfl, hb⟩
    · refine ⟨rooted 47 above ++ 47 :: s, b, ?_, hb⟩
      rw [rooted_append habove (by simp)]
      simp [join]
  obtain ⟨s, b, heq, hb⟩ := hlast
  rw [trimSeparators, heq, reverse_append, reverse_singleton, singleton_append,
    dropWhile_cons_of_neg (by simpa using hb)]
  simp

theorem spelledInside_rooted {path folder : Path} (hpath : ∀ name ∈ path, IsName 47 name)
    (hne : folder ≠ []) (hfolder : ∀ name ∈ folder, IsName 47 name) :
    (spelledInside (rooted 47 path) (rooted 47 folder)).2 = decide (folder <+: path.dropLast) := by
  have habs : ∀ names, isAbs (rooted 47 names) = true := fun _ => rfl
  rw [spelledInside, filepathClean, filepathClean, if_pos (habs _), if_pos (habs _),
    clean_rooted hpath, clean_rooted hfolder, trimSeparators_rooted hne hfolder, cutPrefix]
  by_cases hpre : folder <+: path.dropLast
  · have htext := (rooted_sep_prefix_iff hne hfolder hpath).2 hpre
    rw [if_pos htext, decide_eq_true hpre]
    dsimp only
    rw [if_neg]
    -- a rest without a byte would be an empty last name
    intro hrest
    obtain ⟨rest, htext⟩ := htext
    rw [← htext, drop_left] at hrest
    rw [hrest, append_nil] at htext
    have hp : path ≠ [] := by
      rintro rfl
      exact hne (prefix_nil.1 hpre)
    have hsplit := @split_append_sep 47 (rooted 47 folder) []
    rw [htext, split_rooted_of_ne_nil hp hpath, split_rooted_of_ne_nil hne hfolder] at hsplit
    have hmem : [] ∈ path := by
      rw [cons_append, List.cons.injEq] at hsplit
      rw [hsplit.2]
      simp [split]
    exact (hpath _ hmem).ne_nil rfl
  · rw [if_neg fun htext => hpre ((rooted_sep_prefix_iff hne hfolder hpath).1 htext),
      decide_eq_false hpre]

section Local

variable {V : Type} {v : Volumes V} {c : Caller} {names : Path}

theorem StaticLocal.localPath_eq_none_iff (hv : StaticLocal v) {wd : Except Bytes Bytes}
    (hnames : ∀ name ∈ names, IsName 47 name) :
    localPath v wd (rooted 47 names) = none ↔ ∀ errno, walk v.fs v.links [] names = .error errno →
        errno = .noEntry ∨ errno = .notDirectory := by
  have hgate : localPath v wd (rooted 47 names) = none ↔ volumeLocal v names.reverse = none := by
    have hne : rooted 47 names ≠ [] := cons_ne_nil _ _
    rw [localPath, if_neg hne, absPath_rooted hnames]
    dsimp only
    rw [hv.unmarked, clean_rooted hnames, markedNetwork, any_nil,
      if_neg Bool.false_ne_true, hv.probe]
    dsimp only
    rw [resolve_split_rooted hnames, Option.map_eq_none_iff]
  rw [hgate]
  refine ⟨fun h errno hwalk => ?_, fun h => ?_⟩
  · by_contra hother
    rw [not_or] at hother
    exact not_local_of_error hnames hwalk hother.1 hother.2 h
  · clear hgate
    induction names using List.reverseRecOn with
    | nil =>
      have hat := @volumeAt_reverse _ v [] hnames
      rw [walk_nil] at hat
      rw [volumeLocal_of_volumeAt hat]
      exact hv.answer []
    | append_singleton names name ih =>
      have hat := @volumeAt_reverse _ v (names ++ [name]) hnames
      cases hwalk : walk v.fs v.links [] (names ++ [name]) with
      | ok r =>
        rw [hwalk] at hat
        rw [volumeLocal_of_volumeAt hat]
        exact hv.answer r.1
      | error errno =>
        rw [hwalk] at hat
        dsimp only at hat
        rw [if_neg (fun hno => (h errno hwalk).elim hno.1 hno.2)] at hat
        rw [volumeLocal_concat hat]
        refine ih (fun part hpart => hnames part (mem_append_left _ hpart)) ?_
        intro errno' hwalk'
        exact h errno' (walk_append_of_error hwalk')

variable {P p parent q : Path} {folder name path : Bytes} {k : ℕ} {x : Node}

theorem localPath_ne_empty {wd : Except Bytes Bytes} (hne : path ≠ []) :
    localPath v wd path ≠ some .empty := by
  intro h
  rw [localPath, if_neg hne] at h
  split at h
  · cases h
  · dsimp only at h
    split_ifs at h
    · cases h
    · split at h
      · rw [Option.map_eq_some_iff] at h
        obtain ⟨_, _, h⟩ := h
        cases h
      · cases h

theorem lstatAt_rooted {D : Path} (hnames : ∀ part ∈ parent ++ [name], IsName 47 part)
    (hwalk : walk v.fs v.links [] parent = .ok (D, k)) (hD : v.fs.node D = .ok .folder)
    (cwd : Path) :
    v.fs.lstatAt v.links cwd (rooted 47 (parent ++ [name])) = v.fs.node (D ++ [name]) := by
  have hne : rooted 47 (parent ++ [name]) ≠ [] := cons_ne_nil _ _
  have hbase : linkBase (rooted 47 (parent ++ [name])) cwd = [] := rfl
  have hname : proper name = true := proper_of_isName (hnames name (by simp))
  rw [FileSystem.lstatAt, if_neg hne, split_rooted_of_ne_nil (by simp) hnames, hbase, ← cons_append]
  dsimp only
  rw [List.getLast?_concat, dropLast_concat]
  dsimp only
  rw [if_pos hname, walk_dot v.fs.root_folder (.inl rfl), hwalk]
  dsimp only
  rw [hD]

theorem fileKey_rooted (hnames : ∀ name ∈ names, IsName 47 name) (cwd : Path) :
    fileKey v cwd (rooted 47 names) = (walk v.fs v.links [] names).map fun r => v.key r.1 := by
  have hne : rooted 47 names ≠ [] := cons_ne_nil _ _
  have hbase : linkBase (rooted 47 names) cwd = [] := rfl
  rw [fileKey, FileSystem.resolve, if_neg hne, hbase, walk_split_rooted hnames]
  cases walk v.fs v.links [] names <;> rfl

theorem StaticLocal.inside_missing (hv : StaticLocal v) {path D : Path}
    (hpath : ∀ part ∈ path, IsName 47 part) (hnames : ∀ part ∈ parent ++ [name], IsName 47 part)
    (hwalk : walk v.fs v.links [] parent = .ok (D, k)) (hD : v.fs.node D = .ok .folder)
    (hmissing : v.fs.node (D ++ [name]) = .error .noEntry) :
    inside v c (rooted 47 path) (rooted 47 (parent ++ [name])) =
      decide (parent ++ [name] <+: path.dropLast) := by
  have hname : proper name = true := proper_of_isName (hnames name (by simp))
  have hgone : ∀ tail, walk v.fs v.links [] (parent ++ [name] ++ tail) = .error .noEntry := by
    intro tail
    rw [append_assoc, walk_append_of_ok hwalk]
    exact walk_missing hD hname hmissing
  have hfolder : walk v.fs v.links [] (parent ++ [name]) = .error .noEntry := by
    have hself := hgone []
    rwa [append_nil] at hself
  have hlocal : localPath v c.wd (rooted 47 (parent ++ [name])) = none := by
    refine (hv.localPath_eq_none_iff hnames).2 fun errno herr => .inl ?_
    rw [hfolder] at herr
    cases herr
    rfl
  rw [inside, insideRel, withinRel, hlocal]
  cases hpathLocal : localPath v c.wd (rooted 47 path) with
  | none =>
    dsimp only
    rw [fileKey_rooted hnames, hfolder, Except.map]
    dsimp only
    rw [lstatAt_rooted hnames hwalk hD, hmissing]
    exact spelledInside_rooted hpath (by simp) hnames
  | some err =>
    -- a path below the folder is not there, and that is no reason to refuse it
    have hnot : ¬ parent ++ [name] <+: path.dropLast := by
      intro hpre
      obtain ⟨tail, htail⟩ := hpre.trans (List.dropLast_prefix path)
      have haccept := (@StaticLocal.localPath_eq_none_iff _ v path hv c.wd hpath).2
        fun errno herr => .inl (by rw [← htail, hgone] at herr; cases herr; rfl)
      rw [hpathLocal] at haccept
      cases haccept
    rw [decide_eq_false hnot]
    cases err with
    | empty => exact absurd hpathLocal (localPath_ne_empty (cons_ne_nil _ _))
    | notLocal p reason => rfl

theorem climb_spec {target : ℕ × ℕ} (h : climb v c target names.reverse = some q) :
    q <+: names ∧ hasKey v c target q = true := by
  rw [climb_eq target _ [], Option.map_eq_some_iff] at h
  obtain ⟨⟨found, below⟩, hfound, rfl⟩ := h
  obtain ⟨missing, rfl, -, hkey, -⟩ := deepest_eq_some hfound
  exact ⟨prefix_append _ _, hkey⟩

theorem StaticLocal.walk_of_hasKey (hv : StaticLocal v)
    (hP : v.fs.node P = .ok .folder) (hq : ∀ name ∈ q, IsName 47 name)
    (h : hasKey v c (v.key P) q = true) : ∃ k, walk v.fs v.links [] q = .ok (P, k) := by
  rw [hasKey, fileKey_rooted hq] at h
  cases hwalk : walk v.fs v.links [] q with
  | error errno =>
    rw [hwalk] at h
    cases h
  | ok r =>
    rw [hwalk] at h
    obtain ⟨y, hy, -⟩ := node_of_walk v.fs.root_folder (fun _ => by simp) hwalk
    have hkey : v.key r.1 = v.key P := of_decide_eq_true h
    exact ⟨r.2, by rw [hv.key P r.1 y hP hy hkey.symm]⟩

theorem StaticLocal.walk_of_node (hv : StaticLocal v)
    (h : v.fs.node p = .ok x) (hx : ∀ target, x ≠ .link target) (n : ℕ) :
    walk v.fs n [] p = .ok (p, n) := by
  rcases eq_nil_or_concat' p with rfl | ⟨up, name, rfl⟩
  · exact walk_nil _ _
  · have hup := v.fs.parent_folder _ _ _ h
    rw [walk_append_of_ok (hv.walk_of_folder hup n),
      walk_step hup (hv.proper_of_mem h (by simp)) h hx, walk_nil]

theorem StaticLocal.leads_of_resolved (hv : StaticLocal v) {existing missing real : Path}
    (hP : v.fs.node P = .ok .folder) (hempty : ∀ name, v.fs.node (P ++ [name]) = .error .noEntry)
    (hnames : ∀ name ∈ missing, IsName 47 name)
    (hwalk : walk v.fs v.links [] existing = .ok (real, k))
    (hmissing : ∀ m, m ≠ [] → m <+: missing → pathExists v (existing ++ m) = false)
    (hq : q <+: real ++ missing) (hkey : hasKey v c (v.key P) q = true) : real = P := by
  obtain ⟨y, hreal, hy⟩ := node_of_walk v.fs.root_folder (fun _ => by simp) hwalk
  have hall : ∀ name ∈ q, IsName 47 name := by
    intro name hname
    rcases mem_append.1 (hq.subset hname) with hmem | hmem
    · exact hv.names real y hreal name hmem
    · exact hnames name hmem
  obtain ⟨j, hfound⟩ := hv.walk_of_hasKey hP hall hkey
  rcases prefix_or_prefix_of_prefix hq (prefix_append real missing) with hup | hdown
  · by_cases hsame : q = real
    · rw [hsame] at hfound
      exact walk_unique (hv.walk_of_node hreal hy v.links) hfound
    · -- the folder is above what exists, but nothing is in it
      have hself := hv.walk_of_folder (folder_of_above hreal hup hsame) v.links
      obtain rfl : q = P := walk_unique hself hfound
      obtain ⟨rest, rfl⟩ := hup
      cases rest with
      | nil => exact append_nil q
      | cons name rest =>
        have hbelow : q ++ [name] <+: q ++ name :: rest := ⟨rest, by simp⟩
        exact absurd hbelow (not_prefix_of_node (hempty name) hreal)
  · obtain ⟨m, rfl⟩ := hdown
    rw [prefix_append_right_inj] at hq
    cases m with
    | nil =>
      rw [append_nil] at hfound
      exact walk_unique (hv.walk_of_node hreal hy v.links) hfound
    | cons name m =>
      -- what is missing leads nowhere
      rw [append_cons, walk_append] at hfound
      cases hfirst : walk v.fs v.links [] (real ++ [name]) with
      | error errno =>
        rw [hfirst] at hfound
        cases hfound
      | ok r =>
        rw [walk_append_of_ok (hv.walk_of_node hreal hy v.links)] at hfirst
        obtain ⟨rest, hrest⟩ := hq
        have hname : IsName 47 name := hnames name (by rw [← hrest]; simp)
        obtain ⟨hfolder, x, hx⟩ := folder_of_walk_name (proper_of_isName hname) hfirst
        have hno := hmissing [name] (by simp) ⟨m ++ rest, by rw [← hrest]; simp⟩
        rw [pathExists_concat hwalk hfolder, hx] at hno
        cases hno

theorem insideRel_of_error {err : PathError} (hwithin : withinRel v c path folder = .error err)
    (hexists : v.fs.lstatAt v.links c.cwd folder ≠ .error .noEntry) :
    insideRel v c path folder = .error err := by
  rw [insideRel, hwithin]
  split
  next h => cases h
  next h =>
    cases h
    rfl
  next h =>
    cases h
    split
    next hno => exact absurd hno hexists
    · rfl

theorem withinRel_of_inside (h : inside v c path folder = true)
    (hexists : v.fs.lstatAt v.links c.cwd folder ≠ .error .noEntry) :
    ∃ rel, withinRel v c path folder = .ok (rel, true) := by
  rw [inside] at h
  cases hwithin : withinRel v c path folder with
  | ok r =>
    obtain ⟨rel, answer⟩ := r
    rw [insideRel, hwithin] at h
    dsimp only at h
    exact ⟨rel, by rw [h]⟩
  | error err =>
    rw [insideRel_of_error hwithin hexists] at h
    cases h

theorem climb_of_withinRel {rel : Path} {target : ℕ × ℕ}
    (hkey : fileKey v c.cwd folder = .ok target) (h : withinRel v c path folder = .ok (rel, true)) :
    localPath v c.wd path = none ∧ ∃ resolved q,
      resolveExisting v c path false = .ok resolved ∧ resolved ≠ [] ∧
        climb v c target resolved.dropLast.reverse = some q := by
  rw [withinRel, hkey] at h
  split at h
  · cases h
  · cases h
  next hpath =>
    refine ⟨hpath, ?_⟩
    dsimp only at h
    split at h
    · cases h
    next resolved hresolved =>
      split at h
      next q hclimb =>
        refine ⟨resolved, q, hresolved, ?_, hclimb⟩
        rintro rfl
        simp at h
      · cases h

theorem StaticLocal.inside_created (hv : StaticLocal v) (hlinks : v.links ≤ c.evalLinks)
    {path : Path} (hpath : ∀ part ∈ path, IsName 47 part)
    (hnames : ∀ part ∈ parent ++ [name], IsName 47 part)
    (hwalk : walk v.fs v.links [] (parent ++ [name]) = .ok (P, k)) (hroot : P ≠ [])
    (hP : v.fs.node P = .ok .folder) (hempty : ∀ name, v.fs.node (P ++ [name]) = .error .noEntry) :
    inside v c (rooted 47 path) (rooted 47 (parent ++ [name])) = true ↔
      ∃ e j, e <+: path.dropLast ∧ walk v.fs v.links [] e = .ok (P, j) := by
  have hlocal : localPath v c.wd (rooted 47 (parent ++ [name])) = none := by
    refine (hv.localPath_eq_none_iff hnames).2 fun errno herr => ?_
    rw [hwalk] at herr
    cases herr
  have hkey : fileKey v c.cwd (rooted 47 (parent ++ [name])) = .ok (v.key P) := by
    rw [fileKey_rooted hnames, hwalk]
    rfl
  constructor
  · intro h
    have hexists : v.fs.lstatAt v.links c.cwd (rooted 47 (parent ++ [name])) ≠ .error .noEntry := by
      have hlast := hwalk
      rw [walk_append] at hlast
      cases hparent : walk v.fs v.links [] parent with
      | error errno =>
        rw [hparent] at hlast
        cases hlast
      | ok r =>
        rw [hparent] at hlast
        obtain ⟨hD, x, hx⟩ := folder_of_walk_name (proper_of_isName (hnames name (by simp))) hlast
        rw [lstatAt_rooted hnames hparent hD, hx]
        exact fun h => by cases h
    obtain ⟨rel, hwithin⟩ := withinRel_of_inside h hexists
    obtain ⟨hpathLocal, resolved, q, hresolved, hne, hclimb⟩ := climb_of_withinRel hkey hwithin
    obtain ⟨abs, existing, missing, real, i, -, habs, habove, -, hmissing, hreal, rfl⟩ :=
      deepest_of_resolveExisting hresolved
    rw [absPath_rooted hpath] at habs
    cases habs
    rw [if_neg Bool.false_ne_true, resolve_split_rooted hpath] at habove
    rw [resolve_split_rooted hpath] at hclimb hne
    -- too many links for the system would have been refused with the path
    obtain ⟨j, hlead⟩ : ∃ j, walk v.fs v.links [] existing = .ok (real, j) := by
      rcases walk_ok_or_loop hreal v.links with hok | hloop
      · exact hok
      · obtain ⟨tail, htail⟩ := dropLast_prefix path
        have hall : walk v.fs v.links [] path = .error .loop := by
          rw [← htail, habove, append_assoc]
          exact walk_append_of_error hloop
        have hno := (hv.localPath_eq_none_iff hpath).1 hpathLocal _ hall
        rcases hno with hno | hno
        · cases hno
        · cases hno
    have hsub : ∀ part ∈ missing, IsName 47 part := fun part hpart =>
      hpath part ((List.dropLast_prefix path).subset (by rw [habove]; simp [hpart]))
    obtain ⟨hq, hkeyq⟩ := climb_spec hclimb
    have hdir : q <+: real ++ missing := by
      rcases eq_nil_or_concat' path with rfl | ⟨above, last, rfl⟩
      · obtain ⟨rfl, rfl⟩ := append_eq_nil_iff.1 habove.symm
        rw [walk_nil] at hreal
        cases hreal
        exact absurd rfl hne
      · rw [dropLast_concat] at habove
        subst habove
        rwa [drop_left, ← append_assoc, dropLast_concat] at hq
    have hsame := hv.leads_of_resolved hP hempty hsub hlead hmissing hdir hkeyq
    exact ⟨existing, j, ⟨missing, habove.symm⟩, by rw [← hsame]; exact hlead⟩
  · rintro ⟨e, j, ⟨m, hm⟩, hlead⟩
    rcases eq_nil_or_concat' path with rfl | ⟨above, last, rfl⟩
    · rw [dropLast_nil, append_eq_nil_iff] at hm
      rw [hm.1, walk_nil] at hlead
      cases hlead
      exact absurd rfl hroot
    rw [dropLast_concat] at hm
    subst hm
    have hbelow : ∀ part ∈ m, IsName 47 part := fun part hpart => hpath part (by simp [hpart])
    have hno : ∀ part ∈ m.head?, ∀ x, v.fs.node (P ++ [part]) ≠ .ok x := by
      intro part _ x hx
      rw [hempty] at hx
      cases hx
    have hcreated : CreatedIn v [] (e ++ m) (P ++ m) := ⟨e, m, P, j, rfl, hlead, hP, hno, rfl⟩
    have hresolved := (@resolveExisting_of_createdIn _ v c _ _ last hpath hcreated).2 hlinks
    have hpathLocal : localPath v c.wd (rooted 47 (e ++ m ++ [last])) = none := by
      refine (hv.localPath_eq_none_iff hpath).2 fun errno herr => .inl ?_
      obtain ⟨first, tail, htail⟩ := exists_cons_of_ne_nil (l := m ++ [last]) (by simp)
      have hfirst : proper first = true := proper_of_isName (hpath first (by simp [htail]))
      rw [append_assoc, walk_append_of_ok hlead, htail,
        walk_missing hP hfirst (hempty first)] at herr
      cases herr
      rfl
    have hresolve : v.fs.resolve v.links c.cwd (rooted 47 (parent ++ [name])) = .ok P := by
      have hne : rooted 47 (parent ++ [name]) ≠ [] := cons_ne_nil _ _
      have hbase : linkBase (rooted 47 (parent ++ [name])) c.cwd = [] := rfl
      rw [FileSystem.resolve, if_neg hne, hbase, walk_split_rooted hnames, hwalk]
      rfl
    rw [inside, insideRel,
      hv.withinRel_eq hP hresolve hP hbelow hno rfl hlocal hpathLocal hresolved,
      if_pos (prefix_append P m)]

theorem node_create_ok {y : Node} {key : ℕ × ℕ} {hne : p ≠ []}
    {hparent : v.fs.node p.dropLast = .ok .folder}
    (h : (v.create p x key hne hparent).fs.node q = .ok y) :
    q = p ∨ q ≠ p ∧ v.fs.node q = .ok y := by
  by_cases hq : q = p
  · exact .inl hq
  · change v.fs.nodeWith p x q = .ok y at h
    rw [FileSystem.nodeWith, if_neg hq] at h
    split_ifs at h
    exact .inr ⟨hq, h⟩

theorem StaticLocal.create (hv : StaticLocal v) {key : ℕ × ℕ}
    {hne : p ≠ []} {hparent : v.fs.node p.dropLast = .ok .folder}
    (hnames : ∀ name ∈ p, IsName 47 name) (hfresh : ∀ q y, v.fs.node q = .ok y → v.key q ≠ key) :
    StaticLocal (v.create p x key hne hparent) := by
  refine ⟨fun q => ?_, hv.unmarked, hv.probe, fun q y hq => ?_, fun q r y hq hr hkey => ?_⟩
  · change v.answer (Function.update v.volume p (v.volume p.dropLast) q) = none
    rw [Function.update_apply]
    split_ifs
    · exact hv.answer _
    · exact hv.answer _
  · rcases node_create_ok hq with rfl | ⟨-, hq⟩
    · exact hnames
    · exact hv.names q y hq
  · have hself : (v.create p x key hne hparent).key p = key := Function.update_self ..
    have hold : ∀ s, s ≠ p → (v.create p x key hne hparent).key s = v.key s :=
      fun s hs => Function.update_of_ne hs ..
    rcases node_create_ok hq with hqp | ⟨hqp, hq⟩
    · rcases node_create_ok hr with hrp | ⟨hrp, hr⟩
      · rw [hqp, hrp]
      · rw [hqp, hself, hold r hrp] at hkey
        exact absurd hkey.symm (hfresh r y hr)
    · rcases node_create_ok hr with hrp | ⟨hrp, hr⟩
      · rw [hrp, hself, hold q hqp] at hkey
        exact absurd hkey (hfresh q _ hq)
      · rw [hold q hqp, hold r hrp] at hkey
        exact hv.key q r y hq hr hkey

end Local

/-- Before a missing folder is created `inside` answers whether the path is spelled below it, and
after, whether a component above the path leads to it. The answers are the same exactly if none
does, unless the path is spelled below it. -/
theorem inside_create_iff {V : Type} (v : Volumes V) (hv : StaticLocal v) (c : Caller)
    (hlinks : v.links ≤ c.evalLinks) (path parent : Path) (name : Bytes)
    (hpath : ∀ part ∈ path, IsName 47 part)
    (hnames : ∀ part ∈ parent ++ [name], IsName 47 part) (D : Path) (k : ℕ)
    (hwalk : walk v.fs v.links [] parent = .ok (D, k))
    (hparent : v.fs.node (D ++ [name]).dropLast = .ok .folder)
    (hmissing : v.fs.node (D ++ [name]) = .error .noEntry) (key : ℕ × ℕ)
    (hfresh : ∀ q x, v.fs.node q = .ok x → v.key q ≠ key) (v' : Volumes V)
    (hcreate : v' = v.create (D ++ [name]) .folder key (by simp) hparent) :
    (inside v c (rooted 47 path) (rooted 47 (parent ++ [name])) = true ↔
        parent ++ [name] <+: path.dropLast) ∧
      (inside v' c (rooted 47 path) (rooted 47 (parent ++ [name])) = true ↔
        ∃ e j, e <+: path.dropLast ∧ walk v'.fs v'.links [] e = .ok (D ++ [name], j)) ∧
      (inside v c (rooted 47 path) (rooted 47 (parent ++ [name])) =
          inside v' c (rooted 47 path) (rooted 47 (parent ++ [name])) ↔
        ((∃ e j, e <+: path.dropLast ∧ walk v'.fs v'.links [] e = .ok (D ++ [name], j)) →
          parent ++ [name] <+: path.dropLast)) := by
  have hD : v.fs.node D = .ok .folder := by
    rwa [dropLast_concat] at hparent
  have hname : IsName 47 name := hnames name (by simp)
  have hext : ∀ q x, v.fs.node q = .ok x → v'.fs.node q = .ok x := by
    intro q x hq
    rw [hcreate]
    exact @node_create_of_ok v.fs _ _ (by simp) hparent _ _ _ hmissing hq
  have hnew : v'.fs.node (D ++ [name]) = .ok .folder := by
    rw [hcreate]
    exact @node_create_self v.fs _ _ (by simp) hparent
  have hempty : ∀ below, v'.fs.node (D ++ [name] ++ [below]) = .error .noEntry := by
    intro below
    rw [hcreate]
    exact @node_create_below v.fs _ _ (by simp) hparent below
  have hv' : StaticLocal v' := by
    rw [hcreate]
    refine hv.create (fun part hpart => ?_) hfresh
    rcases mem_append.1 hpart with hpart | hpart
    · exact hv.names D _ hD part hpart
    · rw [mem_singleton.1 hpart]
      exact hname
  have hsame : v'.links = v.links := by
    rw [hcreate]
    rfl
  have hwalk' : walk v'.fs v'.links [] (parent ++ [name]) = .ok (D ++ [name], k) := by
    rw [hsame, walk_append_of_ok ((walk_extend hext hwalk v.links).trans hwalk),
      walk_step (hext D _ hD) (proper_of_isName hname) hnew (fun _ => by simp), walk_nil]
  have hafter :=
    hv'.inside_created (hsame.le.trans hlinks) hpath hnames hwalk' (by simp) hnew hempty
  have hbefore := @StaticLocal.inside_missing _ v c _ _ _ hv _ _ hpath hnames hwalk hD hmissing
  refine ⟨by rw [hbefore, decide_eq_true_iff], hafter, ?_⟩
  rw [hbefore, Bool.eq_iff_iff, decide_eq_true_iff, hafter]
  exact ⟨fun h => h.2, fun h => ⟨fun hpre => ⟨_, k, hpre, hwalk'⟩, h⟩⟩

/-- `/alias` leads to `/dir`, which gets a folder `new`. -/
theorem inside_alias_changes :
    inside placeVolumes ⟨.ok [47], [], 255⟩ (ascii "/alias/new/x") (ascii "/dir/new") = false ∧
      inside (placeVolumes.create [ascii "dir", ascii "new"] .folder (1, 9) (by decide) rfl)
        ⟨.ok [47], [], 255⟩ (ascii "/alias/new/x") (ascii "/dir/new") = true := by
  decide +kernel

/-- A path below `/dir/new` by its own spelling is answered alike before and after. -/
theorem inside_create_iff_dir :
    inside placeVolumes ⟨.ok [47], [], 255⟩ (rooted 47 [ascii "dir", ascii "new", ascii "x"])
        (rooted 47 ([ascii "dir"] ++ [ascii "new"])) =
      inside (placeVolumes.create ([ascii "dir"] ++ [ascii "new"]) .folder (1, 9) (by decide) rfl)
        ⟨.ok [47], [], 255⟩ (rooted 47 [ascii "dir", ascii "new", ascii "x"])
        (rooted 47 ([ascii "dir"] ++ [ascii "new"])) := by
  have hstatic : StaticLocal placeVolumes := staticLocal_finiteVolumes (by decide)
  have hnames : ∀ parts : Path, parts.all isNameOf = true → ∀ part ∈ parts, IsName 47 part :=
    fun parts h part hpart => isNameOf_iff.1 (all_eq_true.1 h part hpart)
  refine (inside_create_iff placeVolumes hstatic ⟨.ok [47], [], 255⟩ ?_
    [ascii "dir", ascii "new", ascii "x"] [ascii "dir"] (ascii "new") (hnames _ (by decide))
    (hnames _ (by decide)) [ascii "dir"] 40 (by decide +kernel) rfl rfl (1, 9) ?_ _ rfl).2.2.2 ?_
  · change 40 ≤ 255
    decide
  · intro q x _ hkey
    have hle : ([] :: placeEntries.map Prod.fst).idxOf q ≤
        ([] :: placeEntries.map Prod.fst).length := idxOf_le_length
    have hnine : ([] :: placeEntries.map Prod.fst).idxOf q = 9 := (Prod.mk.inj hkey).2
    rw [hnine] at hle
    exact absurd hle (by decide)
  · exact fun _ => by decide

end Unix
