import AbstractionIdentity.Unix.Containment
import Mathlib.Logic.Equiv.List

/-!
# Two spellings of one directory

`resolveExisting` cleans a path before it follows links. `Respects p`: no file system makes `within`
answer for the spelling `p` of a directory otherwise than for one in which no `..` takes away a
name. It holds exactly if `p` is such a spelling itself (`within_respects_iff`).
-/

namespace Unix

open Text List

/-! ## Paths that end in a name -/

def Spelled (path : Bytes) (init : List Bytes) (name : Bytes) : Prop :=
  isAbs path = true ∧ proper name = true ∧
    ∃ tail, split 47 path = init ++ name :: tail ∧ ∀ part ∈ tail, part = [] ∨ part = [46]

def NamesFolder {V : Type} (v : Volumes V) (path : Bytes) (p : Path) : Prop :=
  ∃ init name Q k, Spelled path init name ∧ walk v.fs v.links [] init = .ok (Q, k) ∧
    v.fs.node (Q ++ [name]) = .ok .folder ∧ p = Q ++ [name]

section Spelled

variable {path name : Bytes} {init tail : List Bytes}

theorem walk_dots {fs : FileSystem} {p : Path} (hp : fs.node p = .ok .folder)
    (htail : ∀ part ∈ tail, part = [] ∨ part = [46]) (n : ℕ) :
    walk fs n p tail = .ok (p, n) := by
  induction tail with
  | nil => exact walk_nil n p
  | cons part tail ih =>
    rw [walk_dot hp (htail part mem_cons_self)]
    exact ih fun part' hpart => htail part' (mem_cons_of_mem _ hpart)

theorem resolve_dots (base : Path) (htail : ∀ part ∈ tail, part = [] ∨ part = [46]) :
    resolve base tail = base := by
  induction tail with
  | nil => rfl
  | cons part tail ih =>
    have hstep : resolve base (part :: tail) = resolve (resolveStep base part) tail := rfl
    rw [hstep, resolveStep, if_pos (htail part mem_cons_self)]
    exact ih fun part' hpart => htail part' (mem_cons_of_mem _ hpart)

theorem Spelled.isName (h : Spelled path init name) : IsName 47 name := by
  obtain ⟨-, hname, tail, hsplit, -⟩ := h
  obtain ⟨hnil, hdot, hdotdot⟩ := proper_iff.1 hname
  exact ⟨hnil, hdot, hdotdot, sep_not_mem_split (s := path) (by rw [hsplit]; simp)⟩

theorem Spelled.resolve_split (h : Spelled path init name) :
    resolve [] (split 47 path) = resolve [] init ++ [name] := by
  obtain ⟨-, hname, tail, hsplit, htail⟩ := h
  obtain ⟨hnil, hdot, hdotdot⟩ := proper_iff.1 hname
  have happend : resolve [] (init ++ name :: tail) =
      resolve (resolveStep (resolve [] init) name) tail := by
    rw [resolve, foldl_append]
    rfl
  rw [hsplit, happend, resolveStep, if_neg (not_or.2 ⟨hnil, hdot⟩), if_neg hdotdot]
  exact resolve_dots _ htail

theorem cancels_append (h : Cancels init) (parts : List Bytes) : Cancels (init ++ parts) := by
  induction init with
  | nil => cases h
  | cons part init ih =>
    rw [Cancels] at h
    rw [cons_append, Cancels]
    split_ifs at h ⊢ with hpart
    · exact mem_append_left _ h
    · exact ih h

theorem cancels_of_append_name (hname : proper name = true)
    (htail : ∀ part ∈ tail, part = [] ∨ part = [46]) (h : Cancels (init ++ name :: tail)) :
    Cancels init := by
  have hup : [46, 46] ∉ name :: tail := by
    rw [mem_cons, not_or]
    refine ⟨(proper_iff.1 hname).2.2.symm, fun hmem => ?_⟩
    rcases htail _ hmem with hno | hno <;> cases hno
  induction init with
  | nil =>
    rw [nil_append, Cancels, if_pos hname] at h
    exact absurd (mem_cons_of_mem _ h) hup
  | cons part init ih =>
    rw [cons_append, Cancels] at h
    rw [Cancels]
    split_ifs at h ⊢ with hpart
    · exact (mem_append.1 h).resolve_right hup
    · exact ih h

theorem not_cancels_of_not_mem {parts : List Bytes} (h : [46, 46] ∉ parts) : ¬ Cancels parts := by
  induction parts with
  | nil => exact id
  | cons part parts ih =>
    rw [mem_cons, not_or] at h
    rw [Cancels]
    split_ifs
    · exact h.2
    · exact ih h.2

theorem NamesFolder.resolve {V : Type} {v : Volumes V} {p : Path} (h : NamesFolder v path p)
    (cwd : Path) : v.fs.resolve v.links cwd path = .ok p ∧ v.fs.node p = .ok .folder := by
  obtain ⟨init, name, Q, k, ⟨habs, hname, tail, hsplit, htail⟩, hwalk, hnode, rfl⟩ := h
  refine ⟨?_, hnode⟩
  have hne : path ≠ [] := by
    rintro rfl
    cases habs
  rw [FileSystem.resolve, if_neg hne, linkBase_of_isAbs habs, hsplit, walk_append_of_ok hwalk,
    walk_name (v.fs.parent_folder _ _ _ hnode) hname hnode, walk_dots hnode htail]
  rfl

end Spelled

section Within

variable {V : Type} {v : Volumes V} {c : Caller} {path name : Bytes} {init : List Bytes}

theorem resolveExisting_of_spelled (h : Spelled path init name) {D : Path} {k : ℕ}
    (hlinks : v.links ≤ c.evalLinks) (hwalk : walk v.fs v.links [] (resolve [] init) = .ok (D, k)) :
    resolveExisting v c path false = .ok (D ++ [name]) := by
  have habs : absPath c.wd path = .ok (clean 47 path) := if_pos h.1
  have hne : path ≠ [] := by
    rintro rfl
    cases h.1
  have hnames : resolve [] (split 47 (clean 47 path)) = resolve [] init ++ [name] := by
    rw [resolve_split_clean, h.resolve_split]
  have hproper : ∀ part ∈ resolve [] init, proper part = true := by
    intro part hpart
    have hmem : part ∈ resolve [] (split 47 path) := by
      rw [h.resolve_split]
      exact mem_append_left _ hpart
    exact proper_of_isName (isName_of_mem_resolve hmem)
  obtain ⟨d, hd⟩ := Nat.exists_eq_add_of_le hlinks
  have hreal := walk_mono hwalk d
  rw [← hd] at hreal
  refine (@resolveExisting_of_deepest _ v c path _ false (resolve [] init) [] _ hne habs
    (by rw [if_neg Bool.false_ne_true, hnames, dropLast_concat, append_nil])
    (pathExists_of_walk hproper hwalk) fun m hm hgrown => absurd (prefix_nil.1 hgrown) hm).2
    ⟨_, _, hreal, ?_⟩
  rw [hnames, append_nil, drop_left]
  rfl

theorem withinRel_congr {p q f : Bytes} (hlocal : localPath v c.wd p = localPath v c.wd q)
    (hresolve : resolveExisting v c p false = resolveExisting v c q false) :
    withinRel v c p f = withinRel v c q f := by
  rw [withinRel, withinRel, hlocal, hresolve]

theorem StaticLocal.of_spelled (hv : StaticLocal v) {p : Path} (hlinks : v.links ≤ c.evalLinks)
    (hcancel : ¬ Cancels (split 47 path)) (h : NamesFolder v path p) :
    localPath v c.wd path = none ∧ resolveExisting v c path false = .ok p := by
  obtain ⟨init, name, Q, k, hspelled, hwalk, hnode, rfl⟩ := h
  obtain ⟨habs, hname, tail, hsplit, htail⟩ := id hspelled
  have hinit : ¬ Cancels init := fun hc => hcancel (by rw [hsplit]; exact cancels_append hc _)
  have hclean : walk v.fs v.links [] (Text.resolve [] init) = .ok (Q, k) := by
    rcases @walk_clean v.fs init hinit v.links with hfail | hsame
    · rw [hwalk] at hfail
      cases hfail
    · rw [hsame, hwalk]
  refine ⟨hv.localPath_of_walk habs (r := (Q ++ [name], k)) ?_,
    resolveExisting_of_spelled hspelled hlinks hclean⟩
  rw [hspelled.resolve_split, walk_append_of_ok hclean,
    walk_name (v.fs.parent_folder _ _ _ hnode) hname hnode, walk_nil]

theorem StaticLocal.eq_of_sameFile (hv : StaticLocal v) {p q : Bytes} {P Q : Path}
    (hp : NamesFolder v p P) (hq : NamesFolder v q Q) (hsame : sameFile v c p q = .ok true) :
    P = Q := by
  obtain ⟨hstatP, hP⟩ := hp.resolve c.cwd
  obtain ⟨hstatQ, hQ⟩ := hq.resolve c.cwd
  rw [sameFile] at hsame
  split at hsame
  · cases hsame
  · cases hsame
  · rw [fileKey, fileKey, hstatP, hstatQ] at hsame
    exact hv.key P Q _ hP hQ (of_decide_eq_true (Except.ok.inj hsame))

end Within

/-- In no file system is the spelling `p` of a folder answered for otherwise than a spelling of
the same folder in which no `..` takes away a name. -/
def Respects (p : Bytes) : Prop :=
  ∀ (V : Type) (v : Volumes V) (c : Caller) (q f : Bytes) (P Q F : Path), StaticLocal v →
    v.links ≤ c.evalLinks → ¬ Cancels (split 47 q) → NamesFolder v p P → NamesFolder v q Q →
    v.fs.resolve v.links c.cwd f = .ok F → v.fs.node F = .ok .folder →
    sameFile v c p q = .ok true → within v c p f = within v c q f

theorem respects_of_not_cancels {p : Bytes} (h : ¬ Cancels (split 47 p)) : Respects p := by
  intro V v c q f P Q F hv hlinks hq hP hQ hf hF hsame
  obtain rfl := hv.eq_of_sameFile hP hQ hsame
  obtain ⟨hlocalP, hresolveP⟩ := @StaticLocal.of_spelled _ v c p hv P hlinks h hP
  obtain ⟨hlocalQ, hresolveQ⟩ := @StaticLocal.of_spelled _ v c q hv P hlinks hq hQ
  rw [within, within]
  refine congrArg _ (withinRel_congr ?_ ?_)
  · rw [hlocalP, hlocalQ]
  · rw [hresolveP, hresolveQ]

/-! ## A file system that holds names only -/

def FileSystem.named (fs : FileSystem) : FileSystem where
  node p := if p.all isNameOf then fs.node p else .error .noEntry
  root_folder := fs.root_folder
  parent_folder p name x hx := by
    split_ifs at hx with hall
    rw [List.all_append, Bool.and_eq_true] at hall
    rw [if_pos hall.1]
    exact fs.parent_folder p name x hx

theorem node_named {fs : FileSystem} {p : Path} (h : p.all isNameOf = true) :
    fs.named.node p = fs.node p := if_pos h

theorem walk_named {fs : FileSystem} (n : ℕ) {here : Path} {parts : List Bytes}
    (hhere : here.all isNameOf = true) (hparts : ∀ part ∈ parts, 47 ∉ part) :
    walk fs.named n here parts = walk fs n here parts := by
  induction n using Nat.strong_induction_on generalizing here parts with
  | _ n ihn =>
    induction parts generalizing here with
    | nil => rw [walk_nil, walk_nil]
    | cons part parts ih =>
      have hrest := fun part' hp => hparts part' (mem_cons_of_mem part hp)
      rw [walk_cons, walk_cons, node_named hhere]
      split
      · split_ifs with hdot hup
        · exact ih hhere hrest
        · refine ih (all_eq_true.2 fun name hname => ?_) hrest
          exact all_eq_true.1 hhere name (dropLast_subset here hname)
        · have hname : isNameOf part = true := by
            rw [isNameOf_iff]
            exact ⟨fun h => hdot (.inl h), fun h => hdot (.inr h), hup,
              hparts part mem_cons_self⟩
          have hnext : (here ++ [part]).all isNameOf = true := by
            rw [all_append, hhere, all_cons, hname]
            rfl
          rw [node_named hnext]
          split
          · rfl
          · rfl
          next target m hnode =>
            refine ihn m (Nat.lt_succ_self m) ?_ fun part' hp => ?_
            · rw [linkBase]
              split_ifs
              · rfl
              · exact hhere
            · rcases mem_append.1 hp with hp | hp
              · exact sep_not_mem_split hp
              · exact hrest part' hp
          · exact ih hnext hrest
      · rfl

def plainVolumes (fs : FileSystem) : Volumes Unit where
  fs := fs.named
  links := 40
  volume _ := ()
  answer _ := none
  key p := (0, Encodable.encode (p.map fun name => name.map UInt8.toNat))
  strerror _ := []
  networkVolumes := []
  probe := .answered

theorem staticLocal_plainVolumes (fs : FileSystem) : StaticLocal (plainVolumes fs) := by
  refine ⟨fun _ => rfl, rfl, rfl, fun p x hx name hname => ?_, fun p q x _ _ hkey => ?_⟩
  · have hall : p.all isNameOf = true := by
      by_contra hno
      have hnode : (plainVolumes fs).fs.node p = .error .noEntry := if_neg hno
      rw [hnode] at hx
      cases hx
    exact isNameOf_iff.1 (all_eq_true.1 hall name hname)
  · have hencode := Encodable.encode_injective (Prod.mk.inj hkey).2
    have hbyte : Function.Injective UInt8.toNat := fun a b hab => UInt8.toNat_inj.1 hab
    exact map_injective_iff.2 (map_injective_iff.2 hbyte) hencode

/-! ## A link that leads away from the cleaned path -/

section Detour

variable {names : Path} {hnames : names ≠ []} {z : Bytes} {depth : ℕ}

def plainDetour (names : Path) (hnames : names ≠ []) (z : Bytes) (depth : ℕ) : Volumes Unit :=
  plainVolumes (detourVolumes names hnames z depth).fs

theorem walk_plainDetour (n : ℕ) {parts : List Bytes} (hparts : ∀ part ∈ parts, 47 ∉ part) :
    walk (plainDetour names hnames z depth).fs n [] parts =
      walk (detourVolumes names hnames z depth).fs n [] parts :=
  walk_named n rfl hparts

theorem folder_of_walk_plainDetour {n : ℕ} {parts : List Bytes} {r : Path × ℕ}
    (h : walk (plainDetour names hnames z depth).fs n [] parts = .ok r) :
    (plainDetour names hnames z depth).fs.node r.1 = .ok .folder := by
  obtain ⟨y, hy, hnolink⟩ := node_of_walk (plainDetour names hnames z depth).fs.root_folder
    (fun _ => by simp) h
  rw [hy]
  have hnode : (detourVolumes names hnames z depth).fs.node r.1 = .ok y := by
    have hnamed : (detourVolumes names hnames z depth).fs.named.node r.1 = .ok y := hy
    rw [FileSystem.named] at hnamed
    dsimp only at hnamed
    split_ifs at hnamed
    exact hnamed
  rw [detourVolumes, detour] at hnode
  dsimp only at hnode
  split_ifs at hnode
  · cases hnode
    exact absurd rfl (hnolink _)
  · cases hnode
    rfl

end Detour

theorem StaticLocal.within_rooted {V : Type} {v : Volumes V} (hv : StaticLocal v) {c : Caller}
    {path name : Bytes} {init : List Bytes} {D F : Path} {k : ℕ} (hspelled : Spelled path init name)
    (hlinks : v.links ≤ c.evalLinks) (hwalk : walk v.fs v.links [] (resolve [] init) = .ok (D, k))
    (hD : v.fs.node D = .ok .folder) (hF : v.fs.node F = .ok .folder)
    (hlocal : localPath v c.wd path = none) :
    within v c path (rooted 47 F) = .ok (decide (F <+: D)) := by
  have hrel := @StaticLocal.withinRel_eq _ v c F D [] hv path (rooted 47 F) D name hF
    (hv.resolve_rooted hF c.cwd) hD (fun _ hno => by cases hno) (fun _ hno => by cases hno)
    (append_nil D).symm (hv.localPath_rooted hF c.wd) hlocal
    (resolveExisting_of_spelled hspelled hlinks hwalk)
  rw [within, hrel]
  by_cases hpre : F <+: D
  · rw [if_pos hpre, decide_eq_true hpre]
    rfl
  · rw [if_neg hpre, decide_eq_false hpre]
    rfl

theorem spelled_rooted {names : Path} {name : Bytes}
    (hnames : ∀ part ∈ names ++ [name], IsName 47 part) :
    Spelled (rooted 47 (names ++ [name])) ([] :: names) name := by
  refine ⟨rfl, proper_of_isName (hnames name (by simp)), [], ?_, fun _ hno => by cases hno⟩
  have hne : names ++ [name] ≠ [] := by simp
  rw [rooted, split, if_pos rfl, split_join hne,
    pieces_eq_self fun part hpart => (hnames part hpart).no_sep]
  rfl

theorem StaticLocal.not_respects {V : Type} {v : Volumes V} (hv : StaticLocal v)
    (hmax : v.links ≤ 255) {p name : Bytes} {init : List Bytes} {P Q : Path} {k l : ℕ}
    {r : Path × ℕ} (hp : Spelled p init name) (hread : walk v.fs v.links [] init = .ok (Q, k))
    (hnode : v.fs.node (Q ++ [name]) = .ok .folder)
    (hclean : walk v.fs v.links [] (resolve [] init) = .ok (P, l))
    (hfolder : v.fs.node P = .ok .folder)
    (hwhole : walk v.fs v.links [] (resolve [] init ++ [name]) = .ok r) (hapart : P ≠ Q) :
    ¬ Respects p := by
  let c : Caller := ⟨.ok [47], [], 255⟩
  have hlinks : v.links ≤ c.evalLinks := hmax
  have hfolderQ := v.fs.parent_folder Q name _ hnode
  have hnames : ∀ part ∈ Q ++ [name], IsName 47 part := hv.names _ _ hnode
  have hspelled := spelled_rooted hnames
  -- the folder by its own path
  have hQ : NamesFolder v (rooted 47 (Q ++ [name])) (Q ++ [name]) := by
    refine ⟨_, name, Q, v.links, hspelled, ?_, hnode, rfl⟩
    rw [walk_dot v.fs.root_folder (.inl rfl)]
    exact hv.walk_of_folder hfolderQ v.links
  have hcancel : ¬ Cancels (split 47 (rooted 47 (Q ++ [name]))) := by
    obtain ⟨-, hname, tail, hsplit, htail⟩ := hspelled
    rw [hsplit]
    refine fun hc => not_cancels_of_not_mem ?_ (cancels_of_append_name hname htail hc)
    rintro (_ | ⟨-, hmem⟩)
    exact (hnames _ (mem_append_left _ hmem)).ne_dotdot rfl
  obtain ⟨hlocalQ, -⟩ := @StaticLocal.of_spelled _ v c _ hv _ hlinks hcancel hQ
  have hresolveQ : walk v.fs v.links [] (resolve [] ([] :: Q)) = .ok (Q, v.links) := by
    have hskip : resolve [] ([] :: Q) = resolve [] Q := rfl
    rw [hskip, resolve_of_names fun part hpart => hnames part (mem_append_left _ hpart), nil_append]
    exact hv.walk_of_folder hfolderQ v.links
  -- and by the spelling
  have hP : NamesFolder v p (Q ++ [name]) := ⟨init, name, Q, k, hp, hread, hnode, rfl⟩
  have hlocalP : localPath v c.wd p = none := by
    have hend : walk v.fs v.links [] (resolve [] (split 47 p)) = .ok r := by
      rw [hp.resolve_split]
      exact hwhole
    exact hv.localPath_of_walk hp.1 hend
  have hsame : sameFile v c p (rooted 47 (Q ++ [name])) = .ok true := by
    rw [sameFile, hlocalP, hlocalQ]
    dsimp only
    rw [fileKey, fileKey, (hP.resolve c.cwd).1, (hQ.resolve c.cwd).1]
    simp [Except.map]
  intro hrespects
  have hanswer : ∀ F, v.fs.node F = .ok .folder → (F <+: P ↔ F <+: Q) := by
    intro F hF
    have hagree := hrespects V v c _ (rooted 47 F) _ _ F hv hlinks hcancel hP hQ
      (hv.resolve_rooted hF c.cwd) hF hsame
    rw [hv.within_rooted hp hlinks hclean hfolder hF hlocalP,
      hv.within_rooted hspelled hlinks hresolveQ hfolderQ hF hlocalQ] at hagree
    simpa using Except.ok.inj hagree
  have hbelow := (hanswer Q hfolderQ).2 (prefix_refl Q)
  have habove := (hanswer P hfolder).1 (prefix_refl P)
  exact hapart (habove.eq_of_length_le hbelow.length_le)

/-- For a spelling with a `..` that takes away a name there is a file system in which it is
answered for otherwise than the path of the folder it leads to. -/
theorem not_respects_of_cancels {p name : Bytes} {init : List Bytes} (hp : Spelled p init name)
    (h : Cancels (split 47 p)) : ¬ Respects p := by
  obtain ⟨habs, hname, tail, hsplit, htail⟩ := id hp
  rw [hsplit] at h
  have hparts : init ⊆ split 47 p := fun part hpart => by
    rw [hsplit]
    exact mem_append_left _ hpart
  have hsep : ∀ part ∈ init, 47 ∉ part := fun part hpart =>
    sep_not_mem_split (hparts hpart)
  -- the components before the name lead below the folder `z`
  obtain ⟨names, hnames, z, depth, q, hz, hfresh, hzname, hwalk, hq, hvolumeQ⟩ :=
    exists_detour_of_cancels (cancels_of_append_name hname htail h) hparts
  have hv : StaticLocal (plainDetour _ hnames z depth) := staticLocal_plainVolumes _
  have hread : walk (plainDetour _ hnames z depth).fs 40 [] init = .ok (q, 39) := by
    rw [walk_plainDetour 40 hsep, hwalk]
  have hfolderQ := folder_of_walk_plainDetour hread
  have hnode : (plainDetour _ hnames z depth).fs.node (q ++ [name]) = .ok .folder := by
    have hall : (q ++ [name]).all isNameOf = true := by
      rw [all_append, Bool.and_eq_true, all_cons, all_nil, Bool.and_true]
      refine ⟨all_eq_true.2 fun part hpart => ?_, isNameOf_iff.2 hp.isName⟩
      exact isNameOf_iff.2 (hv.names _ _ hfolderQ part hpart)
    have hdetour : (detourVolumes _ hnames z depth).fs.node (q ++ [name]) = .ok .folder := by
      refine detour_folder (not_prefix_of_head hnames hzname ?_)
      rw [head?_append, hq]
      rfl
    exact (node_named hall).trans hdetour
  -- and the cleaned components elsewhere
  have hresolved : ∀ part ∈ resolve [] init ++ [name], IsName 47 part ∧ part ≠ z := by
    intro part hpart
    rw [← hp.resolve_split] at hpart
    refine ⟨isName_of_mem_resolve hpart, ?_⟩
    rintro rfl
    rcases mem_resolve hpart with hnil | ⟨hmem, -⟩
    · cases hnil
    · exact hfresh hmem
  have helsewhere : ∀ parts, (∀ part ∈ parts, IsName 47 part ∧ part ≠ z) → ∃ P k,
      walk (plainDetour _ hnames z depth).fs 40 [] parts = .ok (P, k) ∧
        (detourVolumes _ hnames z depth).volume P = true := by
    intro parts hparts
    obtain ⟨P, k, hwalk, hvolume⟩ := @walk_detour_names _ hnames z depth hzname hz []
      parts (fun hpre => hnames (prefix_nil.1 hpre)) not_mem_nil
      (fun part hpart => ⟨proper_of_isName (hparts part hpart).1, (hparts part hpart).2⟩) 39
    refine ⟨P, k, ?_, hvolume⟩
    rw [walk_plainDetour 40 fun part hpart => (hparts part hpart).1.no_sep]
    exact hwalk
  obtain ⟨P, k, hclean, hvolumeP⟩ := helsewhere (resolve [] init) fun part hpart =>
    hresolved part (mem_append_left _ hpart)
  obtain ⟨R, l, hwhole, -⟩ := helsewhere _ hresolved
  have hfolderP := folder_of_walk_plainDetour hclean
  refine hv.not_respects (by change 40 ≤ 255; decide) hp hread hnode hclean hfolderP hwhole ?_
  rintro rfl
  rw [hvolumeP] at hvolumeQ
  cases hvolumeQ

/-- `within` answers for a path as for the spellings of the folder in which no `..` takes away a
name, in all static local file systems, exactly if none of its own does. -/
theorem within_respects_iff (p name : Bytes) (init : List Bytes) (hp : Spelled p init name) :
    Respects p ↔ ¬ Cancels (split 47 p) :=
  ⟨fun hrespects hcancel => not_respects_of_cancels hp hcancel hrespects, respects_of_not_cancels⟩

theorem within_respects_iff_detour : ¬ Respects (ascii "/l/../d") ∧ Respects (ascii "/x/./d/") := by
  have hdetour : Spelled (ascii "/l/../d") [[], ascii "l", ascii ".."] (ascii "d") :=
    ⟨rfl, rfl, [], by decide, fun _ hno => by cases hno⟩
  have hplain : Spelled (ascii "/x/./d/") [[], ascii "x", ascii "."] (ascii "d") :=
    ⟨rfl, rfl, [[]], by decide, fun part hpart => .inl (mem_singleton.1 hpart)⟩
  refine ⟨fun h => ?_, (within_respects_iff _ _ _ hplain).2 (by decide)⟩
  exact (within_respects_iff _ _ _ hdetour).1 h (by decide)

/-- `/l` is a link to `/x/y`, so that `/l/../d` leads to `/x/d`; there is a folder `/d` as
well. -/
def detourEntries : List (Path × Node) :=
  [([ascii "x"], .folder), ([ascii "x", ascii "y"], .folder), ([ascii "x", ascii "d"], .folder),
    ([ascii "d"], .folder), ([ascii "l"], .link (ascii "/x/y"))]

/-- One directory in two spellings, of which `/x` holds only one. -/
theorem within_detour_differs :
    sameFile (finiteVolumes detourEntries (by decide)) ⟨.ok [47], [], 255⟩ (ascii "/l/../d")
        (ascii "/x/d") = .ok true ∧
      (finiteVolumes detourEntries (by decide)).fs.resolve 40 [] (ascii "/l/../d") =
        .ok [ascii "x", ascii "d"] ∧
      (finiteVolumes detourEntries (by decide)).fs.node [ascii "x", ascii "d"] = .ok .folder ∧
      within (finiteVolumes detourEntries (by decide)) ⟨.ok [47], [], 255⟩ (ascii "/l/../d")
        (ascii "/x") = .ok false ∧
      within (finiteVolumes detourEntries (by decide)) ⟨.ok [47], [], 255⟩ (ascii "/x/d")
        (ascii "/x") = .ok true := by
  decide +kernel

end Unix
