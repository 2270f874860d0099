import AbstractionIdentity.Text.Clean

/-!
# Path resolution in a static file system

`node p` is what the names `p` lead to from the root when no link is followed, mounts included.
`walk fs n here parts` follows components from a folder as the system does it, over at most `n`
links. A walk over appended components is one walk after the other (`walk_append`), and the number
of links decides only whether it ends with `Errno.loop` (`walk_mono`, `walk_le`).
-/

namespace Unix

open Text List

abbrev Path := List Bytes

inductive Errno where
  | noEntry
  | notDirectory
  | loop
  | other (code : ℕ)
  deriving DecidableEq

inductive Node where
  | folder
  | file
  | link (target : Bytes)
  deriving DecidableEq

structure FileSystem where
  node : Path → Except Errno Node
  root_folder : node [] = .ok .folder
  parent_folder : ∀ p name x, node (p ++ [name]) = .ok x → node p = .ok .folder

def linkBase (target : Bytes) (here : Path) : Path := if target.head? = some 47 then [] else here

def walkWith (fs : FileSystem) (links : ℕ)
    (follow : Path → List Bytes → Except Errno (Path × ℕ)) :
    Path → List Bytes → Except Errno (Path × ℕ)
  | here, [] => .ok (here, links)
  | here, part :: parts =>
    match fs.node here with
    | .ok .folder =>
      if part = [] ∨ part = [46] then walkWith fs links follow here parts
      else if part = [46, 46] then walkWith fs links follow here.dropLast parts
      else match fs.node (here ++ [part]) with
        | .error errno => .error errno
        | .ok (.link target) => follow (linkBase target here) (split 47 target ++ parts)
        | .ok _ => walkWith fs links follow (here ++ [part]) parts
    | _ => .error .notDirectory

def walk (fs : FileSystem) : ℕ → Path → List Bytes → Except Errno (Path × ℕ)
  | 0 => walkWith fs 0 fun _ _ => .error .loop
  | n + 1 => walkWith fs (n + 1) (walk fs n)

def FileSystem.resolve (fs : FileSystem) (links : ℕ) (cwd : Path) (path : Bytes) :
    Except Errno Path :=
  if path = [] then .error .noEntry
  else (walk fs links (linkBase path cwd) (split 47 path)).map (·.1)

section Walk

variable {fs : FileSystem}

theorem walk_nil (n : ℕ) (here : Path) : walk fs n here [] = .ok (here, n) := by
  cases n <;> rfl

theorem walkWith_rel (R : Except Errno (Path × ℕ) → Except Errno (Path × ℕ) → Prop)
    {links links' : ℕ} {follow follow' : Path → List Bytes → Except Errno (Path × ℕ)}
    {tail tail' : List Bytes} (herr : ∀ errno, R (.error errno) (.error errno))
    (hend : ∀ here, R (walkWith fs links follow here tail)
      (walkWith fs links' follow' here tail'))
    (hlink : ∀ here parts, R (follow here (parts ++ tail)) (follow' here (parts ++ tail')))
    (here : Path) (parts : List Bytes) :
    R (walkWith fs links follow here (parts ++ tail))
      (walkWith fs links' follow' here (parts ++ tail')) := by
  induction parts generalizing here with
  | nil => exact hend here
  | cons part parts ih =>
    rw [cons_append, cons_append, walkWith, walkWith]
    split
    · split_ifs
      · exact ih here
      · exact ih here.dropLast
      · split
        · exact herr _
        · rw [← append_assoc, ← append_assoc]
          exact hlink _ _
        · exact ih _
    · exact herr _

theorem walk_rel (R : Except Errno (Path × ℕ) → Except Errno (Path × ℕ) → Prop) {k : ℕ}
    {tail tail' : List Bytes} (herr : ∀ errno, R (.error errno) (.error errno))
    (hloop : 0 < k → ∀ r, R (.error .loop) r)
    (hend : ∀ n here, R (walk fs n here tail) (walk fs (n + k) here tail'))
    (n : ℕ) (here : Path) (parts : List Bytes) :
    R (walk fs n here (parts ++ tail)) (walk fs (n + k) here (parts ++ tail')) := by
  induction n generalizing here parts with
  | zero =>
    rw [Nat.zero_add]
    have hend := hend 0
    rw [Nat.zero_add] at hend
    cases k with
    | zero => exact walkWith_rel R herr hend (fun _ _ => herr _) here parts
    | succ k => exact walkWith_rel R herr hend (fun _ _ => hloop (Nat.succ_pos k) _) here parts
  | succ n ih =>
    have hend := hend (n + 1)
    rw [Nat.succ_add] at hend ⊢
    exact walkWith_rel R herr hend ih here parts

theorem walk_append (n : ℕ) (here : Path) (parts tail : List Bytes) :
    walk fs n here (parts ++ tail) = (walk fs n here parts).bind fun r => walk fs r.2 r.1 tail := by
  have h := @walk_rel fs (fun r r' => r' = r.bind fun x => walk fs x.2 x.1 tail) 0 [] tail
    (fun _ => rfl) (fun hk => absurd hk (Nat.lt_irrefl 0))
    (fun n here => by rw [walk_nil]; rfl) n here parts
  rwa [append_nil] at h

variable {here : Path} {n : ℕ} {parts : List Bytes} {r : Path × ℕ}

theorem walk_mono (h : walk fs n here parts = .ok r) (k : ℕ) :
    walk fs (n + k) here parts = .ok (r.1, r.2 + k) := by
  have hrel := @walk_rel fs (fun r r' => ∀ x, r = .ok x → r' = .ok (x.1, x.2 + k)) k [] []
    (fun _ x hx => by cases hx) (fun _ _ x hx => by cases hx) ?_ n here parts
  · rw [append_nil] at hrel
    exact hrel r h
  · rintro n here x hx
    rw [walk_nil] at hx ⊢
    cases hx
    rfl

theorem walk_le {k : ℕ} (h : walk fs (n + k) here parts = .ok r) :
    (∃ m, walk fs n here parts = .ok (r.1, m)) ∨ walk fs n here parts = .error .loop := by
  have hrel := @walk_rel fs
    (fun r r' => ∀ x, r' = .ok x → (∃ m, r = .ok (x.1, m)) ∨ r = .error .loop) k [] []
    (fun _ x hx => by cases hx) (fun _ _ _ _ => .inr rfl) ?_ n here parts
  · rw [append_nil] at hrel
    exact hrel r h
  · rintro n here x hx
    rw [walk_nil] at hx ⊢
    cases hx
    exact .inl ⟨n, rfl⟩

def proper (part : Bytes) : Bool := part ≠ [] && part ≠ [46] && part ≠ [46, 46]

theorem proper_iff {part : Bytes} :
    proper part = true ↔ part ≠ [] ∧ part ≠ [46] ∧ part ≠ [46, 46] := by
  simp [proper, and_assoc]

theorem proper_of_isName {name : Bytes} (h : IsName 47 name) : proper name = true :=
  proper_iff.2 ⟨h.ne_nil, h.ne_dot, h.ne_dotdot⟩

theorem dot_of_not_proper {part : Bytes} (h : ¬ proper part = true) (hup : part ≠ [46, 46]) :
    part = [] ∨ part = [46] := by
  by_contra hnot
  rw [not_or] at hnot
  exact h (proper_iff.2 ⟨hnot.1, hnot.2, hup⟩)

theorem walk_cons (n : ℕ) (here : Path) (part : Bytes) (parts : List Bytes) :
    walk fs n here (part :: parts) =
      match fs.node here with
      | .ok .folder =>
        if part = [] ∨ part = [46] then walk fs n here parts
        else if part = [46, 46] then walk fs n here.dropLast parts
        else match fs.node (here ++ [part]), n with
          | .error errno, _ => .error errno
          | .ok (.link _), 0 => .error .loop
          | .ok (.link target), n + 1 =>
            walk fs n (linkBase target here) (split 47 target ++ parts)
          | .ok _, _ => walk fs n (here ++ [part]) parts
      | _ => .error .notDirectory := by
  cases n with
  | zero =>
    rw [walk, walkWith]
    split
    · split_ifs
      · rfl
      · rfl
      · split <;> simp_all
    · rfl
  | succ n =>
    rw [walk, walkWith]
    split
    · split_ifs
      · rfl
      · rfl
      · split <;> simp_all
    · rfl

theorem links_le_of_walk (h : walk fs n here parts = .ok r) : r.2 ≤ n := by
  induction n using Nat.strong_induction_on generalizing here parts with
  | _ n ihn =>
    induction parts generalizing here with
    | nil =>
      rw [walk_nil] at h
      cases h
      exact Nat.le_refl n
    | cons part parts ih =>
      rw [walk_cons] at h
      split at h
      · split_ifs at h
        · exact ih h
        · exact ih h
        · split at h
          · cases h
          · cases h
          · exact Nat.le_succ_of_le (ihn _ (Nat.lt_succ_self _) h)
          · exact ih h
      · cases h

section Step

variable {here : Path} {part : Bytes} {parts : List Bytes} {n : ℕ}

theorem walk_dot (hfolder : fs.node here = .ok .folder) (h : part = [] ∨ part = [46]) :
    walk fs n here (part :: parts) = walk fs n here parts := by
  rw [walk_cons, hfolder]
  exact if_pos h

theorem walk_dotdot (hfolder : fs.node here = .ok .folder) :
    walk fs n here ([46, 46] :: parts) = walk fs n here.dropLast parts := by
  rw [walk_cons, hfolder]
  rfl

theorem walk_name (hfolder : fs.node here = .ok .folder) (hpart : proper part = true)
    (hnode : fs.node (here ++ [part]) = .ok .folder) :
    walk fs n here (part :: parts) = walk fs n (here ++ [part]) parts := by
  obtain ⟨hnil, hdot, hdotdot⟩ := proper_iff.1 hpart
  rw [walk_cons, hfolder]
  dsimp only
  rw [if_neg (not_or.2 ⟨hnil, hdot⟩), if_neg hdotdot, hnode]

theorem walk_link {target : Bytes} (hfolder : fs.node here = .ok .folder)
    (hpart : proper part = true) (hnode : fs.node (here ++ [part]) = .ok (.link target)) :
    walk fs (n + 1) here (part :: parts) =
      walk fs n (linkBase target here) (split 47 target ++ parts) := by
  obtain ⟨hnil, hdot, hdotdot⟩ := proper_iff.1 hpart
  rw [walk_cons, hfolder]
  dsimp only
  rw [if_neg (not_or.2 ⟨hnil, hdot⟩), if_neg hdotdot, hnode]

end Step

/-! ## Clean paths -/

theorem walk_filter_proper (h : [46, 46] ∉ parts) (n : ℕ) (here : Path) :
    walk fs n here parts = .error .notDirectory ∨
      walk fs n here (parts.filter proper) = walk fs n here parts := by
  induction parts generalizing n here with
  | nil => exact .inr rfl
  | cons part parts ih =>
    rw [mem_cons, not_or] at h
    by_cases hpart : proper part = true
    · rw [filter_cons_of_pos hpart, ← singleton_append,
        ← @List.singleton_append _ part (parts.filter proper), walk_append, walk_append]
      cases walk fs n here [part] with
      | error errno => exact .inr rfl
      | ok r => exact ih h.2 r.2 r.1
    · rw [filter_cons_of_neg hpart, walk_cons]
      split
      · rw [if_pos (dot_of_not_proper hpart (Ne.symm h.1))]
        exact ih h.2 n here
      · exact .inl rfl

theorem walk_root_lead {lead : List Bytes} (h : ∀ part ∈ lead, proper part = false) (n : ℕ)
    (parts : List Bytes) : walk fs n [] (lead ++ parts) = walk fs n [] parts := by
  induction lead with
  | nil => rfl
  | cons part lead ih =>
    rw [cons_append, ← ih fun part' hpart => h part' (mem_cons_of_mem _ hpart)]
    by_cases hup : part = [46, 46]
    · rw [hup, walk_dotdot fs.root_folder]
      rfl
    · have hpart := Bool.eq_false_iff.1 (h part mem_cons_self)
      exact walk_dot fs.root_folder (dot_of_not_proper hpart hup)

/-- A `..` comes after a name, which it takes away when the path is cleaned. -/
def Cancels : List Bytes → Prop
  | [] => False
  | part :: parts => if proper part then [46, 46] ∈ parts else Cancels parts

instance decidableCancels : DecidablePred Cancels
  | [] => isFalse id
  | part :: parts =>
    have := decidableCancels parts
    inferInstanceAs (Decidable (if proper part then [46, 46] ∈ parts else Cancels parts))

theorem lead_of_not_cancels (h : ¬ Cancels parts) :
    ∃ lead rest, parts = lead ++ rest ∧ (∀ part ∈ lead, proper part = false) ∧ [46, 46] ∉ rest := by
  induction parts with
  | nil => exact ⟨[], [], rfl, fun _ hp => (by cases hp), not_mem_nil⟩
  | cons part parts ih =>
    rw [Cancels] at h
    split_ifs at h with hpart
    · refine ⟨[], part :: parts, rfl, fun _ hp => (by cases hp), ?_⟩
      rw [mem_cons, not_or]
      exact ⟨(proper_iff.1 hpart).2.2.symm, h⟩
    · obtain ⟨lead, rest, rfl, hlead, hrest⟩ := ih h
      refine ⟨part :: lead, rest, rfl, fun p hp => ?_, hrest⟩
      rcases mem_cons.1 hp with rfl | hp
      · exact Bool.eq_false_iff.2 hpart
      · exact hlead p hp

theorem lead_of_cancels (h : Cancels parts) :
    ∃ lead name mid post, parts = lead ++ name :: (mid ++ [46, 46] :: post) ∧
      (∀ part ∈ lead, proper part = false) ∧ proper name = true ∧ [46, 46] ∉ mid := by
  induction parts with
  | nil => cases h
  | cons part parts ih =>
    rw [Cancels] at h
    split_ifs at h with hpart
    · obtain ⟨mid, post, rfl, hmid⟩ := eq_append_cons_of_mem h
      exact ⟨[], part, mid, post, rfl, fun _ hp => (by cases hp), hpart, hmid⟩
    · obtain ⟨lead, name, mid, post, rfl, hlead, hname, hmid⟩ := ih h
      refine ⟨part :: lead, name, mid, post, rfl, fun p hp => ?_, hname, hmid⟩
      rcases mem_cons.1 hp with rfl | hp
      · exact Bool.eq_false_iff.2 hpart
      · exact hlead p hp

theorem resolve_filter_proper (h : [46, 46] ∉ parts) (base : Path) :
    Text.resolve base parts = base ++ parts.filter proper := by
  induction parts generalizing base with
  | nil => simp [Text.resolve]
  | cons part parts ih =>
    rw [mem_cons, not_or] at h
    have hstep : Text.resolve base (part :: parts) =
        Text.resolve (resolveStep base part) parts := rfl
    rw [hstep, ih h.2, resolveStep]
    by_cases hdot : part = [] ∨ part = [46]
    · have hnot : ¬ proper part = true := fun hp => by
        rcases hdot with rfl | rfl <;> cases hp
      rw [if_pos hdot, filter_cons_of_neg hnot]
    · rw [not_or] at hdot
      have hpart := proper_iff.2 ⟨hdot.1, hdot.2, Ne.symm h.1⟩
      rw [if_neg (not_or.2 hdot), if_neg (Ne.symm h.1), filter_cons_of_pos hpart, append_assoc]
      rfl

theorem resolve_lead {lead : List Bytes} (h : ∀ part ∈ lead, proper part = false)
    (parts : List Bytes) : Text.resolve [] (lead ++ parts) = Text.resolve [] parts := by
  induction lead with
  | nil => rfl
  | cons part lead ih =>
    have hstep : resolveStep [] part = [] := by
      rw [resolveStep]
      split_ifs with hdot hup
      · rfl
      · rfl
      · have hpart := Bool.eq_false_iff.1 (h part mem_cons_self)
        exact absurd (dot_of_not_proper hpart hup) hdot
    have hcons : Text.resolve [] (part :: (lead ++ parts)) =
        Text.resolve (resolveStep [] part) (lead ++ parts) := rfl
    rw [cons_append, hcons, hstep]
    exact ih fun part' hpart => h part' (mem_cons_of_mem _ hpart)

/-- If no `..` takes away a name, a path and its cleaning lead to the same file, unless the
path asks for a folder where there is none. -/
theorem walk_clean {parts : List Bytes} (h : ¬ Cancels parts) (n : ℕ) :
    walk fs n [] parts = .error .notDirectory ∨
      walk fs n [] (Text.resolve [] parts) = walk fs n [] parts := by
  obtain ⟨lead, rest, rfl, hlead, hrest⟩ := lead_of_not_cancels h
  rw [walk_root_lead hlead, resolve_lead hlead, resolve_filter_proper hrest, nil_append]
  exact walk_filter_proper hrest n []

theorem walk_split_rooted {names : List Bytes} (h : ∀ name ∈ names, IsName 47 name) (n : ℕ) :
    walk fs n [] (split 47 (rooted 47 names)) = walk fs n [] names := by
  have hsplit : split 47 (rooted 47 names) = [] :: split 47 (join 47 names) := by
    rw [rooted, split, if_pos rfl]
  rw [hsplit, walk_dot fs.root_folder (.inl rfl)]
  by_cases hnil : names = []
  · subst hnil
    exact walk_dot fs.root_folder (.inl rfl)
  · rw [split_join hnil, pieces_eq_self fun name hname => (h name hname).no_sep]

theorem walk_folders {parts : List Bytes} {here : Path} (hup : [46, 46] ∉ parts)
    (h : ∀ names, names <+: parts.filter proper → fs.node (here ++ names) = .ok .folder)
    (n : ℕ) : walk fs n here parts = .ok (here ++ parts.filter proper, n) := by
  induction parts generalizing here with
  | nil => rw [walk_nil, filter_nil, append_nil]
  | cons part parts ih =>
    rw [mem_cons, not_or] at hup
    have hhere : fs.node here = .ok .folder := by
      have hnil := h [] nil_prefix
      rwa [append_nil] at hnil
    by_cases hpart : proper part = true
    · rw [filter_cons_of_pos hpart] at h ⊢
      have hnext := h [part] (cons_prefix_cons.2 ⟨rfl, nil_prefix⟩)
      rw [walk_name hhere hpart hnext, ih hup.2, append_assoc]
      · rfl
      · intro names hnames
        rw [append_assoc]
        exact h (part :: names) (cons_prefix_cons.2 ⟨rfl, hnames⟩)
    · rw [filter_cons_of_neg hpart] at h ⊢
      rw [walk_dot hhere (dot_of_not_proper hpart (Ne.symm hup.1)), ih hup.2 h]

end Walk

end Unix
