import AbstractionIdentity.Windows.AddonLocalPath
import Mathlib.Data.List.Induction

/-!
# A static file system on Windows

A `Tree` holds what exists at each place and which of a folder's entries a spelling finds. `walk`
follows links; `find` does not follow one at the end. A path with the extended prefix is read as
written, and of any other Win32 takes the trailing dots and spaces of its names (`Tree.plain`).
`Standing` is what is assumed of a tree; that no name ends in one of them is part of it.
-/

namespace Windows

open Text List

structure Place where
  drive : UInt8
  names : List Bytes
  deriving DecidableEq

namespace Place

def root (drive : UInt8) : Place := ⟨drive, []⟩

def join (p : Place) (rest : List Bytes) : Place := ⟨p.drive, p.names ++ rest⟩

def text (p : Place) : Bytes := p.drive :: 58 :: rooted 92 p.names

def extended (p : Place) : Bytes := Addon.extendedLead ++ p.text

end Place

inductive Object where
  | folder
  | file
  | link (target : Place)
  deriving DecidableEq

/-- `missing` is `ERROR_FILE_NOT_FOUND` or `ERROR_PATH_NOT_FOUND`, `unresolved` the error of too
many links. -/
inductive OpenError where
  | missing
  | unresolved
  deriving DecidableEq

/-- What exists at a place, the entry of a folder that a spelling finds, the file identities, what
Win32 makes of the names of a path it normalizes, and how many links are followed. -/
structure Tree where
  object : Place → Option Object
  entry : Place → Bytes → Option Bytes
  key : Place → ℕ × ℕ
  trim : List Bytes → List Bytes
  links : ℕ

namespace Tree

def walkWith (t : Tree) (links : ℕ) (follow : Place → List Bytes → Except OpenError (Place × ℕ)) :
    Place → List Bytes → Except OpenError (Place × ℕ)
  | here, [] => if (t.object here).isSome then .ok (here, links) else .error .missing
  | here, part :: parts =>
    if t.object here = some .folder then
      match t.entry here part with
      | none => .error .missing
      | some name =>
        match t.object (here.join [name]) with
        | some (.link target) => follow (.root target.drive) (target.names ++ parts)
        | _ => walkWith t links follow (here.join [name]) parts
    else .error .missing

def walk (t : Tree) : ℕ → Place → List Bytes → Except OpenError (Place × ℕ)
  | 0 => walkWith t 0 fun _ _ => .error .unresolved
  | n + 1 => walkWith t (n + 1) (walk t n)

/-- The place that a path without the extended prefix names. -/
def plain (t : Tree) (p : Place) : Place := ⟨p.drive, t.trim p.names⟩

/-- What `CreateFile` of the place opens. -/
def openPath (t : Tree) (p : Place) : Except OpenError Place :=
  (t.walk t.links (.root p.drive) p.names).map (·.1)

/-- What it opens with `FILE_FLAG_OPEN_REPARSE_POINT`. -/
def find (t : Tree) (p : Place) : Except OpenError Place :=
  match p.names.getLast? with
  | none => t.openPath p
  | some last =>
    match t.walk t.links (.root p.drive) p.names.dropLast with
    | .error err => .error err
    | .ok (here, _) =>
      if t.object here = some .folder then
        match t.entry here last with
        | none => .error .missing
        | some name => .ok (here.join [name])
      else .error .missing

end Tree

/-! ## Walks -/

section Walk

variable {t : Tree}

variable {here : Place} {n : ℕ} {name part : Bytes} {parts : List Bytes}

theorem walk_nil_eq (n : ℕ) (here : Place) : t.walk n here [] =
      if (t.object here).isSome then .ok (here, n) else .error .missing := by
  cases n <;> rfl

/-- The next part, with what becomes of a link as a continuation. -/
theorem walk_cons_eq (n : ℕ) (here : Place) (part : Bytes) (parts : List Bytes) :
    t.walk n here (part :: parts) =
      if t.object here = some .folder then
        match t.entry here part with
        | none => .error .missing
        | some name =>
          match t.object (here.join [name]) with
          | some (.link target) => match n with
            | 0 => .error .unresolved
            | n + 1 => t.walk n (.root target.drive) (target.names ++ parts)
          | _ => t.walk n (here.join [name]) parts
      else .error .missing := by
  cases n <;> rfl

theorem walk_nil_of_object (h : (t.object here).isSome) (n : ℕ) :
    t.walk n here [] = .ok (here, n) := by
  rw [walk_nil_eq, if_pos h]

theorem walk_nil_of_missing (h : ¬ (t.object here).isSome) :
    t.walk n here [] = .error .missing := by
  rw [walk_nil_eq, if_neg h]

theorem walk_of_not_folder
    (h : t.object here ≠ some .folder) : t.walk n here (part :: parts) = .error .missing := by
  rw [walk_cons_eq, if_neg h]

theorem walk_of_no_entry
    (hentry : t.entry here part = none) : t.walk n here (part :: parts) = .error .missing := by
  rw [walk_cons_eq, hentry]
  split_ifs <;> rfl

theorem walk_of_entry (h : t.object here = some .folder) (hentry : t.entry here part = some name)
    (hlink : ∀ target, t.object (here.join [name]) ≠ some (.link target)) :
    t.walk n here (part :: parts) = t.walk n (here.join [name]) parts := by
  rw [walk_cons_eq, if_pos h, hentry]
  dsimp only
  split
  next target htarget => exact absurd htarget (hlink target)
  · rfl

theorem walk_of_link
    {target : Place} (h : t.object here = some .folder) (hentry : t.entry here part = some name)
    (hlink : t.object (here.join [name]) = some (.link target)) :
    t.walk (n + 1) here (part :: parts) =
      t.walk n (.root target.drive) (target.names ++ parts) := by
  rw [walk_cons_eq, if_pos h, hentry]
  dsimp only
  rw [hlink]

theorem walk_zero_of_link {target : Place}
    (h : t.object here = some .folder) (hentry : t.entry here part = some name)
    (hlink : t.object (here.join [name]) = some (.link target)) :
    t.walk 0 here (part :: parts) = .error .unresolved := by
  rw [walk_cons_eq, if_pos h, hentry]
  dsimp only
  rw [hlink]

theorem walk_append_of_ok {k : ℕ} {R : Place} {tail : List Bytes}
    (h : t.walk n here parts = .ok (R, k)) :
    t.walk n here (parts ++ tail) = t.walk k R tail := by
  induction n using Nat.strong_induction_on generalizing here parts with
  | _ n ihn =>
    induction parts generalizing here with
    | nil =>
      by_cases hhere : (t.object here).isSome
      · rw [walk_nil_of_object hhere] at h
        cases h
        rfl
      · rw [walk_nil_of_missing hhere] at h
        cases h
    | cons part parts ih =>
      by_cases hhere : t.object here = some .folder
      swap
      · rw [walk_of_not_folder hhere] at h
        cases h
      cases hentry : t.entry here part with
      | none =>
        rw [walk_of_no_entry hentry] at h
        cases h
      | some name =>
        by_cases hlink : ∀ target, t.object (here.join [name]) ≠ some (.link target)
        · rw [walk_of_entry hhere hentry hlink] at h
          rw [cons_append, walk_of_entry hhere hentry hlink]
          exact ih h
        · push Not at hlink
          obtain ⟨target, hlink⟩ := hlink
          cases n with
          | zero =>
            rw [walk_zero_of_link hhere hentry hlink] at h
            cases h
          | succ n =>
            rw [walk_of_link hhere hentry hlink] at h
            rw [cons_append, walk_of_link hhere hentry hlink, ← append_assoc]
            exact ihn n (Nat.lt_succ_self n) h

theorem object_of_walk {r : Place × ℕ}
    (hroot : ∀ drive target, t.object (.root drive) ≠ some (.link target))
    (hhere : ∀ target, t.object here ≠ some (.link target)) (h : t.walk n here parts = .ok r) :
    t.object r.1 = some .folder ∨ t.object r.1 = some .file := by
  induction n using Nat.strong_induction_on generalizing here parts with
  | _ n ihn =>
    induction parts generalizing here with
    | nil =>
      cases hobject : t.object here with
      | none =>
        rw [walk_nil_of_missing (by simp [hobject])] at h
        cases h
      | some x =>
        rw [walk_nil_of_object (by simp [hobject])] at h
        cases h
        cases x with
        | folder => exact .inl hobject
        | file => exact .inr hobject
        | link target => exact absurd hobject (hhere target)
    | cons part parts ih =>
      by_cases hfolder : t.object here = some .folder
      swap
      · rw [walk_of_not_folder hfolder] at h
        cases h
      cases hentry : t.entry here part with
      | none =>
        rw [walk_of_no_entry hentry] at h
        cases h
      | some name =>
        by_cases hlink : ∀ target, t.object (here.join [name]) ≠ some (.link target)
        · rw [walk_of_entry hfolder hentry hlink] at h
          exact ih hlink h
        · push Not at hlink
          obtain ⟨target, hlink⟩ := hlink
          cases n with
          | zero =>
            rw [walk_zero_of_link hfolder hentry hlink] at h
            cases h
          | succ n =>
            rw [walk_of_link hfolder hentry hlink] at h
            exact ihn n (Nat.lt_succ_self n) (hroot target.drive) h

end Walk

/-! ## What the gates say of a place -/

/-- A name that Win32 takes as it is. -/
structure CleanName (name : Bytes) : Prop where
  isName : IsName 92 name
  no_slash : 47 ∉ name
  no_nul : 0 ∉ name
  untrimmed : name.getLast? ≠ some 46 ∧ name.getLast? ≠ some 32

structure Env.Admits (env : Env) (p : Place) : Prop where
  letter : isLetter p.drive = true
  names : env.clear p.names = true
  here : env.pathDriveType [p.drive, 58, 92] ≠ .remote

/-- What the gates rest on: no other character is taken to one of a device name, full paths are
not too long, Win32 reads only reserved names as devices, and what is above a path that has a
full path has one. -/
structure Env.Lawful (env : Env) : Prop where
  fold : ∀ name, ∀ device ∈ deviceNames, env.samePathName name device = true →
    name.map Addon.upper = device
  cap : ∀ s, env.fullPathError s = none → Addon.units (env.fullName s).text ≤ 32767
  device : ∀ name device, env.dosDevice name = some device → env.reservedDeviceName name = true
  above : ∀ (p : Place) name, isLetter p.drive = true →
    (∀ part ∈ (p.join [name]).names, CleanName part) →
    env.fullPathError (p.join [name]).text = none → env.fullPathError p.text = none

section Gate

variable {env : Env} {p : Place}

theorem clear_append (xs ys : List Bytes) :
    env.clear (xs ++ ys) = (env.clear xs && env.clear ys) := by
  rw [Env.clear, Env.clear, Env.clear, any_append, Bool.not_or]

variable {names : List Bytes}

theorem clear_split_join (hnames : ∀ name ∈ names, CleanName name) :
    env.clear (split 92 (join 92 names)) = env.clear names := by
  by_cases hne : names = []
  · subst hne
    rfl
  · rw [split_join hne, pieces_eq_self fun name hname => (hnames name hname).isName.no_sep]

theorem checked_text_iff (hnames : ∀ name ∈ p.names, CleanName name) :
    env.Checked p.text ↔ env.Admits p := by
  have hdrop : p.text.drop 3 = join 92 p.names := rfl
  have htake : p.text.take 3 = [p.drive, 58, 92] := rfl
  have hdrive : driveAbsolute p.text = isLetter p.drive := rfl
  constructor
  · intro h
    refine ⟨hdrive ▸ h.drive, ?_, htake ▸ h.here⟩
    have hclear := h.names
    rwa [hdrop, clear_split_join hnames] at hclear
  · intro h
    refine ⟨hdrive.trans h.letter, ?_, ?_⟩
    · rw [hdrop, clear_split_join hnames]
      exact h.names
    · rw [htake]
      exact h.here

theorem not_mem_text {b : UInt8} (hdrive : b ≠ p.drive) (hcolon : b ≠ 58) (hsep : b ≠ 92)
    (hnames : ∀ name ∈ p.names, b ∉ name) : b ∉ p.text := by
  intro hmem
  rw [Place.text, mem_cons, mem_cons, rooted, mem_cons] at hmem
  rcases hmem with h | h | h | h
  · exact hdrive h
  · exact hcolon h
  · exact hsep h
  · rcases mem_join h with h | ⟨name, hname, h⟩
    · exact hsep h
    · exact hnames name hname h

theorem slash_not_mem_text (hletter : isLetter p.drive = true)
    (hnames : ∀ name ∈ p.names, CleanName name) : 47 ∉ p.text := by
  refine not_mem_text ?_ (by decide) (by decide) fun name hname => (hnames name hname).no_slash
  intro h
  rw [← h] at hletter
  cases hletter

theorem nul_not_mem_text (hletter : isLetter p.drive = true)
    (hnames : ∀ name ∈ p.names, CleanName name) : 0 ∉ p.text := by
  refine not_mem_text ?_ (by decide) (by decide) fun name hname => (hnames name hname).no_nul
  intro h
  rw [← h] at hletter
  cases hletter

theorem resolve_components_join (hnames : ∀ name ∈ names, CleanName name) :
    resolve [] (components (join 92 names)) = names := by
  have hslash : 47 ∉ join 92 names := by
    intro hmem
    rcases mem_join hmem with hsep | ⟨name, hname, hb⟩
    · cases hsep
    · exact (hnames name hname).no_slash hb
  rw [components, backslashed_of_not_mem hslash]
  by_cases hne : names = []
  · subst hne
    rfl
  · rw [split_join hne, pieces_eq_self fun name hname => (hnames name hname).isName.no_sep,
      resolve_of_names fun name hname => (hnames name hname).isName]
    rfl

theorem getLast_join_ne (hnames : ∀ name ∈ names, CleanName name) :
    (join 92 names).getLast? ≠ some 92 := by
  rcases eq_nil_or_concat' names with rfl | ⟨above, last, rfl⟩
  · exact fun h => by cases h
  · have hlast := (hnames last (by simp)).isName
    obtain ⟨s, b, rfl⟩ := eq_nil_or_concat' last |>.resolve_left hlast.ne_nil
    have hb : b ≠ 92 := fun h => hlast.no_sep (by simp [h])
    have hend : ∃ lead, join 92 (above ++ [s ++ [b]]) = lead ++ [b] := by
      by_cases habove : above = []
      · exact ⟨s, by rw [habove]; rfl⟩
      · have happend := @rooted_append 92 above [s ++ [b]] habove (by simp)
        rw [rooted, rooted, cons_append, List.cons.injEq] at happend
        exact ⟨join 92 above ++ 92 :: s, by rw [happend.2]; simp [join]⟩
    obtain ⟨lead, hlead⟩ := hend
    rw [hlead, List.getLast?_concat]
    exact fun h => hb (by simpa using h)

theorem fullName_text (hletter : isLetter p.drive = true)
    (hnames : ∀ name ∈ p.names, CleanName name) :
    (env.fullName p.text).text = p.text ∨
      ∃ device, p.names.getLast?.bind env.dosDevice = some device ∧
        env.fullName p.text = .under (.device 46) (.top (.device 46)) device := by
  have hslash := slash_not_mem_text hletter hnames
  have hfolder : (FullName.under (.drive p.drive) (.top (.drive p.drive))
      (join 92 p.names)).folder = false := by
    refine decide_eq_false ?_
    have hjoin : 47 ∉ join 92 p.names := fun h => hslash (by
      rw [Place.text, rooted]
      simp [h])
    rw [backslashed_of_not_mem hjoin]
    exact getLast_join_ne hnames
  have hparts : (FullName.under (.drive p.drive) (.top (.drive p.drive))
      (join 92 p.names)).parts = p.names := resolve_components_join hnames
  have htext : p.text = p.drive :: 58 :: 92 :: join 92 p.names := rfl
  rcases @fullName_drive env p.drive (join 92 p.names) (htext ▸ hslash) hletter with
    hfull | ⟨device, hdevice, hfull⟩
  · left
    rw [htext, hfull, FullName.text, FullName.below, hfolder, hparts]
    simp [FullName.under, Root.text]
  · right
    rw [resolve_components_join hnames] at hdevice
    exact ⟨device, hdevice, hfull⟩

theorem fullLocal_text_iff (henv : env.Lawful) (hletter : isLetter p.drive = true)
    (hnames : ∀ name ∈ p.names, CleanName name) :
    env.FullLocal p.text ↔ env.Admits p ∧ env.fullPathError p.text = none := by
  rw [Env.FullLocal, and_comm, ← checked_text_iff hnames]
  refine and_congr_left fun _ => ?_
  rcases @fullName_text env p hletter hnames with hfull | ⟨device, hdevice, hfull⟩
  · rw [hfull]
  · refine iff_of_false ?_ fun h => ?_
    · rw [hfull]
      exact not_checked_of_head rfl _
    · -- the last name is a device, and no device is admitted
      obtain ⟨last, hlast, hdevice⟩ := Option.bind_eq_some_iff.1 hdevice
      have hclear := ((checked_text_iff hnames).1 h).names
      rw [Env.clear, Bool.not_eq_true', any_eq_false] at hclear
      exact hclear last (mem_of_getLast? hlast) (henv.device last device hdevice)

theorem plainSpelling_text (hletter : isLetter p.drive = true)
    (hnames : ∀ name ∈ p.names, CleanName name) :
    backslashed p.text = p.text ∧ PlainSpelling p.text := by
  have hback : p.drive ≠ 92 := fun h => by
    rw [h] at hletter
    cases hletter
  refine ⟨backslashed_of_not_mem (slash_not_mem_text hletter hnames), ?_, ?_⟩
  · rintro ⟨t, ht⟩
    rw [Place.text, Addon.ntLead] at ht
    simp at ht
  · rintro ⟨t, ht⟩
    rw [Place.text] at ht
    simp at ht

theorem localPath_text_iff (henv : env.Lawful) (hletter : isLetter p.drive = true)
    (hnames : ∀ name ∈ p.names, CleanName name) :
    env.localPath p.text = .ok () ↔ env.Admits p ∧ env.fullPathError p.text = none := by
  obtain ⟨hback, hplain⟩ := plainSpelling_text hletter hnames
  have hne : p.text ≠ [] := cons_ne_nil _ _
  rw [localPath_eq_ok_iff hne (nul_not_mem_text hletter hnames),
    localName_plain_eq (by rwa [hback]), hback, fullLocal_text_iff henv hletter hnames]

end Gate

/-- Every object is in a folder, is found by its own name and is on a local drive; a folder has a
key of its own; and no name is one that Win32 would trim. -/
structure Standing (env : Env) (t : Tree) : Prop where
  root : ∀ drive x, t.object (.root drive) = some x → x = .folder
  parent : ∀ p name x, t.object (p.join [name]) = some x → t.object p = some .folder
  entry_object : ∀ p part name, t.entry p part = some name → ∃ x, t.object (p.join [name]) = some x
  entry_self : ∀ p name x, t.object (p.join [name]) = some x → t.entry p name = some name
  key : ∀ p q x, t.object p = some .folder → t.object q = some x → t.key p = t.key q → p = q
  clean : ∀ p x, t.object p = some x → ∀ name ∈ p.names, CleanName name
  plain : ∀ p, (∀ name ∈ p.names, CleanName name) → t.plain p = p
  admits : ∀ p x, t.object p = some x → env.Admits p ∧ env.fullPathError p.text = none

section Standing

variable {env : Env} {t : Tree}

variable {k : ℕ} {p : Place} {x : Object}

theorem Standing.folder_above (ht : Standing env t) {names : List Bytes}
    (h : t.object p = some x) (hpre : names <+: p.names) (hne : names ≠ p.names) :
    t.object ⟨p.drive, names⟩ = some .folder := by
  obtain ⟨drive, all⟩ := p
  obtain ⟨rest, rfl⟩ := hpre
  induction rest using List.reverseRecOn generalizing x with
  | nil => exact absurd (append_nil names).symm hne
  | append_singleton rest name ih =>
    have hparent := ht.parent ⟨drive, names ++ rest⟩ name x (by
      rw [Place.join, append_assoc]
      exact h)
    by_cases hrest : rest = []
    · rwa [hrest, append_nil] at hparent
    · exact ih hparent (by simpa using hrest)

theorem Standing.walk_self (ht : Standing env t)
    (h : t.object p = some x) (hx : ∀ target, x ≠ .link target) (n : ℕ) :
    t.walk n (.root p.drive) p.names = .ok (p, n) := by
  obtain ⟨drive, names⟩ := p
  induction names using List.reverseRecOn generalizing x with
  | nil => exact walk_nil_of_object (by rw [Place.root, h]; rfl) n
  | append_singleton names name ih =>
    have hself : (⟨drive, names ++ [name]⟩ : Place) = Place.join ⟨drive, names⟩ [name] := rfl
    rw [hself] at h ⊢
    have hparent := ht.parent _ _ _ h
    have hentry := ht.entry_self _ _ _ h
    have hup := ih (fun _ hlink => by cases hlink) hparent
    dsimp only [Place.join] at hup ⊢
    rw [walk_append_of_ok hup, walk_of_entry hparent hentry, walk_nil_of_object]
    · rfl
    · rw [h]
      rfl
    · intro target htarget
      rw [h] at htarget
      cases htarget
      exact hx target rfl

theorem Standing.openPath_self (ht : Standing env t)
    (h : t.object p = some x) (hx : ∀ target, x ≠ .link target) : t.openPath p = .ok p := by
  rw [Tree.openPath, ht.walk_self h hx]
  rfl

theorem Standing.object_of_openPath (ht : Standing env t) {q : Place} (h : t.openPath p = .ok q) :
    (∃ k, t.walk t.links (.root p.drive) p.names = .ok (q, k)) ∧
      (t.object q = some .folder ∨ t.object q = some .file) := by
  rw [Tree.openPath] at h
  obtain ⟨r, hr, rfl⟩ := map_eq_ok_iff.1 h
  have hroot : ∀ drive target, t.object (.root drive) ≠ some (.link target) := by
    intro drive target hlink
    cases ht.root drive _ hlink
  exact ⟨⟨r.2, hr⟩, object_of_walk hroot (hroot p.drive) hr⟩

variable {drive : UInt8} {existing : List Bytes} {R : Place}

theorem gone_of_find {name : Bytes} (hwalk : t.walk t.links (.root drive) existing = .ok (R, k))
    (hfind : (t.find ⟨drive, existing ++ [name]⟩).isOk = false) :
    t.object R ≠ some .folder ∨ t.entry R name = none := by
  by_cases hR : t.object R = some .folder
  · cases hentry : t.entry R name with
    | none => exact .inr rfl
    | some real =>
      rw [Tree.find, List.getLast?_concat, dropLast_concat] at hfind
      dsimp only at hfind
      rw [hwalk] at hfind
      dsimp only at hfind
      rw [if_pos hR, hentry] at hfind
      cases hfind
  · exact .inl hR

theorem missing_below {n : ℕ} {first : Bytes} (rest : List Bytes)
    (hwalk : t.walk n (.root drive) existing = .ok (R, k))
    (hgone : t.object R ≠ some .folder ∨ t.entry R first = none) :
    t.walk n (.root drive) (existing ++ first :: rest) = .error .missing := by
  rw [walk_append_of_ok hwalk]
  rcases hgone with hno | hno
  · exact walk_of_not_folder hno
  · exact walk_of_no_entry hno

end Standing

end Windows
