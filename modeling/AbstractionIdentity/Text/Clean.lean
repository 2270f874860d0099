import AbstractionIdentity.Text.Record

/-!
# Clean rooted paths

A path that begins with its separator is cleaned by resolving its components below
the root. A clean path is its own cleaning, and cleaning neither lengthens a path nor
brings a byte into it other than the separator. `filepathClean` keeps the leading `..` of a path
that does not begin with one.
-/

namespace Text

open List

variable {sep : UInt8}

def rooted (sep : UInt8) (parts : List Bytes) : Bytes := sep :: join sep parts

def clean (sep : UInt8) (s : Bytes) : Bytes := rooted sep (resolve [] (split sep s))

def isAbs (path : Bytes) : Bool := path.head? = some 47

def cleanStep (done : List Bytes) (part : Bytes) : List Bytes :=
  if part = [] ∨ part = [46] then done
  else if part = [46, 46] then
    if done = [] ∨ done.getLast? = some [46, 46] then done ++ [[46, 46]] else done.dropLast
  else done ++ [part]

/-- `filepath.Clean` on Unix. -/
def filepathClean (path : Bytes) : Bytes :=
  if isAbs path then clean 47 path
  else match (split 47 path).foldl cleanStep [] with
    | [] => [46]
    | names => join 47 names

theorem resolve_sublist (base parts : List Bytes) :
    (resolve base parts).Sublist (base ++ parts) := by
  induction parts generalizing base with
  | nil => simp [resolve]
  | cons part parts ih =>
    have hrest : (resolve base (part :: parts)).Sublist (resolveStep base part ++ parts) :=
      ih (resolveStep base part)
    refine hrest.trans ?_
    rw [resolveStep]
    split_ifs
    · exact (sublist_cons_self part parts).append_left base
    · exact (dropLast_sublist base).append (sublist_cons_self part parts)
    · rw [append_assoc]
      exact List.Sublist.refl _

theorem isName_of_mem_resolve {s part : Bytes} (h : part ∈ resolve [] (split sep s)) :
    IsName sep part := by
  rcases mem_resolve h with hno | ⟨hmem, hnil, hdot, hdotdot⟩
  · cases hno
  · exact ⟨hnil, hdot, hdotdot, sep_not_mem_split hmem⟩

theorem resolve_of_names {parts : List Bytes} (h : ∀ part ∈ parts, IsName sep part)
    (base : List Bytes) : resolve base parts = base ++ parts := by
  induction parts generalizing base with
  | nil => simp [resolve]
  | cons part parts ih =>
    have hname := h part (.head _)
    have hstep : resolveStep base part = base ++ [part] := by
      rw [resolveStep, if_neg (not_or.2 ⟨hname.ne_nil, hname.ne_dot⟩), if_neg hname.ne_dotdot]
    have hrest := ih (fun p hp => h p (.tail _ hp)) (base ++ [part])
    rw [append_assoc, ← hstep] at hrest
    exact hrest

theorem split_rooted {parts : List Bytes} (h : ∀ part ∈ parts, IsName sep part) :
    ∃ rest, split sep (rooted sep parts) = [] :: rest ∧ resolve [] rest = parts := by
  refine ⟨split sep (join sep parts), by rw [rooted, split, if_pos rfl], ?_⟩
  by_cases hnil : parts = []
  · subst hnil
    rfl
  · rw [split_join hnil, pieces_eq_self fun part hpart => (h part hpart).no_sep,
      resolve_of_names h, nil_append]

theorem split_rooted_of_ne_nil {parts : List Bytes} (hne : parts ≠ [])
    (h : ∀ part ∈ parts, IsName sep part) : split sep (rooted sep parts) = [] :: parts := by
  rw [rooted, split, if_pos rfl, split_join hne,
    pieces_eq_self fun part hpart => (h part hpart).no_sep]

theorem rooted_append {parts parts' : List Bytes} (hne : parts ≠ []) (hne' : parts' ≠ []) :
    rooted sep (parts ++ parts') = rooted sep parts ++ sep :: join sep parts' := by
  have happend : join sep (parts ++ parts') = join sep parts ++ sep :: join sep parts' := by
    induction parts with
    | nil => exact absurd rfl hne
    | cons part parts ih =>
      by_cases hlast : parts = []
      · subst hlast
        exact join_cons hne' part
      · rw [cons_append, join_cons (by simp [hne']), join_cons hlast, ih hlast]
        simp
  rw [rooted, rooted, happend, cons_append]

theorem rooted_sep_prefix_iff {parts parts' : List Bytes} (hne : parts ≠ [])
    (h : ∀ part ∈ parts, IsName sep part) (h' : ∀ part ∈ parts', IsName sep part) :
    rooted sep parts ++ [sep] <+: rooted sep parts' ↔ parts <+: parts'.dropLast := by
  constructor
  · rintro ⟨rest, hrest⟩
    rw [append_assoc, singleton_append] at hrest
    have hne' : parts' ≠ [] := by
      rintro rfl
      have hlen := congrArg List.length hrest
      simp [rooted, join] at hlen
    have hsplit := @split_append_sep sep (rooted sep parts) rest
    rw [hrest, split_rooted_of_ne_nil hne' h', split_rooted_of_ne_nil hne h, cons_append,
      List.cons.injEq] at hsplit
    rw [hsplit.2, dropLast_append_of_ne_nil (split_ne_nil sep rest)]
    exact prefix_append _ _
  · rintro ⟨rest, hrest⟩
    have hne' : parts' ≠ [] := by
      rintro rfl
      rw [dropLast_nil, append_eq_nil_iff] at hrest
      exact hne hrest.1
    obtain ⟨above, last, rfl⟩ := eq_nil_or_concat' parts' |>.resolve_left hne'
    rw [dropLast_concat] at hrest
    rw [← hrest, append_assoc, rooted_append hne (by simp)]
    exact ⟨join sep (rest ++ [last]), by simp⟩

theorem resolve_split_rooted {parts : List Bytes} (h : ∀ part ∈ parts, IsName sep part) :
    resolve [] (split sep (rooted sep parts)) = parts := by
  obtain ⟨rest, hsplit, hresolve⟩ := split_rooted h
  rw [hsplit]
  exact hresolve

theorem resolve_split_clean (s : Bytes) :
    resolve [] (split sep (clean sep s)) = resolve [] (split sep s) :=
  resolve_split_rooted fun _ hpart => isName_of_mem_resolve hpart

theorem clean_rooted {parts : List Bytes} (h : ∀ part ∈ parts, IsName sep part) :
    clean sep (rooted sep parts) = rooted sep parts := by
  rw [clean, resolve_split_rooted h]

theorem clean_clean (s : Bytes) : clean sep (clean sep s) = clean sep s :=
  clean_rooted fun _ hpart => isName_of_mem_resolve hpart

theorem length_join_le_of_sublist {parts parts' : List Bytes} (h : parts.Sublist parts') :
    (join sep parts).length ≤ (join sep parts').length := by
  induction h with
  | slnil => exact le_rfl
  | @cons parts parts' part hsub ih =>
    by_cases hnil : parts' = []
    · subst hnil
      rw [sublist_nil.1 hsub]
      exact Nat.zero_le _
    · rw [join_cons hnil, length_append, length_cons]
      omega
  | @cons_cons parts parts' part hsub ih =>
    by_cases hnil : parts' = []
    · subst hnil
      rw [sublist_nil.1 hsub]
    · rw [join_cons hnil, length_append, length_cons]
      by_cases hnil' : parts = []
      · subst hnil'
        simp only [join]
        omega
      · rw [join_cons hnil', length_append, length_cons]
        omega

theorem length_clean_le {s : Bytes} (h : s.head? = some sep) : (clean sep s).length ≤ s.length := by
  obtain ⟨b, t, rfl⟩ : ∃ b t, s = b :: t := by
    cases s with
    | nil => cases h
    | cons b t => exact ⟨b, t, rfl⟩
  obtain rfl : b = sep := by simpa using h
  have hsplit : split b (b :: t) = [] :: split b t := by rw [split, if_pos rfl]
  have hempty : resolve [] ([] :: split b t) = resolve [] (split b t) := by
    simp [resolve, resolveStep]
  rw [clean, hsplit, hempty, rooted, length_cons, length_cons]
  have hle : (join b (resolve [] (split b t))).length ≤ (join b ([] ++ split b t)).length :=
    length_join_le_of_sublist (resolve_sublist [] (split b t))
  rw [nil_append, join_split] at hle
  omega

theorem mem_join {b : UInt8} {parts : List Bytes} (h : b ∈ join sep parts) :
    b = sep ∨ ∃ part ∈ parts, b ∈ part := by
  induction parts with
  | nil => cases h
  | cons part parts ih =>
    by_cases hnil : parts = []
    · subst hnil
      exact .inr ⟨part, .head _, h⟩
    · rw [join_cons hnil, mem_append, mem_cons] at h
      rcases h with hb | hb | hb
      · exact .inr ⟨part, .head _, hb⟩
      · exact .inl hb
      · rcases ih hb with hsep | ⟨p, hp, hbp⟩
        · exact .inl hsep
        · exact .inr ⟨p, .tail _ hp, hbp⟩

theorem mem_clean {b : UInt8} {s : Bytes} (h : b ∈ clean sep s) : b = sep ∨ b ∈ s := by
  rcases mem_cons.1 h with hb | hb
  · exact .inl hb
  · rcases mem_join hb with hsep | ⟨part, hpart, hbp⟩
    · exact .inl hsep
    · rcases mem_resolve hpart with hno | ⟨hmem, -⟩
      · cases hno
      · exact .inr (mem_of_mem_split hmem hbp)

end Text
