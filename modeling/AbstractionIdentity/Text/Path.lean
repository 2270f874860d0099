import AbstractionIdentity.Text.Bytes

/-!
# Path components

`resolve` drops empty and `.` components and lets `..` take back the component before it. What is
left are names, which survive a round trip through the joined text.
-/

namespace Text

open List

structure IsName (sep : UInt8) (part : Bytes) : Prop where
  ne_nil : part ≠ []
  ne_dot : part ≠ [46]
  ne_dotdot : part ≠ [46, 46]
  no_sep : sep ∉ part

def join (sep : UInt8) : List Bytes → Bytes
  | [] => []
  | [part] => part
  | part :: parts => part ++ sep :: join sep parts

theorem join_cons_cons (sep : UInt8) (part part' : Bytes) (parts : List Bytes) :
    join sep (part :: part' :: parts) = part ++ sep :: join sep (part' :: parts) := rfl

theorem split_ne_nil (sep : UInt8) (s : Bytes) : split sep s ≠ [] := by
  induction s with
  | nil => simp [split]
  | cons b s ih =>
    rw [split]
    split_ifs
    · simp
    · split <;> simp

theorem sep_not_mem_split {sep : UInt8} {s part : Bytes} (h : part ∈ split sep s) : sep ∉ part := by
  induction s generalizing part with
  | nil =>
    rw [split, mem_singleton] at h
    simp [h]
  | cons b s ih =>
    rw [split] at h
    split_ifs at h with hb
    · rcases mem_cons.1 h with rfl | h
      · simp
      · exact ih h
    · cases hs : split sep s with
      | nil => exact absurd hs (split_ne_nil sep s)
      | cons p ps =>
        rw [hs] at h ih
        rcases mem_cons.1 h with rfl | h
        · have hp : sep ∉ p := ih mem_cons_self
          simpa [Ne.symm hb] using hp
        · exact ih (mem_cons_of_mem p h)

theorem mem_of_mem_split {sep b : UInt8} {s part : Bytes} (h : part ∈ split sep s)
    (hb : b ∈ part) : b ∈ s := by
  induction s generalizing part with
  | nil =>
    rw [split, mem_singleton] at h
    simp [h] at hb
  | cons c s ih =>
    rw [split] at h
    split_ifs at h with hc
    · rcases mem_cons.1 h with rfl | h
      · simp at hb
      · exact mem_cons_of_mem c (ih h hb)
    · cases hs : split sep s with
      | nil => exact absurd hs (split_ne_nil sep s)
      | cons p ps =>
        rw [hs] at h ih
        rcases mem_cons.1 h with rfl | h
        · rcases mem_cons.1 hb with rfl | hb
          · exact mem_cons_self
          · exact mem_cons_of_mem c (ih mem_cons_self hb)
        · exact mem_cons_of_mem c (ih (mem_cons_of_mem p h) hb)

def resolveStep (done : List Bytes) (part : Bytes) : List Bytes :=
  if part = [] ∨ part = [46] then done
  else if part = [46, 46] then done.dropLast
  else done ++ [part]

def resolve (base parts : List Bytes) : List Bytes := parts.foldl resolveStep base

theorem mem_resolve {base parts : List Bytes} {part : Bytes} (h : part ∈ resolve base parts) :
    part ∈ base ∨ (part ∈ parts ∧ part ≠ [] ∧ part ≠ [46] ∧ part ≠ [46, 46]) := by
  induction parts generalizing base with
  | nil => exact .inl h
  | cons p parts ih =>
    rcases ih h with hbase | ⟨hmem, hname⟩
    · rw [resolveStep] at hbase
      split_ifs at hbase with hskip hup
      · exact .inl hbase
      · exact .inl (dropLast_subset base hbase)
      · rcases mem_append.1 hbase with hold | hnew
        · exact .inl hold
        · rw [mem_singleton.1 hnew]
          push Not at hskip
          exact .inr ⟨mem_cons_self, hskip.1, hskip.2, hup⟩
    · exact .inr ⟨mem_cons_of_mem p hmem, hname⟩

end Text
