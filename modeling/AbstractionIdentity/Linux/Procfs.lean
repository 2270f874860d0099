import AbstractionIdentity.Text.Bytes

/-!
# What is read out of /proc

The kernel shows the image of a process as a link: the path of the file, with a mark appended once
the file has been unlinked. A file may carry the mark in its own name; `Image.seen` is the path the
reader makes of the link. Every read may fail, and its outcome is an `Except`.
-/

namespace Linux

open Text

inductive ReadError where
  | notExist
  | permission
  | descriptors
  | other
  deriving DecidableEq

inductive PidfdError where
  | read (err : ReadError)
  | noPidLine
  | disagrees (got want : ℤ)
  deriving DecidableEq

def deletedMark : Bytes := ascii " (deleted)"

/-- A program a process executes: the path of its file and whether the file has
been unlinked since. -/
structure Image where
  path : Bytes
  unlinked : Bool
  deriving DecidableEq

def Image.link (i : Image) : Bytes := if i.unlinked then i.path ++ deletedMark else i.path

def fieldInt (s label : Bytes) : Option ℤ :=
  match (split 10 s).find? (label.isPrefixOf ·) with
  | none => none
  | some line => atoi (trimSpace (line.drop label.length))

def pidLabel : Bytes := ascii "Pid:"

/-- Whether the pidfd still names a running process, and that it is `want`. The
argument is the outcome of reading `/proc/self/fdinfo/<pidfd>`. -/
def pidfdAlive (fdinfo : Except ReadError Bytes) (want : ℤ) :
    Except PidfdError Bool :=
  match fdinfo with
  | .error err => .error (.read err)
  | .ok s =>
    match fieldInt s pidLabel with
    | none => .error .noPidLine
    | some got =>
      if got ≤ 0 then .ok false
      else if got ≠ want then .error (.disagrees got want)
      else .ok true

def processExe (link : Except ReadError Bytes) :
    Except ReadError (Bytes × Bool) :=
  match link with
  | .error err => .error err
  | .ok s =>
    match cutSuffix s deletedMark with
    | some t => .ok (t, true)
    | none => .ok (s, false)

def Image.seen (i : Image) : Bytes := (cutSuffix i.link deletedMark).getD i.link

theorem pidfdAlive_of_fieldInt {s : Bytes} {pid : ℤ}
    (h : fieldInt s pidLabel = some pid) (hpos : 0 < pid) :
    pidfdAlive (.ok s) pid = .ok true := by
  simp [pidfdAlive, h, hpos]

theorem processExe_link (i : Image) :
    ∃ deleted, processExe (.ok i.link) = .ok (i.seen, deleted) := by
  unfold processExe Image.seen
  cases h : cutSuffix i.link deletedMark with
  | none => exact ⟨false, by simp [h]⟩
  | some t => exact ⟨true, by simp [h]⟩

theorem Image.seen_of_unlinked {i : Image} (h : i.unlinked = true) : i.seen = i.path := by
  simp [Image.seen, Image.link, h, cutSuffix_append]

theorem Image.seen_of_not_suffix {i : Image} (hu : i.unlinked = false)
    (h : ¬ deletedMark <:+ i.path) : i.seen = i.path := by
  simp [Image.seen, Image.link, hu, cutSuffix_eq_none h]

theorem Image.seen_ne_path {i : Image} (hu : i.unlinked = false)
    (h : deletedMark <:+ i.path) : i.seen ≠ i.path := by
  obtain ⟨t, ht⟩ := h
  have hseen : i.seen = t := by
    simp [Image.seen, Image.link, hu, ← ht, cutSuffix_append]
  rw [hseen, ← ht]
  intro heq
  have hlen := congrArg List.length heq
  rw [List.length_append] at hlen
  have hmark : deletedMark.length = 10 := by decide
  omega

theorem Image.seen_eq_path_iff (i : Image) :
    i.seen = i.path ↔ i.unlinked = true ∨ ¬ deletedMark <:+ i.path := by
  constructor
  · intro h
    cases hu : i.unlinked with
    | true => exact .inl rfl
    | false => exact .inr fun hsuf => Image.seen_ne_path hu hsuf h
  · rintro (h | h)
    · exact Image.seen_of_unlinked h
    · cases hu : i.unlinked with
      | true => exact Image.seen_of_unlinked hu
      | false => exact Image.seen_of_not_suffix hu h

end Linux
