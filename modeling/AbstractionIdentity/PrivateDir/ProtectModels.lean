import AbstractionIdentity.Transition.Table
import AbstractionIdentity.Unix.Walk
import Mathlib.Data.List.Range
import Mathlib.Logic.Function.Basic

/-!
# Protecting a model folder

`protectModels` opens every entry below a folder, judges each before and after it is opened, and
then clears the write bits through the descriptors it holds. The entries are a worklist that grows
while it is read. The tree is static apart from the permissions; `World.fault` and
`World.chmodFault` give the failures of the calls in order. `Scanned` says what the worklist holds.
The kernel drops the set-group-ID bit of a mode that an owner outside the group of the entry writes
(`World.written`), so an entry may lose that bit as well (`protectModels_drops_setgid`).
-/

namespace PrivateDir

open Text Transition Unix List Option

abbrev Perm := BitVec 12

inductive Kind where
  | directory
  | regular
  | link
  | pipe
  | socket
  | charDevice
  | blockDevice
  deriving DecidableEq

structure Inode where
  dev : ℕ
  ino : ℕ
  uid : ℕ
  nlink : ℕ
  named : 0 < nlink

def Inode.key (n : Inode) : ℕ × ℕ := (n.dev, n.ino)

inductive Tree where
  | leaf (inode : Inode) (kind : Kind) (hkind : kind ≠ .directory)
  | folder (inode : Inode) (names : List Bytes) (entry : Bytes → Tree)

namespace Tree

def inode : Tree → Inode
  | leaf inode _ _ => inode
  | folder inode _ _ => inode

def kind : Tree → Kind
  | leaf _ kind _ => kind
  | folder _ _ _ => .directory

def key (t : Tree) : ℕ × ℕ := t.inode.key

def child : Tree → Bytes → Option Tree
  | leaf _ _ _, _ => none
  | folder _ names entry, name =>
    if names.contains name then some (entry name) else none

def walk : Tree → List Bytes → Option Tree
  | t, [] => some t
  | t, name :: below => (t.child name).bind fun u => u.walk below

def size : Tree → ℕ
  | leaf _ _ _ => 1
  | folder _ names entry => names.foldr (fun name n => (entry name).size + n) 1

end Tree

structure Stat where
  dev : ℕ
  ino : ℕ
  uid : ℕ
  nlink : ℕ
  kind : Kind
  perm : Perm

def Tree.stat (perm : ℕ × ℕ → Perm) (t : Tree) : Stat where
  dev := t.inode.dev
  ino := t.inode.ino
  uid := t.inode.uid
  nlink := t.inode.nlink
  kind := t.kind
  perm := perm t.key

inductive Refusal where
  | sys (errno : Errno)
  | link (p : Path)
  | kind (p : Path)
  | owner (p : Path)
  | names (p : Path) (nlink : ℕ)
  | changed (p : Path)
  | notDirectory
  | chmod (p : Path) (errno : Errno)

def Refusal.text (strerror : Errno → Bytes) : Refusal → Bytes
  | sys errno => strerror errno
  | link p => rooted 47 p ++ ascii " is a link"
  | kind p => rooted 47 p ++ ascii " is neither a folder nor a file"
  | owner p => rooted 47 p ++ ascii " is not owned by this account"
  | names p nlink => rooted 47 p ++ ascii " has " ++ decimal nlink ++
      ascii " names, which cannot be listed here"
  | changed p => rooted 47 p ++ ascii " changed while it was opened"
  | notDirectory => ascii "it is not a directory"
  | chmod p errno => rooted 47 p ++ ascii ": " ++ strerror errno

def judge (uid : ℕ) (p : Path) (st : Stat) : Option Refusal :=
  if st.kind = .link then some (.link p)
  else if st.kind ≠ .directory ∧ st.kind ≠ .regular then some (.kind p)
  else if st.uid ≠ uid then some (.owner p)
  else if st.kind = .regular ∧ 1 < st.nlink then some (.names p st.nlink)
  else none

structure Held where
  path : Path
  fd : ℕ
  dir : Bool
  mode : Perm

/-- The account that calls, with the groups it is in and whether it has `CAP_FSETID`; the folder,
its tree and the group of each inode; and the failures of the calls. -/
structure World where
  uid : ℕ
  groups : List ℕ
  fsetid : Bool
  dir : Path
  top : Tree
  gid : ℕ × ℕ → ℕ
  fault : ℕ → Option Errno
  chmodFault : ℕ → Option Errno

/-- The permissions, the descriptors opened and closed, the number of calls made, and the
entries held. -/
structure Scan where
  perm : ℕ × ℕ → Perm
  opened : List Tree
  closed : List ℕ
  calls : ℕ
  all : List Held

def Scan.entryAt (s : Scan) (fd : ℕ) (name : Bytes) : Option Tree :=
  s.opened[fd]?.bind fun t => t.child name

def Scan.tick (s : Scan) : Scan := { s with calls := s.calls + 1 }

def sameEntry (uid : ℕ) (before st : Stat) (e : Held) : Except Refusal Held :=
  if st.dev ≠ before.dev ∨ st.ino ≠ before.ino then .error (.changed e.path)
  else match judge uid e.path st with
    | some err => .error err
    | none => .ok e

/-- `open` of `protectModels` from `Openat` on, for an entry that was judged unopened. -/
def holdEntry (w : World) (t : Tree) (before : Stat) (p : Path) (s : Scan) :
    Except Refusal Held × Scan :=
  match w.fault s.calls with
  | some errno => (.error (if errno = .loop then .link p else .sys errno), s.tick)
  | none =>
    match w.fault (s.calls + 1) with
    | some errno =>
      (.error (.sys errno),
        ⟨s.perm, s.opened ++ [t], s.closed ++ [s.opened.length], s.calls + 2, s.all⟩)
    | none =>
      let e : Held := ⟨p, s.opened.length, t.kind = .directory, s.perm t.key⟩
      (sameEntry w.uid before (t.stat s.perm) e,
        ⟨s.perm, s.opened ++ [t], s.closed, s.calls + 2, s.all ++ [e]⟩)

/-- `open` of `protectModels`: `found` is what the name leads to, without following a
link. -/
def openEntry (w : World) (found : Option Tree) (p : Path) (s : Scan) :
    Except Refusal Held × Scan :=
  match w.fault s.calls, found with
  | some errno, _ => (.error (.sys errno), s.tick)
  | none, none => (.error (.sys .noEntry), s.tick)
  | none, some t =>
    match judge w.uid p (t.stat s.perm) with
    | some err => (.error err, s.tick)
    | none => holdEntry w t (t.stat s.perm) p s.tick

def openChildren (w : World) (fd : ℕ) (p : Path) : List Bytes → Scan → Option Refusal × Scan
  | [], s => (none, s)
  | name :: names, s =>
    match openEntry w (s.entryAt fd name) (p ++ [name]) s with
    | (.error err, s) => (some err, s)
    | (.ok _, s) => openChildren w fd p names s

def readDir (w : World) (p : Path) (s : Scan) : Except Errno (List Bytes) :=
  match w.fault s.calls with
  | some errno => .error errno
  | none =>
    match w.top.walk (p.drop w.dir.length) with
    | none => .error .noEntry
    | some (.leaf _ _ _) => .error .notDirectory
    | some (.folder _ names _) => .ok names

def scan (w : World) : ℕ → ℕ → Scan → Option (Option Refusal × Scan)
  | 0, _, _ => none
  | fuel + 1, i, s =>
    match s.all[i]? with
    | none => some (none, s)
    | some e =>
      if e.dir = false then scan w fuel (i + 1) s
      else match readDir w e.path s with
        | .error errno => some (some (.sys errno), s.tick)
        | .ok names =>
          match openChildren w e.fd e.path names s.tick with
          | (some err, s) => some (some err, s)
          | (none, s) => scan w fuel (i + 1) s

def setgid : Perm := 0o2000#12

/-- What `fchmod` makes of a mode: the set-group-ID bit is for members of the group. -/
def World.written (w : World) (key : ℕ × ℕ) (mode : Perm) : Perm :=
  if w.fsetid || w.groups.contains (w.gid key) then mode else mode &&& ~~~setgid

def Scan.fchmod (w : World) (s : Scan) (fd : ℕ) (mode : Perm) : Scan :=
  match s.opened[fd]? with
  | none => s
  | some t => { s with perm := Function.update s.perm t.key (w.written t.key mode) }

def clearWrite (w : World) : List Held → ℕ → Scan → Option Refusal × Scan
  | [], _, s => (none, s)
  | e :: es, n, s =>
    match w.chmodFault n with
    | some errno => (some (.chmod e.path errno), s)
    | none => clearWrite w es (n + 1) (s.fchmod w e.fd (e.mode &&& ~~~0o022#12))

/-- What `protectModels` returned, the permissions it left, and the descriptors it opened and
closed. -/
structure Outcome where
  err : Option Refusal
  perm : ℕ × ℕ → Perm
  opened : ℕ
  closed : List ℕ

def Scan.release (s : Scan) (err : Option Refusal) : Outcome :=
  ⟨err, s.perm, s.opened.length, s.closed ++ s.all.map (·.fd)⟩

def protectModels (w : World) (perm : ℕ × ℕ → Perm) (fuel : ℕ) : Option Outcome :=
  match openEntry w (some w.top) w.dir ⟨perm, [], [], 0, []⟩ with
  | (.error err, s) => some (s.release (some err))
  | (.ok top, s) =>
    if top.dir = false then some (s.release (some .notDirectory))
    else match scan w fuel 0 s with
      | none => none
      | some (some err, s) => some (s.release (some err))
      | some (none, s) =>
        let (err, s) := clearWrite w s.all 0 s
        some (s.release err)

structure Fit (uid : ℕ) (t : Tree) : Prop where
  kind : t.kind = .directory ∨ t.kind = .regular ∧ t.inode.nlink = 1
  owner : t.inode.uid = uid

theorem fit_of_judge {uid : ℕ} {p : Path} {perm : ℕ × ℕ → Perm} {t : Tree}
    (h : judge uid p (t.stat perm) = none) : Fit uid t := by
  rw [judge] at h
  split at h
  · cases h
  split at h
  · cases h
  next hkind =>
    split at h
    · cases h
    next howner =>
      split at h
      · cases h
      next hnames =>
        refine ⟨?_, not_not.1 howner⟩
        by_cases hdir : t.kind = .directory
        · exact .inl hdir
        · have hreg : t.kind = .regular := by
            by_contra hreg
            exact hkind ⟨hdir, hreg⟩
          have hle : ¬ 1 < t.inode.nlink := fun hlt => hnames ⟨hreg, hlt⟩
          have hpos := t.inode.named
          exact .inr ⟨hreg, by omega⟩

structure Kept (perm : ℕ × ℕ → Perm) (s : Scan) : Prop where
  perm : s.perm = perm
  ledger : (s.closed ++ s.all.map (·.fd)).Perm (List.range s.opened.length)

section Open

variable {w : World} {perm : ℕ × ℕ → Perm} {found : Option Tree} {p : Path} {s s' : Scan}
  {e : Held}

theorem Kept.tick (h : Kept perm s) : Kept perm s.tick := ⟨h.perm, h.ledger⟩

theorem Kept.shut (h : Kept perm s) (t : Tree) (calls : ℕ) :
    Kept perm ⟨s.perm, s.opened ++ [t], s.closed ++ [s.opened.length], calls, s.all⟩ where
  perm := h.perm
  ledger := by
    rw [length_append, length_singleton, range_succ, append_assoc]
    refine (perm_append_comm.append_left s.closed).trans ?_
    rw [← append_assoc]
    exact h.ledger.append_right _

theorem Kept.hold (h : Kept perm s) (t : Tree) (calls : ℕ) (he : e.fd = s.opened.length) :
    Kept perm ⟨s.perm, s.opened ++ [t], s.closed, calls, s.all ++ [e]⟩ where
  perm := h.perm
  ledger := by
    rw [length_append, length_singleton, range_succ, map_append, ← append_assoc, map_singleton, he]
    exact h.ledger.append_right _

theorem openEntry_kept (h : Kept perm s) : Kept perm (openEntry w found p s).2 := by
  rw [openEntry.eq_def]
  split
  · exact h.tick
  · exact h.tick
  · split
    · exact h.tick
    · rw [holdEntry]
      split
      · exact h.tick.tick
      · split
        · exact h.tick.shut _ _
        · exact h.tick.hold _ _ rfl

theorem sameEntry_ok {uid : ℕ} {before st : Stat} {e' : Held}
    (h : sameEntry uid before st e = .ok e') : e' = e := by
  rw [sameEntry] at h
  split at h
  · cases h
  · split at h
    · cases h
    · cases h
      rfl

theorem openEntry_ok (h : openEntry w found p s = (.ok e, s')) : ∃ t, found = some t ∧ Fit w.uid t ∧
      e = ⟨p, s.opened.length, t.kind = .directory, s.perm t.key⟩ ∧
      s' = ⟨s.perm, s.opened ++ [t], s.closed, s.calls + 3, s.all ++ [e]⟩ := by
  rw [openEntry.eq_def] at h
  split at h
  · cases h
  · cases h
  next t hfault =>
    split at h
    · cases h
    next hjudge =>
      rw [holdEntry] at h
      split at h
      · cases h
      · split at h
        · cases h
        · obtain ⟨hsame, rfl⟩ := Prod.mk.inj h
          obtain rfl := sameEntry_ok hsame
          exact ⟨t, rfl, fit_of_judge hjudge, rfl, rfl⟩

theorem openChildren_kept {fd : ℕ} {names : List Bytes} (h : Kept perm s) :
    Kept perm (openChildren w fd p names s).2 := by
  induction names generalizing s with
  | nil => exact h
  | cons name names ih =>
    have hopen := @openEntry_kept w perm (s.entryAt fd name) (p ++ [name]) s h
    rw [openChildren]
    split
    next err s' heq =>
      rw [heq] at hopen
      exact hopen
    next e s' heq =>
      rw [heq] at hopen
      exact ih hopen

end Open

structure HeldFor (w : World) (perm : ℕ × ℕ → Perm) (j : ℕ) (e : Held) (t : Tree) :
    Prop where
  fd : e.fd = j
  path : ∃ below, e.path = w.dir ++ below ∧ w.top.walk below = some t
  dir : e.dir = decide (t.kind = .directory)
  mode : e.mode = perm t.key
  fit : Fit w.uid t

structure Scanned (w : World) (perm : ℕ × ℕ → Perm) (s : Scan) : Prop where
  kept : Kept perm s
  length : s.all.length = s.opened.length
  entry : ∀ (j : ℕ) (e : Held), s.all[j]? = some e →
    ∃ t, s.opened[j]? = some t ∧ HeldFor w perm j e t

section Scanned

variable {w : World} {perm : ℕ × ℕ → Perm} {s s' : Scan}

theorem Tree.walk_append (t : Tree) (p q : List Bytes) :
    t.walk (p ++ q) = (t.walk p).bind fun u => u.walk q := by
  induction p generalizing t with
  | nil => rfl
  | cons name p ih =>
    rw [cons_append, Tree.walk, Tree.walk, bind_assoc]
    exact congrArg _ (funext ih)

theorem Scanned.hold (h : Scanned w perm s) {t : Tree} {e : Held} (calls : ℕ)
    (he : HeldFor w perm s.opened.length e t) :
    Scanned w perm ⟨s.perm, s.opened ++ [t], s.closed, calls, s.all ++ [e]⟩ where
  kept := h.kept.hold t calls he.fd
  length := by simp [h.length]
  entry j e' hj := by
    rcases lookup_concat_iff.1 hj with ⟨rfl, rfl⟩ | ⟨-, hj⟩
    · exact ⟨t, by simp [h.length], h.length ▸ he⟩
    · obtain ⟨u, hu, hfor⟩ := h.entry j e' hj
      obtain ⟨hlt, -⟩ := List.getElem?_eq_some_iff.1 hu
      exact ⟨u, by rw [List.getElem?_append_left hlt]; exact hu, hfor⟩

theorem Scanned.tick (h : Scanned w perm s) : Scanned w perm s.tick :=
  ⟨h.kept.tick, h.length, h.entry⟩

theorem openChildren_scanned {fd : ℕ} {below : Path} {inode : Inode} {listing : List Bytes}
    {entry : Bytes → Tree} {names : List Bytes} (h : Scanned w perm s)
    (hfd : s.opened[fd]? = some (.folder inode listing entry))
    (hwalk : w.top.walk below = some (.folder inode listing entry))
    (hnames : ∀ name ∈ names, name ∈ listing)
    (hopen : openChildren w fd (w.dir ++ below) names s = (none, s')) :
    Scanned w perm s' ∧ s'.opened = s.opened ++ names.map entry := by
  induction names generalizing s with
  | nil =>
    cases hopen
    exact ⟨h, (append_nil _).symm⟩
  | cons name names ih =>
    have hname : (Tree.folder inode listing entry).child name = some (entry name) :=
      if_pos (contains_iff_mem.2 (hnames name mem_cons_self))
    rw [openChildren] at hopen
    split at hopen
    · cases hopen
    next e t heq =>
      obtain ⟨u, hfound, hfit, he, rfl⟩ := openEntry_ok heq
      rw [Scan.entryAt, hfd, bind_some, hname] at hfound
      cases hfound
      have hheld : HeldFor w perm s.opened.length e (entry name) := by
        rw [he]
        refine ⟨rfl, ⟨below ++ [name], append_assoc .., ?_⟩, rfl, ?_, hfit⟩
        · rw [Tree.walk_append, hwalk, bind_some, Tree.walk, hname]
          rfl
        · rw [h.kept.perm]
      obtain ⟨hlt, -⟩ := List.getElem?_eq_some_iff.1 hfd
      obtain ⟨hscan, hopened⟩ := ih (h.hold _ hheld)
        (by rw [List.getElem?_append_left hlt]; exact hfd)
        (fun name' hn => hnames name' (mem_cons_of_mem _ hn)) hopen
      refine ⟨hscan, ?_⟩
      rw [hopened, append_assoc]
      rfl

end Scanned

def pending (ts : List Tree) : ℕ := ts.foldr (fun t n => t.size + n) 0

theorem pending_append (ts us : List Tree) : pending (ts ++ us) = pending ts + pending us := by
  induction ts with
  | nil => simp [pending]
  | cons t ts ih =>
    rw [pending] at ih
    simp only [pending, cons_append, foldr_cons, ih]
    omega

theorem size_folder (inode : Inode) (names : List Bytes) (entry : Bytes → Tree) :
    (Tree.folder inode names entry).size = 1 + pending (names.map entry) := by
  rw [Tree.size, pending]
  induction names with
  | nil => rfl
  | cons name names ih =>
    rw [foldr_cons, map_cons, foldr_cons, ih]
    omega

section Scan

variable {w : World} {perm : ℕ × ℕ → Perm} {s : Scan}

def Covered (i : ℕ) (opened : List Tree) : Prop :=
  ∀ (j : ℕ) (t : Tree), j < i → opened[j]? = some t →
    ∀ name u, t.child name = some u → u ∈ opened

variable {entry : Bytes → Tree} {i : ℕ} {inode : Inode} {names : List Bytes} {opened : List Tree}
  {t : Tree}

theorem mem_of_covered (h : Covered opened.length opened) {u : Tree}
    {below : Path} (ht : t ∈ opened) (hwalk : t.walk below = some u) : u ∈ opened := by
  induction below generalizing t with
  | nil =>
    cases hwalk
    exact ht
  | cons name below ih =>
    rw [Tree.walk, bind_eq_some_iff] at hwalk
    obtain ⟨v, hv, hwalk⟩ := hwalk
    obtain ⟨j, hj⟩ := mem_iff_getElem?.1 ht
    obtain ⟨hlt, -⟩ := List.getElem?_eq_some_iff.1 hj
    exact ih (h j t hlt hj name v hv) hwalk

theorem Covered.succ {i : ℕ} {opened added : List Tree} {t : Tree} (h : Covered i opened)
    (ht : opened[i]? = some t) (hchild : ∀ name u, t.child name = some u → u ∈ opened ++ added) :
    Covered (i + 1) (opened ++ added) := by
  intro j v hj hv name u hu
  obtain ⟨hlt, -⟩ := List.getElem?_eq_some_iff.1 ht
  rw [List.getElem?_append_left (by omega)] at hv
  rcases Nat.lt_succ_iff_lt_or_eq.1 hj with hj | rfl
  · exact mem_append_left _ (h j v hj hv name u hu)
  · rw [ht] at hv
    cases hv
    exact hchild name u hu

theorem HeldFor.readDir_eq {j : ℕ} {e : Held} {listing : List Bytes}
    (h : HeldFor w perm j e (.folder inode listing entry))
    (hread : readDir w e.path s = .ok names) : names = listing := by
  obtain ⟨below, hpath, hwalk⟩ := h.path
  rw [readDir, hpath, drop_left, hwalk] at hread
  split at hread
  · cases hread
  · cases hread
    rfl

theorem Covered.leaf {kind : Kind} {hkind : kind ≠ .directory} (h : Covered i opened)
    (ht : opened[i]? = some (.leaf inode kind hkind)) : Covered (i + 1) opened := by
  have hnext := @Covered.succ i opened [] _ h ht fun name u hu => by cases hu
  rwa [append_nil] at hnext

theorem Covered.folder (h : Covered i opened) (ht : opened[i]? = some (.folder inode names entry)) :
    Covered (i + 1) (opened ++ names.map entry) := by
  refine h.succ ht fun name u hu => ?_
  rw [Tree.child] at hu
  split_ifs at hu with hmem
  cases hu
  exact mem_append_right _ (mem_map_of_mem (contains_iff_mem.1 hmem))

theorem pending_drop (ht : opened[i]? = some t) :
    pending (opened.drop i) = t.size + pending (opened.drop (i + 1)) := by
  obtain ⟨hlt, rfl⟩ := List.getElem?_eq_some_iff.1 ht
  rw [drop_eq_getElem_cons hlt]
  rfl

theorem pending_folder (ht : opened[i]? = some (.folder inode names entry)) :
    pending ((opened ++ names.map entry).drop (i + 1)) + 1 = pending (opened.drop i) := by
  obtain ⟨hlt, -⟩ := List.getElem?_eq_some_iff.1 ht
  have hlt : i + 1 ≤ opened.length := hlt
  rw [pending_drop ht, drop_append_of_le_length hlt, pending_append, size_folder]
  omega

/-- The scan ends, writes no mode, and has opened every entry if it refuses none. -/
theorem scan_spec {fuel : ℕ} (h : Scanned w perm s) (hcover : Covered i s.opened)
    (hi : i ≤ s.opened.length) (hfuel : pending (s.opened.drop i) < fuel) :
    ∃ err s', scan w fuel i s = some (err, s') ∧ Kept perm s' ∧
      (err = none → Scanned w perm s' ∧ s.opened <+: s'.opened ∧
        Covered s'.opened.length s'.opened) := by
  induction fuel generalizing i s with
  | zero => omega
  | succ fuel ih =>
    rw [scan]
    cases he : s.all[i]? with
    | none =>
      have hlen : i = s.opened.length := by
        have hle := List.getElem?_eq_none_iff.1 he
        rw [h.length] at hle
        omega
      exact ⟨none, s, rfl, h.kept, fun _ => ⟨h, prefix_rfl, hlen ▸ hcover⟩⟩
    | some e =>
      obtain ⟨t, ht, hheld⟩ := h.entry i e he
      obtain ⟨hlt, -⟩ := List.getElem?_eq_some_iff.1 ht
      dsimp only
      cases t with
      | leaf inode kind hkind =>
        have hdir : e.dir = false := by
          rw [hheld.dir]
          exact decide_eq_false hkind
        have hleft : pending (s.opened.drop (i + 1)) < fuel := by
          rw [pending_drop ht, Tree.size] at hfuel
          omega
        rw [if_pos hdir]
        exact ih h (hcover.leaf ht) hlt hleft
      | folder inode names entry =>
        have hdir : ¬ e.dir = false := by
          rw [hheld.dir]
          simp [Tree.kind]
        rw [if_neg hdir]
        split
        next errno hfail =>
          exact ⟨_, _, rfl, h.kept.tick, fun hnone => by cases hnone⟩
        next names' hok =>
          obtain rfl := hheld.readDir_eq hok
          have hkept := @openChildren_kept w perm e.path s.tick e.fd names' h.kept.tick
          split
          next err s' heq =>
            rw [heq] at hkept
            exact ⟨_, _, rfl, hkept, fun hnone => by cases hnone⟩
          next s' heq =>
            obtain ⟨below, hpath, hwalk⟩ := hheld.path
            rw [hheld.fd, hpath] at heq
            obtain ⟨hscan, hopened⟩ := openChildren_scanned h.tick ht hwalk
              (fun _ hn => hn) heq
            have hmore : s'.opened = s.opened ++ names'.map entry := hopened
            have hle : i + 1 ≤ s'.opened.length := by
              rw [hmore, length_append]
              omega
            have hleft : pending (s'.opened.drop (i + 1)) < fuel := by
              rw [← pending_folder ht, ← hmore] at hfuel
              omega
            obtain ⟨err, s'', hrun, hkept', hall⟩ := ih hscan (hmore ▸ hcover.folder ht) hle hleft
            refine ⟨err, s'', hrun, hkept', fun hnone => ?_⟩
            obtain ⟨hscan', hgrown, hcovered⟩ := hall hnone
            refine ⟨hscan', ?_, hcovered⟩
            exact (hmore ▸ prefix_append _ _ : s.opened <+: s'.opened).trans hgrown

theorem Scanned.held (h : Scanned w perm s) (hcover : Covered s.opened.length s.opened)
    (htop : w.top ∈ s.opened) {below : Path} (hwalk : w.top.walk below = some t) :
    ∃ e ∈ s.all, s.opened[e.fd]? = some t ∧ Fit w.uid t := by
  obtain ⟨j, hj⟩ := mem_iff_getElem?.1 (mem_of_covered hcover htop hwalk)
  obtain ⟨hlt, -⟩ := List.getElem?_eq_some_iff.1 hj
  rw [← h.length] at hlt
  obtain ⟨u, hu, hfor⟩ := h.entry j _ (List.getElem?_eq_getElem hlt)
  rw [hj] at hu
  cases hu
  refine ⟨_, getElem_mem hlt, ?_, hfor.fit⟩
  rw [hfor.fd]
  exact hj

theorem Scanned.tree (h : Scanned w perm s) {e : Held} (he : e ∈ s.all) :
    ∃ t, s.opened[e.fd]? = some t ∧ e.mode = perm t.key ∧ ∃ below, w.top.walk below = some t := by
  obtain ⟨j, hj⟩ := mem_iff_getElem?.1 he
  obtain ⟨t, ht, hfor⟩ := h.entry j e hj
  obtain ⟨below, -, hwalk⟩ := hfor.path
  exact ⟨t, hfor.fd ▸ ht, hfor.mode, below, hwalk⟩

end Scan

def writeBits : Perm := 0o022#12

section Clear

variable {w : World} {perm : ℕ × ℕ → Perm}

theorem clearWrite_spec (hchmod : ∀ n, w.chmodFault n = none) {es : List Held} {n : ℕ}
    {s : Scan} (hes : ∀ e ∈ es, ∃ t, s.opened[e.fd]? = some t ∧ e.mode = perm t.key) :
    ∃ perm', clearWrite w es n s = (none, ⟨perm', s.opened, s.closed, s.calls, s.all⟩) ∧
      (∀ e ∈ es, ∀ t, s.opened[e.fd]? = some t →
        perm' t.key = w.written t.key (perm t.key &&& ~~~writeBits)) ∧
      ∀ key, (∀ e ∈ es, ∀ t, s.opened[e.fd]? = some t → t.key ≠ key) → perm' key = s.perm key := by
  induction es generalizing n s with
  | nil => exact ⟨s.perm, rfl, fun e he => absurd he not_mem_nil, fun key _ => rfl⟩
  | cons e es ih =>
    obtain ⟨t, ht, hmode⟩ := hes e mem_cons_self
    have hwrite : s.fchmod w e.fd (e.mode &&& ~~~0o022#12) =
        ⟨Function.update s.perm t.key (w.written t.key (perm t.key &&& ~~~writeBits)), s.opened,
          s.closed, s.calls, s.all⟩ := by
      rw [Scan.fchmod, ht, hmode]
      rfl
    obtain ⟨perm', hrun, hcleared, hothers⟩ := @ih (n + 1)
      ⟨Function.update s.perm t.key (w.written t.key (perm t.key &&& ~~~writeBits)), s.opened,
        s.closed, s.calls, s.all⟩ fun e' he' => hes e' (mem_cons_of_mem _ he')
    refine ⟨perm', ?_, ?_, ?_⟩
    · rw [clearWrite, hchmod n, hwrite]
      exact hrun
    · intro e' he' u hu
      -- an inode that is met again later was given its mode then, and the same one
      by_cases hagain : ∃ e'' ∈ es, ∃ v, s.opened[e''.fd]? = some v ∧ v.key = u.key
      · obtain ⟨e'', he'', v, hv, hkey⟩ := hagain
        rw [← hkey]
        exact hcleared e'' he'' v hv
      · have hlast := hothers u.key fun e'' he'' v hv hkey =>
          hagain ⟨e'', he'', v, hv, hkey⟩
        rcases mem_cons.1 he' with rfl | he'
        · rw [ht] at hu
          cases hu
          rw [hlast]
          exact Function.update_self ..
        · exact absurd ⟨e', he', u, hu, rfl⟩ hagain
    · intro key hkey
      rw [hothers key fun e' he' => hkey e' (mem_cons_of_mem _ he')]
      exact Function.update_of_ne (hkey e mem_cons_self t ht).symm _ _

end Clear

/-- Every entry is fit for the folder and has its old mode without the write bits of group and
others, and without the set-group-ID bit where the caller may not keep it; no other mode has
changed. -/
structure Cleared (w : World) (perm perm' : ℕ × ℕ → Perm) : Prop where
  fit : ∀ below t, w.top.walk below = some t → Fit w.uid t
  cleared : ∀ below t, w.top.walk below = some t →
    perm' t.key = w.written t.key (perm t.key &&& ~~~writeBits)
  outside : ∀ key, (∀ below t, w.top.walk below = some t → t.key ≠ key) →
    perm' key = perm key

theorem clear_scanned {w : World} {perm : ℕ × ℕ → Perm} {s : Scan}
    (hchmod : ∀ n, w.chmodFault n = none) (h : Scanned w perm s)
    (hcover : Covered s.opened.length s.opened) (htop : w.top ∈ s.opened) :
    ∃ perm', clearWrite w s.all 0 s = (none, ⟨perm', s.opened, s.closed, s.calls, s.all⟩) ∧
      Cleared w perm perm' := by
  obtain ⟨perm', hclear, hcleared, hothers⟩ := @clearWrite_spec w perm hchmod s.all 0 s
    fun e he => by
      obtain ⟨t, ht, hmode, -⟩ := h.tree he
      exact ⟨t, ht, hmode⟩
  refine ⟨perm', hclear, ?_, ?_, ?_⟩
  · intro below t hwalk
    obtain ⟨e, -, -, hfit⟩ := h.held hcover htop hwalk
    exact hfit
  · intro below t hwalk
    obtain ⟨e, he, ht, -⟩ := h.held hcover htop hwalk
    exact hcleared e he t ht
  · intro key hkey
    refine (hothers key fun e he t ht => ?_).trans (congrFun h.kept.perm key)
    obtain ⟨u, hu, -, below, hwalk⟩ := h.tree he
    rw [hu] at ht
    cases ht
    exact hkey below t hwalk

/-- `protectModels` returns with every descriptor closed once: it has failed and left all
permissions, or every entry is a folder or a file of one name that the caller owns, and has lost the
write bits of group and others (and the set-group-ID bit outside the caller's groups). -/
theorem protectModels_all_or_nothing (w : World) (hchmod : ∀ n, w.chmodFault n = none)
    (perm : ℕ × ℕ → Perm) (fuel : ℕ) (hfuel : w.top.size < fuel) :
    ∃ out, protectModels w perm fuel = some out ∧ out.closed.Perm (List.range out.opened) ∧
      ((∃ err, out.err = some err ∧ out.perm = perm) ∨
        out.err = none ∧ Cleared w perm out.perm) := by
  have hstart : Kept perm ⟨perm, [], [], 0, []⟩ := ⟨rfl, List.Perm.refl _⟩
  have hopen := @openEntry_kept w perm (some w.top) w.dir _ hstart
  rw [protectModels]
  split
  next err s heq =>
    rw [heq] at hopen
    exact ⟨_, rfl, hopen.ledger, .inl ⟨err, rfl, hopen.perm⟩⟩
  next top s heq =>
    rw [heq] at hopen
    obtain ⟨t, hfound, hfit, htop, rfl⟩ := openEntry_ok heq
    cases hfound
    split_ifs with hdir
    · exact ⟨_, rfl, hopen.ledger, .inl ⟨_, rfl, hopen.perm⟩⟩
    · have hfirst : Scanned w perm ⟨perm, [] ++ [w.top], [], 0 + 3, [] ++ [top]⟩ := by
        have hempty : Scanned w perm ⟨perm, [], [], 0, []⟩ :=
          ⟨hstart, rfl, fun j e he => by cases he⟩
        refine hempty.hold 3 ?_
        rw [htop]
        exact ⟨rfl, ⟨[], (append_nil _).symm, rfl⟩, rfl, rfl, hfit⟩
      obtain ⟨err, s', hrun, hkept, hall⟩ := scan_spec hfirst
        (fun j t hj => absurd hj (Nat.not_lt_zero j)) (Nat.zero_le _) hfuel
      rw [hrun]
      cases err with
      | some err => exact ⟨_, rfl, hkept.ledger, .inl ⟨err, rfl, hkept.perm⟩⟩
      | none =>
        obtain ⟨hscan, hgrown, hcover⟩ := hall rfl
        obtain ⟨perm', hclear, hcleared⟩ :=
          clear_scanned hchmod hscan hcover (hgrown.subset mem_cons_self)
        dsimp only
        rw [hclear]
        exact ⟨_, rfl, hkept.ledger, .inr ⟨rfl, hcleared⟩⟩

def openFolder : Tree :=
  .folder ⟨1, 1, 7, 2, by decide⟩ [ascii "m"]
    fun _ => .leaf ⟨1, 2, 7, 1, by decide⟩ .regular (by decide)

def quietWorld (groups : List ℕ) : World :=
  ⟨7, groups, false, [ascii "models"], openFolder, fun _ => 9, fun _ => none, fun _ => none⟩

theorem protectModels_all_or_nothing_openFolder :
    ∃ out, protectModels (quietWorld [9]) (fun _ => 0o2777#12) 3 = some out ∧ out.err = none ∧
      out.opened = 2 ∧ out.perm (1, 1) = 0o2755#12 ∧
      Cleared (quietWorld [9]) (fun _ => 0o2777#12) out.perm := by
  obtain ⟨out, hrun, -, ⟨err, herr, -⟩ | ⟨hnone, hcleared⟩⟩ :=
    protectModels_all_or_nothing (quietWorld [9]) (fun _ => rfl) (fun _ => 0o2777#12) 3 (by decide)
  · cases hrun
    cases herr
  · refine ⟨out, hrun, hnone, ?_, ?_, hcleared⟩
    · cases hrun
      rfl
    · cases hrun
      decide

/-- The folder has mode 02775, and its owner is not in its group. -/
theorem protectModels_drops_setgid :
    ∃ out, protectModels (quietWorld []) (fun _ => 0o2775#12) 3 = some out ∧ out.err = none ∧
      out.perm (1, 1) = 0o755#12 ∧ out.perm (1, 1) ≠ 0o2775#12 &&& ~~~writeBits := by
  refine ⟨_, rfl, rfl, ?_, ?_⟩ <;> decide

end PrivateDir
