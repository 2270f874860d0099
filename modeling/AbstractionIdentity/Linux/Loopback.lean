import AbstractionIdentity.Linux.Capture
import AbstractionIdentity.Stream.Frame

/-!
# The loopback binding on Linux

`bindLoopback` looks the client's end up in the socket table, scans the descriptor tables of the
user's processes for the socket, pins the one holder and captures its image path; `recheck`
observes all this again. Every observation may fail (`Sight`). `recheck` takes a failed read for a
connection that closed or agrees, so it passes a socket that has moved exactly when one of these
reads fails (`recheck_sound_iff_observed`).
-/

namespace Linux

open Text Identity

structure AddrPort where
  ip : Bytes
  port : ℕ
  deriving DecidableEq

def putUint32 (little : Bool) (a : ℕ) : Bytes :=
  if little then (Stream.word (.ofNat a)).reverse else Stream.word (.ofNat a)

def procAddr (little : Bool) (s : Bytes) : Option AddrPort :=
  match cut 58 s with
  | none => none
  | some (host, port) =>
    if host.length ≠ 8 then none
    else match hex host, (hex port).filter (· < 2 ^ 16) with
      | some a, some p => some ⟨putUint32 little a, p⟩
      | _, _ => none

structure TcpRow where
  established : Bool
  uid : ℤ
  inode : ℕ
  deriving DecidableEq

inductive RowError where
  | read (err : ReadError)
  | form
  deriving DecidableEq

def rowFields (little : Bool) (client server : AddrPort) (line : Bytes) :
    Option (List Bytes) :=
  let f := fields line
  if f.length < 10 then none
  else if procAddr little (f.getD 1 []) = some client ∧
      procAddr little (f.getD 2 []) = some server then some f
  else none

def readRow (f : List Bytes) : Except RowError TcpRow :=
  match atoi (f.getD 7 []), (digits (f.getD 9 [])).filter (· < 2 ^ 64) with
  | some uid, some inode => .ok ⟨hex (f.getD 3 []) = some 1, uid, inode⟩
  | _, _ => .error .form

def socketRow (little : Bool) (client server : AddrPort) (data : Except ReadError Bytes) :
    Except RowError (Option TcpRow) :=
  match data with
  | .error err => .error (.read err)
  | .ok text =>
    match ((split 10 text).drop 1).findSome? (rowFields little client server) with
    | none => .ok none
    | some f => (readRow f).map some

/-- An entry of `/proc`: its name, the owner `stat` answers, and the targets of the
links in its descriptor table. -/
structure ProcEntry where
  name : Bytes
  uid : Option ℤ
  fds : Except ReadError (List (Except ReadError Bytes))

def socketLink (inode : ℕ) : Bytes := ascii "socket:[" ++ decimal inode ++ ascii "]"

def holds (fds : Except ReadError (List (Except ReadError Bytes))) (link : Bytes) : Bool :=
  match fds with
  | .error _ => false
  | .ok targets => targets.any fun target =>
    match target with
    | .error _ => false
    | .ok s => s = link

def holders (inode : ℕ) (uid : ℤ) (procs : Except ReadError (List ProcEntry)) :
    Except ReadError (List ℤ) :=
  match procs with
  | .error err => .error err
  | .ok entries => .ok (entries.filterMap fun e =>
    match atoi e.name with
    | none => none
    | some pid =>
      if 0 < pid ∧ e.uid = some uid ∧ holds e.fds (socketLink inode) = true then some pid
      else none)

inductive LoopbackError where
  | noBinding
  | peerGone
  | peerPending
  | peerMoved
  deriving DecidableEq

structure LoopbackBinding where
  client : AddrPort
  server : AddrPort
  inode : ℕ
  uid : ℤ
  pid : ℤ
  exe : Bytes
  deriving DecidableEq

/-- The observations of one recheck: the table, `/proc`, the table again, and the image link of the
bound process. -/
structure Sight where
  tcp : Except ReadError Bytes
  procs : Except ReadError (List ProcEntry)
  again : Except ReadError Bytes
  exe : Except ReadError Bytes

section Recheck

variable (little : Bool) (b : LoopbackBinding) (o : Sight)

def LoopbackBinding.row (data : Except ReadError Bytes) : Except RowError (Option TcpRow) :=
  socketRow little b.client b.server data

def LoopbackBinding.holders : Except ReadError (List ℤ) := Linux.holders b.inode b.uid o.procs

def LoopbackBinding.emptyHolderRescan (row : Option TcpRow) : Except LoopbackError Bool :=
  match row with
  | none => .ok true
  | some r =>
    if !r.established then .ok true
    else if r.inode ≠ b.inode then .error .peerMoved
    else .ok false

def LoopbackBinding.recheckHolder (pids : List ℤ) : Except LoopbackError Unit :=
  if pids ≠ [b.pid] then .error .peerMoved
  else match processExe o.exe with
    | .ok (exe, _) => if exe ≠ b.exe then .error .peerMoved else .ok ()
    | .error _ => .ok ()

def LoopbackBinding.recheck : Except LoopbackError Unit :=
  match b.row little o.tcp with
  | .error _ | .ok none => .ok ()
  | .ok (some row) =>
    if !row.established then .ok ()
    else if row.inode ≠ b.inode then .error .peerMoved
    else match b.holders o with
      | .error _ => .ok ()
      | .ok pids =>
        if pids ≠ [] then b.recheckHolder o pids
        else match b.row little o.again with
          | .error _ => b.recheckHolder o pids
          | .ok again =>
            match b.emptyHolderRescan again with
            | .error err => .error err
            | .ok true => .ok ()
            | .ok false => b.recheckHolder o pids

def LoopbackBinding.Closed (data : Except ReadError Bytes) : Prop :=
  ∃ row, b.row little data = .ok row ∧ ∀ r, row = some r → r.established = false

def LoopbackBinding.Established : Prop :=
  ∃ row, b.row little o.tcp = .ok (some row) ∧ row.established = true ∧ row.inode = b.inode

/-- The socket is closed, at the first look or the second, or the bound process alone holds it and
still executes the captured image. -/
def LoopbackBinding.Unmoved : Prop :=
  b.Closed little o.tcp ∨ b.Established little o ∧
    (b.holders o = .ok [] ∧ b.Closed little o.again ∨
      b.holders o = .ok [b.pid] ∧ ∃ deleted, processExe o.exe = .ok (b.exe, deleted))

/-- The reads succeed on which the answer depends. -/
def LoopbackBinding.Observed : Prop :=
  (∃ row, b.row little o.tcp = .ok row) ∧
    (b.Established little o → ∃ pids, b.holders o = .ok pids ∧
      (pids = [b.pid] → ∃ exe, processExe o.exe = .ok exe))

end Recheck

variable {little : Bool} {b : LoopbackBinding} {o : Sight}

theorem recheckHolder_ok_iff {pids : List ℤ} : b.recheckHolder o pids = .ok () ↔ pids = [b.pid] ∧
      ∀ exe deleted, processExe o.exe = .ok (exe, deleted) → exe = b.exe := by
  rw [LoopbackBinding.recheckHolder]
  by_cases hpids : pids = [b.pid]
  · rw [if_neg (not_not_intro hpids)]
    cases hexe : processExe o.exe with
    | error err => simp [hpids]
    | ok found =>
      obtain ⟨exe, deleted⟩ := found
      by_cases heq : exe = b.exe <;> simp [hpids, heq]
  · rw [if_pos hpids]
    simp [hpids]

theorem emptyHolderRescan_true {row : Option TcpRow}
    (h : b.emptyHolderRescan row = .ok true) : ∀ r, row = some r → r.established = false := by
  rintro r rfl
  cases hr : r.established with
  | false => rfl
  | true =>
    simp only [LoopbackBinding.emptyHolderRescan, hr, Bool.not_true, Bool.false_eq_true,
      ↓reduceIte] at h
    split_ifs at h
    simp at h

theorem recheck_established (h : b.Established little o) :
    b.recheck little o = match b.holders o with
      | .error _ => .ok ()
      | .ok pids =>
        if pids ≠ [] then b.recheckHolder o pids
        else match b.row little o.again with
          | .error _ => b.recheckHolder o pids
          | .ok again =>
            match b.emptyHolderRescan again with
            | .error err => .error err
            | .ok true => .ok ()
            | .ok false => b.recheckHolder o pids := by
  obtain ⟨row, hrow, hestablished, hinode⟩ := h
  rw [LoopbackBinding.recheck, hrow]
  simp only [hestablished, hinode, Bool.not_true, Bool.false_eq_true, ↓reduceIte, ne_eq,
    not_true_eq_false]

theorem recheck_scanned (h : b.Established little o) {pids : List ℤ}
    (hpids : b.holders o = .ok pids) (hok : b.recheck little o = .ok ()) :
    (pids = [] ∧ b.Closed little o.again) ∨ b.recheckHolder o pids = .ok () := by
  rw [recheck_established h, hpids] at hok
  simp only at hok
  split_ifs at hok with hnil
  · exact .inr hok
  · split at hok
    · exact .inr hok
    next again hagain =>
      split at hok
      · cases hok
      next hrescan =>
        exact .inl ⟨not_not.1 hnil, again, hagain, emptyHolderRescan_true hrescan⟩
      · exact .inr hok

theorem closed_of_recheck (hok : b.recheck little o = .ok ())
    (hread : ∃ row, b.row little o.tcp = .ok row) (h : ¬ b.Established little o) :
    b.Closed little o.tcp := by
  obtain ⟨row, hrow⟩ := hread
  refine ⟨row, hrow, ?_⟩
  rintro r rfl
  by_contra hne
  have hestablished : r.established = true := by simpa using hne
  have hinode : r.inode ≠ b.inode := fun hi => h ⟨r, hrow, hestablished, hi⟩
  rw [LoopbackBinding.recheck, hrow] at hok
  simp [hestablished, hinode] at hok

theorem LoopbackBinding.Established.not_closed (h : b.Established little o) :
    ¬ b.Closed little o.tcp := by
  rintro ⟨found, hfound, hnot⟩
  obtain ⟨row, hrow, hestablished, -⟩ := h
  rw [hfound, Except.ok.injEq] at hrow
  rw [hnot row hrow] at hestablished
  cases hestablished

theorem LoopbackBinding.Unmoved.observed (h : b.Unmoved little o) : b.Observed little o := by
  rcases h with hclosed | ⟨hest, hscan⟩
  · obtain ⟨row, hrow, -⟩ := id hclosed
    exact ⟨⟨row, hrow⟩, fun hest => absurd hclosed hest.not_closed⟩
  · obtain ⟨row, hrow, -⟩ := id hest
    refine ⟨⟨some row, hrow⟩, fun _ => ?_⟩
    rcases hscan with ⟨hnone, -⟩ | ⟨hpid, deleted, hexe⟩
    · exact ⟨[], hnone, fun hnil => by cases hnil⟩
    · exact ⟨[b.pid], hpid, fun _ => ⟨_, hexe⟩⟩

theorem recheck_of_not_observed (h : ¬ b.Observed little o) : b.recheck little o = .ok () := by
  cases hrow : b.row little o.tcp with
  | error err => rw [LoopbackBinding.recheck, hrow]
  | ok row =>
    have hscan : ¬ (b.Established little o → ∃ pids, b.holders o = .ok pids ∧
        (pids = [b.pid] → ∃ exe, processExe o.exe = .ok exe)) :=
      fun hscan => h ⟨⟨row, hrow⟩, hscan⟩
    rw [Classical.not_imp] at hscan
    obtain ⟨hest, hno⟩ := hscan
    rw [recheck_established hest]
    cases hpids : b.holders o with
    | error err => rfl
    | ok pids =>
      have hpid : pids = [b.pid] := by
        by_contra hne
        exact hno ⟨pids, hpids, fun heq => absurd heq hne⟩
      simp only [hpid, ne_eq, List.cons_ne_nil, not_false_eq_true, ↓reduceIte]
      refine recheckHolder_ok_iff.2 ⟨rfl, fun exe deleted hexe => ?_⟩
      exact absurd ⟨pids, hpids, fun _ => ⟨_, hexe⟩⟩ hno

/-- For every binding and all observations: what `recheck` passes has not moved
exactly if the reads on which it relies succeed. -/
theorem recheck_sound_iff_observed (little : Bool) (b : LoopbackBinding) (o : Sight) :
    (b.recheck little o = .ok () → b.Unmoved little o) ↔ b.Observed little o := by
  constructor
  · intro hsound
    by_contra hno
    exact hno (hsound (recheck_of_not_observed hno)).observed
  · rintro ⟨hread, hscan⟩ hok
    by_cases hest : b.Established little o
    · obtain ⟨pids, hpids, hexe⟩ := hscan hest
      refine .inr ⟨hest, ?_⟩
      rcases recheck_scanned hest hpids hok with ⟨rfl, hclosed⟩ | hholder
      · exact .inl ⟨hpids, hclosed⟩
      · obtain ⟨hpid, hsame⟩ := recheckHolder_ok_iff.1 hholder
        obtain ⟨⟨exe, deleted⟩, hexe⟩ := hexe hpid
        refine .inr ⟨hpid ▸ hpids, deleted, ?_⟩
        rw [hexe, hsame exe deleted hexe]
    · exact .inl (closed_of_recheck hok hread hest)

/-- What `bindLoopback` asks the system: about the user, the table and `/proc`, then about the
holder it found. -/
structure LoopbackSystem where
  pidfdSupport : Bool
  getuid : ℤ
  tcp : Except ReadError Bytes
  procs : Except ReadError (List ProcEntry)
  pidfdOpen : Bool
  fdinfo : Except ReadError Bytes
  fds : Except ReadError (List (Except ReadError Bytes))
  exe : Except ReadError Bytes
  started : Except ReadError ℤ
  connectedAt : ℤ
  check : Sight
  gid : Option ℤ
  sandboxPackage : Option Bytes
  why : Attribute → Bytes

def loopbackPeer (k : LoopbackSystem) (b : LoopbackBinding) (deleted : Bool) (started : ℤ) :
    Peer where
  platform := "linux"
  transport := "tcp-loopback"
  user := attr (ascii "user") ⟨"posix", b.uid, k.gid.getD (-1), []⟩ .kernel (k.why .user)
  process := attr (ascii "process") ⟨b.pid, started, false⟩ .bound (k.why .process)
  path := attr (ascii "path") b.exe (if deleted then .pid else .bound) (k.why .path)
  package := match k.sandboxPackage with
    | none => unknown (ascii "package") (k.why .package)
    | some name => attr (ascii "package") name .bound (k.why .package)
  code := unknown (ascii "code") (k.why .code)

def bindHolder (little : Bool) (client server : AddrPort) (k : LoopbackSystem) (row : TcpRow)
    (pid : ℤ) : Except LoopbackError (LoopbackBinding × Peer) :=
  if !k.pidfdOpen then .error .peerGone
  else if pidfdAlive k.fdinfo pid ≠ .ok true then .error .peerGone
  else if !holds k.fds (socketLink row.inode) then .error .peerMoved
  else match processExe k.exe, k.started with
    | .error _, _ => .error .peerGone
    | .ok _, .error _ => .error .noBinding
    | .ok (exe, deleted), .ok started =>
      let b := LoopbackBinding.mk client server row.inode row.uid pid exe
      if k.connectedAt + startTimeSlop < started then .error .peerMoved
      else match b.recheck little k.check with
        | .error err => .error err
        | .ok () => .ok (b, loopbackPeer k b deleted started)

def bindLoopback (little : Bool) (client server : AddrPort) (k : LoopbackSystem) :
    Except LoopbackError (LoopbackBinding × Peer) :=
  if !k.pidfdSupport then .error .noBinding
  else match socketRow little client server k.tcp with
    | .error _ => .error .noBinding
    | .ok none => .error .peerGone
    | .ok (some row) =>
      if row.uid ≠ k.getuid then .error .noBinding
      else if row.established ∧ row.inode = 0 then .error .peerPending
      else match holders row.inode row.uid k.procs with
        | .error _ => .error .noBinding
        | .ok [] => .error .peerPending
        | .ok [pid] => bindHolder little client server k row pid
        | .ok (_ :: _ :: _) => .error .peerMoved

theorem bindHolder_captures {client server : AddrPort} {k : LoopbackSystem} {row : TcpRow}
    {pid : ℤ} {peer : Peer} (h : bindHolder little client server k row pid = .ok (b, peer)) :
    b.client = client ∧ b.server = server ∧ b.inode = row.inode ∧ b.uid = row.uid ∧
      b.pid = pid ∧ (∃ deleted, processExe k.exe = .ok (b.exe, deleted)) ∧
      b.recheck little k.check = .ok () := by
  rw [bindHolder] at h
  split_ifs at h
  split at h
  · cases h
  · cases h
  next exe deleted started hexe hstarted =>
    simp only at h
    split_ifs at h
    split at h
    · cases h
    next hcheck =>
      cases h
      exact ⟨rfl, rfl, rfl, rfl, rfl, ⟨deleted, hexe⟩, hcheck⟩

def oneRow : Bytes := ascii "sl\n0: 0100007F:0001 0100007F:0002 01 0:0 0:0 0 7 0 5\n"

def holder (name : String) : ProcEntry := ⟨ascii name, some 7, .ok [.ok (ascii "socket:[5]")]⟩

def boundSight : Sight := ⟨.ok oneRow, .ok [holder "41"], .ok oneRow, .ok (ascii "/bin/a")⟩

def boundSystem : LoopbackSystem where
  pidfdSupport := true
  getuid := 7
  tcp := .ok oneRow
  procs := .ok [holder "41"]
  pidfdOpen := true
  fdinfo := .ok (ascii "Pid:\t41")
  fds := .ok [.ok (ascii "socket:[5]")]
  exe := .ok (ascii "/bin/a")
  started := .ok 0
  connectedAt := 0
  check := boundSight
  gid := some 7
  sandboxPackage := none
  why _ := []

/-- The process 42 holds the socket now. `recheck` refuses that, but passes it when the table cannot
be read. -/
theorem moved_socket_passes_recheck :
    ∃ b peer, bindLoopback true ⟨[127, 0, 0, 1], 1⟩ ⟨[127, 0, 0, 1], 2⟩ boundSystem =
        .ok (b, peer) ∧
      b.recheck true { boundSight with procs := .ok [holder "42"] } = .error .peerMoved ∧
      b.recheck true { boundSight with
        procs := .ok [holder "42"], tcp := .error .descriptors } = .ok () ∧
      ¬ b.Unmoved true { boundSight with
        procs := .ok [holder "42"], tcp := .error .descriptors } := by
  refine ⟨_, _, rfl, by decide, by decide, ?_⟩
  rintro (⟨row, hrow, -⟩ | ⟨⟨row, hrow, -⟩, -⟩) <;> cases hrow

end Linux
