import AbstractionIdentity.Identity.SubjectProgram
import AbstractionIdentity.Linux.CaptureSound
import AbstractionIdentity.Listen.PoolKey
import AbstractionIdentity.Listen.Response

/-!
# The server check of C++ and of Go on Linux

`ServerGuard.capture` compares the text of `/proc/<pid>/exe` with the program, without the mark of a
deleted file. `serverConn.authenticate` binds the peer and demands its path at the strength `bound`.
The C++ check also passes a deleted image, and a path Go does not compare; `SeenByGo` is what is
left.
-/

namespace Listen

open Text Identity Linux

/-- What the kernel shows of the connected server, and what `ofHandle` reads besides. -/
structure ServerState where
  cred : Ucred
  peerPidfd : Bool
  alive : Bool
  link : Except ReadError Bytes
  fdinfo : Fdinfo cred.pid
  peersec : Option Bytes
  started : Except ReadError ℤ
  connectedAt : ℤ
  sandboxPackage : Option Bytes
  why : Attribute → Bytes

/-! ### C++ -/

/-- `oa_ipc_server_expectation` with a POSIX uid. -/
structure GuardExpectation where
  principal : Bytes
  program : Bytes
  deriving DecidableEq

def GuardExpectation.validInput (e : GuardExpectation) : Bool :=
  e.principal ≠ [] && e.program ≠ [] && e.principal.length ≤ 184 &&
    e.program.length ≤ 32768 && !e.principal.contains 0 && !e.program.contains 0 &&
    e.program.head? = some 47

def parseUid (principal : Bytes) : Option ℕ :=
  principal.foldlM (fun uid ch =>
    if ch < 48 ∨ 57 < ch then none
    else if uid > (4294967295 - (ch.toNat - 48)) / 10 then none
    else some (uid * 10 + (ch.toNat - 48))) 0

/-- `ServerGuard.check`. A link that fills the buffer is refused. -/
def guardCheck (o : ServerState) (program : Bytes) : Bool :=
  if o.cred.pid ≤ 0 then false
  else if !o.alive then false
  else match o.link with
    | .error _ => false
    | .ok link =>
      if link.length ≥ 32769 then false
      else (cutSuffix link deletedMark).getD link = program

/-- `ServerGuard.capture`. -/
def capture (e : GuardExpectation) (o : ServerState) : IpcStatus :=
  match parseUid e.principal with
  | none => .invalidArgument
  | some uid =>
    if !o.peerPidfd then .proofUnavailable
    else if o.cred.pid ≤ 0 ∨ o.cred.uid ≠ uid then .untrusted
    else if guardCheck o e.program then .ok else .untrusted

/-! ### Go -/

/-- `identity` on Linux, where a path has no other spelling; `fileKey` is the state of the file
system. -/
def linuxHost (fileKey : Bytes → Option Bytes) : Host := posixHost (fun a b => a = b) fileKey

/-- Times are nanoseconds, of which `0` is the zero time, and a path is absolute when
it begins with the separator. `string` is not read here. -/
def linuxPlatform : Platform ℤ where
  string := itoa
  equal a b := decide (a = b)
  isZero t := decide (t = 0)
  isAbs path := path.head? = some 47

inductive AuthError where
  | bind (err : BindError)
  | proof (err : ProofError)
  | principal
  | program
  | process
  deriving DecidableEq

def ServerState.sock (o : ServerState) : Sock where
  accepted := .ok ()
  pidfdSupport := true
  peerPidfd := o.peerPidfd
  ucred := .ok o.cred
  peersec := o.peersec
  started := o.started
  connectedAt := o.connectedAt
  sandboxPackage := o.sandboxPackage
  why := o.why

def ServerState.fdText (o : ServerState) : Except ReadError Bytes :=
  .ok (if o.alive then o.fdinfo.running else o.fdinfo.reaped)

/-- `bindHandle` while nothing changes. -/
def bindServer (o : ServerState) : Except BindError (LinuxBinding × Peer) :=
  if !o.peerPidfd then .error .noBinding
  else match pidfdAlive o.fdText o.cred.pid with
    | .error _ => .error .noBinding
    | .ok false => .error .peerGone
    | .ok true =>
      match processExe o.link with
      | .error _ => .error .peerGone
      | .ok (exe, _) =>
        match ofHandle o.sock o.fdText o.link with
        | .error err => .error err
        | .ok peer => .ok (⟨o.cred.pid, exe⟩, peer)

def pinMatches (pin : Option (ProcessPin ℤ)) (process : Process) : Bool :=
  match pin with
  | none => true
  | some q => process.pid = q.pid && linuxPlatform.equal process.startTime q.startTime

/-- `ServerExpectation.check`. A peer on Linux has a uid and no SID. -/
def ServerExpectation.check (fileKey : Bytes → Option Bytes) (e : ServerExpectation ℤ)
    (b : LinuxBinding) (peer : Peer) (o : ServerState) : Except AuthError Unit :=
  match b.recheck o.fdText o.link with
  | .error err => .error (.bind err)
  | .ok () =>
    match peer.user.atLeast .bound with
    | .error err => .error (.proof err)
    | .ok user =>
      match peer.process.atLeast .kernel with
      | .error err => .error (.proof err)
      | .ok process =>
        match peer.path.atLeast .bound with
        | .error err => .error (.proof err)
        | .ok path =>
          if ascii user.kind ≠ e.principal.kind ∨
              user.kind = "posix" ∧ user.uid ≠ e.principal.uid then
            .error .principal
          else if !(linuxHost fileKey).sameSubjectProgram path e.program then .error .program
          else if !pinMatches e.process process then .error .process
          else .ok ()

def authenticate (fileKey : Bytes → Option Bytes) (e : ServerExpectation ℤ) (o : ServerState) :
    Except AuthError Unit :=
  match bindServer o with
  | .error err => .error (.bind err)
  | .ok (b, peer) => e.check fileKey b peer o

def posixExpectation (uid : ℕ) (program : Bytes) : ServerExpectation ℤ :=
  ⟨⟨ascii "posix", [], uid⟩, program, none⟩

def GuardExpectation.expectation (e : GuardExpectation) (uid : ℕ) : ServerExpectation ℤ :=
  posixExpectation uid e.program

structure GuardExpectation.Accepted (e : GuardExpectation) (uid : ℕ) : Prop where
  validInput : e.validInput = true
  uid_eq : parseUid e.principal = some uid
  validate : (e.expectation uid).validate linuxPlatform = true

def ServerState.SeenByGo (o : ServerState) (program : Bytes) : Prop :=
  (∀ link, o.link = .ok link → ¬ deletedMark <:+ link) ∧ program.length ≤ 4096 ∧
    13 ∉ program ∧ 10 ∉ program

/-! ### The comparison of programs -/

theorem holdsControl_eq_false_iff {s : Bytes} :
    holdsControl s = false ↔ 0 ∉ s ∧ 13 ∉ s ∧ 10 ∉ s := by
  rw [holdsControl, List.any_eq_false]
  refine ⟨fun h => ⟨fun hmem => ?_, fun hmem => ?_, fun hmem => ?_⟩, ?_⟩
  · exact h 0 hmem rfl
  · exact h 13 hmem rfl
  · exact h 10 hmem rfl
  · rintro ⟨hnul, hcr, hlf⟩ b hb hcontrol
    simp only [Bool.or_eq_true, decide_eq_true_eq] at hcontrol
    rcases hcontrol with (rfl | rfl) | rfl
    · exact hnul hb
    · exact hcr hb
    · exact hlf hb

theorem fits_clean {program : Bytes} (hhead : program.head? = some 47) (h : Fits program) :
    Fits (clean 47 program) := by
  obtain ⟨hnul, hcr, hlf⟩ := holdsControl_eq_false_iff.1 h.2
  refine ⟨(length_clean_le hhead).trans h.1, holdsControl_eq_false_iff.2 ⟨?_, ?_, ?_⟩⟩
  · exact fun hmem => (mem_clean hmem).elim (by decide) hnul
  · exact fun hmem => (mem_clean hmem).elim (by decide) hcr
  · exact fun hmem => (mem_clean hmem).elim (by decide) hlf

/-- A rooted path is the same as itself exactly if Go compares it at all. -/
theorem same_self_iff {fileKey : Bytes → Option Bytes} {program : Bytes}
    (hhead : program.head? = some 47) :
    (linuxHost fileKey).sameSubjectProgram program program = true ↔ Fits program := by
  have habs : (linuxHost fileKey).isAbs program = true := decide_eq_true hhead
  have hclean : (linuxHost fileKey).clean program = clean 47 program := if_pos hhead
  have hnorm : (linuxHost fileKey).normalizeSubjectProgram program = clean 47 program := by
    rw [Host.normalizeSubjectProgram, if_neg ((linuxHost fileKey).not_packaged program habs),
      hclean]
    rfl
  have hself : (linuxHost fileKey).clean (clean 47 program) = clean 47 program :=
    hclean ▸ (linuxHost fileKey).clean_clean program habs
  rw [sameSubjectProgram_self, Bool.and_eq_true, comparable_path_iff habs, hnorm,
    valid_path_iff rfl hself]
  exact and_iff_left_of_imp (fits_clean hhead)

/-! ### What the C++ check has seen -/

structure ServerState.Captured (o : ServerState) (uid : ℕ) (program link : Bytes) :
    Prop where
  pinned : o.peerPidfd = true
  pid_pos : 0 < o.cred.pid
  uid_eq : o.cred.uid = uid
  alive : o.alive = true
  link_eq : o.link = .ok link
  seen : (cutSuffix link deletedMark).getD link = program

theorem guardCheck_seen {o : ServerState} {program : Bytes} (h : guardCheck o program = true) :
    o.alive = true ∧
      ∃ link, o.link = .ok link ∧ (cutSuffix link deletedMark).getD link = program := by
  unfold guardCheck at h
  by_cases hpid : o.cred.pid ≤ 0
  · simp [hpid] at h
  rw [if_neg hpid] at h
  cases halive : o.alive with
  | false => simp [halive] at h
  | true =>
    cases hlink : o.link with
    | error err => simp [halive, hlink] at h
    | ok link =>
      simp only [halive, hlink, Bool.not_true, Bool.false_eq_true, if_false] at h
      by_cases hsize : link.length ≥ 32769
      · simp [hsize] at h
      · rw [if_neg hsize] at h
        exact ⟨rfl, link, rfl, of_decide_eq_true h⟩

theorem captured_of_capture {e : GuardExpectation} {o : ServerState} {uid : ℕ}
    (huid : parseUid e.principal = some uid) (h : capture e o = .ok) :
    ∃ link, o.Captured uid e.program link := by
  unfold capture at h
  simp only [huid] at h
  cases hfd : o.peerPidfd with
  | false => simp [hfd] at h
  | true =>
    simp only [hfd, Bool.not_true, Bool.false_eq_true, if_false] at h
    by_cases hcred : o.cred.pid ≤ 0 ∨ o.cred.uid ≠ uid
    · simp [hcred] at h
    rw [if_neg hcred] at h
    cases hcheck : guardCheck o e.program with
    | false => simp [hcheck] at h
    | true =>
      obtain ⟨halive, link, hlink, hseen⟩ := guardCheck_seen hcheck
      rw [not_or, not_not, Int.not_le] at hcred
      exact ⟨link, hfd, hcred.1, hcred.2, halive, hlink, hseen⟩

/-! ### What the Go check makes of it -/

section Captured

variable {fileKey : Bytes → Option Bytes} {o : ServerState} {uid : ℕ} {program link : Bytes}

theorem pidfdAlive_of_captured (h : o.Captured uid program link) :
    pidfdAlive o.fdText o.cred.pid = .ok true := by
  simp only [ServerState.fdText, h.alive, if_true]
  exact pidfdAlive_of_fieldInt o.fdinfo.running_pid h.pid_pos

theorem ofHandle_of_captured (h : o.Captured uid program link) :
    ∃ peer, ofHandle o.sock o.fdText o.link = .ok peer ∧
      (∃ gid label why,
        peer.user = attr (ascii "user") ⟨"posix", o.cred.uid, gid, label⟩ .kernel why) ∧
      (∃ process why, peer.process = attr (ascii "process") process .kernel why) ∧
      peer.path = pathAttr o.link .bound (o.why .path) := by
  have hzero : ¬ o.cred.pid = 0 := h.pid_pos.ne'
  simp only [ofHandle, ServerState.sock, h.pinned, pidfdAlive_of_captured h, decide_true,
    Bool.and_self, Bool.not_true, Bool.or_false, Bool.false_and, Bool.false_eq_true,
    if_neg hzero, if_false, if_true]
  exact ⟨_, rfl, ⟨_, _, _, rfl⟩, ⟨_, _, rfl⟩, rfl⟩

theorem recheck_of_captured (h : o.Captured uid program link) {deleted : Bool} {exe : Bytes}
    (hexe : processExe o.link = .ok (exe, deleted)) :
    LinuxBinding.recheck ⟨o.cred.pid, exe⟩ o.fdText o.link = .ok () := by
  simp [LinuxBinding.recheck, pidfdAlive_of_captured h, hexe]

theorem authenticate_of_captured (h : o.Captured uid program link) :
    authenticate fileKey (posixExpectation uid program) o = .ok () ↔
      cutSuffix link deletedMark = none ∧
        (linuxHost fileKey).sameSubjectProgram link program = true := by
  obtain ⟨peer, hpeer, ⟨gid, label, userWhy, huser⟩, ⟨process, processWhy, hprocess⟩, hpath⟩ :=
    ofHandle_of_captured h
  have hbind : ∀ {exe : Bytes} {deleted : Bool}, processExe o.link = .ok (exe, deleted) →
      bindServer o = .ok (⟨o.cred.pid, exe⟩, peer) := by
    intro exe deleted hexe
    simp [bindServer, h.pinned, pidfdAlive_of_captured h, hexe, hpeer]
  have huserOk : peer.user.atLeast .bound = .ok ⟨"posix", uid, gid, label⟩ := by
    rw [huser, h.uid_eq]
    exact atLeast_attr _ _ _ (by decide) (by decide)
  have hprocessOk : peer.process.atLeast .kernel = .ok process := by
    rw [hprocess]
    exact atLeast_attr _ _ _ (by decide) (by decide)
  cases hcut : cutSuffix link deletedMark with
  | some t =>
    -- the mark brings the path down to what was read by pid
    have hexe : processExe o.link = .ok (t, true) := by
      simp [processExe, h.link_eq, hcut]
    have hlow : peer.path.atLeast .bound =
        .error ⟨ascii "path", .bound, .pid, o.why .path⟩ := by
      simp only [hpath, pathAttr, hexe]
      exact if_neg (show ¬ (Proof.bound ≤ .pid ∧ Proof.none < .pid) by decide)
    simp [authenticate, hbind hexe, ServerExpectation.check, recheck_of_captured h hexe,
      huserOk, hprocessOk, hlow]
  | none =>
    have hexe : processExe o.link = .ok (link, false) := by
      simp [processExe, h.link_eq, hcut]
    have hfull : peer.path.atLeast .bound = .ok link := by
      simp only [hpath, pathAttr, hexe]
      exact atLeast_attr _ _ _ (by decide) (by decide)
    simp [authenticate, hbind hexe, ServerExpectation.check, recheck_of_captured h hexe,
      huserOk, hprocessOk, hfull, posixExpectation, pinMatches]

end Captured

theorem program_of_validInput {e : GuardExpectation} (h : e.validInput = true) :
    e.program.head? = some 47 ∧ 0 ∉ e.program := by
  simp only [GuardExpectation.validInput, Bool.and_eq_true, decide_eq_true_eq,
    Bool.not_eq_true', List.contains_eq_mem, decide_eq_false_iff_not] at h
  exact ⟨h.2, h.1.2⟩

theorem authenticate_iff_seenByGo {fileKey : Bytes → Option Bytes} {e : GuardExpectation} {uid : ℕ}
    {o : ServerState} (he : e.Accepted uid) (h : capture e o = .ok) :
    authenticate fileKey (e.expectation uid) o = .ok () ↔ o.SeenByGo e.program := by
  obtain ⟨link, hlink⟩ := captured_of_capture he.uid_eq h
  obtain ⟨hhead, hnul⟩ := program_of_validInput he.validInput
  have hmark : (∀ text, o.link = .ok text → ¬ deletedMark <:+ text) ↔
      cutSuffix link deletedMark = none := by
    rw [cutSuffix_eq_none_iff, hlink.link_eq]
    exact ⟨fun hall => hall link rfl, fun hnot text heq => Except.ok.inj heq ▸ hnot⟩
  rw [GuardExpectation.expectation, authenticate_of_captured hlink, ServerState.SeenByGo, hmark]
  refine and_congr_right fun hcut => ?_
  have hsame : link = e.program := by simpa [hcut] using hlink.seen
  rw [hsame, same_self_iff hhead, Fits, holdsControl_eq_false_iff]
  simp [hnul]

/-- The server check of C++ is no weaker than that of Go exactly when it passes only
servers whose image is not marked as deleted and whose program Go compares. -/
theorem capture_implies_authenticate_iff (fileKey : Bytes → Option Bytes) (e : GuardExpectation)
    (uid : ℕ) (o : ServerState) (he : e.Accepted uid) :
    (capture e o = .ok → authenticate fileKey (e.expectation uid) o = .ok ()) ↔
      (capture e o = .ok → o.SeenByGo e.program) :=
  forall_congr' fun h => authenticate_iff_seenByGo he h

def serverState (link : Bytes) : ServerState where
  cred := ⟨42, 1000, 1000⟩
  peerPidfd := true
  alive := true
  link := .ok link
  fdinfo := sampleFdinfo
  peersec := none
  started := .ok 0
  connectedAt := 0
  sandboxPackage := none
  why _ := []

def serviceExpectation : GuardExpectation := ⟨ascii "1000", ascii "/usr/lib/svc"⟩

theorem capture_implies_authenticate_iff_service :
    (capture serviceExpectation (serverState (ascii "/usr/lib/svc")) = .ok →
        authenticate (fun _ => none) (serviceExpectation.expectation 1000)
          (serverState (ascii "/usr/lib/svc")) = .ok ()) ↔
      (capture serviceExpectation (serverState (ascii "/usr/lib/svc")) = .ok →
        (serverState (ascii "/usr/lib/svc")).SeenByGo serviceExpectation.program) :=
  capture_implies_authenticate_iff _ _ _ _ ⟨by decide, by decide, by decide⟩

/-- After an update has replaced the image of a running server, C++ accepts it and Go
does not. -/
theorem not_authenticate_deleted_image : serviceExpectation.validInput = true ∧
      parseUid serviceExpectation.principal = some 1000 ∧
      (serviceExpectation.expectation 1000).validate linuxPlatform = true ∧
      capture serviceExpectation (serverState (ascii "/usr/lib/svc (deleted)")) = .ok ∧
      authenticate (fun _ => none) (serviceExpectation.expectation 1000)
        (serverState (ascii "/usr/lib/svc (deleted)")) =
          .error (.proof ⟨ascii "path", .bound, .pid, []⟩) := by
  decide

end Listen
