import AbstractionIdentity.Identity.Proof
import AbstractionIdentity.Linux.Procfs
import AbstractionIdentity.Transition.Run

/-!
# Capturing a peer on Linux and rechecking the capture

`bindHandle` pins the peer, reads its image path as the baseline of every recheck, and lets
`ofHandle` identify the peer, which reads the path a second time. The peer runs meanwhile, and any
read may fail. An action is a move of the peer, the next read of `bindHandle`, or one call of
`Binding.Peer`, whose answers are recorded (`Vouch`).
-/

namespace Linux

open Text
open Identity

inductive BindError where
  | noBinding
  | peerGone
  | peerMoved
  | unsupportedConn
  | notServerEnd
  deriving DecidableEq

structure Ucred where
  pid : ℤ
  uid : ℤ
  gid : ℤ
  deriving DecidableEq

/-- The answers about a connection that a running peer cannot change, what `ofHandle` reads besides
the image, and the reasons it gives with each attribute. -/
structure Sock where
  accepted : Except BindError Unit
  pidfdSupport : Bool
  peerPidfd : Bool
  ucred : Except ReadError Ucred
  peersec : Option Bytes
  started : Except ReadError ℤ
  connectedAt : ℤ
  sandboxPackage : Option Bytes
  why : Attribute → Bytes

def meaninglessLabels : List Bytes :=
  ["", "kernel", "unlabeled", "unlabeled_t", "unconfined", "unconfined (enforce)",
    "unconfined (complain)"].map ascii

def meaningfulLSMLabel (s : Bytes) : Bool := !meaninglessLabels.contains s

def startTimeSlop : ℤ := 2 * 10 ^ 9

def pathAttr (link : Except ReadError Bytes) (derived : Proof) (why : Bytes) : Attr Bytes :=
  match processExe link with
  | .error _ => unknown (ascii "path") why
  | .ok (path, true) => attr (ascii "path") path .pid why
  | .ok (path, false) => attr (ascii "path") path derived why

/-- The identification of the process behind an accepted socket. `fdinfo` and
`link` are the outcomes of its reads of the pidfd and of the image link. -/
def ofHandle (k : Sock) (fdinfo link : Except ReadError Bytes) :
    Except BindError Peer :=
  match k.accepted, k.ucred with
  | .error err, _ => .error err
  | .ok _, .error _ => .error .unsupportedConn
  | .ok _, .ok cred =>
    if cred.pid = 0 then .error .unsupportedConn
    else
      let label := (k.peersec.filter meaningfulLSMLabel).getD []
      let user :=
        attr (ascii "user") (User.mk "posix" cred.uid cred.gid label) .kernel (k.why .user)
      -- `bound` is the pid held by a pidfd; without one, /proc is read by number
      let bound := k.peerPidfd && decide (pidfdAlive fdinfo cred.pid = .ok true)
      let readable := bound || !k.peerPidfd
      let derived : Proof := if bound then .bound else .pid
      let startTime := k.started.toOption.getD 0
      let recycled := !bound && k.started.toOption.any
        fun t => decide (k.connectedAt + startTimeSlop < t)
      let process := attr (ascii "process") (Process.mk cred.pid startTime recycled) .kernel
        (k.why .process)
      let peer := PeerOf.mk "linux" "unix" user process
      let noPackage := unknown (ascii "package") (k.why .package)
      let code := unknown (ascii "code") (k.why .code)
      if recycled || !readable then
        .ok (peer (unknown (ascii "path") (k.why .path)) noPackage code)
      else
        let package := match k.sandboxPackage with
          | none => noPackage
          | some name => attr (ascii "package") name derived (k.why .package)
        .ok (peer (pathAttr link derived (k.why .path)) package code)

structure LinuxBinding where
  pid : ℤ
  exe : Bytes
  deriving DecidableEq

def LinuxBinding.recheck (b : LinuxBinding) (fdinfo link : Except ReadError Bytes) :
    Except BindError Unit :=
  match pidfdAlive fdinfo b.pid with
  | .error _ => .ok ()
  | .ok false => .ok ()
  | .ok true =>
    match processExe link with
    | .error _ => .ok ()
    | .ok (exe, _) => if exe ≠ b.exe then .error .peerMoved else .ok ()

structure Proc where
  alive : Bool
  image : Image
  deriving DecidableEq

/-- The text the kernel keeps in the fdinfo of a pidfd for `pid`: the pid while
the process is there, a number that is not positive once it was reaped. -/
structure Fdinfo (pid : ℤ) where
  running : Bytes
  reaped : Bytes
  running_pid : fieldInt running pidLabel = some pid
  reaped_pid : ∃ n ≤ 0, fieldInt reaped pidLabel = some n

def Fdinfo.read {pid : ℤ} (f : Fdinfo pid) (p : Proc) (fail : Option ReadError) :
    Except ReadError Bytes :=
  match fail with
  | some err => .error err
  | none => .ok (if p.alive then f.running else f.reaped)

def Proc.readlink (p : Proc) (fail : Option ReadError) : Except ReadError Bytes :=
  match fail with
  | some err => .error err
  | none => if p.alive then .ok p.image.link else .error .notExist

/-- How far `bindHandle` has come. In `captured` the baseline is read; in
`checked` so is `ofHandle`'s fdinfo, and the second read of the link is next. -/
inductive CapturePc where
  | start
  | pinned (want : ℤ)
  | live (want : ℤ)
  | captured (b : LinuxBinding)
  | checked (b : LinuxBinding) (fdinfo : Except ReadError Bytes)
  | bound (b : LinuxBinding) (peer : Peer)
  | failed (err : BindError)

/-- One answer of `Binding.Peer` while the process was alive: the image it was
executing and the peer that was returned. -/
structure Vouch where
  image : Image
  peer : Peer

structure Capture where
  proc : Proc
  pc : CapturePc
  vouched : List Vouch

/-- A move of the peer or of its image file, the next read of `bindHandle` with its failure, or a
call of `Binding.Peer` with the failures of its two reads. -/
inductive CaptureAct where
  | exec (image : Image)
  | unlink
  | rename (path : Bytes)
  | exit
  | next (fail : Option ReadError)
  | peer (fdFail linkFail : Option ReadError)

def bindNext (k : Sock) {pid : ℤ} (f : Fdinfo pid) (p : Proc)
    (fail : Option ReadError) : CapturePc → Option CapturePc
  | .start =>
    match k.accepted with
    | .error err => some (.failed err)
    | .ok _ =>
      if !k.pidfdSupport || !k.peerPidfd then some (.failed .noBinding)
      else match k.ucred with
        | .error _ => some (.failed .unsupportedConn)
        | .ok cred => some (.pinned cred.pid)
  | .pinned want =>
    match pidfdAlive (f.read p fail) want with
    | .error _ => some (.failed .noBinding)
    | .ok false => some (.failed .peerGone)
    | .ok true => some (.live want)
  | .live want =>
    match processExe (p.readlink fail) with
    | .error _ => some (.failed .peerGone)
    | .ok (exe, _) => some (.captured ⟨want, exe⟩)
  | .captured b => some (.checked b (f.read p fail))
  | .checked b fdinfo =>
    match ofHandle k fdinfo (p.readlink fail) with
    | .error err => some (.failed err)
    | .ok peer => some (.bound b peer)
  | .bound _ _ => none
  | .failed _ => none

def captureStep (k : Sock) {pid : ℤ} (f : Fdinfo pid) (s : Capture) :
    CaptureAct → Option Capture
  | .exec image =>
    if s.proc.alive then some { s with proc := ⟨true, image⟩ } else none
  | .unlink =>
    some { s with proc := { s.proc with image := { s.proc.image with unlinked := true } } }
  | .rename path =>
    some { s with proc := { s.proc with image := { s.proc.image with path := path } } }
  | .exit => some { s with proc := { s.proc with alive := false } }
  | .next fail => (bindNext k f s.proc fail s.pc).map fun pc => { s with pc := pc }
  | .peer fdFail linkFail =>
    match s.pc with
    | .bound b peer =>
      match b.recheck (f.read s.proc fdFail) (s.proc.readlink linkFail) with
      | .error _ => some s
      | .ok _ =>
        if s.proc.alive then
          some { s with vouched := s.vouched ++ [⟨s.proc.image, peer⟩] }
        else some s
    | _ => none

def Capture.start (p : Proc) : Capture := ⟨p, .start, []⟩

end Linux
