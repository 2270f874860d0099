import AbstractionIdentity.Listen.SessionCall
import AbstractionIdentity.Transition.Run

/-!
# Receiving a framed call

`Receive` is one call of `ReceiveFramed` on a byte stream, possibly replayed, the call of a session,
or a message transport. Beside it runs the callback that closes the call when the context ends;
both close through `FramedCall.Close`, which holds the lock `mu` and waits for the read in progress.
Steps that use neither connection, lock nor clock are `go` and `callback`. Times are nanoseconds.

The last fields record what happened: the bytes taken when `Bind` succeeded (`bindAt`) and the need
was met (`checkedAt`), when the body was whole (`bodyAt`) and valid (`validAt`), the `failure`, and
the `refusals` sent.
-/

namespace Listen

open Text Stream

def defaultSessionMaxAge : ℤ := 5 * 60 * 1000000000

def sessionMaxAge (maxAge : ℤ) : ℤ :=
  if maxAge ≤ 0 ∨ defaultSessionMaxAge < maxAge then defaultSessionMaxAge else maxAge

/-- `sessionDeadline`; there is no evidence deadline when the binding captured no
evidence that expires. -/
def sessionDeadline (boundAt maxAge : ℤ) (evidenceUntil : Option ℤ) : ℤ :=
  let deadline := boundAt + maxAge
  match evidenceUntil with
  | some u => if u < deadline then u else deadline
  | none => deadline

/-- What a session knows of its binding: when it was made, the option `MaxAge` of the
listener, the deadline of its evidence and the answer of `Bind`. -/
structure SessionBinding where
  boundAt : ℤ
  maxAge : ℤ
  evidenceUntil : Option ℤ
  bound : BindRes
  deriving DecidableEq

def SessionBinding.expires (p : SessionBinding) : ℤ :=
  sessionDeadline p.boundAt (sessionMaxAge p.maxAge) p.evidenceUntil

abbrev ReadAhead := { bs : Bytes // bs.length ≤ 4 }

inductive ConnKind where
  | stream (deadlines : Bool) (ahead : ReadAhead)
  | session (p : SessionBinding) (head : UInt32)
  | message
  deriving DecidableEq

inductive RecvErr where
  | context
  | deadlineExceeded
  | canceled
  | notProven
  | noBinding
  | bindFailed
  | frameTooLarge
  | frameDeadline
  | messageLifetime
  | closedPipe
  | sessionExpired
  | closed
  | eof
  | transport (timeout : Bool)
  deriving DecidableEq

def ReadErr.recvErr : ReadErr → RecvErr
  | .timeout => .transport true
  | .other => .transport false

def BindRes.recvErr : BindRes → Option RecvErr
  | .ok => none
  | .notProven => some .notProven
  | .failed => some .bindFailed

def RecvErr.frameError (err : RecvErr) (ctxDone late : Bool) : RecvErr :=
  if ctxDone then .context
  else if err = .transport true ∧ late = true then .deadlineExceeded
  else err

inductive Stage where
  | start
  | receipt
  | message
  | setDeadline
  | header
  | answer
  | size
  | lock
  | bind
  | check
  | body
  | valid
  | lifetime
  | finish
  deriving DecidableEq

structure Failure where
  stage : Stage
  err : RecvErr
  live : Bool
  deriving DecidableEq

/-- The place in `FramedCall.Close`: before the lock, before the connection is closed,
in its `Close`, before the binding is closed, after it. -/
inductive ClosePc where
  | lock
  | conn
  | drain
  | binding
  | done
  deriving DecidableEq

inductive Party where
  | receiver
  | callback
  deriving DecidableEq

/-- The place of `ReceiveFramed`. `binding` and `checking` hold the lock; `fail` and `refuse` are in
`fail`; `release` is the deferred release of the message's binding. -/
inductive ReceivePc where
  | start
  | receive
  | admission (frame : Bytes)
  | keep (frame : Bytes)
  | lifetime (frame : Bytes)
  | deadline
  | header (got : Bytes)
  | answer (w : UInt32)
  | bind (n : ℕ)
  | binding (n : ℕ)
  | checking (n : ℕ)
  | body (n : ℕ) (frame : Bytes)
  | reading (n : ℕ) (frame : Bytes) (limit : ℕ)
  | valid (frame : Bytes)
  | finish (frame : Bytes)
  | fail (err : RecvErr)
  | refuse (result : RecvErr)
  | closing (c : ClosePc) (result : RecvErr)
  | release (result : RecvErr)
  | returned (call : Option Bytes) (err : Option RecvErr)
  deriving DecidableEq

structure Receive where
  kind : ConnKind
  limit : ℕ
  now : ℤ
  ctxDone : Bool
  /-- What a replayed connection has still to replay. -/
  replay : Bytes
  /-- The bytes of the request taken from the connection, by the listener too. -/
  taken : ℕ
  call : SessionCall
  connClosed : Bool
  mu : Option Party
  closed : Bool
  stopped : Bool
  canRefuse : Bool
  /-- A binding was obtained; the call has it; it was closed. -/
  obtained : Bool
  owned : Bool
  released : Bool
  pc : ReceivePc
  callback : Option ClosePc
  header : Option UInt32
  bindAt : Option ℕ
  checkedAt : Option ℕ
  bodyAt : Option ℤ
  validAt : Option ℤ
  failure : Option Failure
  refusals : ℕ
  deriving DecidableEq

def ConnKind.ahead : ConnKind → Bytes
  | .stream _ ahead => ahead
  | _ => []

/-- The bytes of the request that were taken before. The listener has read the header
of a session's request. -/
def ConnKind.taken : ConnKind → ℕ
  | .stream _ ahead => ahead.val.length
  | .session _ _ => 4
  | .message => 0

def ConnKind.head : ConnKind → UInt32
  | .session _ head => head
  | _ => 0

def ConnKind.deadlines : ConnKind → Bool
  | .stream deadlines _ => deadlines
  | _ => true

def ConnKind.isSession : ConnKind → Bool
  | .session _ _ => true
  | _ => false

def Receive.start (kind : ConnKind) (limit : ℕ) (now : ℤ) (ctxDone : Bool) : Receive where
  kind := kind
  limit := limit
  now := now
  ctxDone := ctxDone
  replay := kind.ahead
  taken := kind.taken
  call := .new kind.head
  connClosed := false
  mu := none
  closed := false
  stopped := false
  canRefuse := false
  obtained := false
  owned := false
  released := false
  pc := .start
  callback := none
  header := none
  bindAt := none
  checkedAt := none
  bodyAt := none
  validAt := none
  failure := none
  refusals := 0

def Receive.expired (s : Receive) : Bool :=
  match s.kind with
  | .session p _ => ¬ s.now < p.expires
  | _ => false

structure Message where
  frame : Bytes
  binding : Bool
  lifetime : Bool
  res : BindRes
  deriving DecidableEq

inductive ReceiveAct where
  | tick (d : ℕ)
  | cancel
  | startCallback
  | callback
  | go (late : Bool)
  | message (m : Message)
  | setDeadline (err : Option ReadErr)
  | read (bs : Bytes) (err : Option ReadErr)
  | write (err : Option ReadErr)
  | bind (res : BindRes)
  | check (res : BindRes)
  | lifetime (ended : Bool)
  deriving DecidableEq

def ReceiveAct.ofProgram : ReceiveAct → Bool
  | .tick _ | .cancel => false
  | _ => true

def Receive.failAt (s : Receive) (stage : Stage) (err : RecvErr) : Receive :=
  { s with pc := .fail err, failure := some ⟨stage, err, !s.ctxDone⟩ }

def Receive.closeStep (s : Receive) (p : Party) : ClosePc → Option (Receive × ClosePc)
  | .lock =>
    if s.mu = none then
      if s.closed then some (s, .done)
      else some
        ({ s with mu := some p, closed := true, stopped := true, ctxDone := true }, .conn)
    else none
  | .conn => some ({ s with call := { s.call with closed := true } }, .drain)
  -- the `Close` of a session's call waits for its reads
  | .drain =>
    if s.call.reading = 0 then
      some ({ s with call := { s.call with done := true }, connClosed := true }, .binding)
    else none
  | .binding => some ({ s with released := s.released || s.owned, mu := none }, .done)
  | .done => none

def Receive.sized (s : Receive) (n : ℕ) : Receive :=
  if s.limit < n then s.failAt .size .frameTooLarge else { s with pc := .bind n }

def Receive.headed (s : Receive) (h : Bytes) : Receive :=
  let w := unword h
  let s := { s with canRefuse := true, header := some w }
  if isSession w ∧ w ≠ sessionClosing then { s with pc := .answer w } else s.sized w.toNat

def Receive.received (s : Receive) (m : Message) : Receive :=
  let s := { s with obtained := m.binding }
  match m.res.recvErr with
  | some err => s.failAt .receipt err
  | none =>
    if s.limit < m.frame.length then s.failAt .size .frameTooLarge
    else if m.binding = false then s.failAt .message .noBinding
    else if m.lifetime = false then s.failAt .message .messageLifetime
    else { s with pc := .admission m.frame }

/-- `fail` refuses the caller's proof. The call of a session does so unless it is
closed, and ends its session. -/
def Receive.refuseProof (s : Receive) : Receive :=
  match s.kind with
  | .session _ _ =>
    if s.call.closed then s
    else { s with call := { s.call with broken := true }, refusals := s.refusals + 1 }
  | _ => { s with refusals := s.refusals + 1 }

def Receive.readBegin (s : Receive) (stage : Stage) (size : ℕ)
    (next : SessionCall → ReadPlan → Receive) : Receive :=
  match s.call.readBegin size s.expired with
  | (call, .errClosed) => { s with call := call }.failAt stage .closed
  | (call, .errExpired) => { s with call := call }.failAt stage .sessionExpired
  | (call, plan) => next call plan

def Receive.gotHeader (s : Receive) (call : SessionCall) : ReadPlan → Receive
  | .header bs => { s with call := call }.headed bs
  | _ => s.failAt .header .eof

def Receive.gotBody (s : Receive) (n : ℕ) (frame : Bytes) (call : SessionCall) :
    ReadPlan → Receive
  | .wire limit => { s with call := call, pc := .reading n frame limit }
  | _ => s.failAt .body .eof

def Receive.go (s : Receive) (late : Bool) : Option Receive :=
  match s.pc with
  | .start =>
    if s.ctxDone then some (s.failAt .start .context)
    else if s.kind = .message then some { s with canRefuse := true, pc := .receive }
    else if s.kind.deadlines then some { s with pc := .deadline }
    else some (s.failAt .setDeadline .frameDeadline)
  | .keep frame =>
    if s.mu = none then
      if s.closed then some (s.failAt .lock .canceled)
      else some { s with owned := true, pc := .lifetime frame }
    else none
  | .header _ =>
    if s.kind.isSession then some (s.readBegin .header 4 s.gotHeader) else none
  | .bind n =>
    if s.mu = none then
      if s.closed then some (s.failAt .lock .canceled)
      else some { s with mu := some .receiver, pc := .binding n }
    else none
  | .body n frame =>
    if n ≤ frame.length then some { s with bodyAt := some s.now, pc := .valid frame }
    else if s.kind.isSession then
      some (s.readBegin .body (n - frame.length) (s.gotBody n frame))
    else none
  | .valid frame =>
    if s.expired then some (s.failAt .valid .sessionExpired)
    else some { s with validAt := some s.now, pc := .finish frame }
  | .finish frame =>
    if s.ctxDone then some (s.failAt .finish .context)
    else some { s with pc := .returned (some frame) none }
  | .fail err => some { s with pc := .refuse (err.frameError s.ctxDone late) }
  | .refuse result =>
    let s' := if s.canRefuse ∧ s.ctxDone = false ∧ result = .notProven then s.refuseProof
      else s
    some { s' with pc := .closing .lock result }
  | .closing .done result => some { s with
      pc := if s.kind = .message then .release result else .returned none (some result) }
  | .closing c result =>
    (s.closeStep .receiver c).map fun (t, c) => { t with pc := .closing c result }
  | .release result => some { s with
      released := s.released || (s.obtained && !s.owned)
      pc := .returned none (some result) }
  | _ => none

/-- A read of a stream with room for `size` bytes returned `bs` and `err`. What is
replayed comes first and by itself. -/
def Receive.streamRead (s : Receive) (size : ℕ) (bs : Bytes) (err : Option ReadErr)
    (next : Receive → Bytes → Option ReadErr → Receive) : Option Receive :=
  if s.replay = [] then
    if bs.length ≤ size ∧ (bs = [] → err ≠ none) then
      some (next { s with taken := s.taken + bs.length } bs err)
    else none
  else some (next { s with replay := s.replay.drop size } (s.replay.take size) none)

def Receive.readHeader (got : Bytes) (s : Receive) (bs : Bytes) (err : Option ReadErr) :
    Receive :=
  if 4 ≤ (got ++ bs).length then s.headed (got ++ bs)
  else match err with
    | some err => s.failAt .header err.recvErr
    | none => { s with pc := .header (got ++ bs) }

def Receive.readBody (n : ℕ) (frame : Bytes) (s : Receive) (bs : Bytes)
    (err : Option ReadErr) : Receive :=
  if n ≤ (frame ++ bs).length then
    { s with bodyAt := some s.now, pc := .valid (frame ++ bs) }
  else match err with
    | some err => s.failAt .body err.recvErr
    | none => { s with pc := .body n (frame ++ bs) }

def Receive.read (s : Receive) (bs : Bytes) (err : Option ReadErr) : Option Receive :=
  match s.pc with
  | .header got =>
    if s.kind.isSession then none
    else s.streamRead (4 - got.length) bs err (Receive.readHeader got)
  | .body n frame =>
    if n ≤ frame.length ∨ s.kind.isSession = true then none
    else s.streamRead (n - frame.length) bs err (Receive.readBody n frame)
  | .reading n frame limit =>
    if bs.length ≤ limit ∧ (bs = [] → err ≠ none) then
      let (call, given) := s.call.readEnd true bs.length err s.expired
      let s := { s with call := call, taken := s.taken + bs.length }
      some (if given then s.readBody n frame bs err else s.failAt .body .sessionExpired)
    else none
  | _ => none

def Receive.bindErr (s : Receive) (res : BindRes) : Option RecvErr :=
  match s.kind with
  | .session p _ => if s.expired then some .sessionExpired else p.bound.recvErr
  | _ => res.recvErr

def receiveStep (s : Receive) : ReceiveAct → Option Receive
  | .tick d => some { s with now := s.now + d }
  | .cancel => some { s with ctxDone := true }
  | .startCallback =>
    if s.ctxDone = true ∧ s.stopped = false ∧ s.callback = none then
      some { s with callback := some .lock }
    else none
  | .callback =>
    s.callback.bind fun c =>
      (s.closeStep .callback c).map fun (t, c) => { t with callback := some c }
  | .go late => s.go late
  | .message m =>
    match s.pc, s.kind with
    | .receive, .message => some (s.received m)
    | _, _ => none
  | .setDeadline err =>
    match s.pc with
    | .deadline => some (match err with
        | some err => s.failAt .setDeadline err.recvErr
        | none =>
          if s.kind.isSession ∧ s.call.closed then s.failAt .setDeadline .closed
          else { s with pc := .header [] })
    | _ => none
  | .read bs err => s.read bs err
  -- only on a stream: the header of a session's call has no flags
  | .write err =>
    match s.pc with
    | .answer w => some (match err with
        | some err => s.failAt .answer err.recvErr
        | none => s.sized (lengthOf w))
    | _ => none
  | .bind res =>
    match s.pc with
    | .binding n => some (match s.bindErr res with
        | some err => { s with mu := none }.failAt .bind err
        | none => { s with
            obtained := true, owned := true, bindAt := some s.taken, pc := .checking n })
    | _ => none
  | .check res =>
    match s.pc with
    | .checking n => some (match res.recvErr with
        | some err => { s with mu := none }.failAt .check err
        | none => { s with mu := none, checkedAt := some s.taken, pc := .body n [] })
    | .admission frame => some (match res.recvErr with
        | some err => s.failAt .check err
        | none => { s with pc := .keep frame })
    | _ => none
  | .lifetime ended =>
    match s.pc with
    | .lifetime frame => some (
        if ended then s.failAt .lifetime .closedPipe
        else { s with pc := .returned (some frame) none })
    | _ => none

end Listen
