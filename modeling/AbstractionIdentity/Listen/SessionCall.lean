import AbstractionIdentity.Listen.Wire

/-!
# One exchange on a session connection

`SessionCall` is the `Conn` handed out for one request. A `Read` that goes to the wire has two
critical sections, `readBegin` and `readEnd`, and a `Close` waits for the reads in progress before
it decides how the exchange ended (`closeEnd`). `ActiveCall` is a call with its receiver
`ReceiveFramed`, the callback of its context and, once the frame was returned, the handler.
-/

namespace Listen

open Text Stream

inductive ReadErr where
  | timeout
  | other
  deriving DecidableEq

structure SessionCall where
  head : UInt32
  headerAt : ℕ
  remaining : ℕ
  out : Bytes
  outLeft : ℕ
  replied : Bool
  continued : Bool
  closed : Bool
  broken : Bool
  reading : ℕ
  done : Bool
  deriving DecidableEq

def SessionCall.new (head : UInt32) : SessionCall :=
  ⟨head, 0, lengthOf head, [], 0, false, false, false, false, 0, false⟩

def SessionCall.oneWay (c : SessionCall) : Bool := isOneWay c.head

/-- What `Read` does with a buffer: it fails, copies the header, reports the end,
or reads the connection, at most `limit` bytes. -/
inductive ReadPlan where
  | errClosed
  | errExpired
  | header (bs : Bytes)
  | eof
  | wire (limit : ℕ)
  deriving DecidableEq

def SessionCall.readBegin (c : SessionCall) (size : ℕ) (expired : Bool) :
    SessionCall × ReadPlan :=
  if c.closed then (c, .errClosed)
  else if c.headerAt < 4 then
    if expired then ({ c with broken := true }, .errExpired)
    else
      let bs := ((word (mkHeader false false (lengthOf c.head))).drop c.headerAt).take size
      ({ c with headerAt := c.headerAt + bs.length }, .header bs)
  else if 0 < c.remaining then
    if expired then ({ c with broken := true }, .errExpired)
    else ({ c with reading := c.reading + 1 }, .wire (min size c.remaining))
  else if c.replied then (c, .eof)
  -- the request is consumed: the read waits for the client to hang up
  else ({ c with reading := c.reading + 1 }, .wire (min size 1))

/-- The second critical section, after `n` bytes were read; `request` is whether
the read began while part of the request was missing. The flag of the result is
whether the bytes are handed to the reader. -/
def SessionCall.readEnd (c : SessionCall) (request : Bool) (n : ℕ) (err : Option ReadErr)
    (expired : Bool) : SessionCall × Bool :=
  let c := { c with reading := c.reading - 1 }
  if request && expired then ({ c with broken := true }, false)
  else if 0 < c.remaining then
    ({ c with remaining := c.remaining - n, broken := c.broken || err = some .other }, true)
  else if 0 < n then ({ c with broken := true }, true)
  else ({ c with broken := c.broken || err = some .other }, true)

/-- What reaches the connection of a buffer: all of it, or the bytes before the
fault; nothing once the connection is lost. -/
def sent (lost : Bool) (buf : Bytes) (fault : Option ℕ) : Bytes :=
  match fault with
  | none => buf
  | some n => if lost then [] else buf.take n

def SessionCall.writeEnd (c : SessionCall) (rest : Bytes) : SessionCall :=
  { c with replied := c.replied || c.outLeft = 0, broken := c.broken || rest ≠ [] }

/-- `Write` before the length of the reply is whole. The header that goes out adds
whether the session continues, in one write with the body that came along. -/
def SessionCall.writeHeader (c : SessionCall) (p : Bytes) (retiring lost : Bool)
    (fault : Option ℕ) : SessionCall × Bytes × Bool :=
  let out := c.out ++ p.take (4 - c.out.length)
  let rest := p.drop (4 - c.out.length)
  let length := (unword out).toNat
  if out.length < 4 then ({ c with out := out }, [], false)
  else if lengthMask.toNat < length then ({ c with out := out, broken := true }, [], true)
  else
    let body := rest.take length
    let buf := word (mkHeader (!retiring) false length) ++ body
    match fault with
    | some n => ({ c with out := out, outLeft := length, broken := true },
        sent lost buf (some n), true)
    | none =>
      (SessionCall.writeEnd { c with
          out := out, continued := !retiring, outLeft := length - body.length }
        (rest.drop body.length), buf, rest.drop body.length ≠ [])

def SessionCall.writeBody (c : SessionCall) (p : Bytes) (lost : Bool) (fault : Option ℕ) :
    SessionCall × Bytes × Bool :=
  if p ≠ [] ∧ 0 < c.outLeft then
    let chunk := p.take c.outLeft
    match fault with
    | some n => ({ c with outLeft := c.outLeft - n, broken := true },
        sent lost chunk (some n), true)
    | none =>
      (SessionCall.writeEnd { c with outLeft := c.outLeft - chunk.length }
        (p.drop chunk.length), chunk, p.drop chunk.length ≠ [])
  else (c.writeEnd p, [], p ≠ [])

/-- `Write`: the call, what reaches the connection and whether it failed. What came along with the
header is either all that is left of the buffer or the whole body. -/
def SessionCall.write (c : SessionCall) (p : Bytes) (retiring lost : Bool)
    (fault : Option ℕ) : SessionCall × Bytes × Bool :=
  if c.closed then (c, [], true)
  else if c.oneWay then ({ c with broken := true }, [], true)
  else if c.out.length < 4 then c.writeHeader p retiring lost fault
  else c.writeBody p lost fault

/-- `Close` decides how the exchange ended once no read is in progress. A one-way
request that was read completes with a word of its own. -/
def SessionCall.closeEnd (c : SessionCall) (retiring lost : Bool) (fault : Option ℕ) :
    SessionCall × Bytes :=
  let c := { c with done := true }
  if c.broken then (c, [])
  else if c.headerAt < 4 ∨ 0 < c.remaining then ({ c with broken := true }, [])
  else if c.oneWay then
    ({ c with continued := !retiring, broken := fault ≠ none },
      sent lost (word (mkHeader (!retiring) false 0)) fault)
  else if !c.replied then ({ c with broken := true }, [])
  else (c, [])

def SessionCall.completes (c : SessionCall) : Bool :=
  c.oneWay && !c.broken && !(c.headerAt < 4 || 0 < c.remaining)

/-- The place of `ReceiveFramed`, from the header to the frame or an error returned. -/
inductive RecvPc where
  | header
  | bind (n : ℕ)
  | body (n : ℕ)
  | reading (n limit : ℕ)
  | valid
  | ctx
  | refuse
  | close
  | returned
  | failed
  deriving DecidableEq

/-- The answer of `Bind` and the check of the need: a missing proof is refused on
the wire, any other error is not. -/
inductive BindRes where
  | ok
  | notProven
  | failed
  deriving DecidableEq

structure ActiveCall where
  call : SessionCall
  recv : RecvPc
  frame : Bytes
  ctxDone : Bool
  replying : Option (List Bytes)
  deriving DecidableEq

def ActiveCall.new (head : UInt32) : ActiveCall := ⟨.new head, .header, [], false, none⟩

structure CallView where
  inn : Bytes
  lost : Bool
  retiring : Bool
  expired : Bool
  bindErr : Bool

/-- `isRetiring`. That it stores its answer when the binding has expired nobody can see: expiry is
for good. -/
def CallView.isRetiring (v : CallView) : Bool := v.retiring || v.expired

inductive CallAct where
  | receive (fails : Bool)
  | bind (res : BindRes)
  | readBegin
  | readEnd (n : ℕ) (err : Option ReadErr)
  | validate
  | checkCtx
  | refuse (tokens : Bytes) (fault : Option ℕ)
  | fail
  | cancel
  | callback
  | watchBegin
  | watchEnd (n : ℕ) (err : Option ReadErr)
  | reply (frame : Bytes)
  | replyWrite (fault : Option ℕ)
  | finish
  | closeEnd (fault : Option ℕ)
  deriving DecidableEq

/-- What a step is recorded as: the receiver returned the frame, or the
completion of a one-way request was written. -/
inductive CallEvent where
  | dispatched (frame : Bytes)
  | completed
  deriving DecidableEq

structure CallMove where
  next : ActiveCall
  read : ℕ
  wrote : Bytes
  event : Option CallEvent

def CallMove.silent (a : ActiveCall) : CallMove := ⟨a, 0, [], none⟩

def replyParts (frame : Bytes) : List Bytes := headed (mkHeader false false frame.length) frame

/-- A read of the connection returns at most what was asked for and is there, and
something unless it fails. -/
def readAllowed (inn : Bytes) (limit n : ℕ) (err : Option ReadErr) : Bool :=
  n ≤ limit && n ≤ inn.length && (0 < n || err ≠ none)

def ActiveCall.receiveNext (limit : ℕ) (v : CallView) (a : ActiveCall) :
    CallAct → Option CallMove
  | .receive fails =>
    if a.recv = .header then
      if fails || a.ctxDone then some (.silent { a with recv := .close })
      else match a.call.readBegin 4 v.expired with
        | (call, .header bs) =>
          let n := (unword bs).toNat
          some (.silent { a with
            call := call, recv := if limit < n then .close else .bind n })
        | (call, _) => some (.silent { a with call := call, recv := .close })
    else none
  | .bind res =>
    match a.recv with
    | .bind n =>
      if a.call.closed || v.expired then some (.silent { a with recv := .close })
      else match res with
        | .ok =>
          if v.bindErr then none else some (.silent { a with recv := .body n })
        | .notProven =>
          some (.silent { a with recv := if a.ctxDone then .close else .refuse })
        | .failed => some (.silent { a with recv := .close })
    | _ => none
  | .readBegin =>
    match a.recv with
    | .body n =>
      if n ≤ a.frame.length then some (.silent { a with recv := .valid })
      else match a.call.readBegin (n - a.frame.length) v.expired with
        | (call, .wire limit) =>
          some (.silent { a with call := call, recv := .reading n limit })
        | (call, _) => some (.silent { a with call := call, recv := .close })
    | _ => none
  | .readEnd k err =>
    match a.recv with
    | .reading n limit =>
      if readAllowed v.inn limit k err then
        let (call, given) := a.call.readEnd true k err v.expired
        let frame := if given then a.frame ++ v.inn.take k else a.frame
        let recv := if !given then .close
          else if n ≤ frame.length then .valid
          else if err ≠ none then .close else .body n
        some ⟨{ a with call := call, frame := frame, recv := recv }, k, [],
          none⟩
      else none
    | _ => none
  | .validate =>
    if a.recv = .valid then
      some (.silent { a with recv := if v.expired then .close else .ctx })
    else none
  | .checkCtx =>
    if a.recv = .ctx then
      if a.ctxDone then some (.silent { a with recv := .close })
      else some ⟨{ a with recv := .returned }, 0, [],
        some (.dispatched a.frame)⟩
    else none
  | .refuse tokens fault =>
    if a.recv = .refuse ∧ tokens.length = 2 ∧ (v.lost = true → fault ≠ none) then
      if a.call.closed then some (.silent { a with recv := .close })
      else some ⟨{ a with call := { a.call with broken := true }, recv := .close }, 0,
        sent v.lost (word proofRefusalHeader ++ tokens) fault, none⟩
    else none
  | .fail =>
    if a.recv = .close then
      some (.silent { a with call := { a.call with closed := true }, recv := .failed })
    else none
  | _ => none

def ActiveCall.handlerNext (limit : ℕ) (v : CallView) (a : ActiveCall) :
    CallAct → Option CallMove
  | .watchBegin => some (.silent { a with call := (a.call.readBegin 1 v.expired).1 })
  | .watchEnd n err =>
    if 0 < a.call.reading ∧ readAllowed v.inn 1 n err = true then
      some ⟨{ a with call := (a.call.readEnd false n err v.expired).1 }, n, [],
        none⟩
    else none
  | .reply frame =>
    if a.replying = none ∧ frame.length ≤ limit then
      some (.silent { a with replying := some (replyParts frame) })
    else none
  | .replyWrite fault =>
    match a.replying with
    | some (p :: parts) =>
      if v.lost = true → fault ≠ none then
        let (call, wrote, failed) := a.call.write p v.isRetiring v.lost fault
        -- `writeHeaded` stops at the first error
        some ⟨{ a with call := call, replying := some (if failed then [] else parts) },
          0, wrote, none⟩
      else none
    | _ => none
  | .finish => some (.silent { a with call := { a.call with closed := true } })
  | _ => none

/-- One step of the call: of its receiver, of its handler once the frame was
returned, of its context, or of the `Close` in progress. -/
def ActiveCall.next (limit : ℕ) (v : CallView) (a : ActiveCall) (act : CallAct) :
    Option CallMove :=
  match act with
  | .cancel => some (.silent { a with ctxDone := true })
  | .callback =>
    if a.ctxDone then
      some (.silent { a with call := { a.call with closed := true } })
    else none
  | .closeEnd fault =>
    if a.call.closed = true ∧ a.call.done = false ∧ a.call.reading = 0 ∧
        (v.lost = true → fault ≠ none) then
      let (call, wrote) := a.call.closeEnd v.isRetiring v.lost fault
      some ⟨{ a with call := call }, 0, wrote,
        if a.call.completes then some .completed else none⟩
    else none
  | act =>
    if a.recv = .returned then a.handlerNext limit v act else a.receiveNext limit v act

end Listen
