import AbstractionIdentity.Listen.SessionCall
import AbstractionIdentity.Transition.Run

/-!
# The server side of one connection

`Serve` is a connection of a session listener with the goroutine that serves it (`prepare`, `run`,
`nextHeader`) and the call handed to `Accept`. The bytes the client sent wait in `inn`; `taken` and
`out` are all that was read and written. Without a session it is served once (`plain`).

Reads return any number of the bytes that are there, and any operation may fail at any time.
`served` counts the calls handed out; `dispatched` lists the frames `ReceiveFramed` returned and
`completed` the one-way completions, each with the number of its request; `marked` is whether the
closing marker was written.
-/

namespace Listen

open Text Stream

/-- The place on a connection that is served once. -/
inductive PlainPc where
  | header (h : Bytes)
  | answer (w : UInt32)
  | bind (n : ℕ)
  | body (n : ℕ) (frame : Bytes)
  | ready (frame : Bytes)
  | handling (replied : Bool)
  deriving DecidableEq

inductive ServePc where
  | first (h : Bytes)
  | admission (w : UInt32)
  | decline (w : UInt32)
  | accept (w : UInt32)
  | bind (w : UInt32)
  | top (w : UInt32)
  | deliver (w : UInt32)
  | wait (a : ActiveCall)
  | rest (h : Bytes)
  | woke (h : Bytes) (err : Option ReadErr)
  | resume (h : Bytes)
  | header (w : UInt32)
  | marker
  | plain (p : PlainPc)
  | ended
  deriving DecidableEq

structure Serve where
  inn : Bytes
  taken : Bytes
  out : Bytes
  hangup : Bool
  lost : Bool
  retiring : Bool
  bound : Bool
  expired : Bool
  bindErr : Bool
  done : Bool
  pc : ServePc
  served : ℕ
  dispatched : List (ℕ × Bytes)
  completed : List ℕ
  marked : Bool
  deriving DecidableEq

def Serve.start (sessions : Bool) : Serve where
  inn := []
  taken := []
  out := []
  hangup := false
  lost := false
  retiring := false
  bound := false
  expired := false
  bindErr := false
  done := false
  pc := if sessions then .first [] else .plain (.header [])
  served := 0
  dispatched := []
  completed := []
  marked := false

inductive ServeAct where
  | send (bs : Bytes)
  | hangup
  | lose
  | retire
  | expire
  | shutdown
  | read (n : ℕ)
  | readFail (err : ReadErr)
  | write (fault : Option ℕ)
  | go (ok : Bool)
  | call (act : CallAct)
  | refuse (tokens : Bytes) (fault : Option ℕ)
  | reply (frame : Bytes) (fault : Option ℕ)
  | finish
  deriving DecidableEq

def ServePc.wants : ServePc → ℕ
  | .first h => if h = [] then 1 else 4 - h.length
  | .rest h | .resume h | .plain (.header h) => 4 - h.length
  | .plain (.body n frame) => n - frame.length
  | _ => 0

def plainHeader (limit : ℕ) (w : UInt32) : ServePc :=
  if isSession w ∧ w ≠ sessionClosing then .plain (.answer w)
  else if limit < w.toNat then .ended
  else .plain (.bind w.toNat)

def ServePc.afterRead (limit : ℕ) (bs : Bytes) : ServePc → ServePc
  | .first h =>
    let h := h ++ bs
    if h.length < 4 then
      -- a first byte below 128 opens no session
      if h.headD 0 < 128 then .plain (.header h) else .first h
    else if unword h = sessionClosing then .ended
    else .admission (unword h)
  | .rest h => if (h ++ bs).length < 4 then .rest (h ++ bs) else .woke (h ++ bs) none
  | .resume h =>
    if (h ++ bs).length < 4 then .resume (h ++ bs) else .header (unword (h ++ bs))
  | .plain (.header h) =>
    if (h ++ bs).length < 4 then .plain (.header (h ++ bs))
    else plainHeader limit (unword (h ++ bs))
  | .plain (.body n frame) =>
    if (frame ++ bs).length < n then .plain (.body n (frame ++ bs))
    else .plain (.ready (frame ++ bs))
  | pc => pc

def ServePc.afterReadFail (err : ReadErr) : ServePc → Option ServePc
  | .rest h => some (.woke h (some err))
  | .first _ | .resume _ | .plain (.header _) | .plain (.body _ _) => some .ended
  | _ => none

def ServePc.writes (limit : ℕ) : ServePc → Option (UInt32 × ServePc)
  | .decline w => some (sessionDecline, plainHeader limit (mkHeader false false (lengthOf w)))
  | .accept w => some (sessionAccept, .bind w)
  | .marker => some (sessionClosing, .ended)
  | .plain (.answer w) => some (sessionUnsupported,
      if limit < lengthOf w then .ended else .plain (.bind (lengthOf w)))
  | _ => none

def wakeUp (retiring : Bool) (h : Bytes) (err : Option ReadErr) : ServePc :=
  if retiring then
    if h = [] then .marker else .ended
  else if h = [] then
    if err = some .timeout then .marker else .ended
  else match err with
    | none => .header (unword h)
    | some .timeout => .resume h
    | some .other => .ended

/-- The end of an exchange in `run`; `deadlineSet` is whether the wait for the
next header could be given its deadline. -/
def Serve.afterCall (s : Serve) (c : SessionCall) (deadlineSet : Bool) : Serve :=
  if c.broken || !c.continued then { s with pc := .ended }
  else if s.retiring || s.expired then { s with retiring := true, pc := .marker }
  else if deadlineSet then { s with pc := .rest [] }
  else { s with retiring := true, pc := .ended }

/-- The steps of the goroutine that do no input or output; `ok` is what happens
outside it: whether the session is admitted, the connection bound, the call
handed over. -/
def Serve.go (s : Serve) (ok : Bool) : Option Serve :=
  match s.pc with
  | .admission w => some { s with pc := if ok then .accept w else .decline w }
  | .bind w => some { s with bound := true, bindErr := !ok, pc := .top w }
  | .top w => some { s with
      pc := if !isSession w || w = sessionClosing || s.done then .ended else .deliver w }
  | .deliver w =>
    if ok then some { s with pc := .wait (.new w), served := s.served + 1 }
    else if s.done then some { s with pc := .ended }
    else none
  | .wait a => if a.call.done then some (s.afterCall a.call ok) else none
  | .woke h err => some { s with pc := wakeUp (s.retiring || s.expired) h err }
  | .header w => some { s with pc := if s.expired then .ended else .top w }
  | .plain (.bind n) => some { s with
      pc := if !ok then .ended else if n = 0 then .plain (.ready [])
        else .plain (.body n []) }
  | .plain (.ready frame) =>
    if ok then some { s with
      pc := .plain (.handling false), dispatched := s.dispatched ++ [(0, frame)] }
    else some { s with pc := .ended }
  | _ => none

def Serve.view (s : Serve) : CallView := ⟨s.inn, s.lost, s.retiring, s.expired, s.bindErr⟩

def Serve.moved (s : Serve) (m : CallMove) : Serve :=
  { s with
    inn := s.inn.drop m.read
    taken := s.taken ++ s.inn.take m.read
    out := s.out ++ m.wrote
    pc := .wait m.next
    dispatched := match m.event with
      | some (.dispatched frame) => s.dispatched ++ [(s.served - 1, frame)]
      | _ => s.dispatched
    completed := match m.event with
      | some .completed => s.completed ++ [s.served - 1]
      | _ => s.completed }

def serveStep (limit : ℕ) (s : Serve) : ServeAct → Option Serve
  | .send bs => if s.hangup || s.lost then none else some { s with inn := s.inn ++ bs }
  | .hangup => some { s with hangup := true }
  | .lose => some { s with lost := true }
  | .retire => some { s with retiring := true }
  | .expire => if s.bound then some { s with expired := true } else none
  | .shutdown => some { s with done := true }
  | .read n =>
    if 0 < n ∧ n ≤ s.pc.wants ∧ n ≤ s.inn.length then
      some { s with
        inn := s.inn.drop n, taken := s.taken ++ s.inn.take n,
        pc := s.pc.afterRead limit (s.inn.take n) }
    else none
  | .readFail err => (s.pc.afterReadFail err).map fun pc => { s with pc := pc }
  | .write fault =>
    if s.lost = true → fault ≠ none then
      (s.pc.writes limit).map fun (w, pc) =>
        { s with
          out := s.out ++ sent s.lost (word w) fault
          pc := if fault = none then pc else .ended
          marked := s.marked || s.pc = .marker }
    else none
  | .go ok => s.go ok
  | .call act =>
    match s.pc with
    | .wait a => (a.next limit s.view act).map s.moved
    | _ => none
  | .refuse tokens fault =>
    match s.pc with
    | .plain (.bind _) =>
      if tokens.length = 2 ∧ (s.lost = true → fault ≠ none) then
        some { s with
          out := s.out ++ sent s.lost (word proofRefusalHeader ++ tokens) fault
          pc := .ended }
      else none
    | _ => none
  | .reply frame fault =>
    match s.pc with
    | .plain (.handling false) =>
      if frame.length ≤ limit ∧ (s.lost = true → fault ≠ none) then
        some { s with
          out := s.out ++ sent s.lost (word (mkHeader false false frame.length) ++ frame)
            fault
          pc := .plain (.handling true) }
      else none
    | _ => none
  | .finish =>
    match s.pc with
    | .plain (.handling _) => some { s with pc := .ended }
    | _ => none

end Listen
