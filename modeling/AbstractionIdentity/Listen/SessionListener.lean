import AbstractionIdentity.Transition.Run
import Mathlib.Algebra.Order.Ring.Int

/-!
# The session listener

`Listener` is a session listener with its connections, each with the goroutine that serves it
(`prepare`, then `run`), the accept loop, the one `shutdown`, calls of `Close`, and the callers that
got a session call. What is done under a lock is one step, and so is each operation of a connection
or a channel.

`owned` and `interrupted` are the flags of `pendingSessionConn`, `listed` its place in `pending`,
`prepared` its channel `done`; `registered`, `retiring`, `resting` (for `idle`), `active` and
`finished` (for `done`) are the fields of a session. `handoff` channels are numbered: `made` are
made, `handoffs` closed, and `handoffDone` is the session's. `handed` counts the deliveries of a
plain connection.
-/

namespace Listen

/-- What the listener can do with a connection: receive messages, nothing but hand it
over, or set deadlines and read. -/
inductive Transport where
  | message
  | bare
  | stream
  deriving DecidableEq

inductive AfterWait where
  | release
  | admission
  | finish
  deriving DecidableEq

/-- The place of the goroutine of a connection: with the accept loop, in `prepare`, in `run`.
`counted` is whether the connection counts as waiting. -/
inductive AcceptedPc where
  | accepted
  | start
  | first
  | uncount (next : AfterWait)
  | release (counted : Bool)
  | deliver (counted : Bool)
  | offer (counted : Bool)
  | discard (counted : Bool)
  | admission
  | decline
  | adopt
  | unlist (session : Bool)
  | prepared (session : Bool)
  | opening
  | top
  | callDeliver
  | callOffer
  | handoff (delivered : Bool)
  | handedOff (delivered : Bool)
  | exchange
  | settled
  | rest
  | idle
  | resume
  | closing
  | delist
  | leave
  | ended
  deriving DecidableEq

inductive CallPhase where
  | offered
  | opened
  | closing
  | done
  | waiting
  | returned
  deriving DecidableEq

structure Accepted where
  transport : Transport
  pc : AcceptedPc
  closed : Bool
  handed : ℕ
  owned : Bool
  interrupted : Bool
  listed : Bool
  prepared : Bool
  registered : Bool
  retiring : Bool
  resting : Bool
  active : Bool
  finished : Bool
  made : ℕ
  handoffs : ℕ
  handoffDone : Option ℕ
  call : Option CallPhase
  deriving DecidableEq

def Accepted.new (transport : Transport) : Accepted where
  transport := transport
  pc := .accepted
  closed := false
  handed := 0
  owned := false
  interrupted := false
  listed := false
  prepared := false
  registered := false
  retiring := false
  resting := false
  active := false
  finished := false
  made := 0
  handoffs := 0
  handoffDone := none
  call := none

/-- What a goroutine finds: an operation fails, a first byte opens no session or part of a header is
there, or a whole header. -/
inductive Finding where
  | failed
  | short
  | whole
  deriving DecidableEq

def AcceptedPc.after (counted : Bool) : AcceptedPc :=
  if counted then .uncount .finish else .unlist false

def AcceptedPc.uncounts : AcceptedPc → Bool
  | .uncount _ => true
  | _ => false

def AfterWait.pc : AfterWait → AcceptedPc
  | .release => .release false
  | .admission => .admission
  | .finish => .unlist false

def CallPhase.isDone : CallPhase → Bool
  | .done | .waiting | .returned => true
  | _ => false

/-- A step of the goroutine of a connection, but for the counter and the admission.
`done` is whether the listener's channel is closed. -/
def Accepted.next (done : Bool) (f : Finding) (x : Accepted) : Option Accepted :=
  match x.pc with
  | .start => some { x with pc := match x.transport with
      | .message => .uncount .release
      | .bare => .release true
      | .stream => .first }
  | .first => some { x with pc := match f with
      | .failed => .discard true
      | .short => .release true
      | .whole => .uncount .admission }
  | .uncount next => some { x with pc := next.pc }
  | .release counted =>
    if x.interrupted then some { x with pc := .after counted }
    else some { x with owned := false, pc := .deliver counted }
  | .deliver counted => some { x with pc := if done then .discard counted else .offer counted }
  | .offer counted => if done then some { x with pc := .discard counted } else none
  | .discard counted => some { x with closed := true, pc := .after counted }
  | .decline => some { x with pc := if f = .failed then .discard false else .release false }
  | .adopt => some { x with owned := x.owned && x.interrupted, pc := .unlist true }
  | .unlist session => some { x with listed := false, pc := .prepared session }
  | .prepared session => some { x with
      prepared := true, pc := if session then .opening else .ended }
  | .opening => some { x with pc := if f = .failed then .closing else .top }
  | .top =>
    if f = .failed ∨ done = true then some { x with pc := .closing }
    else some { x with
      made := x.made + 1, handoffDone := some x.made, call := some .offered,
      pc := .callDeliver }
  | .callDeliver => some { x with pc := if done then .handoff false else .callOffer }
  | .callOffer => if done then some { x with pc := .handoff false } else none
  | .handoff delivered => some { x with
      active := delivered, handoffDone := none, pc := .handedOff delivered }
  | .handedOff delivered => some { x with
      handoffs := x.handoffs + 1, pc := if delivered then .exchange else .closing }
  | .exchange =>
    if x.call.any CallPhase.isDone then some { x with pc := .settled } else none
  -- a call that is broken or not continued ends the session
  | .settled => some { x with active := false, pc := if f = .failed then .closing else .rest }
  -- the binding has expired, or there is no deadline for the next header
  | .rest =>
    if f = .failed ∨ x.retiring = true then some { x with retiring := true, pc := .closing }
    else some { x with resting := true, pc := .idle }
  | .idle => some { x with
      resting := false
      pc := if x.retiring then .closing else match f with
        | .failed => .closing
        | .short => .resume
        | .whole => .top }
  | .resume => some { x with pc := if f = .failed then .closing else .top }
  | .closing => some { x with closed := true, pc := .delist }
  | .delist => some { x with registered := false, pc := .leave }
  | .leave => some { x with finished := true, pc := .ended }
  | .accepted | .admission | .ended => none

def Accepted.retire (x : Accepted) : Accepted := { x with retiring := true }

def Accepted.take (x : Accepted) : Option Accepted :=
  match x.pc with
  | .offer counted => some { x with handed := x.handed + 1, pc := .after counted }
  | .callOffer => some { x with call := some .opened, pc := .handoff true }
  | _ => none

def Accepted.callClose (done : Bool) (x : Accepted) : Option Accepted :=
  match x.call with
  | some .opened => some { x with call := some .closing }
  | some .closing => some { x with call := some .done }
  -- `waitForShutdown`
  | some .done => some { x with call := some (if done then .waiting else .returned) }
  | some .waiting => if x.finished then some { x with call := some .returned } else none
  | _ => none

inductive AcceptLoopPc where
  | accepting
  | got (i : ℕ)
  | refuse (i : ℕ) (stop : Bool)
  | failed
  | stopping
  | ended
  deriving DecidableEq

/-- The place in `shutdown`, which runs once. -/
inductive ShutdownPc where
  | idle
  | inner
  | snapshot
  | interrupts (ps : List ℕ)
  | interrupting (p : ℕ) (ps : List ℕ)
  | finished
  deriving DecidableEq

inductive DrainPc where
  | shutdown
  | accept
  | pending
  | waitPending (ps : List ℕ)
  | sessions
  | check (cs : List ℕ)
  | handoff (c r : ℕ) (cs : List ℕ)
  | active (c : ℕ) (cs : List ℕ)
  | waitSession (c : ℕ) (cs : List ℕ)
  | returned
  deriving DecidableEq

structure Listener where
  maxSessions : ℕ
  done : Bool
  waiting : ℤ
  conns : List Accepted
  loop : AcceptLoopPc
  shut : ShutdownPc
  closers : List DrainPc
  deriving DecidableEq

def Listener.start (maxSessions : ℕ) : Listener :=
  ⟨maxSessions, false, 0, [], .accepting, .idle, []⟩

/-- The steps of the goroutines, of the callers and of the inner listener; `order` are the sessions
retired for an opening. -/
inductive ListenerAct where
  | accept (transport : Transport)
  | acceptFails
  | loop
  | shutdown (p : ℕ)
  | serve (i : ℕ) (f : Finding)
  | admission (i : ℕ) (order : List ℕ)
  | take (i : ℕ)
  | caller (i : ℕ)
  | close
  | closer (k : ℕ) (i : ℕ)
  deriving DecidableEq

def Listener.indices (s : Listener) (p : Accepted → Bool) : List ℕ :=
  (List.range s.conns.length).filter fun i => s.conns[i]?.any p

def retireIdle (conns : List Accepted) : List ℕ → List Accepted × Bool
  | [] => (conns, false)
  | j :: order =>
    match conns[j]? with
    | some x =>
      if x.registered then
        if x.resting then (conns.set j x.retire, true)
        else retireIdle (conns.set j x.retire) order
      else retireIdle conns order
    | none => retireIdle conns order

def Listener.admitSession (s : Listener) (i : ℕ) (order : List ℕ) : Option Listener :=
  let (conns, admitted) :=
    if (s.indices Accepted.registered).length < s.maxSessions then (s.conns, true)
    else retireIdle s.conns order
  conns[i]?.bind fun x =>
    if x.pc = .admission then
      some { s with
        conns := conns.set i (if admitted && !s.done then
            { x with registered := true, pc := .adopt }
          else { x with pc := .decline }) }
    else none

def Listener.loopStep (s : Listener) : Option Listener :=
  match s.loop with
  | .got i => s.conns[i]?.bind fun x =>
    if s.done then some { s with loop := .refuse i true }
    else if 2 * s.maxSessions ≤ s.waiting then some { s with loop := .refuse i false }
    else some { s with
      waiting := s.waiting + 1
      conns := s.conns.set i { x with owned := true, listed := true, pc := .start }
      loop := .accepting }
  | .refuse i stop => s.conns[i]?.bind fun x => some { s with
      conns := s.conns.set i { x with closed := true, pc := .ended }
      loop := if stop then .ended else .accepting }
  | .failed => some { s with loop := .stopping }
  | .stopping => if s.shut = .finished then some { s with loop := .ended } else none
  | _ => none

/-- A step of `shutdown`, which the accept loop or a `Close` begins; `p` is the pending
connection it turns to. -/
def Listener.shutdownStep (s : Listener) (p : ℕ) : Option Listener :=
  match s.shut with
  | .idle =>
    if s.loop = .stopping ∨ .shutdown ∈ s.closers then
      some { s with done := true, shut := .inner }
    else none
  | .inner => some { s with shut := .snapshot }
  | .snapshot => some { s with
      conns := s.conns.map fun x => if x.registered then x.retire else x
      shut := .interrupts (s.indices Accepted.listed) }
  | .interrupts [] => some { s with shut := .finished }
  | .interrupts ps =>
    if p ∈ ps then s.conns[p]?.bind fun x =>
      if !x.owned || x.interrupted then some { s with shut := .interrupts (ps.erase p) }
      else some { s with
        conns := s.conns.set p { x with interrupted := true }
        shut := .interrupting p (ps.erase p) }
    else none
  | .interrupting p ps => s.conns[p]?.bind fun x => some { s with
      conns := s.conns.set p { x with closed := true }
      shut := .interrupts ps }
  | .finished => none

def Listener.drainStep (s : Listener) (i : ℕ) : DrainPc → Option DrainPc
  | .shutdown => if s.shut = .finished then some .accept else none
  | .accept => if s.loop = .ended then some .pending else none
  | .pending => some (.waitPending (s.indices Accepted.listed))
  | .waitPending [] => some .sessions
  | .waitPending ps =>
    if i ∈ ps ∧ s.conns[i]?.any Accepted.prepared = true then
      some (.waitPending (ps.erase i))
    else none
  | .sessions => some (.check (s.indices Accepted.registered))
  | .check [] => some .returned
  | .check cs =>
    if i ∈ cs then s.conns[i]?.map fun x => match x.handoffDone with
      | some r => .handoff i r (cs.erase i)
      | none => .active i (cs.erase i)
    else none
  | .handoff c r cs => s.conns[c]?.bind fun x =>
    if r < x.handoffs then some (.active c cs) else none
  | .active c cs => s.conns[c]?.map fun x =>
    if x.active = false ∨ x.call.any CallPhase.isDone = true then .waitSession c cs
    else .check cs
  | .waitSession c cs => s.conns[c]?.bind fun x => if x.finished then some (.check cs) else none
  | .returned => none

def listenerStep (s : Listener) : ListenerAct → Option Listener
  | .accept transport =>
    if s.loop = .accepting then some { s with
      conns := s.conns ++ [.new transport], loop := .got s.conns.length }
    else none
  | .acceptFails => if s.loop = .accepting then some { s with loop := .failed } else none
  | .loop => s.loopStep
  | .shutdown p => s.shutdownStep p
  | .serve i f => s.conns[i]?.bind fun x => (x.next s.done f).map fun y => { s with
      waiting := s.waiting - if x.pc.uncounts then 1 else 0
      conns := s.conns.set i y }
  | .admission i order => s.admitSession i order
  | .take i => s.conns[i]?.bind fun x => x.take.map fun y =>
    { s with conns := s.conns.set i y }
  | .caller i => s.conns[i]?.bind fun x => (x.callClose s.done).map fun y =>
    { s with conns := s.conns.set i y }
  | .close => some { s with closers := s.closers ++ [.shutdown] }
  | .closer k i => s.closers[k]?.bind fun pc => (s.drainStep i pc).map fun pc =>
    { s with closers := s.closers.set k pc }

end Listen
