import AbstractionIdentity.Transition.Run
import AbstractionIdentity.Transition.Table

/-!
# The XPC listener

All that comes of one connection to the bootstrap listener is an `XpcSession`: the handler of the
bootstrap peer, the session state it allocates, the anonymous listener, the peers of the session and
the block that retires it. The bootstrap listener, the anonymous listeners and the retirements run
on `l->queue`, one block at a time; the handlers of a peer run on the peer's own queue, which
neither `bootstrap_peer` nor `session_peer` sets. So the handlers of a session overlap, each at a
place of its own. A list of the source (connections, sessions) is kept as a flag of its elements.
A message that is answered without touching the books is not an event here, and a `listener_retain`
or `listener_release` that reads nothing but the listener belongs to the step before it.
-/

namespace Darwin

def maxConnections : ℕ := 512

def maxSessions : ℕ := 128

def maxActiveRequests : ℕ := 256

/-- What the handler of a bootstrap peer does next. -/
inductive BootPlace where
  | idle
  | allocate
  | unreserve
  | list
  | createAnonymous
  | abandon
  | serveAnonymous
  | untrack
  | endBootstrap
  | maybeRetire
  | done
  deriving DecidableEq

/-- What the handler of an anonymous listener does after its end. -/
inductive AnonPlace where
  | idle
  | untrack
  | maybeRetire
  deriving DecidableEq

/-- What the handler of a session peer does next. `serve` is still on `l->queue`, and `release`
reads the listener from the state. -/
inductive PeerPlace where
  | serve
  | idle
  | untrack
  | endPeer
  | maybeRetire
  | release
  | done
  deriving DecidableEq

/-- What the block dispatched by `maybe_retire_session` does next. -/
inductive RetirePlace where
  | idle
  | start
  | unlist
  | freeState
  deriving DecidableEq

structure XpcPeer where
  place : PeerPlace
  tracked : Bool

/-- A bootstrap peer with the fields of its `oa_xpc_session_state`, once that is `allocated`.
`freed` counts how often the state was freed. -/
structure XpcSession where
  boot : BootPlace
  bootTracked : Bool
  allocated : Bool
  bootstrapActive : Bool
  anonymousActive : Bool
  closed : Bool
  retirementScheduled : Bool
  peerCount : ℕ
  anonymousListener : Bool
  listed : Bool
  anon : AnonPlace
  anonTracked : Bool
  peers : List XpcPeer
  retire : RetirePlace
  freed : ℕ

/-- A bootstrap peer that is tracked. -/
def XpcSession.new : XpcSession :=
  ⟨.idle, true, false, false, false, false, false, 0, false, false, .idle, false, [], .idle, 0⟩

/-- The application's handle: in `oa_xpc_listener_free` the queue is taken, and its requests are
freed one after the other. -/
inductive Handle where
  | held
  | taking
  | draining (rest : List ℕ)
  | gone
  deriving DecidableEq

/-- `oa_xpc_listener` with all that uses it. `owned` are the requests the application has yet to
free; `returned` and `dropped` record what became of the queue. -/
structure XpcListener where
  connectionCount : ℕ
  sessionCount : ℕ
  active : List ℕ
  activeRequestCount : ℕ
  queue : List ℕ
  closed : Bool
  refs : ℕ
  destroyed : Bool
  listening : Bool
  sessions : List XpcSession
  handle : Handle
  owned : List ℕ
  enqueued : ℕ
  returned : List ℕ
  dropped : List ℕ

def XpcListener.start : XpcListener :=
  ⟨0, 0, [], 0, [], false, 2, false, true, [], .held, [], 0, [], []⟩

namespace XpcListener

variable (l : XpcListener)

/-- Whether `track_connection` tracks a connection. -/
@[simp] def tracks (ok : Bool) : Bool := ok && !(l.closed || l.connectionCount ≥ maxConnections)

@[simp] def track : XpcListener := { l with connectionCount := l.connectionCount + 1 }

@[simp] def untrack (tracked : Bool) : XpcListener :=
  { l with connectionCount := l.connectionCount - tracked.toNat }

@[simp] def retain : XpcListener := { l with refs := l.refs + 1 }

/-- The last reference given back lets `listener_destroy` run, which is `destroy` in `step`. -/
@[simp] def release : XpcListener := { l with refs := l.refs - 1 }

def enqueue : XpcListener :=
  if l.closed || l.activeRequestCount ≥ maxActiveRequests then l
  else { l.retain with
    active := l.enqueued :: l.active
    activeRequestCount := l.activeRequestCount + 1
    queue := l.queue ++ [l.enqueued]
    enqueued := l.enqueued + 1 }

def requestFree (request : ℕ) : XpcListener :=
  { l.release with
    active := l.active.erase request
    activeRequestCount :=
      if request ∈ l.active then l.activeRequestCount - 1 else l.activeRequestCount }

/-- No handler of a connection holds up `maybe_retire_session`. A flag that it reads as cleared is
never set again, so that its reads are one step. -/
def maybeRetire (s : XpcSession) : XpcListener × XpcSession :=
  if s.bootstrapActive || s.anonymousActive || s.peerCount ≠ 0 || l.closed ||
      s.retirementScheduled then (l, s)
  else (l.retain, { s with retirementScheduled := true, retire := .start })

/-- The end of a handler that holds the listener itself. -/
def leave (s : XpcSession) : XpcListener × XpcSession :=
  ((l.maybeRetire s).1.release, (l.maybeRetire s).2)

/-! ### The handlers of a session -/

def bootStep (s : XpcSession) (ok : Bool) : Option (XpcListener × XpcSession) :=
  match s.boot with
  | .idle => none
  | .allocate =>
    if ok then some (l, { s with allocated := true, bootstrapActive := true, boot := .list })
    else some (l, { s with boot := .unreserve })
  | .unreserve => some ({ l with sessionCount := l.sessionCount - 1 }, { s with boot := .idle })
  | .list => some (l, { s with listed := true, boot := .createAnonymous })
  | .createAnonymous =>
    if l.tracks ok then some (l.track,
      { s with anonTracked := true, anonymousListener := true, boot := .serveAnonymous })
    else some (l, { s with boot := .abandon })
  | .abandon => some (l, { s with closed := true, anonymousListener := false, boot := .idle })
  | .serveAnonymous => some (l.retain, { s with anonymousActive := true, boot := .idle })
  | .untrack =>
    if s.allocated then
      some (l.untrack s.bootTracked, { s with bootTracked := false, boot := .endBootstrap })
    else some ((l.untrack s.bootTracked).release, { s with bootTracked := false, boot := .done })
  | .endBootstrap => some (l, { s with bootstrapActive := false, boot := .maybeRetire })
  | .maybeRetire => some (l.leave { s with boot := .done })
  | .done => none

def anonStep (s : XpcSession) : Option (XpcListener × XpcSession) :=
  match s.anon with
  | .idle => none
  | .untrack =>
    some (l.untrack s.anonTracked, { s with anonTracked := false, anon := .maybeRetire })
  | .maybeRetire => some (l.leave { s with anon := .idle })

def peerStep (s : XpcSession) (j : ℕ) (p : XpcPeer) : Option (XpcListener × XpcSession) :=
  let put (s : XpcSession) (p : XpcPeer) := { s with peers := s.peers.set j p }
  match p.place with
  | .serve =>
    some (l.retain, put { s with peerCount := s.peerCount + 1 } { p with place := .idle })
  | .idle => none
  | .untrack => some (l.untrack p.tracked, put s ⟨.endPeer, false⟩)
  | .endPeer =>
    some (l, put { s with peerCount := s.peerCount - 1 } { p with place := .maybeRetire })
  | .maybeRetire => some (l.maybeRetire (put s { p with place := .release }))
  | .release => some (l.release, put s { p with place := .done })
  | .done => none

def retireStep (s : XpcSession) : Option (XpcListener × XpcSession) :=
  match s.retire with
  | .idle => none
  | .start =>
    if l.closed then some (l.release, { s with retire := .idle })
    else some (l, { s with retire := .unlist })
  | .unlist =>
    some ({ l with sessionCount := l.sessionCount - s.listed.toNat },
      { s with listed := false, retire := .freeState })
  | .freeState => some (l.release, { s with freed := s.freed + 1, retire := .idle })

end XpcListener

/-- The serial queue of a handler of a session: `anon` and `retire` run on `l->queue`. -/
inductive Lane where
  | boot
  | anon
  | peer (j : ℕ)
  | retire

/-- What is delivered to the handlers of a session: a bootstrap message, a connection to the
anonymous listener, or the end of a connection. -/
inductive SessionEvent where
  | bootstrap
  | connect (ok : Bool)
  | bootstrapEnd
  | anonymousEnd
  | peerEnd (j : ℕ)

/-- `listener_destroy` frees the sessions that are still listed. -/
def XpcSession.destroy (s : XpcSession) : XpcSession :=
  if s.listed then { s with freed := s.freed + 1 } else s

/-- No block of the session on `l->queue` is under way. -/
def XpcSession.queueFree (s : XpcSession) : Bool :=
  s.anon = .idle && s.peers.all (·.place ≠ .serve) && (s.retire = .idle || s.retire = .start)

namespace XpcListener

variable (l : XpcListener)

def queueFree : Bool := l.sessions.all (·.queueFree)

def laneStep (s : XpcSession) (ok : Bool) : Lane → Option (XpcListener × XpcSession)
  | .boot => l.bootStep s ok
  | .anon => l.anonStep s
  | .peer j => (s.peers[j]?).bind (l.peerStep s j)
  | .retire => if s.retire = .start && !l.queueFree then none else l.retireStep s

def deliver (s : XpcSession) : SessionEvent → Option (XpcListener × XpcSession)
  | .bootstrap =>
    if s.boot = .idle && !s.allocated then
      if !l.closed && l.sessionCount < maxSessions then
        some ({ l with sessionCount := l.sessionCount + 1 }, { s with boot := .allocate })
      else some (l, s)
    else none
  | .connect ok =>
    if s.anonymousActive && !s.closed && l.queueFree then
      if l.tracks ok then some (l.track, { s with peers := s.peers ++ [⟨.serve, true⟩] })
      else some (l, s)
    else none
  | .bootstrapEnd =>
    if s.boot = .idle then some (l, { s with closed := s.closed || s.allocated, boot := .untrack })
    else none
  | .anonymousEnd =>
    if s.anonymousActive && l.queueFree then
      some (l, { s with
        anonymousActive := false
        anonymousListener := false
        anon := if s.anonymousListener then .untrack else .maybeRetire })
    else none
  | .peerEnd j => (s.peers[j]?).bind fun p =>
    if p.place = .idle then
      some (l, { s with peers := s.peers.set j { p with place := .untrack } })
    else none

/-- The application uses the listener and its requests only while it holds them. -/
def advanceFree : Option XpcListener :=
  match l.handle with
  | .held => some { l with closed := true, handle := .taking }
  | .taking =>
    some { l with queue := [], dropped := l.queue ++ l.dropped, handle := .draining l.queue }
  | .draining (request :: rest) => some { l.requestFree request with handle := .draining rest }
  | .draining [] => some { l.release with handle := .gone }
  | .gone => none

end XpcListener

inductive XpcAct where
  | connect (ok : Bool)
  | listenerEnd
  | event (i : ℕ) (e : SessionEvent)
  | frame (i j : ℕ)
  | lane (i : ℕ) (lane : Lane) (ok : Bool)
  | next
  | close
  | free
  | requestFree (request : ℕ)
  | destroy

namespace XpcListener

variable (l : XpcListener)

def put (i : ℕ) : XpcListener × XpcSession → XpcListener
  | (l, s) => { l with sessions := l.sessions.set i s }

def step (l : XpcListener) : XpcAct → Option XpcListener
  | .connect ok =>
    if l.listening && l.queueFree then
      if l.tracks ok then some { l.track.retain with sessions := l.sessions ++ [.new] }
      else some l
    else none
  | .listenerEnd =>
    if l.listening && l.queueFree then some { l.release with listening := false, closed := true }
    else none
  | .event i e => (l.sessions[i]?).bind fun s => (l.deliver s e).map (put i)
  | .frame i j =>
    if (l.sessions[i]?).any fun s => (s.peers[j]?).any (·.place = .idle) then some l.enqueue
    else none
  | .lane i lane ok => (l.sessions[i]?).bind fun s => (l.laneStep s ok lane).map (put i)
  | .next =>
    match l.handle, l.queue with
    | .held, request :: rest => some { l with
        queue := rest
        returned := request :: l.returned
        owned := request :: l.owned }
    | _, _ => none
  | .close => if l.handle = .held then some { l with closed := true } else none
  | .free => l.advanceFree
  | .requestFree request =>
    if request ∈ l.owned then
      some { l.requestFree request with owned := l.owned.erase request }
    else none
  | .destroy =>
    if l.refs = 0 && !l.destroyed then
      some { l with destroyed := true, sessions := l.sessions.map XpcSession.destroy }
    else none

end XpcListener

end Darwin
