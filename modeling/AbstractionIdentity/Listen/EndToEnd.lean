import AbstractionIdentity.Listen.ClientLedger
import AbstractionIdentity.Listen.Connection

/-!
# Clients and servers together

`System` is any number of client calls, the connections they have opened, each with its server
(`Serve`), and the pool. Calls and servers move in any order; what a call writes arrives in order,
unless the connection is lost. A connection remembers its calls (`uses`), so frame `i` dispatched
on it comes from call `i` of this list. An ended context shows in the errors of a call's
operations.
-/

namespace Listen

open Text Stream

inductive Holder where
  | pool
  | call (k : ℕ)
  | closed
  deriving DecidableEq

/-- A connection with its server, whose frame limit comes from `maxFrame`. `sent` is
all that was written to it, and `seen` how much the calls have read of what the
server wrote. -/
structure Conn where
  maxFrame : UInt32
  serve : Serve
  sent : Bytes
  seen : ℕ
  uses : List (ℕ × Request)
  holder : Holder
  deriving DecidableEq

def Conn.new (sessions : Bool) (maxFrame : UInt32) : Conn :=
  ⟨maxFrame, .start sessions, [], 0, [], .closed⟩

def Conn.view (x : Conn) : PeerView :=
  ⟨x.serve.out.drop x.seen, x.serve.pc = .ended || x.serve.lost⟩

def Serve.deliver (s : Serve) (bs : Bytes) : Serve :=
  if s.hangup || s.lost then s else { s with inn := s.inn ++ bs }

def Conn.close (x : Conn) : Conn :=
  { x with serve := { x.serve with hangup := true }, holder := .closed }

def Conn.after (x : Conn) (m : ClientMove) : ClientAct → Conn
  | .finish true => { x with holder := .pool }
  | .finish false => x.close
  | _ => { x with
      serve := x.serve.deliver m.sent, sent := x.sent ++ m.sent, seen := x.seen + m.read }

structure CallSlot where
  call : ClientCall
  conn : Option ℕ
  deriving DecidableEq

structure System where
  conns : List Conn
  calls : List CallSlot
  deriving DecidableEq

def System.start : System := ⟨[], []⟩

/-- A call begins, gets a connection or makes another step; a server makes a step or the connection
is lost; the pool closes a connection. -/
inductive SystemAct where
  | call (q : Req)
  | take (k c : ℕ)
  | dial (k : ℕ) (sessions : Bool) (maxFrame : UInt32)
  | connect (k : ℕ) (sessions : Bool) (maxFrame : UInt32)
  | move (k : ℕ) (act : ClientAct)
  | serve (c : ℕ) (act : ServeAct)
  | evict (c : ℕ)
  deriving DecidableEq

def Conn.attach (x : Conn) (k : ℕ) (y : CallSlot) (o : Origin) : Conn :=
  { x with uses := x.uses ++ [(k, y.call.req.request o)], holder := .call k }

def System.opens (s : System) (k : ℕ) (y : CallSlot) (x : Conn) (o : Origin)
    (m : ClientMove) : System :=
  ⟨s.conns ++ [x.attach k y o], s.calls.set k ⟨m.next, some s.conns.length⟩⟩

def System.move (s : System) (k : ℕ) (y : CallSlot) (act : ClientAct) : Option System :=
  match y.conn with
  | none => (y.call.next ⟨[], false⟩ act).map fun m =>
    { s with calls := s.calls.set k ⟨m.next, none⟩ }
  | some c => s.conns[c]?.bind fun x => (y.call.next x.view act).map fun m =>
    ⟨s.conns.set c (x.after m act), s.calls.set k ⟨m.next,
      match act with
      | .finish _ => none
      | _ => some c⟩⟩

def ServeAct.ofServer : ServeAct → Bool
  | .send _ | .hangup => false
  | _ => true

def systemStep (s : System) : SystemAct → Option System
  | .call q => some { s with calls := s.calls ++ [⟨.new q, none⟩] }
  | .take k c => s.calls[k]?.bind fun y => s.conns[c]?.bind fun x =>
    if x.holder = .pool then
      (y.call.next ⟨[], false⟩ (.take true)).map fun m =>
        ⟨s.conns.set c (x.attach k y .pooled), s.calls.set k ⟨m.next, some c⟩⟩
    else none
  | .dial k sessions maxFrame => s.calls[k]?.bind fun y =>
    (y.call.next ⟨[], false⟩ (.dial none)).map
      (s.opens k y (.new sessions maxFrame) .fresh)
  | .connect k sessions maxFrame => s.calls[k]?.bind fun y =>
    (y.call.next ⟨[], false⟩ (.connect none)).map
      (s.opens k y (.new sessions maxFrame) .plain)
  | .move k act => s.calls[k]?.bind fun y => if act.connects then none else s.move k y act
  | .serve c act => s.conns[c]?.bind fun x =>
    if act.ofServer then
      (serveStep (frameLimit x.maxFrame) x.serve act).map fun t =>
        { s with conns := s.conns.set c { x with serve := t } }
    else none
  | .evict c => s.conns[c]?.bind fun x =>
    if x.holder = .pool then some { s with conns := s.conns.set c x.close } else none

def System.owner (s : System) (c i : ℕ) : Option ℕ :=
  s.conns[c]?.bind fun x => x.uses[i]?.map Prod.fst

def System.dispatchedOn (s : System) (c : ℕ) : List ((ℕ × ℕ) × Bytes) :=
  match s.conns[c]? with
  | some x => x.serve.dispatched.map fun p => ((c, p.1), p.2)
  | none => []

def System.dispatched (s : System) : List ((ℕ × ℕ) × Bytes) :=
  (List.range s.conns.length).flatMap s.dispatchedOn

def System.dispatches (s : System) (k : ℕ) : List ((ℕ × ℕ) × Bytes) :=
  s.dispatched.filter fun d => s.owner d.1.1 d.1.2 = some k

end Listen
