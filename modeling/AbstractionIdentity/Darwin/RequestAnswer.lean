import AbstractionIdentity.Transition.Run
import AbstractionIdentity.Transition.Table
import Mathlib.Tactic.SplitIfs

/-!
# The answers to one XPC request

Replies, refusals and cancellations of a request race; two atomic flags, `closed` and `replied`,
are meant to let one of them answer. Behind the queue that works (`Once`). Before it, `identify`
retains the message before its last check, and the handler frees a request that fails: freeing
answers "closed", and for the refusal that should follow no second reply can be made.
-/

namespace Darwin

open Transition

inductive ReplyStatus where
  | ok
  | refused
  | unmetProof
  | busy
  | closed
  deriving DecidableEq

/-- `identify` fails before it has retained the message, fails its last check, or succeeds. -/
inductive Identified where
  | failed
  | pathDiffers
  | ok
  deriving DecidableEq

/-- A dictionary event at a session peer, with what the handler finds. `expectsReply` is whether
`xpc_dictionary_create_reply` makes a reply of the message. -/
structure PeerEvent where
  same : Bool
  sessionClosed : Bool
  wellFormed : Bool
  requestAllocated : Bool
  identified : Identified
  cdhashSame : Bool
  bytesAllocated : Bool
  oneWay : Bool
  enqueued : Bool
  expectsReply : Bool
  deriving DecidableEq

structure XpcRequest where
  retained : Bool
  replied : Bool
  closed : Bool
  oneWay : Bool
  deriving DecidableEq

abbrev Replies := List ReplyStatus

/-- A reply is made of a message once: the second `xpc_dictionary_create_reply` returns `NULL`, and
nothing is sent. -/
def PeerEvent.answer (e : PeerEvent) (status : ReplyStatus) (replies : Replies) : Replies :=
  if e.expectsReply && replies.isEmpty then replies ++ [status] else replies

def XpcRequest.cancelStatus (r : XpcRequest) : ReplyStatus := if r.oneWay then .ok else .closed

def PeerEvent.cancel (e : PeerEvent) (r : XpcRequest) (replies : Replies) : Replies :=
  if r.closed then replies
  else if r.replied then replies
  else if r.retained then e.answer r.cancelStatus replies
  else replies

structure Handled where
  replies : Replies
  queued : Option XpcRequest
  deriving DecidableEq

def PeerEvent.handle (e : PeerEvent) : Handled :=
  if !e.same || e.sessionClosed then ⟨e.answer .refused [], none⟩
  else if !e.wellFormed then ⟨e.answer .refused [], none⟩
  else if !e.requestAllocated then ⟨e.answer .refused [], none⟩
  else
    let r : XpcRequest := ⟨e.identified ≠ .failed, false, false, false⟩
    if e.identified ≠ .ok || !e.cdhashSame then
      -- `oa_xpc_request_free` and then `send_refusal`
      ⟨e.answer .refused (e.cancel r []), none⟩
    else if !e.bytesAllocated then ⟨e.cancel r [], none⟩
    else
      let r := { r with oneWay := e.oneWay }
      if e.enqueued then ⟨[], some r⟩
      else ⟨e.cancel { r with replied := true } (e.answer .busy []), none⟩

/-! ### Behind the queue -/

/-- The operations on a queued request. A disconnect of the peer and a close of the
listener cancel it; freeing it cancels it first. -/
inductive RequestOp where
  | reply
  | refuse
  | cancel
  | free
  deriving DecidableEq

/-- Where an operation stands: before it reads or sets `closed`, before it sets
`replied`, with `replied` set by it, finished. -/
inductive OpPc where
  | start
  | passed
  | won
  | done
  deriving DecidableEq

structure Operation where
  op : RequestOp
  pc : OpPc
  deriving DecidableEq

structure Answering where
  event : PeerEvent
  replies : Replies
  request : Option XpcRequest
  operations : List Operation
  freed : Bool
  deriving DecidableEq

def PeerEvent.start (e : PeerEvent) : Answering := ⟨e, e.handle.replies, e.handle.queued, [], false⟩

inductive AnswerAct where
  | begin (op : RequestOp)
  | move (i : ℕ)
  deriving DecidableEq

def RequestOp.status (r : XpcRequest) : RequestOp → ReplyStatus
  | .reply => .ok
  | .refuse => .unmetProof
  | .cancel | .free => r.cancelStatus

def RequestOp.pass (r : XpcRequest) : RequestOp → XpcRequest × OpPc
  | .reply | .refuse => (r, if r.closed then .done else .passed)
  | .cancel | .free => ({ r with closed := true }, if r.closed then .done else .passed)

def answerStep (s : Answering) : AnswerAct → Option Answering
  | .begin op =>
    if s.request.isSome = true ∧ s.freed = false then
      some { s with
        operations := s.operations ++ [⟨op, .start⟩], freed := op = .free }
    else none
  | .move i =>
    match s.request, s.operations[i]? with
    | some r, some o =>
      match o.pc with
      | .start =>
        some { s with
          request := some (o.op.pass r).1,
          operations := s.operations.set i { o with pc := (o.op.pass r).2 } }
      | .passed =>
        some { s with
          request := some { r with replied := true },
          operations := s.operations.set i { o with
            pc := if r.replied then .done else .won } }
      | .won =>
        some { s with
          replies := s.event.answer (o.op.status r) s.replies,
          operations := s.operations.set i { o with pc := .done } }
      | .done => none
    | _, _ => none

/-- An operation answers only after it has set `replied`, and one operation does. -/
def Once (s : Answering) : Prop :=
  ∀ r, s.request = some r →
    (s.replies.length : ℤ) + s.operations.countP (·.pc = .won) ≤
      if r.replied then 1 else 0

def PeerEvent.failsIdentity (e : PeerEvent) : Bool := e.identified ≠ .ok || !e.cdhashSame

def PeerEvent.failsRetained (e : PeerEvent) : Bool :=
  e.same && !e.sessionClosed && e.wellFormed && e.requestAllocated &&
    e.identified ≠ .failed && e.failsIdentity && e.expectsReply

def PeerEvent.AnsweredOnce (e : PeerEvent) : Prop :=
  ∀ as s, run answerStep e.start as = some s →
    s.replies.length ≤ 1 ∧
      (e.failsIdentity = true →
        s.replies = e.answer .refused [] ∧ e.handle.queued = none)

open PeerEvent

theorem length_answer_le (e : PeerEvent) (status : ReplyStatus) (replies : Replies) :
    (e.answer status replies).length ≤ replies.length + 1 := by
  unfold answer
  split_ifs <;> simp

theorem length_cancel_le (e : PeerEvent) (r : XpcRequest) : (e.cancel r []).length ≤ 1 := by
  unfold cancel
  split_ifs
  · simp
  · simp
  · exact length_answer_le e _ []
  · simp

theorem Once.step {s t : Answering} {a : AnswerAct} (h : Once s)
    (hstep : answerStep s a = some t) : Once t := by
  cases a with
  | begin op =>
    simp only [answerStep] at hstep
    split_ifs at hstep
    cases hstep
    intro r hr
    have hold := h r hr
    rw [List.countP_append, List.countP_singleton]
    simpa using hold
  | move i =>
    simp only [answerStep] at hstep
    split at hstep
    · next r o hr hi =>
        have hold := h r hr
        split at hstep
        · next hpc =>
            cases hstep
            intro r' hr'
            cases hr'
            rw [countP_set_of_lookup hi]
            have hreplied : (o.op.pass r).1.replied = r.replied := by
              cases o.op <;> rfl
            have hnot : (o.op.pass r).2 ≠ .won := by
              cases o.op <;> simp only [RequestOp.pass] <;> split_ifs <;> decide
            rw [hreplied]
            simpa [hpc, hnot] using hold
        · next hpc =>
            cases hstep
            intro r' hr'
            cases hr'
            rw [countP_set_of_lookup hi]
            -- the flag pays for the operation that has just set it
            cases hreplied : r.replied with
            | true => simpa [hpc, hreplied] using hold
            | false =>
              simp only [hreplied, Bool.false_eq_true, if_false] at hold
              simp only [hpc, Bool.false_eq_true, if_false, if_true, decide_true,
                reduceCtorEq, decide_false]
              omega
        · next hpc =>
            cases hstep
            intro r' hr'
            have hsame : r' = r := Option.some.inj (hr'.symm.trans hr)
            subst hsame
            rw [countP_set_of_lookup hi]
            have hle := length_answer_le s.event (o.op.status r') s.replies
            simp only [hpc, decide_true, if_true, reduceCtorEq, decide_false,
              Bool.false_eq_true, if_false]
            omega
        · cases hstep
    · cases hstep

theorem handle_of_queued {e : PeerEvent} {r : XpcRequest} (h : e.handle.queued = some r) :
    e.handle.replies = [] ∧ r.replied = false ∧ e.failsIdentity = false := by
  unfold handle at h ⊢
  split_ifs at h ⊢ with hsame hform halloc hidentity hbytes henqueued
  cases h
  exact ⟨rfl, rfl, by simpa [failsIdentity] using hidentity⟩

theorem handle_of_not_queued {e : PeerEvent} (h : e.handle.queued = none)
    (hretained : e.failsRetained = false) :
    e.handle.replies.length ≤ 1 ∧
      (e.failsIdentity = true → e.handle.replies = e.answer .refused []) := by
  have hone : ∀ status, (e.answer status []).length ≤ 1 := fun status =>
    length_answer_le e status []
  unfold handle at h ⊢
  split_ifs at h ⊢ with hsame hform halloc hidentity hbytes henqueued
  · exact ⟨hone _, fun _ => rfl⟩
  · exact ⟨hone _, fun _ => rfl⟩
  · exact ⟨hone _, fun _ => rfl⟩
  · -- the request is freed: what it had retained decides whether that answers
    have hcancel : e.answer .refused
        (e.cancel ⟨e.identified ≠ .failed, false, false, false⟩ []) = e.answer .refused [] := by
      by_cases hreply : e.expectsReply = true
      · have hfailed : e.identified = .failed := by
          simp only [Bool.or_eq_true, Bool.not_eq_true', not_or, Bool.not_eq_true] at hsame
          simp only [Bool.not_eq_true', Bool.not_eq_false] at hform halloc
          by_contra hne
          have hno : e.failsIdentity = false := by
            simpa [failsRetained, hsame, hform, halloc, hne, hreply] using hretained
          rw [failsIdentity] at hno
          rw [hno] at hidentity
          cases hidentity
        simp [cancel, hfailed]
      · simp [answer, cancel, hreply]
    dsimp only
    rw [hcancel]
    exact ⟨hone _, fun _ => rfl⟩
  · dsimp only
    exact ⟨length_cancel_le e _, fun hno => absurd hno hidentity⟩
  · refine ⟨?_, fun hno => absurd hno hidentity⟩
    simpa [cancel] using hone .busy

theorem run_of_not_queued {s t : Answering} (h : s.request = none) {as : List AnswerAct}
    (hrun : run answerStep s as = some t) : t = s := by
  cases as with
  | nil =>
    cases hrun
    rfl
  | cons a as =>
    obtain ⟨u, hstep, -⟩ := (run_cons_eq_some_iff _ _ _ _ _).1 hrun
    cases a with
    | begin op => simp [answerStep, h] at hstep
    | move i => simp [answerStep, h] at hstep

theorem isSome_of_step {s t : Answering} {a : AnswerAct} (h : s.request.isSome = true)
    (hstep : answerStep s a = some t) : t.request.isSome = true := by
  cases a with
  | begin op =>
    simp only [answerStep] at hstep
    split_ifs at hstep
    cases hstep
    exact h
  | move i =>
    simp only [answerStep] at hstep
    split at hstep
    · split at hstep <;> cases hstep <;> first | rfl | exact h
    · cases hstep

/-- An event gets one answer of the right kind in every run, except when the check of its sender
fails with the message already retained. -/
theorem answeredOnce_iff (e : PeerEvent) : e.AnsweredOnce ↔ e.failsRetained = false := by
  constructor
  · intro h
    by_contra hne
    have hretained : e.failsRetained = true := by simpa using hne
    have hrefused := (h [] e.start rfl).2
    simp only [failsRetained, Bool.and_eq_true, Bool.not_eq_true', decide_eq_true_eq] at hretained
    obtain ⟨⟨⟨⟨⟨⟨hsame, hclosed⟩, hform⟩, halloc⟩, hne'⟩, hfails⟩, hreply⟩ := hretained
    have hstart := (hrefused hfails).1
    rw [failsIdentity] at hfails
    have hhandle : e.handle.replies = [.closed] := by
      simp only [handle, hsame, hclosed, hform, halloc, hfails, Bool.not_true,
        Bool.or_self, Bool.false_eq_true, if_false, if_true]
      simp [cancel, answer, hne', hreply, XpcRequest.cancelStatus]
    simp [start, hhandle, answer, hreply] at hstart
  · intro hretained as s hrun
    cases hq : e.handle.queued with
    | none =>
      rw [run_of_not_queued hq hrun]
      obtain ⟨hone, hrefused⟩ := handle_of_not_queued hq hretained
      exact ⟨hone, fun hfails => ⟨hrefused hfails, rfl⟩⟩
    | some r =>
      obtain ⟨hreplies, hreplied, hidentity⟩ := handle_of_queued hq
      have hstart : Once e.start := by
        intro r' hr'
        obtain rfl : r = r' := Option.some.inj (hq.symm.trans hr')
        simp [start, hreplies, hreplied]
      have honce : Once s :=
        run_invariant_of_forall (fun _ _ _ hs hstep => hs.step hstep) hstart hrun
      have hsome : s.request.isSome = true :=
        run_invariant_of_forall (I := fun s : Answering => s.request.isSome = true)
          (fun _ _ _ hs hstep => isSome_of_step hs hstep)
          (by rw [start, hq]; rfl) hrun
      obtain ⟨r', hr'⟩ := Option.isSome_iff_exists.1 hsome
      have hbound := honce r' hr'
      refine ⟨?_, fun hfails => ?_⟩
      · split_ifs at hbound <;> omega
      · rw [hidentity] at hfails
        cases hfails

def otherCdhash : PeerEvent := ⟨true, false, true, true, .ok, false, true, false, true, true⟩

/-- It is answered "closed" and not "refused". -/
theorem not_answeredOnce_otherCdhash :
    otherCdhash.handle.replies = [.closed] ∧ ¬ otherCdhash.AnsweredOnce := by
  refine ⟨by decide, fun h => ?_⟩
  have hrefused := ((h [] otherCdhash.start rfl).2 (by decide)).1
  exact absurd hrefused (by decide)

end Darwin
