import AbstractionIdentity.Listen.Response

/-!
# The sent count of a C++ session call

`oa_ipc_session_call` reports in `*sent` how much of the frame was written to a connection that may
have read it. `CallIo` is what every native call returns; the call leaves the count and one
`ConnUse` for each connection. A server reads what the transport accepted, dispatches a whole
request, and announces that it is closing when it has read none (`Follows`).
-/

namespace Listen

/-- How the request travels: at once in an idle session, the frame after the answer in a new one, at
once without a session. -/
inductive UseKind where
  | pooled
  | fresh
  | single
  deriving DecidableEq

/-- The bytes of header and frame that the transport accepted, and whether the server announced that
it is closing. -/
structure ConnUse where
  kind : UseKind
  header : ℕ
  body : ℕ
  closing : Bool
  deriving DecidableEq

def UseKind.requestLength (n : ℕ) : UseKind → ℕ
  | .fresh => n
  | .pooled | .single => 4 + n

def ConnUse.accepted (u : ConnUse) : ℕ :=
  match u.kind with
  | .fresh => u.body
  | .pooled | .single => u.header + u.body

/-- The server side of a connection: how much of the request it has read and whether
it has dispatched it. -/
structure Served where
  read : ℕ
  dispatched : Bool
  deriving DecidableEq

structure Follows (n : ℕ) (u : ConnUse) (v : Served) : Prop where
  accepted : v.read ≤ u.accepted
  complete : v.dispatched = true → v.read = u.kind.requestLength n
  closing : u.closing = true → v.read = 0

structure WriteIo where
  status : IpcStatus
  moved : ℕ
  deriving DecidableEq

def WriteIo.Exact (w : WriteIo) (length : ℕ) : Prop :=
  w.moved ≤ length ∧ (w.status = .ok → w.moved = length)

/-- What the system answers a `single_call`. -/
structure SingleIo where
  opens : IpcStatus
  noMemory : Bool
  write : WriteIo
  refused : Bool
  finish : IpcStatus

/-- What the system answers in one attempt. `opening` is the first word of a new session, `answer`
the word after the request; `noMemory` says where allocations fail. -/
structure AttemptIo where
  pooled : Bool
  opens : IpcStatus
  header : WriteIo
  opening : Except (IpcStatus × ℕ) UInt32
  write : WriteIo
  refused : Bool
  refusal : IpcStatus
  answer : Except IpcStatus UInt32
  body : IpcStatus
  noMemory : Bool
  replyNoMemory : Bool
  putNoMemory : Bool
  finish : IpcStatus

structure CallIo where
  invalid : Bool
  noMemory : Bool
  isSingle : Bool
  attempts : ℕ → AttemptIo
  single : SingleIo

def refusalAfterWriteError (status : IpcStatus) (refused : Bool) : IpcStatus :=
  if (status = .disconnected ∨ status = .ioError) ∧ refused = true then .proofUnavailable
  else status

structure CallTrace where
  sent : ℕ
  uses : List ConnUse
  deriving DecidableEq

def CallTrace.used (t : CallTrace) (u : ConnUse) (sent : ℕ) : CallTrace := ⟨sent, t.uses ++ [u]⟩

inductive AttemptEnd where
  | again (t : CallTrace)
  | done (status : IpcStatus) (t : CallTrace)

section Call

variable (n : ℕ) (oneWay : Bool) (maxReply : ℕ)

def singleCall (io : SingleIo) (t : CallTrace) : IpcStatus × CallTrace :=
  if io.opens ≠ .ok then (io.opens, t)
  else if io.noMemory then (.noMemory, t)
  else
    let moved := io.write.moved
    let t := t.used ⟨.single, min moved 4, moved - 4, false⟩ (if moved > 4 then moved - 4 else 0)
    if io.write.status ≠ .ok then
      (refusalAfterWriteError io.write.status io.refused, t)
    else (io.finish, t)

def afterRequest (io : AttemptIo) (t : CallTrace) (u : ConnUse) (sent : ℕ) : AttemptEnd :=
  match io.answer with
  | .error status => .done status (t.used u sent)
  | .ok answer =>
    if answer = proofRefusalHeader then .done io.refusal (t.used u sent)
    else if answer = sessionClosing then .again (t.used { u with closing := true } 0)
    else if isOneWay answer then .done .ioError (t.used u sent)
    else if oneWay then
      if lengthOf answer ≠ 0 then .done .ioError (t.used u sent)
      else if io.putNoMemory then .done .noMemory (t.used u sent)
      else .done .ok (t.used u sent)
    else if lengthOf answer > maxReply then .done .invalidArgument (t.used u sent)
    else if io.replyNoMemory then .done .noMemory (t.used u sent)
    else if lengthOf answer ≠ 0 ∧ io.body ≠ .ok then .done io.body (t.used u sent)
    else if io.putNoMemory then .done .noMemory (t.used u sent)
    else .done .ok (t.used u sent)

def pooledAttempt (io : AttemptIo) (t : CallTrace) : AttemptEnd :=
  if io.noMemory then .done .noMemory t
  else
    let moved := io.write.moved
    let u : ConnUse := ⟨.pooled, min moved 4, moved - 4, false⟩
    if io.write.status ≠ .ok then
      .done (refusalAfterWriteError io.write.status io.refused)
        (t.used u (if moved > 4 then min (moved - 4) n else 0))
    else afterRequest oneWay maxReply io t u n

def opened (io : AttemptIo) (t : CallTrace) (answer : UInt32) : AttemptEnd :=
  let moved := io.write.moved
  let u : ConnUse := ⟨.fresh, 4, 0, false⟩
  let v : ConnUse := ⟨.fresh, 4, moved, false⟩
  if answer = proofRefusalHeader then .done io.refusal (t.used u t.sent)
  else if answer = sessionClosing then .again (t.used { u with closing := true } t.sent)
  else if answer = sessionDecline ∨ answer = sessionUnsupported then
    if answer = sessionUnsupported ∧ io.noMemory = true then
      .done .noMemory (t.used u t.sent)
    else if io.write.status ≠ .ok then
      .done (refusalAfterWriteError io.write.status io.refused) (t.used v moved)
    else .done io.finish (t.used v moved)
  else if answer ≠ sessionAccept then .done .ioError (t.used u t.sent)
  else if io.write.status ≠ .ok then
    .done (refusalAfterWriteError io.write.status io.refused) (t.used v moved)
  else afterRequest oneWay maxReply io t v moved

def freshAttempt (io : AttemptIo) (single : SingleIo) (t : CallTrace) : AttemptEnd :=
  if io.opens ≠ .ok then .done io.opens t
  else
    let u : ConnUse := ⟨.fresh, io.header.moved, 0, false⟩
    if io.header.status ≠ .ok then
      .done (refusalAfterWriteError io.header.status io.refused) (t.used u t.sent)
    else match io.opening with
      | .error (status, got) =>
        if got = 0 ∧ (status = .disconnected ∨ status = .ioError) then
          if io.noMemory then .done .noMemory (t.used u t.sent)
          else
            let (status, t) := singleCall single (t.used u t.sent)
            .done status t
        else .done status (t.used u t.sent)
      | .ok answer => opened oneWay maxReply io t answer

def attempt (io : AttemptIo) (single : SingleIo) (t : CallTrace) : AttemptEnd :=
  if io.pooled then pooledAttempt n oneWay maxReply io t
  else freshAttempt oneWay maxReply io single t

def attemptLoop (io : CallIo) : ℕ → ℕ → CallTrace → IpcStatus × CallTrace
  | 0, _, t => (.ioError, t)
  | left + 1, k, t =>
    match attempt n oneWay maxReply (io.attempts k) io.single t with
    | .again t => attemptLoop io left (k + 1) t
    | .done status t => (status, t)

def sessionCall (io : CallIo) : IpcStatus × CallTrace :=
  if io.invalid = true ∨ lengthMask.toNat < n then (.invalidArgument, ⟨0, []⟩)
  else if io.noMemory then (.noMemory, ⟨0, []⟩)
  else if io.isSingle then singleCall io.single ⟨0, []⟩
  else attemptLoop n oneWay maxReply io sessionAttempts 0 ⟨0, []⟩

end Call

structure CallIo.Exact (io : CallIo) (n : ℕ) : Prop where
  single : io.single.write.Exact (4 + n)
  write : ∀ k, (io.attempts k).write.Exact (if (io.attempts k).pooled then 4 + n else n)

/-! ### What the server can have made of it -/

def ConnUse.Unserved (n : ℕ) (u : ConnUse) : Prop := ∀ v, Follows n u v → v.dispatched = false

variable {n : ℕ} {t : CallTrace} {u : ConnUse}

theorem unserved_of_incomplete (h : u.accepted < u.kind.requestLength n) : u.Unserved n := by
  intro v hv
  by_contra hno
  have hread := hv.complete (by simpa using hno)
  have hle := hv.accepted
  omega

theorem requestLength_pos (hn : 0 < n) (kind : UseKind) : 0 < kind.requestLength n := by
  cases kind <;> simp only [UseKind.requestLength] <;> omega

theorem unserved_of_closing (hn : 0 < n) (h : u.closing = true) : u.Unserved n := by
  intro v hv
  by_contra hno
  have hread := hv.complete (by simpa using hno)
  have hzero := hv.closing h
  have hpos := requestLength_pos hn u.kind
  omega

def CallTrace.Unserved (n : ℕ) (t : CallTrace) : Prop := ∀ u ∈ t.uses, u.Unserved n

theorem CallTrace.Unserved.used (h : t.Unserved n)
    (hu : u.Unserved n) (sent : ℕ) : (t.used u sent).Unserved n := by
  intro v hv
  rcases List.mem_append.1 hv with hv | hv
  · exact h v hv
  · rw [List.mem_singleton.1 hv]
    exact hu

/-- The count is truthful: within the frame, and below its length only when nobody was
served, unless the call succeeds. -/
def Truthful (n : ℕ) (r : IpcStatus × CallTrace) : Prop :=
  r.2.sent ≤ n ∧ (r.1 ≠ .ok → r.2.sent < n → r.2.Unserved n)

theorem truthful_of_unserved {status : IpcStatus} (hsent : t.sent ≤ n)
    (h : t.Unserved n) : Truthful n (status, t) :=
  ⟨hsent, fun _ _ => h⟩

theorem truthful_used {status : IpcStatus} {sent : ℕ} (h : t.Unserved n) (hsent : sent ≤ n)
    (hu : sent < n → u.accepted < u.kind.requestLength n) :
    Truthful n (status, t.used u sent) :=
  ⟨hsent, fun _ hlt => h.used (unserved_of_incomplete (hu hlt)) sent⟩

theorem truthful_singleCall {io : SingleIo} (hexact : io.write.Exact (4 + n)) (hsent : t.sent = 0)
    (h : t.Unserved n) :
    Truthful n (singleCall io t) := by
  have hmoved := hexact.1
  unfold singleCall
  split_ifs with hopens hmemory hwrite
  · exact truthful_of_unserved (by omega) h
  · exact truthful_of_unserved (by omega) h
  all_goals
    refine truthful_used h ?_ ?_
    · split_ifs <;> omega
    · simp only [ConnUse.accepted, UseKind.requestLength]
      split_ifs <;> omega

def AttemptEnd.Sound (n : ℕ) : AttemptEnd → Prop
  | .again t => t.sent = 0 ∧ t.Unserved n
  | .done status t => Truthful n (status, t)

section Sound

variable {n : ℕ} {oneWay : Bool} {maxReply : ℕ} {t : CallTrace}

theorem AttemptEnd.Sound.ite {c : Prop} [Decidable c] {x y : AttemptEnd} (hx : x.Sound n)
    (hy : y.Sound n) : (if c then x else y).Sound n := by
  split
  · exact hx
  · exact hy

theorem sound_afterRequest (hn : 0 < n) (io : AttemptIo) (h : t.Unserved n) (u : ConnUse) :
    (afterRequest oneWay maxReply io t u n).Sound n := by
  have hdone : ∀ status, AttemptEnd.Sound n (.done status (t.used u n)) := fun status =>
    truthful_used h le_rfl fun hlt => absurd hlt (lt_irrefl n)
  unfold afterRequest
  cases io.answer with
  | error status => exact hdone status
  | ok answer =>
    -- the closing announcement starts anew; all other ends report the whole frame
    refine .ite (hdone _) (.ite ⟨rfl, h.used (unserved_of_closing hn rfl) 0⟩ ?_)
    repeat' apply AttemptEnd.Sound.ite
    all_goals exact hdone _

variable {io : AttemptIo}

theorem sound_pooledAttempt (hn : 0 < n) (hexact : io.write.Exact (4 + n))
    (hsent : t.sent = 0) (h : t.Unserved n) : (pooledAttempt n oneWay maxReply io t).Sound n := by
  have hmoved := hexact.1
  unfold pooledAttempt
  split_ifs
  · exact truthful_of_unserved (by omega) h
  · refine truthful_used h ?_ ?_
    · split_ifs <;> omega
    · simp only [ConnUse.accepted, UseKind.requestLength]
      split_ifs <;> omega
  · exact sound_afterRequest hn io h _

theorem sound_opened (hn : 0 < n) (hexact : io.write.Exact n)
    (hsent : t.sent = 0) (h : t.Unserved n) (answer : UInt32) :
    (opened oneWay maxReply io t answer).Sound n := by
  have hmoved := hexact.1
  -- without the frame the request is not complete
  have hheader : ∀ status,
      AttemptEnd.Sound n (.done status (t.used ⟨.fresh, 4, 0, false⟩ t.sent)) := fun status =>
    truthful_used h (by omega) fun _ => hn
  have hframe : ∀ status,
      AttemptEnd.Sound n (.done status (t.used ⟨.fresh, 4, io.write.moved, false⟩
        io.write.moved)) := fun status => truthful_used h hmoved fun hlt => hlt
  unfold opened
  dsimp only
  split_ifs with _ _ _ _ _ _ hwrite
  · exact hheader _
  · exact ⟨hsent, h.used (unserved_of_closing hn rfl) _⟩
  · exact hheader _
  · exact hframe _
  · exact hframe _
  · exact hheader _
  · exact hframe _
  · have hall : io.write.moved = n := hexact.2 (by simpa using hwrite)
    rw [hall]
    exact sound_afterRequest hn io h _

theorem sound_freshAttempt (hn : 0 < n) {single : SingleIo}
    (hexact : io.write.Exact n) (hsingle : single.write.Exact (4 + n)) (hsent : t.sent = 0)
    (h : t.Unserved n) : (freshAttempt oneWay maxReply io single t).Sound n := by
  have hunserved : (⟨.fresh, io.header.moved, 0, false⟩ : ConnUse).Unserved n :=
    unserved_of_incomplete hn
  have hdone : ∀ status, AttemptEnd.Sound n
      (.done status (t.used ⟨.fresh, io.header.moved, 0, false⟩ t.sent)) := fun status =>
    truthful_of_unserved (by rw [CallTrace.used, hsent]; exact Nat.zero_le n)
      (h.used hunserved _)
  unfold freshAttempt
  by_cases hopens : io.opens ≠ .ok
  · rw [if_pos hopens]
    exact truthful_of_unserved (by omega) h
  rw [if_neg hopens]
  by_cases hwrite : io.header.status ≠ .ok
  · rw [if_pos hwrite]
    exact hdone _
  rw [if_neg hwrite]
  dsimp only
  split
  · split_ifs
    · exact hdone _
    · have hcall : (t.used ⟨.fresh, io.header.moved, 0, false⟩ t.sent).sent = 0 := hsent
      exact truthful_singleCall hsingle hcall (h.used hunserved _)
    · exact hdone _
  · exact sound_opened hn hexact hsent h _

theorem truthful_attemptLoop (hn : 0 < n) {io : CallIo} (hexact : io.Exact n) (left k : ℕ)
    (hsent : t.sent = 0) (h : t.Unserved n) :
    Truthful n (attemptLoop n oneWay maxReply io left k t) := by
  induction left generalizing k t with
  | zero => exact truthful_of_unserved (by omega) h
  | succ left ih =>
    have hattempt : (attempt n oneWay maxReply (io.attempts k) io.single t).Sound n := by
      have hwrite := hexact.write k
      unfold attempt
      split_ifs with hpooled
      · rw [if_pos hpooled] at hwrite
        exact sound_pooledAttempt hn hwrite hsent h
      · rw [if_neg hpooled] at hwrite
        exact sound_freshAttempt hn hwrite hexact.single hsent h
    rw [attemptLoop]
    cases hend : attempt n oneWay maxReply (io.attempts k) io.single t with
    | again t' =>
      rw [hend] at hattempt
      exact ih (k + 1) hattempt.1 hattempt.2
    | done status t' =>
      rw [hend] at hattempt
      exact hattempt

/-- Whatever the system and the servers do: the count is within the frame, and if the call fails
with less than the whole frame reported, no server that follows the rules has dispatched the
request. -/
theorem sessionCall_sent_sound (hn : 0 < n) (oneWay : Bool) (maxReply : ℕ) {io : CallIo}
    (hexact : io.Exact n) :
    (sessionCall n oneWay maxReply io).2.sent ≤ n ∧ ((sessionCall n oneWay maxReply io).1 ≠ .ok →
        (sessionCall n oneWay maxReply io).2.sent < n →
        ∀ u ∈ (sessionCall n oneWay maxReply io).2.uses, ∀ v, Follows n u v →
          v.dispatched = false) := by
  have hempty : (⟨0, []⟩ : CallTrace).Unserved n := fun u hu => by cases hu
  suffices h : Truthful n (sessionCall n oneWay maxReply io) from h
  unfold sessionCall
  split_ifs
  · exact truthful_of_unserved (Nat.zero_le n) hempty
  · exact truthful_of_unserved (Nat.zero_le n) hempty
  · exact truthful_singleCall hexact.single rfl hempty
  · exact truthful_attemptLoop hn hexact _ _ rfl hempty

end Sound

/-- An idle connection is closing; the next one is new, and the frame is cut after two bytes. -/
def closedThenCut : CallIo where
  invalid := false
  noMemory := false
  isSingle := false
  attempts := fun k =>
    if k = 0 then
      ⟨true, .ok, ⟨.ok, 4⟩, .ok 0, ⟨.ok, 9⟩, false, .ok, .ok sessionClosing, .ok, false, false,
        false, .ok⟩
    else
      ⟨false, .ok, ⟨.ok, 4⟩, .ok sessionAccept, ⟨.disconnected, 2⟩, false, .ok,
        .error .disconnected, .ok, false, false, false, .ok⟩
  single := ⟨.ok, false, ⟨.ok, 9⟩, false, .ok⟩

theorem sessionCall_sent_sound_closedThenCut : sessionCall 5 false 100 closedThenCut =
        (.disconnected, ⟨2, [⟨.pooled, 4, 5, true⟩, ⟨.fresh, 4, 2, false⟩]⟩) ∧
      ∀ u ∈ (sessionCall 5 false 100 closedThenCut).2.uses, ∀ v, Follows 5 u v →
        v.dispatched = false := by
  have hexact : closedThenCut.Exact 5 := by
    refine ⟨⟨by decide, fun _ => rfl⟩, fun k => ?_⟩
    by_cases hk : k = 0 <;> simp [closedThenCut, hk, WriteIo.Exact]
  have hcall : sessionCall 5 false 100 closedThenCut =
      (.disconnected, ⟨2, [⟨.pooled, 4, 5, true⟩, ⟨.fresh, 4, 2, false⟩]⟩) := by decide
  refine ⟨hcall, (sessionCall_sent_sound (by decide) false 100 hexact).2 ?_ ?_⟩
  · rw [hcall]
    decide
  · rw [hcall]
    decide

end Listen
