import AbstractionIdentity.Listen.PoolOwnership
import AbstractionIdentity.Listen.Response

/-!
# The session clients of Go and C++

A call through the pool by the Go `FrameClient` and by `oa_ipc_session_call`, against a server that
answers each connection with a byte string (`script`). `ScriptWorld` is what the calls of one pool
key see and leave. The two do the same, except when the clock shows the very time until which an
endpoint is remembered (`single_memory_boundary`).
-/

namespace Listen

open Text Stream

/-- A connection: what the server still has to say, what was sent, whether it was
closed, and whether it is found intact when it is idle. -/
structure ScriptConn where
  inn : Bytes
  sent : Bytes
  closed : Bool
  intact : Bool
  deriving DecidableEq

structure ScriptWorld where
  opened : ℕ
  conns : ℕ → ScriptConn
  idle : List Pooled
  single : Option ℤ

structure CallClock where
  start : ℤ
  take : ℕ → ℤ
  mark : ℤ
  put : ℤ
  start_le_mark : start ≤ mark

def singleMemory : ℤ := 30 * 10 ^ 9

namespace ScriptWorld

def set (w : ScriptWorld) (c : ℕ) (x : ScriptConn) : ScriptWorld :=
  { w with conns := fun i => if i = c then x else w.conns i }

def dial (script : ℕ → Bytes) (w : ScriptWorld) : ScriptWorld :=
  { w.set w.opened ⟨script w.opened, [], false, true⟩ with opened := w.opened + 1 }

def write (w : ScriptWorld) (c : ℕ) (bs : Bytes) : ScriptWorld :=
  w.set c { w.conns c with sent := (w.conns c).sent ++ bs }

def consume (w : ScriptWorld) (c : ℕ) (rest : Bytes) : ScriptWorld :=
  w.set c { w.conns c with inn := rest }

def close (w : ScriptWorld) (cs : List ℕ) : ScriptWorld :=
  { w with conns := fun i =>
      if i ∈ cs then { w.conns i with inn := [], closed := true } else w.conns i }

def markSingle (w : ScriptWorld) (now : ℤ) : ScriptWorld :=
  { w with single := some (now + singleMemory) }

/-- The loop of `take` over the idle connections, the last one first: the connection,
those that are left, and those that were closed. -/
def takeLoop (fit : Pooled → Bool) : List Pooled → Option ℕ × List Pooled × List ℕ
  | [] => (none, [], [])
  | e :: rest =>
    if fit e then (some e.conn, rest, [])
    else
      let (conn, left, closed) := takeLoop fit rest
      (conn, left, e.conn :: closed)

def take (w : ScriptWorld) (now : ℤ) : Option ℕ × ScriptWorld :=
  let fit e := now - e.since < poolIdle && (w.conns e.conn).intact
  let (conn, left, closed) := takeLoop fit w.idle.reverse
  (conn, { w.close closed with idle := left.reverse })

def put (lang : Lang) (w : ScriptWorld) (c : ℕ) (now : ℤ) : ScriptWorld :=
  { w.close (putCloses lang w.idle c now) with idle := (putIdle w.idle c now).1 }

end ScriptWorld

def readConn {ε : Type} (chunk : ℕ → Bytes → ℕ) (fail : Bytes → ε) (n : ℕ) (w : ScriptWorld)
    (c : ℕ) : Except ε Bytes × ScriptWorld :=
  match readExact chunk fail n (w.conns c).inn with
  | .error e => (.error e, w.consume c [])
  | .ok (bs, rest) => (.ok bs, w.consume c rest)

inductive Attempt (ε : Type) where
  | again (w : ScriptWorld)
  | done (r : Except ε Bytes) (w : ScriptWorld)

def Attempt.world {ε : Type} : Attempt ε → ScriptWorld
  | .again w | .done _ w => w

def attempts {ε : Type} (attempt : ℕ → ScriptWorld → Attempt ε) (spent : ε) :
    ℕ → ScriptWorld → Except ε Bytes × ScriptWorld
  | 0, w => (.error spent, w)
  | n + 1, w =>
    match attempt n w with
    | .again w => attempts attempt spent n w
    | .done r w => (r, w)

structure SessionScript where
  frame : Bytes
  oneWay : Bool
  limit : ℕ
  script : ℕ → Bytes
  clock : CallClock

namespace SessionScript

variable (s : SessionScript) (chunk : ℕ → Bytes → ℕ)

def flags : UInt32 := mkHeader true s.oneWay s.frame.length

section Go

def goResponse (inn : Bytes) : Except ClientErr Bytes :=
  if s.oneWay then waitFrameEOF chunk inn else readFrame chunk s.limit inn

def goSingle (w : ScriptWorld) : Except ClientErr Bytes × ScriptWorld :=
  let c := w.opened
  let w := (w.dial s.script).write c (word (mkHeader false false s.frame.length) ++ s.frame)
  (s.goResponse chunk (w.conns c).inn, w.close [c])

def goFinish (w : ScriptWorld) (c : ℕ) (keep : Bool) : ScriptWorld :=
  if keep then w.put .go c s.clock.put else w.close [c]

def goAnswer (w : ScriptWorld) (c : ℕ) : Attempt ClientErr :=
  match readConn chunk endError 4 w c with
  | (.error e, w) => .done (.error e) (s.goFinish w c false)
  | (.ok h, w) =>
    let header := unword h
    if header = sessionClosing then .again (s.goFinish w c false)
    else if header = proofRefusalHeader then
      .done (.error (readProofRefusal chunk (w.conns c).inn)) (s.goFinish w c false)
    else if isOneWay header then .done (.error .protocol) (s.goFinish w c false)
    else if s.oneWay then
      if lengthOf header ≠ 0 then .done (.error .unexpectedResponse) (s.goFinish w c false)
      else .done (.ok []) (s.goFinish w c (isSession header))
    -- readFrameBody
    else if s.limit < lengthOf header then
      .done (.error .frameTooLarge) (s.goFinish w c false)
    else match readConn chunk endError (lengthOf header) w c with
      | (.error e, w) => .done (.error e) (s.goFinish w c false)
      | (.ok reply, w) => .done (.ok reply) (s.goFinish w c (isSession header))

def goAttempt (left : ℕ) (w : ScriptWorld) : Attempt ClientErr :=
  match w.take (s.clock.take left) with
  | (some c, w) => s.goAnswer chunk (w.write c (word s.flags ++ s.frame)) c
  | (none, w) =>
    let c := w.opened
    match readConn chunk endError 4 ((w.dial s.script).write c (word s.flags)) c with
    | (.error e, w) =>
      .done (.error (if e = .eof then .noSession else e)) (s.goFinish w c false)
    | (.ok h, w) =>
      let ack := unword h
      if ack = proofRefusalHeader then
        .done (.error (readProofRefusal chunk (w.conns c).inn)) (s.goFinish w c false)
      else if ack = sessionClosing then .again (s.goFinish w c false)
      else if ack = sessionDecline ∨ ack = sessionUnsupported then
        let w := if ack = sessionUnsupported then w.markSingle s.clock.mark else w
        let w := w.write c s.frame
        .done (s.goResponse chunk (w.conns c).inn) (s.goFinish w c false)
      else if ack ≠ sessionAccept then .done (.error .protocol) (s.goFinish w c false)
      else s.goAnswer chunk (w.write c s.frame) c

def isNoSession : Except ClientErr Bytes → Bool
  | .error e => e = .noSession
  | .ok _ => false

def goIsSingle (w : ScriptWorld) (now : ℤ) : Bool × ScriptWorld :=
  match w.single with
  | none => (false, w)
  | some til => if til < now then (false, { w with single := none }) else (true, w)

/-- `ExchangeFrameContext` and `WriteFrameContext` with `Sessions`, under the limit
`s.limit`. -/
def goSessions (w : ScriptWorld) : Except ClientErr Bytes × ScriptWorld :=
  match goIsSingle w s.clock.start with
  | (true, w) => s.goSingle chunk w
  | (false, w) =>
    let (r, w) := attempts (s.goAttempt chunk) .protocol sessionAttempts w
    if isNoSession r then s.goSingle chunk (w.markSingle s.clock.mark) else (r, w)

/-- The same for `s.limit` as the value of `MaxFrame`. -/
def goCall (w : ScriptWorld) : Except ClientErr Bytes × ScriptWorld :=
  let limit := frameLimit (.ofNat s.limit)
  if limit < s.frame.length then (.error .frameTooLarge, w)
  else { s with limit := limit }.goSessions chunk w

end Go

section Cpp

def cppReadProofRefusal (inn : Bytes) : IpcStatus :=
  match readExact chunk (fun _ => .disconnected) 2 inn with
  | .error status => status
  | .ok (tokens, _) =>
    let attr := tokens.getD 0 0
    let required := tokens.getD 1 0
    if 5 < attr ∨ 8 < required ∨ decide (attr = 0) ≠ decide (required = 0) then .ioError
    else .proofUnavailable

def finishSingle (inn : Bytes) : Except IpcStatus Bytes :=
  if s.oneWay then
    decodeEnd chunk (fun _ => .disconnected) (cppReadProofRefusal chunk) .ioError inn
  else decodeFrame chunk (fun _ => .disconnected) (some (cppReadProofRefusal chunk))
    (fun n => if s.limit < n ∨ lengthMask.toNat < n then some .invalidArgument else none) inn

def singleCall (w : ScriptWorld) : Except IpcStatus Bytes × ScriptWorld :=
  let c := w.opened
  let w := (w.dial s.script).write c (word (mkHeader false false s.frame.length) ++ s.frame)
  (s.finishSingle chunk (w.conns c).inn, w.close [c])

def cppLeave (w : ScriptWorld) (c : ℕ) (keep : Bool) : ScriptWorld :=
  if keep then w.put .cpp c s.clock.put else w.close [c]

def cppAnswer (w : ScriptWorld) (c : ℕ) : Attempt IpcStatus :=
  match readConn chunk (fun _ => .disconnected) 4 w c with
  | (.error status, w) => .done (.error status) (w.close [c])
  | (.ok h, w) =>
    let answer := unword h
    if answer = proofRefusalHeader then
      .done (.error (cppReadProofRefusal chunk (w.conns c).inn)) (w.close [c])
    else if answer = sessionClosing then .again (w.close [c])
    else if isOneWay answer then .done (.error .ioError) (w.close [c])
    else if s.oneWay then
      if lengthOf answer ≠ 0 then .done (.error .ioError) (w.close [c])
      else .done (.ok []) (s.cppLeave w c (isSession answer))
    else if s.limit < lengthOf answer then .done (.error .invalidArgument) (w.close [c])
    else match readConn chunk (fun _ => .disconnected) (lengthOf answer) w c with
      | (.error status, w) => .done (.error status) (w.close [c])
      | (.ok reply, w) => .done (.ok reply) (s.cppLeave w c (isSession answer))

def cppAttempt (left : ℕ) (w : ScriptWorld) : Attempt IpcStatus :=
  match w.take (s.clock.take left) with
  | (some c, w) => s.cppAnswer chunk (w.write c (word s.flags ++ s.frame)) c
  | (none, w) =>
    let c := w.opened
    let w := (w.dial s.script).write c (word s.flags)
    let got := (readFull chunk 4 (w.conns c).inn).1
    match readConn chunk (fun _ => .disconnected) 4 w c with
    | (.error status, w) =>
      if got = [] ∧ (status = .disconnected ∨ status = .ioError) then
        -- the connection of this attempt is closed on return
        let (r, w) := s.singleCall chunk (w.markSingle s.clock.mark)
        .done r (w.close [c])
      else .done (.error status) (w.close [c])
    | (.ok h, w) =>
      let answer := unword h
      if answer = proofRefusalHeader then
        .done (.error (cppReadProofRefusal chunk (w.conns c).inn)) (w.close [c])
      else if answer = sessionClosing then .again (w.close [c])
      else if answer = sessionDecline ∨ answer = sessionUnsupported then
        let w := if answer = sessionUnsupported then w.markSingle s.clock.mark else w
        let w := w.write c s.frame
        .done (s.finishSingle chunk (w.conns c).inn) (w.close [c])
      else if answer ≠ sessionAccept then .done (.error .ioError) (w.close [c])
      else s.cppAnswer chunk (w.write c s.frame) c

def cppIsSingle (w : ScriptWorld) (now : ℤ) : Bool × ScriptWorld :=
  match w.single with
  | none => (false, w)
  | some til => if now < til then (true, w) else (false, { w with single := none })

def cppCall (w : ScriptWorld) : Except IpcStatus Bytes × ScriptWorld :=
  if lengthMask.toNat < s.frame.length then (.error .invalidArgument, w)
  else match cppIsSingle w s.clock.start with
    | (true, w) => s.singleCall chunk w
    | (false, w) => attempts (s.cppAttempt chunk) .ioError sessionAttempts w

end Cpp

section Agreement

variable {s chunk} {chunk' : ℕ → Bytes → ℕ} {w : ScriptWorld} {c : ℕ}

theorem readConn_of_le {ε : Type} (fail : Bytes → ε) {n : ℕ}
    (h : n ≤ (w.conns c).inn.length) : readConn chunk fail n w c =
      (.ok ((w.conns c).inn.take n), w.consume c ((w.conns c).inn.drop n)) := by
  rw [readConn, readExact_of_le chunk _ h]

theorem readConn_of_lt {ε : Type} (fail : Bytes → ε) {n : ℕ}
    (h : (w.conns c).inn.length < n) : readConn chunk fail n w c =
      (.error (fail (w.conns c).inn), w.consume c []) := by
  rw [readConn, readExact_of_lt chunk _ h]

theorem close_congr {cs ds : List ℕ} (h : ∀ i, i ∈ cs ↔ i ∈ ds) : w.close cs = w.close ds := by
  simp only [ScriptWorld.close, h]

theorem put_go_eq_put_cpp (now : ℤ) : w.put .go c now = w.put .cpp c now := by
  rw [ScriptWorld.put, ScriptWorld.put, close_congr]
  intro i
  have hgo := putCloses_perm .go w.idle c now
  exact (hgo.trans (putCloses_perm .cpp w.idle c now).symm).mem_iff

theorem cppReadProofRefusal_eq (inn : Bytes) :
    cppReadProofRefusal chunk inn = (throwProofRefusal chunk inn).status := by
  rw [cppReadProofRefusal, throwProofRefusal]
  rcases Nat.lt_or_ge inn.length 2 with hlt | hle
  · rw [readExact_of_lt chunk _ hlt, readExact_of_lt chunk _ hlt]
    rfl
  · rw [readExact_of_le chunk _ hle, readExact_of_le chunk _ hle]
    simp only
    split_ifs <;> rfl

theorem cppReadProofRefusal_class (inn : Bytes) :
    (cppReadProofRefusal chunk inn).responseClass = tokensClass inn := by
  rw [cppReadProofRefusal_eq, throwProofRefusal_class]

theorem goResponse_class (inn : Bytes) : report ClientErr.responseClass (s.goResponse chunk inn) =
    if s.oneWay then oneWayClass true inn else exchangeClass true s.limit inn := by
  rw [goResponse]
  cases s.oneWay with
  | true => exact waitFrameEOF_class
  | false => exact readFrame_class s.limit

theorem endError_ne_noSession (got : Bytes) : endError got ≠ .noSession := by
  rw [endError]
  split_ifs <;> simp

theorem readProofRefusal_ne_noSession (inn : Bytes) : readProofRefusal chunk inn ≠ .noSession := by
  rw [readProofRefusal]
  cases hread : readExact chunk endError 2 inn with
  | error e =>
    have hne := readExact_ne chunk endError_ne_noSession 2 inn
    rw [hread] at hne
    simpa using hne
  | ok p => exact refusalOf_ne_noSession p.1

theorem goResponse_ne_noSession (inn : Bytes) : s.goResponse chunk inn ≠ .error .noSession := by
  rw [goResponse]
  split_ifs
  · exact decodeEnd_ne endError_ne_noSession readProofRefusal_ne_noSession (by simp)
  · apply decodeFrame_ne endError_ne_noSession
    · rintro read ⟨⟩
      exact readProofRefusal_ne_noSession
    · intro n
      split_ifs <;> simp

theorem finishSingle_class (hlimit : s.limit < 2 ^ 30) (inn : Bytes) :
    report IpcStatus.responseClass (s.finishSingle chunk inn) =
      if s.oneWay then oneWayClass true inn else exchangeClass true s.limit inn := by
  rw [finishSingle]
  cases s.oneWay with
  | true =>
    simp only [↓reduceIte]
    apply decodeEnd_class fun _ => rfl
    · exact cppReadProofRefusal_class
    · rfl
  | false =>
    simp only [Bool.false_eq_true, ↓reduceIte]
    apply decodeFrame_class fun _ => rfl
    · rintro read ⟨⟩
      exact cppReadProofRefusal_class
    · intro n
      have hmask : lengthMask.toNat = 2 ^ 30 - 1 := rfl
      have hlarge : (s.limit < n ∨ lengthMask.toNat < n) ↔ s.limit < n := by omega
      rw [if_congr hlarge rfl rfl]
      split_ifs <;> rfl

inductive Alike (s : SessionScript) (chunk : ℕ → Bytes → ℕ) :
    Attempt ClientErr → Attempt IpcStatus → Prop where
  | again (w : ScriptWorld) : Alike s chunk (.again w) (.again w)
  | done {r : Except ClientErr Bytes} {q : Except IpcStatus Bytes} (w : ScriptWorld)
      (hr : r ≠ .error .noSession)
      (hclass : report ClientErr.responseClass r = report IpcStatus.responseClass q) :
      Alike s chunk (.done r w) (.done q w)
  | noSession (w : ScriptWorld) : Alike s chunk (.done (.error .noSession) w)
      (.done (s.singleCall chunk (w.markSingle s.clock.mark)).1
        (s.singleCall chunk (w.markSingle s.clock.mark)).2)

theorem refusal_alike (w : ScriptWorld) (inn : Bytes) :
    Alike s chunk' (.done (.error (readProofRefusal chunk inn)) w)
      (.done (.error (cppReadProofRefusal chunk' inn)) w) := by
  apply Alike.done
  · simpa using readProofRefusal_ne_noSession inn
  · rw [report, report, readProofRefusal_class, cppReadProofRefusal_class]

theorem ended_alike (w : ScriptWorld) (inn : Bytes) :
    Alike s chunk (.done (.error (endError inn)) w) (.done (.error .disconnected) w) := by
  apply Alike.done
  · simpa using endError_ne_noSession inn
  · rw [report, report, endError_class]
    rfl

theorem goFinish_eq (keep : Bool) : s.goFinish w c keep = s.cppLeave w c keep := by
  rw [goFinish, cppLeave, put_go_eq_put_cpp]

theorem goFinish_false : s.goFinish w c false = w.close [c] := rfl

theorem answer_alike (w : ScriptWorld) (c : ℕ) :
    Alike s chunk' (s.goAnswer chunk w c) (s.cppAnswer chunk' w c) := by
  rw [goAnswer, cppAnswer]
  simp only [goFinish_eq]
  rcases Nat.lt_or_ge (w.conns c).inn.length 4 with hlt | hle
  · rw [readConn_of_lt _ hlt, readConn_of_lt _ hlt]
    exact ended_alike _ _
  · rw [readConn_of_le _ hle, readConn_of_le _ hle]
    simp only
    generalize unword ((w.conns c).inn.take 4) = header
    generalize w.consume c ((w.conns c).inn.drop 4) = w'
    by_cases hrefusal : header = proofRefusalHeader
    · have hclosing : header ≠ sessionClosing := by
        rw [hrefusal]
        decide
      rw [if_neg hclosing, if_pos hrefusal, if_pos hrefusal]
      exact refusal_alike _ _
    · rw [if_neg hrefusal, if_neg hrefusal]
      by_cases hclosing : header = sessionClosing
      · rw [if_pos hclosing, if_pos hclosing]
        exact .again _
      · rw [if_neg hclosing, if_neg hclosing]
        split_ifs with hflag hone hlen hlarge
        · exact .done _ (by simp) rfl
        · exact .done _ (by simp) rfl
        · exact .done _ (by simp) rfl
        · exact .done _ (by simp) rfl
        · rcases Nat.lt_or_ge (w'.conns c).inn.length (lengthOf header) with hlt | hge
          · rw [readConn_of_lt _ hlt, readConn_of_lt _ hlt]
            exact ended_alike _ _
          · rw [readConn_of_le _ hge, readConn_of_le _ hge]
            exact .done _ (by simp) rfl

theorem markSingle_close (now : ℤ) (cs : List ℕ) :
    (w.close cs).markSingle now = (w.markSingle now).close cs := rfl

theorem markSingle_opened (now : ℤ) : (w.markSingle now).opened = w.opened := rfl

theorem consume_opened (rest : Bytes) : (w.consume c rest).opened = w.opened := rfl

theorem singleCall_close (hc : c ≠ w.opened) : s.singleCall chunk (w.close [c]) =
    ((s.singleCall chunk w).1, (s.singleCall chunk w).2.close [c]) := by
  simp only [singleCall, ScriptWorld.dial, ScriptWorld.write, ScriptWorld.set, ScriptWorld.close,
    List.mem_singleton, ↓reduceIte, Prod.mk.injEq, true_and, ScriptWorld.mk.injEq, and_true]
  funext i
  by_cases hi : i = w.opened
  · simp [hi, Ne.symm hc]
  · simp [hi]

theorem attempt_alike (hlimit : s.limit < 2 ^ 30) (left : ℕ) (w : ScriptWorld) :
    Alike s chunk' (s.goAttempt chunk left w) (s.cppAttempt chunk' left w) := by
  rw [goAttempt, cppAttempt]
  generalize w.take (s.clock.take left) = taken
  obtain ⟨conn, w⟩ := taken
  cases conn with
  | some c => exact answer_alike _ c
  | none =>
    simp only [goFinish_false]
    have hopened : ((w.dial s.script).write w.opened (word s.flags)).opened = w.opened + 1 := rfl
    generalize (w.dial s.script).write w.opened (word s.flags) = w' at hopened ⊢
    generalize w.opened = c at hopened ⊢
    rcases Nat.lt_or_ge (w'.conns c).inn.length 4 with hlt | hle
    · rw [readConn_of_lt _ hlt, readConn_of_lt _ hlt, readFull_eq, List.take_of_length_le hlt.le]
      simp only
      by_cases hnil : (w'.conns c).inn = []
      · -- the server closed before it answered
        have hne : c ≠ ((w'.consume c []).markSingle s.clock.mark).opened := by
          rw [markSingle_opened, consume_opened, hopened]
          omega
        have halike : Alike s chunk' _ _ := .noSession ((w'.consume c []).close [c])
        rw [markSingle_close, singleCall_close hne] at halike
        simp only [hnil, true_and, true_or, ↓reduceIte]
        exact halike
      · have heof : endError (w'.conns c).inn ≠ .eof := by
          rw [endError, if_neg hnil]
          simp
        simp only [hnil, heof, false_and, ↓reduceIte]
        exact ended_alike _ _
    · rw [readConn_of_le _ hle, readConn_of_le _ hle]
      simp only
      generalize unword ((w'.conns c).inn.take 4) = ack
      generalize w'.consume c ((w'.conns c).inn.drop 4) = v
      split_ifs with hrefusal hclosing hdecline hmark haccept
      · exact refusal_alike _ _
      · exact .again _
      · exact .done _ (goResponse_ne_noSession _)
          ((goResponse_class _).trans (finishSingle_class hlimit _).symm)
      · exact .done _ (goResponse_ne_noSession _)
          ((goResponse_class _).trans (finishSingle_class hlimit _).symm)
      · exact .done _ (by simp) rfl
      · exact answer_alike _ _

theorem attempts_alike (chunk : ℕ → Bytes → ℕ) (hlimit : s.limit < 2 ^ 30) (n : ℕ)
    (w : ScriptWorld) :
    Alike s chunk' (.done (attempts (s.goAttempt chunk) .protocol n w).1
        (attempts (s.goAttempt chunk) .protocol n w).2)
      (.done (attempts (s.cppAttempt chunk') .ioError n w).1
        (attempts (s.cppAttempt chunk') .ioError n w).2) := by
  induction n generalizing w with
  | zero => exact .done w (by simp [attempts]) rfl
  | succ n ih =>
    rw [attempts, attempts]
    have h : Alike s chunk' (s.goAttempt chunk n w) (s.cppAttempt chunk' n w) :=
      attempt_alike hlimit n w
    generalize s.goAttempt chunk n w = a at h ⊢
    generalize s.cppAttempt chunk' n w = b at h ⊢
    cases h with
    | again w => exact ih w
    | done w hr hclass => exact .done w hr hclass
    | noSession w => exact .noSession w

theorem goSingle_alike (hlimit : s.limit < 2 ^ 30) (w : ScriptWorld) :
    report ClientErr.responseClass (s.goSingle chunk w).1 =
        report IpcStatus.responseClass (s.singleCall chunk' w).1 ∧
      (s.goSingle chunk w).2 = (s.singleCall chunk' w).2 :=
  ⟨(goResponse_class _).trans (finishSingle_class hlimit _).symm, rfl⟩

theorem eq_noSession_of_isNoSession {r : Except ClientErr Bytes} (h : isNoSession r = true) :
    r = .error .noSession := by
  cases r with
  | ok payload => cases h
  | error e => rw [of_decide_eq_true h]

theorem sessions_alike (chunk chunk' : ℕ → Bytes → ℕ) (hlimit : s.limit < 2 ^ 30)
    (hsingle : w.single ≠ some s.clock.start) (hframe : s.frame.length ≤ s.limit) :
    report ClientErr.responseClass (s.goSessions chunk w).1 =
        report IpcStatus.responseClass (s.cppCall chunk' w).1 ∧
      (s.goSessions chunk w).2 = (s.cppCall chunk' w).2 := by
  have hmask : ¬ lengthMask.toNat < s.frame.length := by
    have hval : lengthMask.toNat = 2 ^ 30 - 1 := rfl
    omega
  have hisSingle : goIsSingle w s.clock.start = cppIsSingle w s.clock.start := by
    rw [goIsSingle, cppIsSingle]
    cases h : w.single with
    | none => rfl
    | some til =>
      have hne : til ≠ s.clock.start := by
        rintro rfl
        exact hsingle h
      simp only
      split_ifs <;> first | rfl | omega
  rw [goSessions, cppCall, if_neg hmask, hisSingle]
  generalize cppIsSingle w s.clock.start = x
  obtain ⟨single, w⟩ := x
  cases single with
  | true => exact goSingle_alike hlimit w
  | false =>
    have h : Alike s chunk' _ _ := attempts_alike chunk hlimit sessionAttempts w
    simp only
    generalize attempts (s.goAttempt chunk) .protocol sessionAttempts w = x at h ⊢
    generalize attempts (s.cppAttempt chunk') .ioError sessionAttempts w = y at h ⊢
    obtain ⟨r, v⟩ := x
    obtain ⟨q, v'⟩ := y
    cases h with
    | done w hr hclass =>
      rw [if_neg fun h => hr (eq_noSession_of_isNoSession h)]
      exact ⟨hclass, rfl⟩
    | noSession w => exact goSingle_alike hlimit _

/-- The calls open the same connections, send the same bytes on each, leave the same pool
and the same memory, and end in the same class. -/
structure Agree (x : Except ClientErr Bytes × ScriptWorld)
    (y : Except IpcStatus Bytes × ScriptWorld) : Prop where
  opened : x.2.opened = y.2.opened
  sent : ∀ c, (x.2.conns c).sent = (y.2.conns c).sent
  idle : x.2.idle = y.2.idle
  single : x.2.single = y.2.single
  outcome : report ClientErr.responseClass x.1 = report IpcStatus.responseClass y.1

theorem readConn_single {ε : Type} {fail : Bytes → ε} {n : ℕ} {r : Except ε Bytes}
    {w' : ScriptWorld} (h : readConn chunk fail n w c = (r, w')) : w'.single = w.single := by
  rcases Nat.lt_or_ge (w.conns c).inn.length n with hlt | hle
  · rw [readConn_of_lt _ hlt, Prod.mk.injEq] at h
    rw [← h.2]
    rfl
  · rw [readConn_of_le _ hle, Prod.mk.injEq] at h
    rw [← h.2]
    rfl

theorem cppLeave_single (keep : Bool) : (s.cppLeave w c keep).single = w.single := by
  rw [cppLeave]
  split_ifs <;> rfl

theorem cppAnswer_single : (s.cppAnswer chunk w c).world.single = w.single := by
  rw [cppAnswer]
  cases hread : readConn chunk (fun _ => IpcStatus.disconnected) 4 w c with
  | mk r w' =>
    rw [← readConn_single hread]
    cases r with
    | error status => rfl
    | ok h =>
      simp only
      split_ifs
      · rfl
      · rfl
      · rfl
      · rfl
      · exact cppLeave_single _
      · rfl
      · cases hbody : readConn chunk (fun _ => IpcStatus.disconnected)
            (lengthOf (unword h)) w' c with
        | mk r w'' =>
          rw [← readConn_single hbody]
          cases r with
          | error status => rfl
          | ok reply => exact cppLeave_single _

theorem cppAttempt_single (left : ℕ) (w : ScriptWorld) :
    (s.cppAttempt chunk left w).world.single = w.single ∨
      (s.cppAttempt chunk left w).world.single = some (s.clock.mark + singleMemory) := by
  rw [cppAttempt]
  have htake : (w.take (s.clock.take left)).2.single = w.single := rfl
  rw [← htake]
  generalize w.take (s.clock.take left) = taken
  obtain ⟨conn, w⟩ := taken
  cases conn with
  | some c => exact .inl cppAnswer_single
  | none =>
    simp only
    cases hread : readConn chunk (fun _ => IpcStatus.disconnected) 4
        ((w.dial s.script).write w.opened (word s.flags)) w.opened with
    | mk r w' =>
      have hsingle : w'.single = w.single := (readConn_single hread).trans rfl
      cases r with
      | error status =>
        simp only
        split_ifs
        · exact .inr rfl
        · exact .inl hsingle
      | ok h =>
        simp only
        split_ifs
        · exact .inl hsingle
        · exact .inl hsingle
        · exact .inr rfl
        · exact .inl hsingle
        · exact .inl hsingle
        · exact .inl (cppAnswer_single.trans hsingle)

theorem cppAttempts_single (n : ℕ) (w : ScriptWorld) :
    (attempts (s.cppAttempt chunk) .ioError n w).2.single = w.single ∨
      (attempts (s.cppAttempt chunk) .ioError n w).2.single =
        some (s.clock.mark + singleMemory) := by
  induction n generalizing w with
  | zero => exact .inl rfl
  | succ n ih =>
    rw [attempts]
    have h : (s.cppAttempt chunk n w).world.single = w.single ∨
        (s.cppAttempt chunk n w).world.single = some (s.clock.mark + singleMemory) :=
      cppAttempt_single n w
    cases hattempt : s.cppAttempt chunk n w with
    | done r w' =>
      rw [hattempt] at h
      exact h
    | again w' =>
      rw [hattempt] at h
      have hw' := ih w'
      rcases h with h | h
      · rw [← h]
        exact hw'
      · rcases hw' with hw' | hw'
        · exact .inr (hw'.trans h)
        · exact .inr hw'

/-- The two clients agree except when the clock shows the very end of the memory. -/
theorem session_clients_agree_iff (s : SessionScript) (hpos : 0 < s.limit)
    (hlimit : s.limit ≤ 0x3FFFFFFF) (hframe : s.frame.length ≤ s.limit)
    (chunk chunk' : ℕ → Bytes → ℕ) (w : ScriptWorld) :
    Agree (s.goCall chunk w) (s.cppCall chunk' w) ↔ w.single ≠ some s.clock.start := by
  have hlt : s.limit < 2 ^ 30 := by omega
  have hgo : s.goCall chunk w = s.goSessions chunk w := by
    rw [goCall, frameLimit_ofNat hpos hlt, if_neg (Nat.not_lt.2 hframe)]
  rw [hgo]
  constructor
  · intro hagree hsingle
    have hgo' : (s.goSessions chunk w).2.single = some s.clock.start := by
      rw [goSessions, goIsSingle, hsingle]
      simp only [lt_irrefl, ↓reduceIte]
      exact hsingle
    have hmask : ¬ lengthMask.toNat < s.frame.length := by
      have hval : lengthMask.toNat = 2 ^ 30 - 1 := rfl
      omega
    have hcpp : (s.cppCall chunk' w).2.single = none ∨
        (s.cppCall chunk' w).2.single = some (s.clock.mark + singleMemory) := by
      rw [cppCall, if_neg hmask, cppIsSingle, hsingle]
      simp only [lt_irrefl, ↓reduceIte]
      exact cppAttempts_single sessionAttempts _
    rw [hagree.single] at hgo'
    rcases hcpp with hcpp | hcpp
    · rw [hcpp] at hgo'
      cases hgo'
    · rw [hcpp, Option.some.injEq, singleMemory] at hgo'
      have hmono := s.clock.start_le_mark
      omega
  · intro hsingle
    obtain ⟨houtcome, hworld⟩ := sessions_alike chunk chunk' hlt hsingle hframe
    exact ⟨by rw [hworld], fun c => by rw [hworld], by rw [hworld], by rw [hworld], houtcome⟩

def acceptingScript : SessionScript where
  frame := [7]
  oneWay := false
  limit := 10
  script := fun _ => word sessionAccept ++ word (mkHeader true false 1) ++ [9]
  clock := ⟨5, fun _ => 5, 5, 5, le_rfl⟩

def emptyWorld (single : Option ℤ) : ScriptWorld := ⟨0, fun _ => ⟨[], [], false, false⟩, [], single⟩

theorem session_clients_agree_sample :
    Agree (acceptingScript.goCall (fun _ _ => 1) (emptyWorld none))
      (acceptingScript.cppCall (fun _ _ => 4) (emptyWorld none)) :=
  (session_clients_agree_iff acceptingScript (by decide) (by decide) (by decide)
    (fun _ _ => 1) (fun _ _ => 4) (emptyWorld none)).2 (by decide)

theorem single_memory_boundary :
    let go := acceptingScript.goCall (fun _ _ => 1) (emptyWorld (some 5))
    let cpp := acceptingScript.cppCall (fun _ _ => 1) (emptyWorld (some 5))
    report ClientErr.responseClass go.1 = .oversize ∧
    report IpcStatus.responseClass cpp.1 = .success [9] ∧
    (go.2.conns 0).sent = [0, 0, 0, 1, 7] ∧ (cpp.2.conns 0).sent = [128, 0, 0, 1, 7] ∧
    go.2.idle = [] ∧ cpp.2.idle = [⟨0, 5⟩] ∧
    go.2.single = some 5 ∧ cpp.2.single = none :=
  ⟨rfl, rfl, rfl, rfl, rfl, rfl, rfl, rfl⟩

end Agreement

end SessionScript

end Listen
