import AbstractionIdentity.Listen.Wire

/-!
# A client call

`ClientCall` is one call of `ExchangeFrameContext` or `WriteFrameContext` by a client that asks for
sessions, with the single exchange that follows when the endpoint serves none. A step is one
operation of the connection with its outcome, or one step without.

Reads and writes are surrounded by checks of the server. A check that fails after a read loses its
bytes: `readCheck n` reads `n` bytes and returns none. Outcomes that mean an ended context need
`live` to be false. Reads go on until they have what they `need` and count what they `got`.
-/

namespace Listen

open Text Stream

/-- The errors of a call, as far as it tells them apart: `closedPeer` is one by which the transport
says that the peer has closed. -/
inductive ClientErr where
  | untrusted
  | contextEnded
  | closed
  | timeout
  | eof
  | unexpectedEOF
  | closedPeer
  | other
  | noSession
  | protocol
  | frameTooLarge
  | unexpectedResponse
  | refused (attr required : UInt8)
  | refusalProtocol
  deriving DecidableEq

inductive ClosedErr where
  | closedPeer
  | closed
  deriving DecidableEq

def ClosedErr.toErr : ClosedErr → ClientErr
  | .closedPeer => .closedPeer
  | .closed => .closed

def writeSignalsClosedPeer : ClientErr → Option ClosedErr
  | .closedPeer => some .closedPeer
  | .closed => some .closed
  | _ => none

inductive Outcome where
  | reply (frame : Bytes)
  | error (err : ClientErr)
  deriving DecidableEq

structure Req where
  frame : Bytes
  oneWay : Bool
  maxFrame : UInt32
  fits : frame.length ≤ frameLimit maxFrame
  deriving DecidableEq

theorem Req.length_lt (q : Req) : q.frame.length < 2 ^ 30 :=
  q.fits.trans_lt (frameLimit_lt q.maxFrame)

def emptyReq : Req := ⟨[], false, 0, by decide⟩

def Req.flags (q : Req) : UInt32 := mkHeader true q.oneWay q.frame.length

/-- The writes of a call: an opening, the body after it, a request on a pooled connection, the body
after a declined opening, a request without a session. -/
inductive WriteKind where
  | opening
  | body
  | pooled
  | single
  | plain
  deriving DecidableEq

def Req.parts (q : Req) : WriteKind → List Bytes
  | .opening => [word q.flags]
  | .body | .single => if q.frame = [] then [] else [q.frame]
  | .pooled => headed q.flags q.frame
  | .plain => headed (mkHeader false false q.frame.length) q.frame

/-- The reads of a call, up to the end of the connection in `waitFrameEOF` and the look for a
refusal after a failed write. -/
inductive ReadKind where
  | ack
  | answer
  | reply (keep : Bool)
  | tokens
  | head
  | body
  | eof
  | eofRest
  | lookup (opening : Bool) (err : ClosedErr)
  | lookupTokens (err : ClosedErr)
  deriving DecidableEq

inductive Next where
  | retry
  | ret (o : Outcome)
  deriving DecidableEq

inductive ClientPc where
  | start
  | take
  | dial
  | use (fresh : Bool)
  | write (k : WriteKind) (todo : List Bytes)
  | read (k : ReadKind) (need : ℕ) (got : Bytes)
  | finish (keep : Bool) (next : Next)
  | mark
  | connect
  | ret (o : Outcome)
  | done (o : Outcome)
  deriving DecidableEq

def sessionAttempts : ℕ := 3

structure ClientCall where
  req : Req
  attempt : ℕ
  live : Bool
  pc : ClientPc
  deriving DecidableEq

def ClientCall.new (q : Req) : ClientCall := ⟨q, 0, true, .start⟩

def ClientPc.fail (e : ClientErr) : ClientPc := .finish false (.ret (.error e))

def Req.afterWrite (q : Req) : WriteKind → ClientPc
  | .opening => .read .ack 4 []
  | .body | .pooled => .read .answer 4 []
  | .single | .plain => if q.oneWay then .read .eof 1 [] else .read .head 4 []

def Req.startWrite (q : Req) (k : WriteKind) : ClientPc :=
  match q.parts k with
  | [] => q.afterWrite k
  | todo => .write k todo

/-- `refusalAfterWriteError`: a refusal may wait behind a write that failed because
the peer has closed. -/
def writeFailed (live : Bool) (k : WriteKind) (e : ClientErr) : ClientPc :=
  match writeSignalsClosedPeer e with
  | some err => if live then .read (.lookup (k = .opening) err) 4 [] else .fail e
  | none => .fail e

def refusalOf (tokens : Bytes) : ClientErr :=
  match tokens with
  | [attr, required] =>
    if 6 ≤ attr.toNat ∨ 8 < required.toNat ∨
        decide (attr = 0) ≠ decide (required = 0) then .refusalProtocol
    else .refused attr required
  | _ => .refusalProtocol

def readBody (k : ReadKind) (n : ℕ) (done : ClientPc) : ClientPc :=
  if n = 0 then done else .read k n []

def Req.received (q : Req) (k : ReadKind) (got : Bytes) : ClientPc :=
  let w := unword got
  match k with
  | .ack =>
    if w = proofRefusalHeader then .read .tokens 2 []
    else if w = sessionClosing then .finish false .retry
    else if w = sessionDecline ∨ w = sessionUnsupported then q.startWrite .single
    else if w ≠ sessionAccept then .fail .protocol
    else q.startWrite .body
  | .answer =>
    if w = sessionClosing then .finish false .retry
    else if w = proofRefusalHeader then .read .tokens 2 []
    else if isOneWay w then .fail .protocol
    else if q.oneWay then
      if lengthOf w ≠ 0 then .fail .unexpectedResponse
      else .finish (isSession w) (.ret (.reply []))
    else if frameLimit q.maxFrame < lengthOf w then .fail .frameTooLarge
    else readBody (.reply (isSession w)) (lengthOf w)
      (.finish (isSession w) (.ret (.reply [])))
  | .reply keep => .finish keep (.ret (.reply got))
  | .tokens => .fail (refusalOf got)
  | .head =>
    if w = proofRefusalHeader then .read .tokens 2 []
    else if frameLimit q.maxFrame < w.toNat then .fail .frameTooLarge
    else readBody .body w.toNat (.finish false (.ret (.reply [])))
  | .body => .finish false (.ret (.reply got))
  | .eof => if got = [255] then .read .eofRest 3 [] else .fail .unexpectedResponse
  | .eofRest =>
    if unword (255 :: got) = proofRefusalHeader then .read .tokens 2 []
    else .fail .unexpectedResponse
  | .lookup opening err =>
    if opening ∧ (w = sessionAccept ∨ w = sessionDecline ∨ w = sessionUnsupported) then
      .read (.lookup false err) 4 []
    else if w ≠ proofRefusalHeader then .fail err.toErr
    else .read (.lookupTokens err) 2 []
  | .lookupTokens err =>
    match refusalOf got with
    | .refused attr required => .fail (.refused attr required)
    | _ => .fail err.toErr

/-- A read fails with `got` counted so far. An opening that fails before the first
byte of its answer is taken for a server without sessions. -/
def readFailed (live : Bool) (k : ReadKind) (got : Bytes) (e : ClientErr) : ClientPc :=
  let e' := if e = .eof ∧ got ≠ [] then .unexpectedEOF else e
  match k with
  | .ack => if got = [] ∧ live ∧ e ≠ .timeout then .fail .noSession else .fail e'
  | .eof => if e = .eof then .finish false (.ret (.reply [])) else .fail e
  | .lookup _ err | .lookupTokens err => .fail err.toErr
  | _ => .fail e'

/-- `frameError`: the context's error comes before any other, and a timeout that
comes with the deadline is reported as the context's. -/
def frameError (live late : Bool) (o : Outcome) : Outcome :=
  if !live then .error .contextEnded
  else if o = .error .timeout ∧ late then .error .contextEnded
  else o

/-- What a call sees of its connection: the bytes that have arrived, and whether
the server has closed it. -/
structure PeerView where
  inn : Bytes
  ended : Bool

inductive ClientAct where
  | cancel
  | start (single : Bool)
  | take (pooled : Bool)
  | dial (err : Option ClientErr)
  | use (err : Option ClientErr)
  | write (fault : Option (ℕ × ClientErr))
  | writeCheck (e : ClientErr)
  | read (n : ℕ) (err : Option ClientErr)
  | readCheck (n : ℕ) (e : ClientErr)
  | finish (kept : Bool)
  | mark
  | connect (err : Option ClientErr)
  | ret (late : Bool)
  deriving DecidableEq

def ClientAct.connects : ClientAct → Bool
  | .take true | .dial none | .connect none => true
  | _ => false

def checkAllowed (live : Bool) (e : ClientErr) : Bool :=
  e = .untrusted || !live && (e = .contextEnded || e = .closed)

def dialAllowed (live : Bool) : ClientErr → Bool
  | .untrusted | .timeout | .other => true
  | .contextEnded | .closed => !live
  | _ => false

/-- The errors of the transport. End of stream and a reset are seen behind the last
byte only, and a connection is closed under a call only when its context ended. -/
def transportAllowed (live : Bool) (v : PeerView) (n : ℕ) : ClientErr → Bool
  | .eof => v.ended && n = v.inn.length
  | .closedPeer => v.ended && n = v.inn.length
  | .closed => !live
  | .timeout | .other => true
  | _ => false

def writeAllowed (live : Bool) : ClientErr → Bool
  | .closed => !live
  | .closedPeer | .timeout | .other => true
  | _ => false

structure ClientMove where
  next : ClientCall
  sent : Bytes
  read : ℕ
  marks : Bool

def ClientMove.silent (c : ClientCall) : ClientMove := ⟨c, [], 0, false⟩

def ClientCall.resume (c : ClientCall) : Next → ClientCall
  | .retry =>
    if c.attempt + 1 < sessionAttempts then { c with attempt := c.attempt + 1, pc := .take }
    else { c with pc := .ret (.error .protocol) }
  | .ret (.error .noSession) => { c with pc := .mark }
  | .ret o => { c with pc := .ret o }

def ClientCall.next (c : ClientCall) (v : PeerView) (act : ClientAct) : Option ClientMove :=
  match act, c.pc with
  | .cancel, _ => some (.silent { c with live := false })
  | .start single, .start =>
    some (.silent { c with pc := if single then .connect else .take })
  | .take pooled, .take =>
    some (.silent { c with pc := if pooled then .use false else .dial })
  | .dial err, .dial =>
    if err.all (dialAllowed c.live) then
      some (.silent { c with pc := match err with
        | none => .use true
        | some e => .ret (.error e) })
    else none
  | .use err, .use fresh =>
    if err.all (dialAllowed c.live) then
      some (.silent { c with pc := match err with
        | none => c.req.startWrite (if fresh then .opening else .pooled)
        | some e => .fail e })
    else none
  | .write fault, .write k (p :: todo) =>
    match fault with
    | none =>
      some ⟨{ c with pc := if todo = [] then c.req.afterWrite k else .write k todo },
        p, 0, false⟩
    | some (n, e) =>
      if writeAllowed c.live e then
        some ⟨{ c with pc := writeFailed c.live k e }, p.take n, 0, false⟩
      else none
  | .writeCheck e, .write k _ =>
    if checkAllowed c.live e then
      some (.silent { c with pc := writeFailed c.live k e })
    else none
  | .read n err, .read k need got =>
    if n ≤ need - got.length ∧ n ≤ v.inn.length ∧ (0 < n ∨ err ≠ none) ∧
        err.all (transportAllowed c.live v n) = true then
      let got := got ++ v.inn.take n
      if need ≤ got.length then
        some ⟨{ c with pc := c.req.received k got }, [], n,
          k = .ack ∧ unword got = sessionUnsupported⟩
      else some ⟨{ c with pc := match err with
        | none => .read k need got
        | some e => readFailed c.live k got e }, [], n, false⟩
    else none
  | .readCheck n e, .read k need got =>
    if n ≤ need - got.length ∧ n ≤ v.inn.length ∧ checkAllowed c.live e = true then
      some ⟨{ c with pc := readFailed c.live k got e }, [], n, false⟩
    else none
  | .finish kept, .finish keep next =>
    if kept = true → keep = true ∧ c.live = true then some (.silent (c.resume next))
    else none
  | .mark, .mark => some ⟨{ c with pc := .connect }, [], 0, true⟩
  | .connect err, .connect =>
    if err.all (dialAllowed c.live) then
      some (.silent { c with pc := match err with
        | none => c.req.startWrite .plain
        | some e => .ret (.error e) })
    else none
  | .ret late, .ret o =>
    some (.silent { c with pc := .done (frameError c.live late o) })
  | _, _ => none

inductive ClientCall.Moves (c : ClientCall) (v : PeerView) : ClientAct → ClientMove → Prop
  | cancel : c.Moves v .cancel (.silent { c with live := false })
  | start (single : Bool) (hpc : c.pc = .start) :
      c.Moves v (.start single) (.silent { c with pc := if single then .connect else .take })
  | take (pooled : Bool) (hpc : c.pc = .take) :
      c.Moves v (.take pooled) (.silent { c with pc := if pooled then .use false else .dial })
  | dial (hpc : c.pc = .dial) : c.Moves v (.dial none) (.silent { c with pc := .use true })
  | dialFails (e : ClientErr) (hpc : c.pc = .dial) (he : dialAllowed c.live e = true) :
      c.Moves v (.dial (some e)) (.silent { c with pc := .ret (.error e) })
  | use (fresh : Bool) (hpc : c.pc = .use fresh) :
      c.Moves v (.use none) (.silent { c with
        pc := c.req.startWrite (if fresh then .opening else .pooled) })
  | useFails (fresh : Bool) (e : ClientErr) (hpc : c.pc = .use fresh)
      (he : dialAllowed c.live e = true) :
      c.Moves v (.use (some e)) (.silent { c with pc := .fail e })
  | write (k : WriteKind) (p : Bytes) (todo : List Bytes) (hpc : c.pc = .write k (p :: todo)) :
      c.Moves v (.write none)
        ⟨{ c with pc := if todo = [] then c.req.afterWrite k else .write k todo }, p, 0, false⟩
  | writeFails (k : WriteKind) (p : Bytes) (todo : List Bytes) (n : ℕ) (e : ClientErr)
      (hpc : c.pc = .write k (p :: todo)) (he : writeAllowed c.live e = true) :
      c.Moves v (.write (some (n, e)))
        ⟨{ c with pc := writeFailed c.live k e }, p.take n, 0, false⟩
  | writeCheck (k : WriteKind) (todo : List Bytes) (e : ClientErr) (hpc : c.pc = .write k todo)
      (he : checkAllowed c.live e = true) :
      c.Moves v (.writeCheck e) (.silent { c with pc := writeFailed c.live k e })
  | read (k : ReadKind) (need n : ℕ) (got : Bytes) (err : Option ClientErr)
      (hpc : c.pc = .read k need got) (hn : n ≤ need - got.length) (hinn : n ≤ v.inn.length)
      (hpos : 0 < n ∨ err ≠ none) (hwhole : need ≤ (got ++ v.inn.take n).length) :
      c.Moves v (.read n err) ⟨{ c with pc := c.req.received k (got ++ v.inn.take n) }, [], n,
        k = .ack ∧ unword (got ++ v.inn.take n) = sessionUnsupported⟩
  | readMore (k : ReadKind) (need n : ℕ) (got : Bytes) (hpc : c.pc = .read k need got)
      (hn : n ≤ need - got.length) (hinn : n ≤ v.inn.length) (hpos : 0 < n)
      (hpart : (got ++ v.inn.take n).length < need) :
      c.Moves v (.read n none)
        ⟨{ c with pc := .read k need (got ++ v.inn.take n) }, [], n, false⟩
  | readFails (k : ReadKind) (need n : ℕ) (got : Bytes) (e : ClientErr)
      (hpc : c.pc = .read k need got) (hn : n ≤ need - got.length) (hinn : n ≤ v.inn.length)
      (he : transportAllowed c.live v n e = true)
      (hpart : (got ++ v.inn.take n).length < need) :
      c.Moves v (.read n (some e))
        ⟨{ c with pc := readFailed c.live k (got ++ v.inn.take n) e }, [], n, false⟩
  | readCheck (k : ReadKind) (need n : ℕ) (got : Bytes) (e : ClientErr)
      (hpc : c.pc = .read k need got) (hn : n ≤ need - got.length) (hinn : n ≤ v.inn.length)
      (he : checkAllowed c.live e = true) :
      c.Moves v (.readCheck n e) ⟨{ c with pc := readFailed c.live k got e }, [], n, false⟩
  | finish (kept keep : Bool) (next : Next) (hpc : c.pc = .finish keep next)
      (hkept : kept = true → keep = true ∧ c.live = true) :
      c.Moves v (.finish kept) (.silent (c.resume next))
  | mark (hpc : c.pc = .mark) : c.Moves v .mark ⟨{ c with pc := .connect }, [], 0, true⟩
  | connect (hpc : c.pc = .connect) :
      c.Moves v (.connect none) (.silent { c with pc := c.req.startWrite .plain })
  | connectFails (e : ClientErr) (hpc : c.pc = .connect) (he : dialAllowed c.live e = true) :
      c.Moves v (.connect (some e)) (.silent { c with pc := .ret (.error e) })
  | ret (late : Bool) (o : Outcome) (hpc : c.pc = .ret o) :
      c.Moves v (.ret late) (.silent { c with pc := .done (frameError c.live late o) })

theorem moves_of_next {c : ClientCall} {v : PeerView} {act : ClientAct} {m : ClientMove}
    (hm : c.next v act = some m) : c.Moves v act m := by
  unfold ClientCall.next at hm
  split at hm
  · cases hm
    exact .cancel
  next hpc =>
    cases hm
    exact .start _ hpc
  next hpc =>
    cases hm
    exact .take _ hpc
  next err hpc =>
    split_ifs at hm with he
    cases hm
    cases err with
    | none => exact .dial hpc
    | some e => exact .dialFails e hpc (by simpa using he)
  next err fresh hpc =>
    split at hm
    · next he =>
      cases hm
      cases err with
      | none => exact .use fresh hpc
      | some e => exact .useFails fresh e hpc (by simpa using he)
    · cases hm
  next fault k p todo hpc =>
    split at hm
    · cases hm
      exact .write k p todo hpc
    · split_ifs at hm with he
      cases hm
      exact .writeFails k p todo _ _ hpc he
  next e k todo hpc =>
    split_ifs at hm with he
    cases hm
    exact .writeCheck k todo e hpc he
  next n err k need got hpc =>
    split at hm
    · next hok =>
      obtain ⟨hn, hinn, hpos, herr⟩ := hok
      simp only at hm
      split at hm
      · next hwhole =>
        cases hm
        exact .read k need n got err hpc hn hinn hpos hwhole
      · next hpart =>
        cases hm
        cases err with
        | none =>
          exact .readMore k need n got hpc hn hinn (by simpa using hpos) (by omega)
        | some e =>
          exact .readFails k need n got e hpc hn hinn (by simpa using herr) (by omega)
    · cases hm
  next n e k need got hpc =>
    split_ifs at hm with hok
    cases hm
    exact .readCheck k need n got e hpc hok.1 hok.2.1 hok.2.2
  next kept keep next hpc =>
    split at hm
    · next hkept =>
      cases hm
      exact .finish kept keep next hpc hkept
    · cases hm
  next hpc =>
    cases hm
    exact .mark hpc
  next err hpc =>
    split_ifs at hm with he
    cases hm
    cases err with
    | none => exact .connect hpc
    | some e => exact .connectFails e hpc (by simpa using he)
  next late o hpc =>
    cases hm
    exact .ret late o hpc
  · cases hm

variable {e : ClientErr} {live : Bool}

theorem fail_inj {f : ClientErr} : ClientPc.fail e = ClientPc.fail f ↔ e = f := by
  simp [ClientPc.fail]

theorem afterWrite_ne_fail (q : Req) (k : WriteKind) (e : ClientErr) :
    q.afterWrite k ≠ .fail e := by
  cases k <;> simp only [Req.afterWrite] <;> (try split_ifs) <;> simp [ClientPc.fail]

theorem startWrite_ne_fail (q : Req) (k : WriteKind) (e : ClientErr) :
    q.startWrite k ≠ .fail e := by
  rw [Req.startWrite]
  split
  · exact afterWrite_ne_fail q k e
  · simp [ClientPc.fail]

theorem resume_ne_fail (c : ClientCall) (next : Next) (e : ClientErr) :
    (c.resume next).pc ≠ .fail e := by
  unfold ClientCall.resume
  split
  · split_ifs <;> simp [ClientPc.fail]
  · simp [ClientPc.fail]
  · simp [ClientPc.fail]

def ClientPc.loose : ClientPc → Bool
  | .read .ack _ _ => false
  | .read .answer _ _ => false
  | .read (.reply _) _ _ => false
  | .read _ _ _ => true
  | .finish false (.ret out) => out ≠ .error .noSession
  | _ => false

theorem loose_fail (he : e ≠ .noSession) : (ClientPc.fail e).loose = true := by
  simpa [ClientPc.fail, ClientPc.loose] using he

theorem ClosedErr.toErr_ne_noSession (err : ClosedErr) : err.toErr ≠ .noSession := by
  cases err <;> simp [ClosedErr.toErr]

theorem loose_ne_noSession {pc : ClientPc} (h : pc.loose = true) : pc ≠ .fail .noSession := by
  rintro rfl
  cases h

theorem refusalOf_ne_noSession (tokens : Bytes) : refusalOf tokens ≠ .noSession := by
  unfold refusalOf
  split
  · split_ifs <;> simp
  · simp

theorem received_ne_noSession (q : Req) (k : ReadKind) (got : Bytes) :
    q.received k got ≠ .fail .noSession := by
  cases k <;> simp only [Req.received, readBody]
  all_goals (repeat' split)
  all_goals first
    | exact startWrite_ne_fail _ _ _
    | exact fun h => refusalOf_ne_noSession got (fail_inj.1 h)
    | exact fun h => ClosedErr.toErr_ne_noSession _ (fail_inj.1 h)
    | simp [ClientPc.fail]

theorem loose_writeFailed {k : WriteKind}
    (he : e ≠ .noSession) : (writeFailed live k e).loose = true := by
  rw [writeFailed]
  repeat' split
  all_goals first | rfl | exact loose_fail he

theorem readFailed_cases {k : ReadKind} {got : Bytes} (he : e ≠ .noSession) :
    (readFailed live k got e).loose = true ∨ (k = .ack ∧ got = [] ∧ live = true ∧ e ≠ .timeout) ∧
        readFailed live k got e = .fail .noSession := by
  have heof : (if e = .eof ∧ got ≠ [] then ClientErr.unexpectedEOF else e) ≠ .noSession := by
    split_ifs
    · simp
    · exact he
  cases k with
  | ack =>
    by_cases hopen : got = [] ∧ live = true ∧ e ≠ .timeout
    · exact .inr ⟨⟨rfl, hopen⟩, if_pos hopen⟩
    · have hfail : readFailed live .ack got e = .fail _ := if_neg hopen
      rw [hfail]
      exact .inl (loose_fail heof)
  | eof =>
    simp only [readFailed]
    split_ifs
    · exact .inl rfl
    · exact .inl (loose_fail he)
  | lookup opening err => exact .inl (loose_fail err.toErr_ne_noSession)
  | lookupTokens err => exact .inl (loose_fail err.toErr_ne_noSession)
  | _ => exact .inl (loose_fail heof)

theorem readFailed_noSession {k : ReadKind} {got : Bytes}
    (he : e ≠ .noSession) (h : readFailed live k got e = .fail .noSession) :
    k = .ack ∧ got = [] ∧ live = true ∧ e ≠ .timeout := by
  rcases readFailed_cases he with hloose | ⟨hcond, -⟩
  · exact absurd h (loose_ne_noSession hloose)
  · exact hcond

theorem ne_noSession_of_check (h : checkAllowed live e = true) : e ≠ .noSession := by
  rintro rfl
  simp [checkAllowed] at h

theorem next_noSession {c : ClientCall} {v : PeerView} {act : ClientAct} {m : ClientMove}
    (hm : c.next v act = some m) (hnext : m.next.pc = .fail .noSession)
    (hpc : c.pc ≠ .fail .noSession) :
    (∃ need, c.pc = .read .ack need []) ∧ c.live = true ∧
      ((∃ e, act = .read 0 (some e) ∧ e ≠ .timeout ∧
        transportAllowed c.live v 0 e = true) ∨ ∃ n e, act = .readCheck n e) := by
  cases moves_of_next hm with
  | cancel => exact absurd hnext hpc
  | start single h | take pooled h =>
    simp only [ClientMove.silent] at hnext
    split_ifs at hnext <;> cases hnext
  | use fresh h => exact absurd hnext (startWrite_ne_fail _ _ _)
  | useFails fresh e h he =>
    obtain rfl := fail_inj.1 hnext
    cases he
  | write k p todo h =>
    simp only at hnext
    split_ifs at hnext
    · exact absurd hnext (afterWrite_ne_fail _ _ _)
    · cases hnext
  | writeFails k p todo n e h he =>
    refine absurd hnext (loose_ne_noSession (loose_writeFailed ?_))
    rintro rfl
    cases he
  | writeCheck k todo e h he =>
    exact absurd hnext (loose_ne_noSession (loose_writeFailed (ne_noSession_of_check he)))
  | read k need n got err h hn hinn hpos hwhole =>
    exact absurd hnext (received_ne_noSession _ _ _)
  | readFails k need n got e h hn hinn he hpart =>
    have hne : e ≠ .noSession := by
      rintro rfl
      cases he
    obtain ⟨rfl, hgot, hlive, htimeout⟩ := readFailed_noSession hne hnext
    obtain ⟨rfl, htake⟩ := List.append_eq_nil_iff.1 hgot
    obtain rfl : n = 0 := by
      have hlen := List.length_take_of_le hinn
      rw [htake] at hlen
      exact hlen.symm
    exact ⟨⟨need, h⟩, hlive, .inl ⟨e, rfl, htimeout, he⟩⟩
  | readCheck k need n got e h hn hinn he =>
    obtain ⟨rfl, rfl, hlive, -⟩ := readFailed_noSession (ne_noSession_of_check he) hnext
    exact ⟨⟨need, h⟩, hlive, .inr ⟨n, e, rfl⟩⟩
  | finish kept keep next h hkept => exact absurd hnext (resume_ne_fail _ _ _)
  | connect h => exact absurd hnext (startWrite_ne_fail _ _ _)
  | _ => cases hnext

end Listen
