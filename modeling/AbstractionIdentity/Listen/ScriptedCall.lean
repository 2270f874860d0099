import AbstractionIdentity.Listen.SessionClients

/-!
# A call on a connection that nothing disturbs

`ClientCall` takes one operation of its connection at a time; `goCall` and `goAttempt` take what the
server says as a whole. They are one client: in every run in which the context lasts and nothing
fails but a read at the end of what the server said, a call leaves its connection as the functions
say, whatever the sizes of its reads (`goCall_eq_of_run`, `goAttempt_eq_of_run`).
-/

namespace Listen

open Text Stream Transition List SessionScript

/-- A call with what the server has still to say before it closes, what was sent, and whether the
endpoint was marked as one without sessions. -/
structure QuietCall where
  call : ClientCall
  inn : Bytes
  sent : Bytes
  marked : Bool

def ClientAct.quiet : ClientAct → Bool
  | .use none | .connect none | .write none | .read _ none | .read _ (some .eof) => true
  | _ => false

def QuietCall.step (s : QuietCall) (act : ClientAct) : Option QuietCall :=
  if s.call.live && act.quiet then
    (s.call.next ⟨s.inn, true⟩ act).map fun m =>
      ⟨m.next, s.inn.drop m.read, s.sent ++ m.sent, s.marked || m.marks⟩
  else none

/-- How a call leaves its connection. -/
structure Settled where
  keep : Bool
  next : Next
  rest : Bytes
  sent : Bytes
  marked : Bool

/-- A call at `pc` comes to `out`, with every write and every read made at once. -/
inductive Req.Settles (q : Req) (out : Settled) : ClientPc → Bytes → Bytes → Bool → Prop
  | finish {keep : Bool} {next : Next} {inn sent : Bytes} {marked : Bool}
      (h : out = ⟨keep, next, inn, sent, marked⟩) :
      q.Settles out (.finish keep next) inn sent marked
  | use {fresh : Bool} {inn sent : Bytes} {marked : Bool}
      (h : q.Settles out (q.startWrite (if fresh then .opening else .pooled)) inn sent marked) :
      q.Settles out (.use fresh) inn sent marked
  | connect {inn sent : Bytes} {marked : Bool}
      (h : q.Settles out (q.startWrite .plain) inn sent marked) :
      q.Settles out .connect inn sent marked
  | write {k : WriteKind} {todo : List Bytes} {inn sent : Bytes} {marked : Bool}
      (h : q.Settles out (q.afterWrite k) inn (sent ++ todo.flatten) marked) :
      q.Settles out (.write k todo) inn sent marked
  | received {k : ReadKind} {need : ℕ} {got inn sent : Bytes} {marked : Bool}
      (hlen : need - got.length ≤ inn.length)
      (h : q.Settles out (q.received k (got ++ inn.take (need - got.length)))
        (inn.drop (need - got.length)) sent (marked ||
          decide (k = .ack ∧ unword (got ++ inn.take (need - got.length)) = sessionUnsupported))) :
      q.Settles out (.read k need got) inn sent marked
  | ended {k : ReadKind} {need : ℕ} {got inn sent : Bytes} {marked : Bool}
      (hlen : inn.length < need - got.length)
      (h : q.Settles out (readFailed true k (got ++ inn) .eof) [] sent marked) :
      q.Settles out (.read k need got) inn sent marked

section Run

variable {s t : QuietCall} {out : Settled}

theorem settles_of_step {act : ClientAct} (h : s.step act = some t)
    (ht : t.call.req.Settles out t.call.pc t.inn t.sent t.marked) :
    s.call.req.Settles out s.call.pc s.inn s.sent s.marked := by
  rw [QuietCall.step] at h
  split_ifs at h with hquiet
  obtain ⟨hlive, hquiet⟩ := Bool.and_eq_true_iff.1 hquiet
  obtain ⟨m, hm, rfl⟩ := Option.map_eq_some_iff.1 h
  cases moves_of_next hm with
  | use fresh hpc =>
    rw [hpc]
    exact .use (by simpa [ClientMove.silent] using ht)
  | connect hpc =>
    rw [hpc]
    exact .connect (by simpa [ClientMove.silent] using ht)
  | write k p todo hpc =>
    rw [hpc]
    refine .write ?_
    simp only [drop_zero, Bool.or_false] at ht
    split_ifs at ht with htodo
    · simpa [htodo] using ht
    · cases ht with
      | write hw => simpa [append_assoc] using hw
  | read k need n got err hpc hn hinn hpos hwhole =>
    have hinn : n ≤ s.inn.length := hinn
    have hwhole : need ≤ (got ++ s.inn.take n).length := hwhole
    rw [length_append, length_take, min_eq_left hinn] at hwhole
    obtain rfl : n = need - got.length := by omega
    rw [hpc]
    exact .received hinn (by simpa using ht)
  | readMore k need n got hpc hn hinn hpos hpart =>
    have hinn : n ≤ s.inn.length := hinn
    have htake : (s.inn.take n).length = n := by simp [hinn]
    have hleft : need - (got ++ s.inn.take n).length = need - got.length - n := by
      rw [length_append, htake, Nat.sub_add_eq]
    have hsum : need - got.length = n + (need - got.length - n) := by omega
    -- the bytes of this read are the first of those that are read at once
    have hbytes : got ++ s.inn.take n ++ (s.inn.drop n).take (need - got.length - n) =
        got ++ s.inn.take (need - got.length) := by
      rw [append_assoc, ← take_add, ← hsum]
    have hrest : (s.inn.drop n).drop (need - got.length - n) =
        s.inn.drop (need - got.length) := by
      rw [drop_drop, ← hsum]
    rw [hpc]
    simp only [append_nil, Bool.or_false] at ht
    cases ht with
    | received hlen hnext =>
      rw [hleft, length_drop] at hlen
      rw [hleft, hbytes, hrest] at hnext
      exact .received (by omega) hnext
    | ended hlen hnext =>
      rw [hleft, length_drop] at hlen
      rw [append_assoc, take_append_drop] at hnext
      exact .ended (by omega) hnext
  | readFails k need n got e hpc hn hinn he hpart =>
    cases e with
    | eof =>
      have hn : n = s.inn.length := by simpa [transportAllowed] using he
      subst hn
      have hpart : (got ++ s.inn.take s.inn.length).length < need := hpart
      rw [take_length, length_append] at hpart
      rw [hpc]
      exact .ended (by omega) (by simpa [hlive] using ht)
    | _ => cases hquiet
  | _ => cases hquiet

theorem settles_of_run {acts : List ClientAct} {keep : Bool} {next : Next}
    (h : run QuietCall.step s acts = some t)
    (hpc : t.call.pc = .finish keep next) :
    s.call.req.Settles ⟨keep, next, t.inn, t.sent, t.marked⟩ s.call.pc s.inn s.sent s.marked := by
  induction acts generalizing s with
  | nil =>
    cases h
    rw [hpc]
    exact .finish rfl
  | cons act acts ih =>
    obtain ⟨u, hu, hrun⟩ := (run_cons_eq_some_iff _ _ _ _ _).1 h
    exact settles_of_step hu (ih hrun)

end Run

def outcome : Except ClientErr Bytes → Outcome
  | .ok reply => .reply reply
  | .error err => .error err

def Next.attempt (w : ScriptWorld) : Next → Attempt ClientErr
  | .retry => .again w
  | .ret (.reply reply) => .done (.ok reply) w
  | .ret (.error err) => .done (.error err) w

/-- The script is for calls with the request `q`. -/
structure SessionScript.Asks (s : SessionScript) (q : Req) : Prop where
  frame : s.frame = q.frame
  oneWay : s.oneWay = q.oneWay
  limit : s.limit = frameLimit q.maxFrame

section Reads

variable {q : Req} {out : Settled} {inn sent : Bytes} {marked : Bool}

theorem settles_fail {e : ClientErr} (h : q.Settles out (.fail e) inn sent marked) :
    out = ⟨false, .ret (.error e), inn, sent, marked⟩ := by
  cases h with
  | finish h => exact h

/-- A read that has no meaning of its own for the end of the stream. -/
def ReadKind.plain : ReadKind → Bool
  | .ack | .eof | .lookup _ _ | .lookupTokens _ => false
  | _ => true

theorem readFailed_plain {k : ReadKind} (hk : k.plain = true) (got : Bytes) :
    readFailed true k got .eof = .fail (endError got) := by
  cases k <;> cases hk <;> cases got <;> rfl

variable (chunk : ℕ → Bytes → ℕ)

theorem settles_read {k : ReadKind} {need : ℕ} (hk : k.plain = true)
    (h : q.Settles out (.read k need []) inn sent marked) :
    (∃ got rest, readExact chunk endError need inn = .ok (got, rest) ∧
      q.Settles out (q.received k got) rest sent marked) ∨
    ∃ e, readExact chunk endError need inn = .error e ∧
      out = ⟨false, .ret (.error e), [], sent, marked⟩ := by
  cases h with
  | received hlen h =>
    rw [length_nil, Nat.sub_zero] at hlen h
    have hack : k ≠ .ack := by
      rintro rfl
      cases hk
    exact .inl ⟨_, _, readExact_of_le chunk _ hlen, by simpa [hack] using h⟩
  | ended hlen h =>
    rw [nil_append, readFailed_plain hk] at h
    exact .inr ⟨_, readExact_of_lt chunk _ (by simpa using hlen), settles_fail h⟩

theorem settles_tokens (h : q.Settles out (.read .tokens 2 []) inn sent marked) :
    ∃ rest, out = ⟨false, .ret (.error (readProofRefusal chunk inn)), rest, sent, marked⟩ := by
  rw [readProofRefusal]
  rcases settles_read chunk rfl h with ⟨got, rest, hread, h⟩ | ⟨e, hread, h⟩ <;> rw [hread]
  · exact ⟨_, settles_fail h⟩
  · exact ⟨_, h⟩

/-- The body of a reply of `n` bytes, which is not read if there are none. -/
theorem settles_body {k : ReadKind} {keep : Bool} {n : ℕ} (hk : k.plain = true)
    (hkeep : ∀ got, q.received k got = .finish keep (.ret (.reply got)))
    (h : q.Settles out (readBody k n (.finish keep (.ret (.reply [])))) inn sent marked) :
    (∃ got rest, readExact chunk endError n inn = .ok (got, rest) ∧
      out = ⟨keep, .ret (.reply got), rest, sent, marked⟩) ∨
    ∃ e, readExact chunk endError n inn = .error e ∧
      out = ⟨false, .ret (.error e), [], sent, marked⟩ := by
  rw [readBody] at h
  split_ifs at h with hn
  · cases h with
    | finish h => exact .inl ⟨_, _, hn ▸ readExact_of_le chunk _ (Nat.zero_le _), h⟩
  · refine (settles_read chunk hk h).imp_left ?_
    rintro ⟨got, rest, hread, h⟩
    rw [hkeep] at h
    cases h with
    | finish h => exact ⟨got, rest, hread, h⟩

theorem settles_readFrame (h : q.Settles out (.read .head 4 []) inn sent marked) :
    ∃ rest, out = ⟨false, .ret (outcome (readFrame chunk (frameLimit q.maxFrame) inn)), rest, sent,
      marked⟩ := by
  rw [readFrame, decodeFrame]
  rcases settles_read chunk rfl h with ⟨got, rest, hread, h⟩ | ⟨e, hread, h⟩ <;> rw [hread]
  · simp only [Req.received] at h ⊢
    split_ifs at h ⊢
    · exact settles_tokens chunk h
    · exact settles_tokens chunk h
    · exact ⟨_, settles_fail h⟩
    · rcases settles_body chunk rfl (fun _ => rfl) h with ⟨body, rest, hbody, h⟩ | ⟨e, hbody, h⟩ <;>
        rw [hbody] <;> exact ⟨_, h⟩
  · exact ⟨_, h⟩

theorem settles_waitFrameEOF (h : q.Settles out (.read .eof 1 []) inn sent marked) :
    ∃ rest, out = ⟨false, .ret (outcome (waitFrameEOF chunk inn)), rest, sent, marked⟩ := by
  rw [waitFrameEOF, decodeEnd]
  cases inn with
  | nil =>
    cases h with
    | received hlen h => simp at hlen
    | ended hlen h =>
      cases h with
      | finish h => exact ⟨_, h⟩
  | cons b inn =>
    rw [readSome_one]
    cases h with
    | ended hlen h => simp at hlen
    | received hlen h =>
      have h : q.Settles out (q.received .eof [b]) inn sent marked := by simpa using h
      simp only [Req.received] at h ⊢
      split_ifs at h ⊢ with hb
      · rcases settles_read chunk rfl h with ⟨got, rest, hread, h⟩ | ⟨e, hread, h⟩ <;> rw [hread]
        · simp only [Req.received, hb, singleton_append] at h ⊢
          split_ifs at h ⊢
          · exact settles_tokens chunk h
          · exact ⟨_, settles_fail h⟩
        · exact ⟨_, h⟩
      · exact ⟨_, settles_fail h⟩

theorem settles_response {k : WriteKind} (hk : k = .single ∨ k = .plain)
    (h : q.Settles out (q.afterWrite k) inn sent marked) :
    ∃ rest, out = ⟨false, .ret (outcome (goCall chunk q.maxFrame q.frame q.oneWay inn)), rest, sent,
      marked⟩ := by
  have hk : q.afterWrite k = if q.oneWay then .read .eof 1 [] else .read .head 4 [] := by
    rcases hk with rfl | rfl <;> rfl
  rw [hk] at h
  rw [goCall, if_neg (Nat.not_lt.2 q.fits)]
  split_ifs at h ⊢
  · exact settles_waitFrameEOF chunk h
  · exact settles_readFrame chunk h

theorem settles_startWrite {k : WriteKind} (h : q.Settles out (q.startWrite k) inn sent marked) :
    q.Settles out (q.afterWrite k) inn (sent ++ (q.parts k).flatten) marked := by
  rw [Req.startWrite] at h
  split at h
  next hparts => simpa [hparts] using h
  next =>
    cases h with
    | write h => exact h

end Reads

section World

variable {w : ScriptWorld} {c : ℕ}

theorem close_consume (rest : Bytes) : (w.consume c rest).close [c] = w.close [c] := by
  simp only [ScriptWorld.close, ScriptWorld.consume, ScriptWorld.set]
  congr 1
  funext i
  by_cases hi : i = c <;> simp [hi]

theorem set_conns (x : ScriptConn) : (w.set c x).conns c = x := if_pos rfl

theorem set_set (x y : ScriptConn) : (w.set c x).set c y = w.set c y := by
  simp only [ScriptWorld.set]
  congr 1
  funext i
  by_cases hi : i = c <;> simp [hi]

theorem consume_conns (rest : Bytes) :
    (w.consume c rest).conns c = { w.conns c with inn := rest } := set_conns _

theorem consume_consume (a b : Bytes) : (w.consume c a).consume c b = w.consume c b := by
  simp only [ScriptWorld.consume, set_conns, set_set]

variable {q : Req} {s : SessionScript} {out : Settled} {sent : Bytes} {marked : Bool}
  (chunk : ℕ → Bytes → ℕ)

theorem goAnswer_of_settles (hs : s.Asks q) {inn : Bytes} (hinn : (w.conns c).inn = inn)
    (h : q.Settles out (.read .answer 4 []) inn sent marked) :
    s.goAnswer chunk w c = out.next.attempt (s.goFinish (w.consume c out.rest) c out.keep) ∧
      out.sent = sent ∧ out.marked = marked := by
  subst hinn
  rw [goAnswer, readConn, hs.oneWay, hs.limit]
  rcases settles_read chunk rfl h with ⟨got, rest, hread, h⟩ | ⟨e, hread, h⟩ <;> rw [hread]
  · simp only [Req.received, consume_conns] at h ⊢
    split_ifs at h ⊢
    · cases h with
      | finish h => exact h ▸ ⟨rfl, rfl, rfl⟩
    · obtain ⟨rest, rfl⟩ := settles_tokens chunk h
      simp [Next.attempt, goFinish, close_consume]
    · exact settles_fail h ▸ ⟨rfl, rfl, rfl⟩
    · exact settles_fail h ▸ ⟨rfl, rfl, rfl⟩
    · cases h with
      | finish h => exact h ▸ ⟨rfl, rfl, rfl⟩
    · exact settles_fail h ▸ ⟨rfl, rfl, rfl⟩
    · rw [readConn, consume_conns]
      rcases settles_body chunk rfl (fun _ => rfl) h with ⟨body, rest, hbody, h⟩ | ⟨e, hbody, h⟩ <;>
        rw [hbody] <;> simp [h, Next.attempt, consume_consume]
  · exact h ▸ ⟨rfl, rfl, rfl⟩

theorem write_write (a b : Bytes) : (w.write c a).write c b = w.write c (a ++ b) := by
  simp only [ScriptWorld.write, set_conns, set_set, append_assoc]

theorem write_conns (bs : Bytes) :
    (w.write c bs).conns c = { w.conns c with sent := (w.conns c).sent ++ bs } := set_conns _

theorem write_consume (bs rest : Bytes) :
    (w.consume c rest).write c bs = (w.write c bs).consume c rest := by
  simp only [ScriptWorld.consume, ScriptWorld.write, set_conns, set_set]

theorem markSingle_conns (now : ℤ) : (w.markSingle now).conns = w.conns := rfl

theorem markSingle_write (now : ℤ) (bs : Bytes) :
    (w.markSingle now).write c bs = (w.write c bs).markSingle now := rfl

theorem markSingle_close (now : ℤ) (cs : List ℕ) :
    (w.markSingle now).close cs = (w.close cs).markSingle now := rfl

theorem flatten_body (q : Req) {k : WriteKind} (hk : k = .body ∨ k = .single) :
    (q.parts k).flatten = q.frame := by
  have hparts : q.parts k = if q.frame = [] then [] else [q.frame] := by
    rcases hk with rfl | rfl <;> rfl
  rw [hparts]
  split_ifs with hframe <;> simp [hframe]

theorem goResponse_of_asks (hs : s.Asks q) (inn : Bytes) :
    s.goResponse chunk inn = goCall chunk q.maxFrame q.frame q.oneWay inn := by
  rw [goResponse, hs.oneWay, hs.limit, goCall, if_neg (Nat.not_lt.2 q.fits)]

theorem flags_of_asks (hs : s.Asks q) : s.flags = q.flags := by
  rw [flags, Req.flags, hs.oneWay, hs.frame]

/-- The attempt of a call on a pooled connection. -/
theorem goAttempt_of_pooled (hs : s.Asks q) {left : ℕ} {w' : ScriptWorld}
    (htake : w.take (s.clock.take left) = (some c, w'))
    (h : q.Settles out (.use false) (w'.conns c).inn [] false) :
    s.goAttempt chunk left w =
      let w := (w'.write c out.sent).consume c out.rest
      out.next.attempt (s.goFinish (if out.marked then w.markSingle s.clock.mark else w) c
        out.keep) := by
  cases h with
  | use h =>
    have h := settles_startWrite h
    rw [show q.parts _ = headed _ _ from rfl, flatten_headed] at h
    obtain ⟨hanswer, hsent, hmarked⟩ :=
      goAnswer_of_settles chunk hs (congrArg ScriptConn.inn (write_conns _)) h
    rw [goAttempt, htake, hsent, hmarked, flags_of_asks hs, hs.frame]
    exact hanswer

theorem attempt_outcome (r : Except ClientErr Bytes) :
    Next.attempt w (.ret (outcome r)) = .done r w := by
  cases r <;> rfl

/-- The attempt of a call on a connection of its own. -/
theorem goAttempt_of_fresh (hs : s.Asks q) {left : ℕ} {w' : ScriptWorld}
    (htake : w.take (s.clock.take left) = (none, w'))
    (h : q.Settles out (.use true) ((w'.dial s.script).conns w'.opened).inn [] false) :
    s.goAttempt chunk left w =
      let w := ((w'.dial s.script).write w'.opened out.sent).consume w'.opened out.rest
      out.next.attempt (s.goFinish (if out.marked then w.markSingle s.clock.mark else w) w'.opened
        out.keep) := by
  cases h with
  | use h =>
    have h : q.Settles out (.read .ack 4 []) (s.script w'.opened) (word q.flags) false := by
      have h := settles_startWrite h
      simpa [Req.parts, Req.afterWrite, ScriptWorld.dial, ScriptWorld.set] using h
    have hdial : ((w'.dial s.script).write w'.opened (word q.flags)).conns w'.opened =
        ⟨s.script w'.opened, word q.flags, false, true⟩ := by
      rw [write_conns, ScriptWorld.dial, ScriptWorld.set]
      simp
    rw [goAttempt, htake]
    simp only [flags_of_asks hs, readConn, hdial]
    cases h with
    | ended hlen h =>
      rw [readExact_of_lt chunk _ (by simpa using hlen)]
      cases hinn : s.script w'.opened with
      | nil =>
        rw [hinn] at h
        rw [settles_fail (e := .noSession) h]
        rfl
      | cons b inn =>
        rw [hinn] at h
        rw [settles_fail (e := .unexpectedEOF) h]
        rfl
    | received hlen h =>
      have hlen : 4 ≤ (s.script w'.opened).length := by simpa using hlen
      rw [readExact_of_le chunk _ hlen]
      generalize hgot : (s.script w'.opened).take 4 = got
      generalize hrest : (s.script w'.opened).drop 4 = rest
      have h : q.Settles out (q.received .ack got) rest (word q.flags)
          (decide (unword got = sessionUnsupported)) := by
        simpa [hgot, hrest] using h
      simp only [Req.received] at h
      simp only [write_consume, write_write, consume_conns]
      split_ifs at h with hrefused hclosing hsingle haccept
      · rw [hrefused, show decide (_ = sessionUnsupported) = false by decide] at h
        obtain ⟨rest', rfl⟩ := settles_tokens chunk h
        simp [hrefused, Next.attempt, goFinish, close_consume]
      · rw [if_neg hrefused, if_pos hclosing]
        rw [hclosing] at h
        cases h with
        | finish h => exact h ▸ rfl
      · rw [if_neg hrefused, if_neg hclosing, if_pos hsingle]
        have h := settles_startWrite h
        rw [flatten_body q (.inr rfl), ← hs.frame] at h
        obtain ⟨rest', rfl⟩ := settles_response chunk (.inl rfl) h
        by_cases hmark : unword got = sessionUnsupported <;>
          simp [hmark, goResponse_of_asks chunk hs, attempt_outcome, goFinish, markSingle_write,
            markSingle_close, markSingle_conns, write_consume, write_write, close_consume,
            consume_conns]
      all_goals
        have hmark : ¬ unword got = sessionUnsupported := fun hmark => hsingle (.inr hmark)
        rw [decide_eq_false hmark] at h
        rw [if_neg hrefused, if_neg hclosing, if_neg hsingle]
      · rw [if_pos haccept]
        exact settles_fail h ▸ rfl
      · rw [if_neg haccept]
        have h := settles_startWrite h
        rw [flatten_body q (.inl rfl), ← hs.frame] at h
        obtain ⟨hanswer, hsent, hmarked⟩ :=
          goAnswer_of_settles chunk hs (congrArg ScriptConn.inn (consume_conns rest)) h
        rw [hanswer, consume_consume, hsent, hmarked]
        rfl

/-- What an attempt starts on: a pooled connection, or one that it opens. -/
def SessionScript.connect (s : SessionScript) (left : ℕ) (w : ScriptWorld) :
    Bool × ℕ × ScriptWorld :=
  match w.take (s.clock.take left) with
  | (some c, w) => (false, c, w)
  | (none, w) => (true, w.opened, w.dial s.script)

variable {n : ℕ} {fresh keep : Bool} {next : Next} {acts : List ClientAct} {t : QuietCall}

/-- A run of the call on the connection of an attempt ends as the attempt does. -/
theorem goAttempt_eq_of_run (hs : s.Asks q) {left : ℕ} {w' : ScriptWorld}
    (hconnect : s.connect left w = (fresh, c, w'))
    (hrun : run QuietCall.step ⟨⟨q, n, true, .use fresh⟩, (w'.conns c).inn, [], false⟩ acts =
      some t)
    (hpc : t.call.pc = .finish keep next) :
    s.goAttempt chunk left w =
      let w := (w'.write c t.sent).consume c t.inn
      next.attempt (s.goFinish (if t.marked then w.markSingle s.clock.mark else w) c keep) := by
  have h := settles_of_run hrun hpc
  rw [connect] at hconnect
  cases htake : w.take (s.clock.take left) with
  | mk conn taken =>
    rw [htake] at hconnect
    cases conn with
    | some c =>
      cases hconnect
      exact goAttempt_of_pooled chunk hs htake h
    | none =>
      cases hconnect
      exact goAttempt_of_fresh chunk hs htake h

/-- A run of the single exchange on a connection of its own ends as `goCall` does. -/
theorem goCall_eq_of_run {inn : Bytes}
    (hrun : run QuietCall.step ⟨⟨q, n, true, .connect⟩, inn, [], false⟩ acts = some t)
    (hpc : t.call.pc = .finish keep next) :
    keep = false ∧ next = .ret (outcome (goCall chunk q.maxFrame q.frame q.oneWay inn)) ∧
      t.sent = word (mkHeader false false q.frame.length) ++ q.frame := by
  cases settles_of_run hrun hpc with
  | connect h =>
    have h := settles_startWrite h
    rw [show q.parts .plain = headed _ _ from rfl, flatten_headed] at h
    obtain ⟨rest, hout⟩ := settles_response chunk (.inr rfl) h
    simp only [Settled.mk.injEq] at hout
    exact ⟨hout.1, hout.2.1, hout.2.2.2.1⟩

end World

end Listen
