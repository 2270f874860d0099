import AbstractionIdentity.Listen.Synchrony

/-!
# Answers follow their dispatch

On a session the server writes one answer for each request, in their order. `Serve.Answered` says
that answer `i`, once it is whole, belongs to request `i`: the frame of the request was dispatched
before, unless the request was one-way or the answer is the closing marker or a refusal. It is
kept by every step, whatever the client and the transport do.
-/

namespace Listen

open Text Stream Transition List Option

/-- Request `i` of `taken` is whole and one-way. -/
def OneWayAt (taken : Bytes) (i : ℕ) : Prop :=
  ∃ (rs : List Request) (r : Request),
    rs.length = i ∧ flat (rs ++ [r]) <+: taken ∧ isOneWay r.head = true

structure Serve.Answered (s : Serve) : Prop where
  returned : ∀ a, s.pc = .wait a → a.recv = .returned → s.Dispatched (s.served - 1)
  answered : ∀ (ts : List Answer) (a : Answer), flat (acceptAnswer :: (ts ++ [a])) <+: s.out →
    isOneWay a.head = false → s.Dispatched ts.length ∨ OneWayAt s.taken ts.length

variable {limit : ℕ} {s t : Serve} {act : ServeAct}

theorem answered_start (sessions : Bool) : (Serve.start sessions).Answered where
  returned := fun a ha => by cases sessions <;> cases ha
  answered := fun ts a h => by
    have hlen := h.length_le
    simp [Serve.start, Frame.length_bytes] at hlen

theorem not_answered_of_short {ts : List Answer} {a : Answer} {out : Bytes}
    (hshort : out.length < 8) : ¬ flat (acceptAnswer :: (ts ++ [a])) <+: out := by
  intro h
  have hlen := h.length_le
  simp [Frame.length_bytes] at hlen
  omega

theorem not_answered_of_intro {ts : List Answer} {a : Answer} {w : UInt32} {r out : Bytes}
    (hw : w ≠ sessionAccept) (hout : out <+: word w ++ r) :
    ¬ flat (acceptAnswer :: (ts ++ [a])) <+: out := by
  intro h
  obtain ⟨q, hq⟩ := h.trans hout
  rw [flat_cons, Frame.bytes, append_assoc, append_assoc] at hq
  exact hw (word_injective (append_inj hq rfl).1).symm

theorem answered_cases {exs : List Exchange} {ts : List Answer} {a : Answer} {c : Bytes}
    (hc : AnswerPart c ∨ c <+: word sessionClosing)
    (h : flat (acceptAnswer :: (ts ++ [a])) <+: answers exs ++ c) :
    flat (acceptAnswer :: (ts ++ [a])) <+: answers exs ∨ ts.length = exs.length ∧ a.bytes = c := by
  obtain ⟨g, hg⟩ : ∃ g : Answer, c <+: g.bytes := by
    rcases hc with ⟨g, -, hg⟩ | hc
    · exact ⟨g, hg⟩
    · exact ⟨closingAnswer, by simpa [Frame.bytes, closingAnswer] using hc⟩
  have hinside : acceptAnswer :: (ts ++ [a]) <+: acceptAnswer :: exs.map Exchange.answer →
      flat (acceptAnswer :: (ts ++ [a])) <+: answers exs := by
    rintro ⟨rest, hrest⟩
    rw [answers, ← hrest, flat_append]
    exact prefix_append _ _
  by_cases hwhole : c = g.bytes
  · have hframes : acceptAnswer :: (ts ++ [a]) <+:
        (acceptAnswer :: exs.map Exchange.answer) ++ [g] := by
      refine frames_of_flat incomplete_nil ?_
      simpa [answers, hwhole] using h
    rcases prefix_concat_iff.1 hframes with heq | hpart
    · obtain ⟨rfl, hag⟩ := append_inj' (cons_injective heq) rfl
      obtain rfl : a = g := singleton_injective hag
      exact .inr ⟨by simp, hwhole.symm⟩
    · exact .inl (hinside hpart)
  · exact .inl (hinside (frames_of_flat (incomplete_of_part hg hwhole) h))

theorem OneWayAt.append {taken : Bytes} {i : ℕ} (h : OneWayAt taken i) (bs : Bytes) :
    OneWayAt (taken ++ bs) i := by
  obtain ⟨rs, r, hi, hread, hway⟩ := h
  exact ⟨rs, r, hi, hread.trans (prefix_append _ _), hway⟩

theorem Serve.Answered.keep (h : s.Answered) {bs : Bytes} (htaken : t.taken = s.taken ++ bs)
    (hdispatched : ∀ i, s.Dispatched i → t.Dispatched i)
    (hnew : ∀ (ts : List Answer) (a : Answer), flat (acceptAnswer :: (ts ++ [a])) <+: t.out →
      isOneWay a.head = false → flat (acceptAnswer :: (ts ++ [a])) <+: s.out)
    (hpc : ∀ a, t.pc = .wait a → a.recv = .returned → t.Dispatched (t.served - 1)) :
    t.Answered where
  returned := hpc
  answered := fun ts a hout hway => by
    refine (h.answered ts a (hnew ts a hout hway) hway).imp (hdispatched _) fun hone => ?_
    rw [htaken]
    exact hone.append bs

theorem go_returned {ok : Bool} (hgo : s.go ok = some t) {a : ActiveCall} (hpc : t.pc = .wait a) :
    a.recv ≠ .returned := by
  cases hs : s.pc with
    simp only [Serve.go, hs, some.injEq, reduceCtorEq] at hgo
  | deliver w =>
    split_ifs at hgo
    · cases hgo
      cases hpc
      simp [ActiveCall.new]
    · cases hgo
      cases hpc
  | wait b =>
    split_ifs at hgo
    cases hgo
    simp only [Serve.afterCall] at hpc
    split_ifs at hpc
  | woke g err =>
    subst hgo
    exact absurd hpc (wakeUp_ne_wait _ _ _ a)
  | plain p =>
    cases p <;> simp only at hgo <;> (repeat' split at hgo) <;> cases hgo <;> cases hpc
  | _ =>
    subst hgo
    (try split_ifs at hpc) <;> cases hpc

theorem go_dispatched {ok : Bool} (hgo : s.go ok = some t) {i : ℕ} (h : s.Dispatched i) :
    t.Dispatched i := by
  obtain ⟨frame, hmem⟩ := h
  refine ⟨frame, ?_⟩
  simp only [Serve.go, Serve.afterCall] at hgo
  (repeat' split at hgo) <;> cases hgo <;> first | exact hmem | exact mem_append_left _ hmem

theorem Serve.Answered.go (h : s.Answered) {ok : Bool} (hgo : s.go ok = some t) : t.Answered := by
  obtain ⟨-, htaken, hout, -⟩ := go_io hgo
  have hsame : t.taken = s.taken ++ [] := by rw [htaken, append_nil]
  exact h.keep hsame (fun i => go_dispatched hgo) (fun ts a hnew _ => hout ▸ hnew)
    fun a hpc hrecv => absurd hrecv (go_returned hgo hpc)

theorem moved_dispatched {m : CallMove} {i : ℕ} (h : s.Dispatched i) :
    (s.moved m).Dispatched i := by
  obtain ⟨frame, hmem⟩ := h
  refine ⟨frame, ?_⟩
  simp only [Serve.moved]
  split
  · exact mem_append_left _ hmem
  · exact hmem

theorem next_wrote {a : ActiveCall} {cin cout : Bytes} (h : a.Ledger cin cout) {v : CallView}
    {act : CallAct} {m : CallMove} (hm : a.next limit v act = some m) (hwrote : m.wrote ≠ []) :
    a.recv = .returned ∨
      (cout = [] ∧ ∃ tokens, m.wrote <+: word proofRefusalHeader ++ tokens) ∨
      a.call.oneWay = true ∧ m.read = 0 ∧ cin.length = lengthOf a.call.head := by
  by_cases hret : a.recv = .returned
  · exact .inl hret
  refine .inr ?_
  cases act with
    simp only [ActiveCall.next, hret, ↓reduceIte, ActiveCall.receiveNext] at hm
  | closeEnd fault =>
    split at hm
    · cases hm
      right
      simp only [SessionCall.closeEnd] at hwrote
      split_ifs at hwrote with hbroken hunread hway
      · exact absurd rfl hwrote
      · exact absurd rfl hwrote
      · obtain ⟨rfl, hlen⟩ := h.received.taken (by simpa using hbroken)
        refine ⟨hway, rfl, ?_⟩
        omega
      · exact absurd rfl hwrote
      · exact absurd rfl hwrote
    · cases hm
  | refuse tokens fault =>
    split_ifs at hm with hok hclosed
    · cases hm
      exact absurd rfl hwrote
    · cases hm
      exact .inl ⟨h.unanswered hok.1 hclosed, tokens, sent_part _ _ _⟩
  | _ =>
    (repeat' split at hm) <;> cases hm <;> exact absurd rfl hwrote

theorem Serve.Answered.call (h : s.Answered) (hledger : s.Ledger) {a : ActiveCall}
    (hpc : s.pc = .wait a) {act : CallAct} {m : CallMove}
    (hm : a.next limit s.view act = some m) : (s.moved m).Answered := by
  have hplace := hledger.place
  rw [Serve.Place, hpc] at hplace
  obtain ⟨exs, cin, cout, htaken, hout, hserved, hcall⟩ := hplace
  have hnext := hcall.next hm
  refine ⟨fun b hb hrecv => ?_, fun ts f hflat hway => ?_⟩
  · obtain rfl : m.next = b := by simpa [Serve.moved] using hb
    rcases (next_returned_iff hm).1 hrecv with hret | ⟨frame, hevent⟩
    · exact moved_dispatched (h.returned a hpc hret)
    · exact ⟨frame, by simp [Serve.moved, hevent]⟩
  have hold : flat (acceptAnswer :: (ts ++ [f])) <+: s.out →
      (s.moved m).Dispatched ts.length ∨ OneWayAt (s.moved m).taken ts.length := fun hs =>
    (h.answered ts f hs hway).imp moved_dispatched fun hone => hone.append _
  have hflat' : flat (acceptAnswer :: (ts ++ [f])) <+: answers exs ++ (cout ++ m.wrote) := by
    rw [← append_assoc, ← hout]
    exact hflat
  rcases answered_cases (.inl hnext.part) hflat' with hin | ⟨hlen, hbytes⟩
  · exact hold (hout ▸ hin.trans (prefix_append _ _))
  by_cases hwrote : m.wrote = []
  · rw [hwrote, append_nil, ← hout] at hflat'
    exact hold hflat'
  -- the answer is the one of the request in progress
  have hi : ts.length = s.served - 1 := by omega
  rcases next_wrote hcall hm hwrote with hret | ⟨rfl, tokens, hrefusal⟩ | ⟨hone, hread, hsize⟩
  · rw [hi]
    exact .inl (moved_dispatched (h.returned a hpc hret))
  · rw [nil_append] at hbytes
    obtain ⟨q, hq⟩ := hbytes ▸ hrefusal
    rw [Frame.bytes, append_assoc] at hq
    rw [word_injective (append_inj hq rfl).1] at hway
    exact absurd hway (by decide)
  · refine .inr ⟨exs.map Exchange.request, ⟨a.call.head, cin, hsize⟩, by simp [hlen], ?_, hone⟩
    have hwhole : flat (exs.map Exchange.request ++ [⟨a.call.head, cin, hsize⟩]) = s.taken := by
      rw [htaken]
      simp [requests, Frame.bytes]
    rw [hwhole]
    exact prefix_append _ _

theorem Serve.Introduced.not_answered (h : s.Introduced) {ts : List Answer} {a : Answer}
    {w : UInt32} {r buf : Bytes} (hw : w ≠ sessionAccept) (hbuf : buf <+: word w ++ r) :
    ¬ flat (acceptAnswer :: (ts ++ [a])) <+: s.out ++ buf := by
  obtain ⟨-, ⟨hout, -⟩ | hout | hout⟩ := h
  · rw [hout, nil_append]
    exact not_answered_of_intro hw hbuf
  · rw [hout]
    exact not_answered_of_intro (by decide) prefix_rfl
  · rw [hout]
    exact not_answered_of_intro (by decide) prefix_rfl

theorem no_answer_outside (hlimit : limit < 2 ^ 30) (hledger : s.Ledger)
    (hgo : ∀ ok, act ≠ .go ok) (hcall : ∀ a, act ≠ .call a)
    (hstep : serveStep limit s act = some t) {ts : List Answer} {a : Answer}
    (hout : flat (acceptAnswer :: (ts ++ [a])) <+: t.out) (hway : isOneWay a.head = false) :
    flat (acceptAnswer :: (ts ++ [a])) <+: s.out := by
  have hplace := hledger.place
  have hopening : ∀ {g buf : Bytes} {w : UInt32} {fault : Option ℕ}, s.Opening g →
      buf = sent s.lost (word w) fault → ¬ flat (acceptAnswer :: (ts ++ [a])) <+: s.out ++ buf := by
    rintro g buf w fault ⟨-, hnil, -⟩ rfl
    refine not_answered_of_short ?_
    have hlen := (sent_part s.lost (word w) fault).length_le
    rw [length_word] at hlen
    rw [hnil, nil_append]
    omega
  cases act with
    simp only [serveStep] at hstep
  | go ok => exact absurd rfl (hgo ok)
  | call b => exact absurd rfl (hcall b)
  | write fault =>
    by_cases hlost : s.lost = true → fault ≠ none
    · rw [if_pos hlost] at hstep
      obtain ⟨⟨w, pc⟩, hwrites, rfl⟩ := map_eq_some_iff.1 hstep
      rw [Serve.Place] at hplace
      cases hpc : s.pc with
        rw [hpc] at hwrites hplace
      | decline v | accept v => exact absurd hout (hopening hplace rfl)
      | marker =>
        obtain ⟨rfl, -⟩ := Prod.mk.injEq _ _ _ _ ▸ some.inj hwrites
        obtain ⟨exs, -, hexs, -⟩ := hplace
        simp only [hexs] at hout ⊢
        rcases answered_cases (.inr (sent_part _ _ _)) hout with hin | ⟨-, hbytes⟩
        · exact hin
        · obtain ⟨q, hq⟩ : a.bytes <+: word sessionClosing := hbytes ▸ sent_part _ _ _
          rw [Frame.bytes, append_assoc] at hq
          rw [word_injective (append_inj (hq.trans (append_nil _).symm) rfl).1] at hway
          exact absurd hway (by decide)
      | plain p =>
        cases p with
        | answer v => exact absurd hout (hopening hplace rfl)
        | _ => cases hwrites
      | _ => cases hwrites
    · rw [if_neg hlost] at hstep
      cases hstep
  | refuse tokens fault =>
    split at hstep
    next n hpc =>
      split_ifs at hstep
      cases hstep
      rw [Serve.Place, hpc] at hplace
      exact absurd hout (hplace.1.not_answered (by decide) (sent_part _ _ _))
    next => cases hstep
  | reply frame fault =>
    split at hstep
    next hpc =>
      split_ifs at hstep with hok
      cases hstep
      rw [Serve.Place, hpc] at hplace
      refine absurd hout ((hplace.2.1 rfl).not_answered (w := mkHeader false false frame.length) ?_
        (sent_part _ _ _))
      intro hw
      have hsession : isSession (mkHeader false false frame.length) = false :=
        isSession_mkHeader (hok.1.trans_lt hlimit)
      rw [hw] at hsession
      exact absurd hsession (by decide)
    next => cases hstep
  | finish =>
    split at hstep
    next => cases hstep; exact hout
    next => cases hstep
  | readFail err =>
    obtain ⟨pc, -, rfl⟩ := map_eq_some_iff.1 hstep
    exact hout
  | send bs | expire | read n =>
    split_ifs at hstep
    cases hstep
    exact hout
  | hangup | lose | retire | shutdown =>
    cases hstep
    exact hout

theorem Serve.Answered.step (h : s.Answered) (hlimit : limit < 2 ^ 30) (hledger : s.Ledger)
    (hstep : serveStep limit s act = some t) : t.Answered := by
  by_cases hgo : ∃ ok, act = .go ok
  · obtain ⟨ok, rfl⟩ := hgo
    exact h.go hstep
  by_cases hcall : ∃ a, act = .call a
  · obtain ⟨act, rfl⟩ := hcall
    cases hpc : s.pc with
    | wait a =>
      simp only [serveStep, hpc] at hstep
      obtain ⟨m, hm, rfl⟩ := map_eq_some_iff.1 hstep
      exact h.call hledger hpc hm
    | _ => simp [serveStep, hpc] at hstep
  have hgo' : ∀ ok, act ≠ .go ok := fun ok h => hgo ⟨ok, h⟩
  have hcall' : ∀ a, act ≠ .call a := fun a h => hcall ⟨a, h⟩
  obtain ⟨hserved, -, hdispatched, hpc⟩ := step_outside hgo' hcall' hstep
  have hkept : ∀ i, s.Dispatched i → t.Dispatched i := fun i hi => by
    rw [Serve.Dispatched, hdispatched]
    exact hi
  obtain ⟨bs, htaken⟩ : ∃ bs, t.taken = s.taken ++ bs := by
    rcases step_io hstep with ⟨bs, -, -, -, rfl⟩ | ⟨k, r, hpass⟩
    · exact ⟨[], (append_nil _).symm⟩
    · exact ⟨_, hpass.taken⟩
  refine h.keep htaken hkept
    (fun ts a => no_answer_outside hlimit hledger hgo' hcall' hstep) fun a ha hrecv => ?_
  rcases hpc with hpc | hpc | ⟨-, -, hwait⟩
  · rw [hserved]
    exact hkept _ (h.returned a (hpc ▸ ha) hrecv)
  · rw [hpc] at ha
    cases ha
  · exact absurd ha (hwait a)

/-- On every run of a connection, a whole answer that is no closing marker and no refusal comes
after the dispatch of the request with its number, or completes a one-way request. -/
theorem answer_of_dispatch (maxFrame : UInt32) (sessions : Bool) (acts : List ServeAct) (s : Serve)
    (hrun : run (serveStep (frameLimit maxFrame)) (Serve.start sessions) acts = some s)
    (ts : List Answer) (a : Answer) (hout : flat (acceptAnswer :: (ts ++ [a])) <+: s.out)
    (hway : isOneWay a.head = false) :
    s.Dispatched ts.length ∨ OneWayAt s.taken ts.length := by
  have hinv : s.Ledger ∧ s.Answered := by
    refine run_invariant_of_forall (I := fun s => s.Ledger ∧ s.Answered) ?_
      ⟨ledger_start sessions, answered_start sessions⟩ hrun
    rintro u act w ⟨hledger, hanswered⟩ hstep
    exact ⟨hledger.step (frameLimit_lt maxFrame) hstep,
      hanswered.step (frameLimit_lt maxFrame) hledger hstep⟩
  exact hinv.2.answered ts a hout hway

theorem answer_of_dispatch_sample :
    ∃ s, run (serveStep (frameLimit 0)) (Serve.start true) oneExchange = some s ∧
      (s.Dispatched 0 ∨ OneWayAt s.taken 0) :=
  ⟨_, rfl, answer_of_dispatch 0 true oneExchange _ rfl [] (replyAnswer true [8, 9] (by decide))
    (by decide) (by decide)⟩

end Listen
