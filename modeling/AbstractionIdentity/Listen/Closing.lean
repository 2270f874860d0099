import AbstractionIdentity.Listen.ServeLedger

/-!
# What the end of a connection tells

`Dead limit s i` says that request `i` is not dispatched now nor in any continuation. A client that
gives up on a connection relies on one of three reasons: it read the closing marker in place of the
answer (`dead_of_marker`), the connection ended without a word (`dead_of_silent`), or the request
was never sent whole (`dead_of_short`).
-/

namespace Listen

open Text Stream Transition List Option

variable {limit : ℕ} {s t : Serve} {act : ServeAct} {acts : List ServeAct}

theorem step_ended (hpc : s.pc = .ended) (hstep : serveStep limit s act = some t) :
    t.pc = .ended ∧ t.taken = s.taken ∧ t.out = s.out ∧ t.served = s.served ∧
      t.dispatched = s.dispatched ∧ t.marked = s.marked := by
  have hwrites : s.pc.writes limit = none := by
    rw [hpc]
    rfl
  cases act with
  | send bs | expire =>
    simp only [serveStep] at hstep
    split_ifs at hstep
    cases hstep
    exact ⟨hpc, rfl, rfl, rfl, rfl, rfl⟩
  | hangup | lose | retire | shutdown =>
    cases hstep
    exact ⟨hpc, rfl, rfl, rfl, rfl, rfl⟩
  | read n =>
    simp only [serveStep, hpc, ServePc.wants] at hstep
    rw [if_neg (by omega)] at hstep
    cases hstep
  | write fault =>
    rw [serveStep, hwrites, map_none, ite_self] at hstep
    cases hstep
  | readFail err | go ok | call act | refuse tokens fault | reply frame fault | finish =>
    simp [serveStep, Serve.go, ServePc.afterReadFail, hpc] at hstep

theorem run_ended (hpc : s.pc = .ended) (hrun : run (serveStep limit) s acts = some t) :
    t.pc = .ended ∧ t.taken = s.taken ∧ t.out = s.out ∧ t.served = s.served ∧
      t.dispatched = s.dispatched ∧ t.marked = s.marked := by
  refine run_invariant_of_forall (I := fun t => t.pc = .ended ∧ t.taken = s.taken ∧
    t.out = s.out ∧ t.served = s.served ∧ t.dispatched = s.dispatched ∧
    t.marked = s.marked) ?_ ⟨hpc, rfl, rfl, rfl, rfl, rfl⟩ hrun
  rintro u a w ⟨hu, h1, h2, h3, h4, h5⟩ hstep
  obtain ⟨hw, k1, k2, k3, k4, k5⟩ := step_ended hu hstep
  exact ⟨hw, k1.trans h1, k2.trans h2, k3.trans h3, k4.trans h4, k5.trans h5⟩

variable {fault : Option ℕ} {i : ℕ} {ts : List Answer}

theorem Serve.Ledger.marked_of_closing (h : s.Ledger)
    (hread : flat (ts ++ [closingAnswer]) <+: s.out) : s.marked = true ∧ s.pc = .ended := by
  have hpc : s.pc = .ended := by
    by_contra hpc
    exact (h.unclosed hpc).not_closing ts hread
  refine ⟨?_, hpc⟩
  by_contra hno
  have hplace := h.place
  rw [Serve.Place, hpc] at hplace
  simp only [if_neg hno] at hplace
  exact hplace.not_closing ts hread

theorem Serve.Ledger.exchanges (h : s.Ledger) (hmarked : s.marked = true) :
    ∃ exs c, s.taken = requests exs ∧ s.out = answers exs ++ c ∧ s.served = exs.length ∧
      c <+: word sessionClosing := by
  have hplace := h.place
  rw [Serve.Place, h.marked hmarked] at hplace
  simpa only [if_pos hmarked] using hplace

/-- Once the closing marker was written, or stands among the answers, exactly whole exchanges have
been read and answered, and no further byte is read and no further call handed out. -/
theorem closing_marker_sound (maxFrame : UInt32) (acts acts' : List ServeAct) (s t : Serve)
    (hrun : run (serveStep (frameLimit maxFrame)) (Serve.start true) acts = some s)
    (hrun' : run (serveStep (frameLimit maxFrame)) s acts' = some t)
    (hclosing : s.marked = true ∨ ∃ ts : List Answer, flat (ts ++ [closingAnswer]) <+: s.out) :
    (∃ exs part, s.taken = requests exs ∧ s.out = answers exs ++ part ∧
      part <+: word sessionClosing ∧ s.served = exs.length) ∧
      t.taken = s.taken ∧ t.served = s.served ∧ t.dispatched = s.dispatched := by
  have hledger := ledger_of_run (frameLimit_lt maxFrame) hrun
  have hmarked : s.marked = true := by
    rcases hclosing with hm | ⟨ts, hread⟩
    · exact hm
    · exact (hledger.marked_of_closing hread).1
  obtain ⟨exs, part, htaken, hout, hserved, hpart⟩ := hledger.exchanges hmarked
  obtain ⟨-, htaken', -, hserved', hdispatched, -⟩ := run_ended (hledger.marked hmarked) hrun'
  exact ⟨⟨exs, part, htaken, hout, hpart, hserved⟩, htaken', hserved', hdispatched⟩

def retiredWhileIdle : List ServeAct :=
  [.send [128, 0, 0, 0], .read 1, .read 3, .go true, .write none, .go true, .go true,
    .go true, .call (.receive false), .call (.bind .ok), .call .readBegin, .call .validate,
    .call .checkCtx, .call (.reply []), .call (.replyWrite none), .call .finish,
    .call (.closeEnd none), .go true, .retire, .readFail .timeout, .go true, .write none]

/-- The bytes a client sends afterwards stay unread. -/
theorem closing_marker_sound_sample :
    ∃ s t, run (serveStep (frameLimit 0)) (Serve.start true) retiredWhileIdle = some s ∧
      run (serveStep (frameLimit 0)) s [.send [128, 0, 0, 0]] = some t ∧
      s.out = [128, 0, 0, 0, 128, 0, 0, 0, 255, 255, 255, 255] ∧ s.served = 1 ∧
      (∃ exs part, s.taken = requests exs ∧ s.out = answers exs ++ part ∧
        part <+: word sessionClosing ∧ s.served = exs.length) ∧
      t.taken = s.taken ∧ t.served = s.served ∧ t.dispatched = s.dispatched := by
  refine ⟨_, _, rfl, rfl, by decide, by decide, ?_⟩
  exact closing_marker_sound 0 retiredWhileIdle [.send [128, 0, 0, 0]] _ _ rfl rfl (.inl rfl)

def Dead (limit : ℕ) (s : Serve) (i : ℕ) : Prop :=
  ∀ acts t, run (serveStep limit) s acts = some t → ∀ frame, (i, frame) ∉ t.dispatched

theorem Dead.step (h : Dead limit s i) (hstep : serveStep limit s act = some t) :
    Dead limit t i := by
  intro acts u hrun
  apply h (act :: acts) u
  rw [run_cons, hstep]
  exact hrun

theorem Dead.now (h : Dead limit s i) (frame : Bytes) : (i, frame) ∉ s.dispatched :=
  h [] s rfl frame

theorem closing_notMem_answers (exs : List Exchange) :
    closingAnswer ∉ acceptAnswer :: exs.map Exchange.answer := by
  intro hmem
  rcases mem_cons.1 hmem with heq | hmem
  · exact absurd heq (by decide)
  · obtain ⟨e, -, he⟩ := mem_map.1 hmem
    exact e.answer_ne_closing (he ▸ rfl)

theorem Serve.Ledger.closing_at_end (h : s.Ledger)
    (hread : flat (ts ++ [closingAnswer]) <+: s.out) :
    s.pc = .ended ∧ s.marked = true ∧ ts.length = s.served + 1 := by
  obtain ⟨hmarked, hpc⟩ := h.marked_of_closing hread
  obtain ⟨exs, c, -, hout, hserved, hc⟩ := h.exchanges hmarked
  refine ⟨hpc, hmarked, ?_⟩
  have hno := closing_notMem_answers exs
  by_cases hwhole : c = word sessionClosing
  · have hread' : flat (ts ++ [closingAnswer]) <+:
        flat (acceptAnswer :: exs.map Exchange.answer ++ [closingAnswer]) ++ [] := by
      rw [hout, hwhole] at hread
      simpa [answers, Frame.bytes, closingAnswer] using hread
    have hlen := length_eq_of_end (frames_of_flat incomplete_nil hread') hno
    rw [hlen, hserved, length_cons, length_map]
  · have hpart : c <+: closingAnswer.bytes := by
      simpa [Frame.bytes, closingAnswer] using hc
    have hincomplete : Incomplete answerSize c := by
      refine incomplete_of_part hpart fun heq => hwhole ?_
      simpa [Frame.bytes, closingAnswer] using heq
    rw [hout, answers] at hread
    exact absurd ((frames_of_flat hincomplete hread).subset (by simp)) hno

theorem dead_of_marker (h : s.Ledger)
    (hread : flat (acceptAnswer :: ts ++ [closingAnswer]) <+: s.out) :
    Dead limit s ts.length := by
  obtain ⟨hpc, hmarked, hlen⟩ := h.closing_at_end hread
  rw [length_cons] at hlen
  intro acts t hrun frame hmem
  rw [(run_ended hpc hrun).2.2.2.2.1] at hmem
  have hlt := h.below (.inr hmarked) _ hmem
  simp only [Serve.handed, hpc] at hlt
  omega

theorem Serve.Ledger.first_ne_closing (h : s.Ledger) : ¬ word sessionClosing <+: s.out := by
  intro hread
  have hread' : flat ([] ++ [closingAnswer]) <+: s.out := by
    simpa [Frame.bytes, closingAnswer] using hread
  obtain ⟨-, -, hlen⟩ := h.closing_at_end hread'
  simp at hlen

theorem sent_lost {buf : Bytes} (h : fault ≠ none) : sent true buf fault = [] := by
  cases fault with
  | none => exact absurd rfl h
  | some n => rfl

theorem write_lost {c : SessionCall} {p : Bytes} {retiring : Bool}
    (h : fault ≠ none) : (c.write p retiring true fault).2.1 = [] := by
  cases fault with
  | none => exact absurd rfl h
  | some n =>
    simp only [SessionCall.write, SessionCall.writeHeader, SessionCall.writeBody]
    split_ifs <;> rfl

theorem closeEnd_lost {c : SessionCall} {retiring : Bool}
    (h : fault ≠ none) : (c.closeEnd retiring true fault).2 = [] := by
  simp only [SessionCall.closeEnd, sent_lost h]
  split_ifs <;> rfl

theorem next_lost {v : CallView} {a : ActiveCall} {act : CallAct} {m : CallMove}
    (hlost : v.lost = true) (hm : a.next limit v act = some m) : m.wrote = [] := by
  cases act <;>
    simp only [ActiveCall.next, ActiveCall.handlerNext, ActiveCall.receiveNext, hlost,
      true_implies] at hm <;>
    (repeat' split at hm) <;> cases hm
  all_goals first
    | rfl
    | exact write_lost ‹_›
    | exact closeEnd_lost (And.right (And.right (And.right ‹_›)))
    | exact sent_lost (And.right (And.right ‹_›))

theorem go_io {ok : Bool} (hgo : s.go ok = some t) :
    t.inn = s.inn ∧ t.taken = s.taken ∧ t.out = s.out ∧ t.lost = s.lost ∧ t.hangup = s.hangup := by
  simp only [Serve.go, Serve.afterCall] at hgo
  (repeat' split at hgo) <;> cases hgo <;> exact ⟨rfl, rfl, rfl, rfl, rfl⟩

/-- The step moves `k` of the bytes that wait from `inn` to `taken` and writes `r`,
nothing if the connection is lost. -/
structure Serve.Passes (s t : Serve) (k : ℕ) (r : Bytes) : Prop where
  inn : t.inn = s.inn.drop k
  taken : t.taken = s.taken ++ s.inn.take k
  out : t.out = s.out ++ r
  lost : s.lost = true → t.lost = true ∧ r = []
  hangup : s.hangup = true → t.hangup = true

theorem Serve.Passes.stream {k : ℕ} {r : Bytes} (h : s.Passes t k r) :
    t.taken ++ t.inn = s.taken ++ s.inn := by
  rw [h.inn, h.taken, append_assoc, take_append_drop]

theorem passes_silent (hinn : t.inn = s.inn) (htaken : t.taken = s.taken)
    (hout : t.out = s.out) (hlost : s.lost = true → t.lost = true)
    (hup : s.hangup = true → t.hangup = true) : s.Passes t 0 [] :=
  ⟨by simp [hinn], by simp [htaken], by simp [hout], fun h => ⟨hlost h, rfl⟩, hup⟩

theorem passes_write {buf : Bytes} (hinn : t.inn = s.inn)
    (htaken : t.taken = s.taken) (hout : t.out = s.out ++ sent s.lost buf fault)
    (hlost : t.lost = s.lost) (hup : t.hangup = s.hangup)
    (hfault : s.lost = true → fault ≠ none) : s.Passes t 0 (sent s.lost buf fault) := by
  refine ⟨by simp [hinn], by simp [htaken], hout, fun h => ⟨hlost.trans h, ?_⟩, hup.trans⟩
  rw [h]
  exact sent_lost (hfault h)

/-- A step either brings bytes of the client, or passes bytes through the serving
goroutine. -/
theorem step_io (hstep : serveStep limit s act = some t) :
    (∃ bs, act = .send bs ∧ s.hangup = false ∧ s.lost = false ∧
      t = { s with inn := s.inn ++ bs }) ∨ ∃ k r, s.Passes t k r := by
  cases act with
    simp only [serveStep] at hstep
  | send bs =>
    split_ifs at hstep with hup
    cases hstep
    rw [Bool.or_eq_true, not_or, Bool.not_eq_true, Bool.not_eq_true] at hup
    exact .inl ⟨bs, rfl, hup.1, hup.2, rfl⟩
  | hangup =>
    cases hstep
    exact .inr ⟨0, [], passes_silent rfl rfl rfl id fun _ => rfl⟩
  | lose =>
    cases hstep
    exact .inr ⟨0, [], passes_silent rfl rfl rfl (fun _ => rfl) id⟩
  | retire | shutdown =>
    cases hstep
    exact .inr ⟨0, [], passes_silent rfl rfl rfl id id⟩
  | expire =>
    split_ifs at hstep
    cases hstep
    exact .inr ⟨0, [], passes_silent rfl rfl rfl id id⟩
  | read n =>
    split_ifs at hstep
    cases hstep
    exact .inr ⟨n, [], rfl, rfl, by simp, fun h => ⟨h, rfl⟩, id⟩
  | readFail err =>
    obtain ⟨pc, -, rfl⟩ := map_eq_some_iff.1 hstep
    exact .inr ⟨0, [], passes_silent rfl rfl rfl id id⟩
  | write fault =>
    by_cases hlost : s.lost = true → fault ≠ none
    · rw [if_pos hlost] at hstep
      obtain ⟨⟨w, pc⟩, -, rfl⟩ := map_eq_some_iff.1 hstep
      exact .inr ⟨0, _, passes_write rfl rfl rfl rfl rfl hlost⟩
    · rw [if_neg hlost] at hstep
      cases hstep
  | go ok =>
    obtain ⟨h1, h2, h3, h4, h5⟩ := go_io hstep
    exact .inr ⟨0, [], passes_silent h1 h2 h3 h4.trans h5.trans⟩
  | call act =>
    cases hpc : s.pc with
    | wait a =>
      simp only [hpc] at hstep
      obtain ⟨m, hm, rfl⟩ := map_eq_some_iff.1 hstep
      exact .inr ⟨m.read, m.wrote, rfl, rfl, rfl, fun h => ⟨h, next_lost h hm⟩, id⟩
    | _ => simp [hpc] at hstep
  | refuse tokens fault =>
    split at hstep
    next =>
      split_ifs at hstep with hok
      cases hstep
      exact .inr ⟨0, _, passes_write rfl rfl rfl rfl rfl hok.2⟩
    next => cases hstep
  | reply frame fault =>
    split at hstep
    next =>
      split_ifs at hstep with hok
      cases hstep
      exact .inr ⟨0, _, passes_write rfl rfl rfl rfl rfl hok.2⟩
    next => cases hstep
  | finish =>
    split at hstep
    next =>
      cases hstep
      exact .inr ⟨0, [], passes_silent rfl rfl rfl id id⟩
    next => cases hstep

theorem dead_of_silent (hlimit : limit < 2 ^ 30) (h : s.Ledger) (hout : s.out = [])
    (hend : s.pc = .ended ∨ s.lost = true) (hlow : ¬ Low (s.taken ++ s.inn)) (i : ℕ) :
    Dead limit s i := by
  intro acts t hrun frame hmem
  have hinv : t.Ledger ∧ t.out = [] ∧ ¬ Low t.taken ∧
      (t.pc = .ended ∨ t.lost = true ∧ ¬ Low (t.taken ++ t.inn)) := by
    have htaken : ¬ Low s.taken := fun hs => hlow (hs.append _)
    refine run_invariant_of_forall (I := fun t => t.Ledger ∧ t.out = [] ∧ ¬ Low t.taken ∧
      (t.pc = .ended ∨ t.lost = true ∧ ¬ Low (t.taken ++ t.inn))) ?_
      ⟨h, hout, htaken, hend.imp_right fun hlost => ⟨hlost, hlow⟩⟩ hrun
    rintro u a w ⟨hu, hout, htaken, hend⟩ hstep
    refine ⟨hu.step hlimit hstep, ?_⟩
    rcases hend with hpc | ⟨hlost, hlow⟩
    · obtain ⟨hpc', htaken', hout', -⟩ := step_ended hpc hstep
      exact ⟨hout'.trans hout, htaken'.symm ▸ htaken, .inl hpc'⟩
    · rcases step_io hstep with ⟨bs, -, -, hno, -⟩ | ⟨k, r, hpass⟩
      · rw [hlost] at hno
        cases hno
      · obtain ⟨hlost', rfl⟩ := hpass.lost hlost
        have hlow' : ¬ Low (w.taken ++ w.inn) := hpass.stream.symm ▸ hlow
        exact ⟨by rw [hpass.out, hout, append_nil], fun hw => hlow' (hw.append _),
          .inr ⟨hlost', hlow'⟩⟩
  obtain ⟨ht, hout', htaken, -⟩ := hinv
  rcases ht.spoken (ne_nil_of_mem hmem) with hne | hlow
  · exact hne hout'
  · exact htaken hlow

theorem dead_of_short (hlimit : limit < 2 ^ 30) (h : s.Ledger) (hup : s.hangup = true)
    (hshort : ∀ frame, ¬ Requested (s.taken ++ s.inn) i frame) :
    Dead limit s i := by
  intro acts t hrun frame hmem
  have hinv : t.Ledger ∧ t.hangup = true ∧ t.taken ++ t.inn = s.taken ++ s.inn := by
    refine run_invariant_of_forall (I := fun t => t.Ledger ∧ t.hangup = true ∧
      t.taken ++ t.inn = s.taken ++ s.inn) ?_ ⟨h, hup, rfl⟩ hrun
    rintro u a w ⟨hu, hup, hsame⟩ hstep
    rcases step_io hstep with ⟨bs, -, hno, -⟩ | ⟨k, r, hpass⟩
    · rw [hup] at hno
      cases hno
    · exact ⟨hu.step hlimit hstep, hpass.hangup hup, hpass.stream.trans hsame⟩
  obtain ⟨ht, -, hsame⟩ := hinv
  exact hshort frame (hsame ▸ (ht.requested _ hmem).append t.inn)

end Listen
