import AbstractionIdentity.Listen.ReceiveReturns

/-!
# A failed `ReceiveFramed` leaves nothing behind

With an error the connection is closed and so is the binding, whichever thread closed the call.
`Receive.Refuses` follows the failure to the proof refusal.
-/

namespace Listen

open Text Stream Transition

section

variable {s t u : Receive}

/-- The step that failed with `err` asked for a proof if one was missing, and the
context has ended since if it had ended then. -/
def Receive.FailedWith (s : Receive) (err : RecvErr) : Prop :=
  ∃ f, s.failure = some f ∧ f.err = err ∧ (err = .notProven → f.stage.proves = true) ∧
    (f.live = false → s.ctxDone = true)

def Receive.Unproven (s : Receive) : Prop :=
  (∃ f, s.failure = some f ∧ f.err = .notProven ∧ f.stage.proves = true ∧ f.live = true) ∧
    (s.kind = .message ∨ s.header.isSome = true)

structure Receive.Refuses (s : Receive) : Prop where
  obtained : s.kind ≠ .message → s.obtained = true → s.owned = true
  header : s.canRefuse = true → s.kind = .message ∨ s.header.isSome = true
  failing : ∀ err, s.pc = .fail err → s.FailedWith err
  refusing : s.pc = .refuse .notProven → s.FailedWith .notProven
  early : 7 ≤ s.pc.rank s.limit → s.refusals = 0
  once : s.refusals ≤ 1
  unproven : s.refusals ≠ 0 → s.Unproven
  returned : ∀ err, s.pc = .returned none err → s.obtained = true →
    s.owned = true ∨ s.released = true

theorem Receive.refuses_start (kind : ConnKind) (limit : ℕ) (now : ℤ) (ctxDone : Bool) :
    (Receive.start kind limit now ctxDone).Refuses := by
  constructor <;> simp [start]

theorem Receive.FailedWith.mono {err : RecvErr} (h : s.FailedWith err)
    (hfailure : t.failure = s.failure) (hctx : s.ctxDone = true → t.ctxDone = true) :
    t.FailedWith err := by
  obtain ⟨f, hf, herr, hproves, hlive⟩ := h
  exact ⟨f, hfailure.trans hf, herr, hproves, fun hf => hctx (hlive hf)⟩

theorem Receive.Refuses.other (h : s.Refuses) (hpc : t.pc = s.pc)
    (hkind : t.kind = s.kind) (hlimit : t.limit = s.limit)
    (hobtained : t.obtained = s.obtained) (howned : t.owned = s.owned)
    (hreleased : s.released = true → t.released = true)
    (hcan : t.canRefuse = s.canRefuse) (hheader : t.header = s.header)
    (hfailure : t.failure = s.failure) (hrefusals : t.refusals = s.refusals)
    (hctx : s.ctxDone = true → t.ctxDone = true) : t.Refuses where
  obtained := by
    rw [hkind, hobtained, howned]
    exact h.obtained
  header := by
    rw [hkind, hcan, hheader]
    exact h.header
  failing err herr := (h.failing err (hpc ▸ herr)).mono hfailure hctx
  refusing hrefuse := (h.refusing (hpc ▸ hrefuse)).mono hfailure hctx
  early := by
    rw [hpc, hlimit, hrefusals]
    exact h.early
  once := hrefusals ▸ h.once
  unproven := by
    rw [hrefusals, Unproven, hfailure, hkind, hheader]
    exact h.unproven
  returned := by
    rw [hpc, hobtained, howned]
    exact fun err herr ho => (h.returned err herr ho).imp_right hreleased

theorem Receive.Refuses.of_zero (hzero : t.refusals = 0)
    (hobtained : t.kind ≠ .message → t.obtained = true → t.owned = true)
    (hheader : t.canRefuse = true → t.kind = .message ∨ t.header.isSome = true)
    (hfailing : ∀ err, t.pc = .fail err → t.FailedWith err)
    (hrefusing : t.pc = .refuse .notProven → t.FailedWith .notProven)
    (hreturned : ∀ err, t.pc ≠ .returned none err) : t.Refuses where
  obtained := hobtained
  header := hheader
  failing := hfailing
  refusing := hrefusing
  early _ := hzero
  once := by omega
  unproven hne := absurd hzero hne
  returned err herr := absurd herr (hreturned err)

theorem Receive.Refuses.quiet (h : s.Refuses) (hq : s.pc.quiet = true) (hm : s.Quiet t) :
    t.Refuses := by
  have hzero : s.refusals = 0 := h.early (by have := ReceivePc.rank_of_quiet s.limit hq; omega)
  refine .of_zero (hm.refusals.trans hzero) ?_ ?_ ?_ ?_ ?_
  · rw [hm.kind, hm.owned]
    intro hkind hobtained
    rcases hm.obtained with hmessage | hsame
    · exact absurd hmessage hkind
    · exact h.obtained hkind (hsame ▸ hobtained)
  · intro hcan
    rw [hm.kind]
    rcases hm.header hcan with hmessage | hsome | ⟨hcan, hsame⟩
    · exact .inl hmessage
    · exact .inr hsome
    · rw [hsame]
      exact h.header hcan
  · intro err hpc
    obtain ⟨stage, hfailure, hproves⟩ := hm.failing err hpc
    exact ⟨_, hfailure, rfl, hproves, fun hlive => by simpa using hlive⟩
  · intro hpc
    rcases hm.place with hq | ⟨err, herr⟩
    · rw [hpc] at hq
      cases hq
    · rw [hpc] at herr
      cases herr
  · intro err hpc
    rcases hm.place with hq | ⟨err, herr⟩
    · rw [hpc] at hq
      cases hq
    · rw [hpc] at herr
      cases herr

theorem Receive.Refuses.goto (h : s.Refuses) (hrank : 7 ≤ s.pc.rank s.limit)
    (hkind : t.kind = s.kind) (hcan : t.canRefuse = s.canRefuse) (hheader : t.header = s.header)
    (hrefusals : t.refusals = s.refusals)
    (hobtained : t.kind ≠ .message → t.obtained = true → t.owned = true)
    (hfailing : ∀ err, t.pc = .fail err → t.FailedWith err)
    (hrefusing : t.pc = .refuse .notProven → t.FailedWith .notProven)
    (hreturned : ∀ err, t.pc ≠ .returned none err) : t.Refuses := by
  refine .of_zero (hrefusals.trans (h.early hrank)) hobtained ?_ hfailing hrefusing hreturned
  rw [hcan, hkind, hheader]
  exact h.header

theorem Receive.Refuses.ending (h : s.Refuses) (hkind : t.kind = s.kind)
    (hcan : t.canRefuse = s.canRefuse) (hheader : t.header = s.header)
    (hobtained : t.obtained = s.obtained) (howned : t.owned = s.owned)
    (hfailure : t.failure = s.failure) (hrefusals : t.refusals = s.refusals)
    (hrank : t.pc.rank t.limit < 7) (hfail : ∀ err, t.pc ≠ .fail err)
    (hreturned : ∀ err, t.pc = .returned none err → t.obtained = true →
      t.owned = true ∨ t.released = true) : t.Refuses where
  obtained := by
    rw [hkind, hobtained, howned]
    exact h.obtained
  header := by
    rw [hkind, hcan, hheader]
    exact h.header
  failing err herr := absurd herr (hfail err)
  refusing hrefuse := by
    rw [hrefuse] at hrank
    exact absurd hrank (lt_irrefl 7)
  early hle := by omega
  once := hrefusals ▸ h.once
  unproven := by
    rw [hrefusals, Unproven, hfailure, hkind, hheader]
    exact h.unproven
  returned := hreturned

theorem RecvErr.eq_notProven_of_frameError {ctxDone late : Bool} {err : RecvErr}
    (h : err.frameError ctxDone late = .notProven) : err = .notProven := by
  rw [frameError] at h
  split_ifs at h
  exact h

theorem Receive.Refuses.receiver_close (h : s.Refuses) {c d : ClosePc} {result : RecvErr}
    (hm : s.CloseMoved .receiver c u d) :
    ({ u with pc := .closing d result } : Receive).Refuses := by
  have hrank : ReceivePc.rank u.limit (.closing d result) < 7 := by
    cases d <;> simp [ReceivePc.rank, ClosePc.rank]
  cases hm <;> exact h.ending rfl rfl rfl rfl rfl rfl rfl hrank (by simp) (by simp)

theorem Receive.Refuses.callback_close (h : s.Refuses) {c d : ClosePc}
    (hm : s.CloseMoved .callback c u d) :
    ({ u with callback := some d } : Receive).Refuses := by
  cases hm with
  | already => exact h.other rfl rfl rfl rfl rfl id rfl rfl rfl rfl id
  | lock => exact h.other rfl rfl rfl rfl rfl id rfl rfl rfl rfl fun _ => rfl
  | conn => exact h.other rfl rfl rfl rfl rfl id rfl rfl rfl rfl id
  | drain => exact h.other rfl rfl rfl rfl rfl id rfl rfl rfl rfl id
  | binding =>
    exact h.other rfl rfl rfl rfl rfl (fun hr => by simp [hr]) rfl rfl rfl rfl id

theorem Receive.Refuses.moved (h : s.Refuses) {b : Bool} (hm : ReceiveMoved s b t) : t.Refuses := by
  cases hm with
  | tick d => exact h.other rfl rfl rfl rfl rfl id rfl rfl rfl rfl id
  | cancel => exact h.other rfl rfl rfl rfl rfl id rfl rfl rfl rfl fun _ => rfl
  | startCallback hdone hidle => exact h.other rfl rfl rfl rfl rfl id rfl rfl rfl rfl id
  | callback hc hclose => exact h.callback_close hclose
  | quiet hq hquiet => exact h.quiet hq hquiet
  | @keep frame hpc hmu hopen =>
    refine h.goto ?_ rfl rfl rfl rfl (fun _ _ => rfl) (by simp) (by simp) (by simp)
    simp [hpc, ReceivePc.rank]
  | @lock n hpc hmu hopen =>
    refine h.goto ?_ rfl rfl rfl rfl h.obtained (by simp) (by simp) (by simp)
    simp only [hpc, ReceivePc.rank]
    omega
  | @bound n hpc =>
    refine h.goto ?_ rfl rfl rfl rfl (fun _ _ => rfl) (by simp) (by simp) (by simp)
    simp only [hpc, ReceivePc.rank]
    omega
  | @unbound n hpc err =>
    refine h.goto ?_ rfl rfl rfl rfl h.obtained ?_ (by simp [failAt]) (by simp [failAt])
    · simp only [hpc, ReceivePc.rank]
      omega
    · rintro _ ⟨rfl⟩
      exact ⟨_, rfl, rfl, fun _ => rfl, fun hlive => by simpa [failAt] using hlive⟩
  | @checked n hpc =>
    refine h.goto ?_ rfl rfl rfl rfl h.obtained (by simp) (by simp) (by simp)
    simp only [hpc, ReceivePc.rank]
    omega
  | @unchecked n hpc err =>
    refine h.goto ?_ rfl rfl rfl rfl h.obtained ?_ (by simp [failAt]) (by simp [failAt])
    · simp only [hpc, ReceivePc.rank]
      omega
    · rintro _ ⟨rfl⟩
      exact ⟨_, rfl, rfl, fun _ => rfl, fun hlive => by simpa [failAt] using hlive⟩
  | returned hpc =>
    refine h.goto ?_ rfl rfl rfl rfl h.obtained (by simp) (by simp) (by simp)
    rcases hpc with hpc | hpc <;> simp [hpc, ReceivePc.rank]
  | @fail err hpc late =>
    refine h.goto (by simp [hpc, ReceivePc.rank]) rfl rfl rfl rfl h.obtained (by simp) ?_
      (by simp)
    intro hresult
    simp only [ReceivePc.refuse.injEq] at hresult
    obtain rfl := RecvErr.eq_notProven_of_frameError hresult
    exact h.failing _ hpc
  | @refuse result hpc =>
    exact h.ending rfl rfl rfl rfl rfl rfl rfl (by simp [ReceivePc.rank, ClosePc.rank])
      (by simp) (by simp)
  | @refused hpc hcan hlive call hcall =>
    have hzero : s.refusals = 0 := h.early (by simp [hpc, ReceivePc.rank])
    obtain ⟨f, hf, herr, hproves, hctx⟩ := h.refusing hpc
    have hf_live : f.live = true := by
      by_contra hdead
      rw [hctx (by simpa using hdead)] at hlive
      cases hlive
    exact {
      obtained := h.obtained
      header := h.header
      failing := by simp
      refusing := by simp
      early := by simp [ReceivePc.rank, ClosePc.rank]
      once := by simp [hzero]
      unproven := fun _ => ⟨⟨f, hf, herr, hproves rfl, hf_live⟩, h.header hcan⟩
      returned := by simp }
  | closing hpc hclose => exact h.receiver_close hclose
  | @closed result hpc =>
    refine h.ending rfl rfl rfl rfl rfl rfl rfl ?_ ?_ ?_
    · dsimp only
      split_ifs <;> simp [ReceivePc.rank]
    · intro err
      dsimp only
      split_ifs <;> simp
    · intro err herr hobtained
      refine .inl (h.obtained (fun hkind => ?_) hobtained)
      rw [if_pos hkind] at herr
      cases herr
  | @release result hpc =>
    refine h.ending rfl rfl rfl rfl rfl rfl rfl (by simp [ReceivePc.rank]) (by simp) ?_
    intro err herr hobtained
    have hobtained : s.obtained = true := hobtained
    by_cases howned : s.owned = true
    · exact .inl howned
    · exact .inr (by simp [hobtained, howned])

def Receive.Answers (s : Receive) : Prop :=
  ∀ call err, s.pc = .returned call err → call.isSome = !err.isSome

theorem Receive.Answers.moved {b : Bool} (h : s.Answers) (hm : ReceiveMoved s b t) : t.Answers := by
  cases hm with
  | tick | cancel | startCallback => exact h
  | @callback c d u hc hclose =>
    intro call err hpc
    have hpc : u.pc = .returned call err := hpc
    exact h call err (hclose.same_pc ▸ hpc)
  | quiet hq hquiet =>
    intro call err hpc
    rcases hquiet.place with hq | ⟨e, herr⟩
    · rw [hpc] at hq
      cases hq
    · rw [hpc] at herr
      cases herr
  | returned | release =>
    rintro call err ⟨rfl, rfl⟩
    rfl
  | closed =>
    intro call err hpc
    dsimp only at hpc
    split_ifs at hpc
    cases hpc
    rfl
  | _ =>
    intro call err hpc
    cases hpc

end

/-- `ReceiveFramed` returns a frame or an error within the steps of its rank. With an error the
connection and the binding are closed, and a refusal was sent at most once, for a missing proof with
the context live. -/
theorem receive_failure_atomicity (kind : ConnKind) (limit : ℕ) (now : ℤ) (ctxDone : Bool)
    (acts : List ReceiveAct) {s : Receive}
    (hrun : run receiveStep (.start kind limit now ctxDone) acts = some s) :
    (∀ call err, s.pc = .returned call err → call.isSome = !err.isSome ∧ (err.isSome = true →
        s.connClosed = true ∧ (s.obtained = true → s.released = true) ∧ call = none)) ∧
    (s.refusals ≤ 1 ∧ (s.refusals ≠ 0 →
      (∃ f, s.failure = some f ∧ f.err = .notProven ∧ f.live = true ∧
        f.stage ∈ [Stage.receipt, .bind, .check]) ∧
      (kind ≠ .message → s.header.isSome = true))) ∧
    ((∀ call err, s.pc ≠ .returned call err) →
      ∃ a t, a.ofProgram = true ∧ receiveStep s a = some t) ∧
    ∀ a t, a.ofProgram = true → receiveStep s a = some t → t.rank < s.rank := by
  have hsound := Receive.sound_of_run hrun
  have hrefuses : s.Refuses := run_invariant_of_forall
    (fun _ _ _ h hm => h.moved (Receive.moved_of_step hm))
    (Receive.refuses_start kind limit now ctxDone) hrun
  have hanswers : s.Answers := run_invariant_of_forall
    (fun _ _ _ h hm => h.moved (Receive.moved_of_step hm))
    (show (Receive.start kind limit now ctxDone).Answers from fun _ _ h => by cases h) hrun
  refine ⟨fun call err hpc => ⟨hanswers call err hpc, fun herr => ?_⟩,
    ⟨hrefuses.once, fun hne => ?_⟩, fun hnot => ?_, fun a t ha hm => ?_⟩
  · have hcall : call = none := by simpa [herr] using hanswers call err hpc
    obtain ⟨hconn, hreleased⟩ := hsound.closes.shut_of_returned (hcall ▸ hpc)
    refine ⟨hconn, fun hobtained => ?_, hcall⟩
    rcases hrefuses.returned err (hcall ▸ hpc) hobtained with howned | hdone
    · exact hreleased howned
    · exact hdone
  · obtain ⟨⟨f, hf, herr, hproves, hlive⟩, hheader⟩ := hrefuses.unproven hne
    refine ⟨⟨f, hf, herr, hlive, ?_⟩, fun hkind => hheader.resolve_left ?_⟩
    · cases hstage : f.stage <;> simp [hstage, Stage.proves] at hproves ⊢
    · rwa [Receive.kind_of_run hrun]
  · obtain ⟨a, ha, hsome⟩ := Receive.enabled_of_not_returned hsound.gate hsound.closes
      hsound.reads hnot
    obtain ⟨t, ht⟩ := Option.isSome_iff_exists.1 hsome
    exact ⟨a, t, ha, ht⟩
  · have hmoved := Receive.moved_of_step hm
    rw [ha] at hmoved
    exact hmoved.rank_lt

/-- A caller whose proof is missing is refused once, and nothing stays open. -/
theorem receive_failure_atomicity_sample :
    ∃ s, run receiveStep (.start (.stream true ⟨[], by decide⟩) 16 0 false)
        [.go false, .setDeadline none, .read [0, 0, 0, 1] none, .go false, .bind .ok,
          .check .notProven, .go false, .go false, .go false, .go false, .go false,
          .go false, .go false] = some s ∧
      s.pc = .returned none (some .notProven) ∧ s.refusals = 1 ∧ s.connClosed = true ∧
      (s.obtained = true → s.released = true) := by
  refine ⟨_, rfl, rfl, rfl, ?_⟩
  have hatomic := (receive_failure_atomicity (.stream true ⟨[], by decide⟩) 16 0 false
    [.go false, .setDeadline none, .read [0, 0, 0, 1] none, .go false, .bind .ok,
      .check .notProven, .go false, .go false, .go false, .go false, .go false,
      .go false, .go false] rfl).1 none (some .notProven) rfl
  exact ⟨(hatomic.2 rfl).1, (hatomic.2 rfl).2.1⟩

end Listen
