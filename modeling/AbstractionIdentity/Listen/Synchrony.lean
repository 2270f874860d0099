import AbstractionIdentity.Listen.Closing
import AbstractionIdentity.Listen.OneWay

/-!
# The stream between two requests

A session that goes on reads its next header where the last request ended. `Serve.Whole s exs` says
that `exs` are what the settled requests have left on the connection, in both directions; that a
one-way request was completed is carried along (`Serve.Synced`).
-/

namespace Listen

open Text Stream Transition List

variable {limit : ℕ} {s t : Serve} {act : ServeAct}

def Exchange.Proper (e : Exchange) : Prop :=
  isOneWay e.request.head = true → e.answer.bytes = word sessionFlag

def ServePc.inSession : ServePc → Bool
  | .bind _ | .top _ | .deliver _ | .wait _ | .rest _ | .woke _ _ | .resume _ | .header _
  | .marker => true
  | _ => false

def Serve.settled (s : Serve) : ℕ :=
  match s.pc with
  | .wait _ => s.served - 1
  | _ => s.served

theorem settled_of_not_wait (h : ∀ a, s.pc ≠ .wait a) : s.settled = s.served := by
  cases hpc : s.pc with
  | wait a => exact absurd hpc (h a)
  | _ => rw [Serve.settled, hpc]

structure Serve.Whole (s : Serve) (exs : List Exchange) : Prop where
  taken : requests exs <+: s.taken
  out : answers exs <+: s.out
  settled : exs.length = s.settled

theorem Serve.Whole.mono {exs : List Exchange} (h : s.Whole exs) (htaken : s.taken <+: t.taken)
    (hout : s.out <+: t.out) (hsettled : t.settled = s.settled) : t.Whole exs :=
  ⟨h.taken.trans htaken, h.out.trans hout, h.settled.trans hsettled.symm⟩

theorem Exchange.ext_of_frames {e f : Exchange} (hreq : e.request = f.request)
    (hans : e.answer = f.answer) : e = f := by
  cases e
  cases f
  simp only at hreq hans
  subst hreq hans
  rfl

theorem exchanges_ext {exs exs' : List Exchange}
    (hreq : exs.map Exchange.request = exs'.map Exchange.request)
    (hans : exs.map Exchange.answer = exs'.map Exchange.answer) : exs = exs' := by
  induction exs generalizing exs' with
  | nil => simpa using hreq.symm
  | cons e exs ih =>
    cases exs' with
    | nil => simp at hreq
    | cons f exs' =>
      simp only [map_cons, List.cons.injEq] at hreq hans
      rw [Exchange.ext_of_frames hreq.1 hans.1, ih hreq.2 hans.2]

theorem Serve.Whole.unique {exs exs' : List Exchange} {r c : Bytes} (h : s.Whole exs)
    (htaken : s.taken = requests exs' ++ r) (hout : s.out = answers exs' ++ c)
    (hlen : exs'.length = s.settled) : exs = exs' := by
  have hsame : exs.length = exs'.length := h.settled.trans hlen.symm
  have hreq : requests exs <+: requests exs' ++ r := htaken ▸ h.taken
  have hans : answers exs <+: answers exs' ++ c := hout ▸ h.out
  refine exchanges_ext (flat_inj_of_length hreq (by simp [hsame])) ?_
  have hall := flat_inj_of_length hans (by simp [hsame])
  simpa using hall

def Serve.Synced (s : Serve) : Prop :=
  s.pc.inSession = true → ∃ exs, s.Whole exs ∧ ∀ e ∈ exs, e.Proper

theorem Serve.Synced.mono (h : s.Synced) (hs : s.pc.inSession = true)
    (htaken : s.taken <+: t.taken) (hout : s.out <+: t.out)
    (hsettled : t.settled = s.settled) : t.Synced := by
  intro _
  obtain ⟨exs, hwhole, hproper⟩ := h hs
  exact ⟨exs, hwhole.mono htaken hout hsettled, hproper⟩

theorem synced_of_not_inSession (h : s.pc.inSession = false) : s.Synced := by
  intro hs
  rw [h] at hs
  cases hs

theorem ActiveCall.Ledger.completion {a : ActiveCall} {cin cout : Bytes}
    (h : a.Ledger cin cout) (hbroken : a.call.broken = false)
    (hcont : a.call.continued = true) (hway : a.call.oneWay = true) :
    cout = word sessionFlag := by
  rcases h.written with hw | ⟨hb, -⟩
  · rw [SessionCall.Written, if_pos hway] at hw
    rcases hw with ⟨-, hc⟩ | ⟨-, hc⟩
    · rw [hcont] at hc
      cases hc
    · rw [hc, hcont]
      rfl
  · rw [hbroken] at hb
    cases hb

theorem Serve.Synced.go_wait (h : s.Synced) (hledger : s.Ledger) {a : ActiveCall}
    (hpc : s.pc = .wait a) (hdone : a.call.done = true) (ok : Bool) :
    (s.afterCall a.call ok).Synced := by
  obtain ⟨exs, hwhole, hproper⟩ := h (by rw [hpc]; rfl)
  have hplace := hledger.place
  rw [Serve.Place, hpc] at hplace
  obtain ⟨exs', cin, cout, htaken, hout, hserved, hcall⟩ := hplace
  have hsettled : s.settled = s.served - 1 := by rw [Serve.settled, hpc]
  obtain rfl := hwhole.unique htaken hout (by omega)
  rw [Serve.afterCall]
  by_cases hends : (a.call.broken || !a.call.continued) = true
  · rw [if_pos hends]
    exact synced_of_not_inSession rfl
  rw [if_neg hends]
  simp only [Bool.or_eq_true, Bool.not_eq_true', not_or, Bool.not_eq_true,
    Bool.not_eq_false] at hends
  obtain ⟨e, hreq, hans⟩ := hcall.exchange hdone hends.1 hends.2
  have hnew : e.Proper := by
    intro hway
    have hhead : e.request.head = a.call.head := (append_inj hreq rfl).1 |> word_injective
    rw [hans]
    exact hcall.completion hends.1 hends.2 (by rw [SessionCall.oneWay, ← hhead, hway])
  have hsynced : ∀ u : Serve, u.taken = s.taken → u.out = s.out → u.settled = s.served →
      u.Synced := by
    intro u ht ho hs _
    refine ⟨exs ++ [e], ⟨?_, ?_, ?_⟩, ?_⟩
    · have heq : u.taken = requests (exs ++ [e]) := by
        rw [ht, htaken, requests_append_singleton, hreq]
      exact heq ▸ prefix_rfl
    · have heq : u.out = answers (exs ++ [e]) := by
        rw [ho, hout, answers_append_singleton, hans]
      exact heq ▸ prefix_rfl
    · rw [hs, hserved, length_append, length_singleton]
    · intro f hf
      rcases mem_append.1 hf with hf | hf
      · exact hproper f hf
      · rw [mem_singleton.1 hf]
        exact hnew
  split_ifs
  · exact hsynced _ rfl rfl rfl
  · exact hsynced _ rfl rfl rfl
  · exact synced_of_not_inSession rfl

theorem Serve.Synced.go (h : s.Synced) (hledger : s.Ledger) {ok : Bool}
    (hgo : s.go ok = some t) : t.Synced := by
  obtain ⟨-, htaken, hout, -⟩ := go_io hgo
  have hmono : s.pc.inSession = true → t.settled = s.settled → t.Synced := fun hs hsettled =>
    h.mono hs (htaken ▸ prefix_rfl) (hout ▸ prefix_rfl) hsettled
  have hbetween : s.pc.inSession = true → (∀ a, s.pc ≠ .wait a) → (∀ a, t.pc ≠ .wait a) →
      t.served = s.served → t.Synced := by
    intro hs hwait hwait' hserved
    apply hmono hs
    rw [settled_of_not_wait hwait, settled_of_not_wait hwait', hserved]
  cases hpc : s.pc with
    simp only [Serve.go, hpc, Option.some.injEq, reduceCtorEq] at hgo
  | wait a =>
    split_ifs at hgo with hdone
    cases hgo
    exact h.go_wait hledger hpc hdone ok
  | deliver w =>
    split_ifs at hgo
    · cases hgo
      apply hmono (by rw [hpc]; rfl)
      simp [Serve.settled, hpc]
    · cases hgo
      exact synced_of_not_inSession rfl
  | bind w | top w | header w =>
    subst hgo
    refine hbetween (by rw [hpc]; rfl) (by simp [hpc]) (fun a => ?_) rfl
    (try split_ifs) <;> simp
  | woke g err =>
    subst hgo
    exact hbetween (by rw [hpc]; rfl) (by simp [hpc]) (wakeUp_ne_wait _ _ _) rfl
  | admission w =>
    subst hgo
    cases ok <;> exact synced_of_not_inSession rfl
  | plain p =>
    apply synced_of_not_inSession
    cases p <;> simp only at hgo <;> (repeat' split at hgo) <;> cases hgo
    all_goals rfl

theorem Serve.Ledger.unserved (h : s.Ledger) (hs : s.pc.inSession = false)
    (hpc : s.pc ≠ .ended) : s.served = 0 := by
  have hplace := h.place
  rw [Serve.Place] at hplace
  cases hp : s.pc with
  | first g =>
    rw [hp] at hplace
    exact hplace.1.2.2
  | admission w | decline w | accept w =>
    rw [hp] at hplace
    exact hplace.2.2
  | plain p =>
    rw [hp] at hplace
    cases p with
    | header g => exact hplace.1.2.2
    | answer w => exact hplace.2.2
    | bind n | body n frame | ready frame => exact hplace.1.1
    | handling replied => exact hplace.1
  | ended => exact absurd hp hpc
  | _ =>
    rw [hp] at hs
    cases hs

theorem Serve.Ledger.synced_of_unserved (h : s.Ledger) (hserved : s.served = 0)
    (hwait : ∀ a, s.pc ≠ .wait a) : s.Synced := by
  intro hs
  have hat : ∀ g, s.At g → ∃ exs, s.Whole exs ∧ ∀ e ∈ exs, e.Proper := by
    rintro g ⟨exs, htaken, hout, hlen⟩
    obtain rfl : exs = [] := eq_nil_of_length_eq_zero (by omega)
    refine ⟨[], ⟨List.nil_prefix, hout ▸ prefix_rfl, ?_⟩, by simp⟩
    rw [settled_of_not_wait hwait, hserved]
    rfl
  have hplace := h.place
  rw [Serve.Place] at hplace
  cases hp : s.pc with
  | bind w | top w | deliver w | header w | marker =>
    rw [hp] at hplace
    exact hat _ hplace
  | rest g | resume g | woke g err =>
    rw [hp] at hplace
    exact hat _ hplace.1
  | wait a => exact absurd hp (hwait a)
  | _ =>
    rw [hp] at hs
    cases hs

theorem Serve.Synced.step (h : s.Synced) (hledger : s.Ledger) (ht : t.Ledger)
    (hstep : serveStep limit s act = some t) : t.Synced := by
  have hgrows : s.taken <+: t.taken ∧ s.out <+: t.out := by
    rcases step_io hstep with ⟨bs, -, -, -, rfl⟩ | ⟨k, r, hpass⟩
    · exact ⟨prefix_rfl, prefix_rfl⟩
    · rw [hpass.taken, hpass.out]
      exact ⟨prefix_append _ _, prefix_append _ _⟩
  by_cases hgo : ∃ ok, act = .go ok
  · obtain ⟨ok, rfl⟩ := hgo
    exact h.go hledger hstep
  by_cases hcall : ∃ a, act = .call a
  · obtain ⟨act, rfl⟩ := hcall
    cases hpc : s.pc with
    | wait a =>
      simp only [serveStep, hpc] at hstep
      obtain ⟨m, hm, rfl⟩ := Option.map_eq_some_iff.1 hstep
      apply h.mono (by rw [hpc]; rfl) hgrows.1 hgrows.2
      simp [Serve.settled, hpc, Serve.moved]
    | _ => simp [serveStep, hpc] at hstep
  obtain ⟨hserved, -, -, hpc⟩ :=
    step_outside (fun ok h => hgo ⟨ok, h⟩) (fun a h => hcall ⟨a, h⟩) hstep
  rcases hpc with hpc | hpc | ⟨hwait, hended, hwait'⟩
  · intro hs
    refine h.mono (hpc ▸ hs) hgrows.1 hgrows.2 ?_ hs
    rw [Serve.settled, Serve.settled, hpc, hserved]
  · exact synced_of_not_inSession (by rw [hpc]; rfl)
  · cases hs : s.pc.inSession with
    | true =>
      apply h.mono hs hgrows.1 hgrows.2
      rw [settled_of_not_wait hwait, settled_of_not_wait hwait', hserved]
    | false =>
      exact ht.synced_of_unserved (hserved.trans (hledger.unserved hs hended)) hwait'

/-- Whenever `run` starts to read a next header it has read whole requests, one for each call handed
out, and written the accepting word and one whole response for each, after which the session goes
on. -/
theorem stream_synchronized (maxFrame : UInt32) (acts : List ServeAct) (s : Serve)
    (hrun : run (serveStep (frameLimit maxFrame)) (Serve.start true) acts = some s)
    (hpc : s.pc = .rest []) :
    ∃ exs : List Exchange, s.taken = requests exs ∧ s.out = answers exs ∧ exs.length = s.served ∧
      ∀ e ∈ exs, isSession e.answer.head = true ∧ isOneWay e.answer.head = false ∧
        e.answer.body.length = lengthOf e.answer.head ∧
        (isOneWay e.request.head = true → e.answer.bytes = word sessionFlag) := by
  have hinv : s.Ledger ∧ s.Synced := by
    refine run_invariant_of_forall (I := fun s => s.Ledger ∧ s.Synced) ?_
      ⟨ledger_start true, synced_of_not_inSession rfl⟩ hrun
    rintro u act w ⟨hledger, hsynced⟩ hstep
    have hw := hledger.step (frameLimit_lt maxFrame) hstep
    exact ⟨hw, hsynced.step hledger hw hstep⟩
  obtain ⟨exs, hwhole, hproper⟩ := hinv.2 (by rw [hpc]; rfl)
  have hplace := hinv.1.place
  rw [Serve.Place, hpc] at hplace
  obtain ⟨⟨exs', htaken, hout, hserved⟩, -⟩ := hplace
  obtain rfl := hwhole.unique htaken (c := []) (by rw [hout, append_nil])
    (by rw [Serve.settled, hpc, hserved])
  refine ⟨exs, by rw [htaken, append_nil], hout, hserved.symm, fun e he => ?_⟩
  refine ⟨e.session, e.one_way, ?_, hproper e he⟩
  rw [← answerSize_of_not_isOneWay e.one_way]
  exact e.answer.sized

def oneExchange : List ServeAct :=
  [.send [128, 0, 0, 1, 7], .read 1, .read 3, .go true, .write none, .go true, .go true,
    .go true, .call (.receive false), .call (.bind .ok), .call .readBegin,
    .call (.readEnd 1 none), .call .validate, .call .checkCtx, .call .watchBegin,
    .call (.watchEnd 0 (some .timeout)), .call (.reply [8, 9]), .call (.replyWrite none),
    .call .finish, .call (.closeEnd none), .go true]

theorem stream_synchronized_sample :
    ∃ s, run (serveStep (frameLimit 0)) (Serve.start true) oneExchange = some s ∧
      s.pc = .rest [] ∧ s.out = [128, 0, 0, 0, 128, 0, 0, 2, 8, 9] ∧
      ∃ exs : List Exchange, s.taken = requests exs ∧ s.out = answers exs ∧ exs.length = s.served ∧
        ∀ e ∈ exs, isSession e.answer.head = true ∧ isOneWay e.answer.head = false ∧
          e.answer.body.length = lengthOf e.answer.head ∧
          (isOneWay e.request.head = true → e.answer.bytes = word sessionFlag) := by
  refine ⟨_, rfl, rfl, by decide, ?_⟩
  exact stream_synchronized 0 oneExchange _ rfl rfl

end Listen
