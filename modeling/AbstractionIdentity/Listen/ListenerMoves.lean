import AbstractionIdentity.Listen.SessionListener
import AbstractionIdentity.Transition.Table

/-!
# What happens to an accepted connection

`AcceptedMoved` lists what any goroutine can do to one connection, and
`Accepted.Sound` says what is known of a connection at each place of its goroutine.
-/

namespace Listen

open Transition Option AcceptedPc

def AcceptedPc.counted : AcceptedPc → Bool
  | .start | .first | .uncount _ => true
  | .release counted | .deliver counted | .offer counted | .discard counted => counted
  | _ => false

/-- The steps of any goroutine that concern one connection. -/
inductive AcceptedMoved (done : Bool) (x : Accepted) : Accepted → Prop
  | serve (f : Finding) {y : Accepted} (h : x.next done f = some y) : AcceptedMoved done x y
  | admitted (hpc : x.pc = .admission) (hopen : done = false) :
      AcceptedMoved done x { x with registered := true, pc := .adopt }
  | declined (hpc : x.pc = .admission) : AcceptedMoved done x { x with pc := .decline }
  | take {y : Accepted} (h : x.take = some y) : AcceptedMoved done x y
  | caller {y : Accepted} (h : x.callClose done = some y) : AcceptedMoved done x y
  | begin (hpc : x.pc = .accepted) (hopen : done = false) :
      AcceptedMoved done x { x with owned := true, listed := true, pc := .start }
  | refuse (hpc : x.pc = .accepted) :
      AcceptedMoved done x { x with closed := true, pc := .ended }
  | interrupt (howned : x.owned = true) (hnot : x.interrupted = false) :
      AcceptedMoved done x { x with interrupted := true }
  | close (h : x.interrupted = true) : AcceptedMoved done x { x with closed := true }
  | retire (h : x.registered = true) : AcceptedMoved done x x.retire

def Accepted.Unopened (x : Accepted) : Prop :=
  x.registered = false ∧ x.active = false ∧ x.finished = false ∧ x.handoffDone = none ∧
    x.made = x.handoffs ∧ x.call = none

def Accepted.Kept (x : Accepted) : Prop := x.handed = 0 ∧ (x.interrupted = true → x.owned = true)

def Accepted.Preparing (x : Accepted) : Prop :=
  x.listed = true ∧ x.prepared = false ∧ x.Kept ∧ (x.closed = true → x.interrupted = true) ∧
    x.Unopened

def Accepted.Dismissed (x : Accepted) : Prop :=
  (x.handed = 1 ∧ x.closed = false ∧ x.interrupted = false ∧ x.owned = false ∨
    x.Kept ∧ (x.closed = true ∨ x.interrupted = true)) ∧ x.Unopened

def Accepted.InSession (x : Accepted) : Prop := x.Kept ∧ x.registered = true ∧ x.finished = false

def Accepted.Between (x : Accepted) : Prop :=
  x.active = false ∧ x.handoffDone = none ∧ x.made = x.handoffs

def Accepted.Delivered (x : Accepted) : Prop := ∃ ph, x.call = some ph ∧ ph ≠ .offered

def Accepted.Sound (x : Accepted) : Prop :=
  match x.pc with
  | .accepted => x = .new x.transport
  | .start | .first | .release _ | .discard _ | .admission | .decline => x.Preparing
  | .deliver _ | .offer _ => x.Preparing ∧ x.owned = false
  | .uncount .finish | .unlist false => x.listed = true ∧ x.prepared = false ∧ x.Dismissed
  | .uncount _ => x.Preparing
  | .adopt | .unlist true =>
    x.listed = true ∧ x.prepared = false ∧ x.InSession ∧ x.Between
  | .prepared false => x.listed = false ∧ x.Dismissed
  | .prepared true | .opening | .top | .rest | .idle | .resume | .closing =>
    x.listed = false ∧ x.InSession ∧ x.Between
  | .callDeliver | .callOffer | .handoff false =>
    x.listed = false ∧ x.InSession ∧ x.active = false ∧
      x.handoffDone = some x.handoffs ∧ x.made = x.handoffs + 1
  | .handoff true =>
    x.listed = false ∧ x.InSession ∧ x.active = false ∧
      x.handoffDone = some x.handoffs ∧ x.made = x.handoffs + 1 ∧ x.Delivered
  | .handedOff delivered =>
    x.listed = false ∧ x.InSession ∧ x.active = delivered ∧ x.handoffDone = none ∧
      x.made = x.handoffs + 1 ∧ (delivered = true → x.Delivered)
  | .exchange | .settled =>
    x.listed = false ∧ x.InSession ∧ x.active = true ∧ x.handoffDone = none ∧
      x.made = x.handoffs ∧ x.Delivered
  | .delist => x.listed = false ∧ x.InSession ∧ x.Between ∧ x.closed = true
  | .leave => x.listed = false ∧ x.Kept ∧ x.registered = false ∧ x.Between ∧ x.closed = true
  | .ended => x.listed = false ∧ x.registered = false ∧ x.Between ∧
      (x.Dismissed ∨ x.Kept ∧ x.closed = true)

theorem Accepted.sound_new (transport : Transport) : (Accepted.new transport).Sound := rfl

section

variable {x y : Accepted} {done : Bool}

theorem Accepted.Dismissed.sound_after (h : x.Dismissed) (counted : Bool)
    (hlisted : x.listed = true) (hprepared : x.prepared = false) :
    ({ x with pc := .after counted } : Accepted).Sound := by
  cases counted <;> exact ⟨hlisted, hprepared, h⟩

theorem Accepted.Sound.serve (h : x.Sound) {f : Finding} (hm : x.next done f = some y) :
    y.Sound := by
  -- every case starts from what is known at its place and the step from it
  cases hpc : x.pc with
    (simp only [Sound, hpc] at h; simp only [next, hpc, some.injEq, reduceCtorEq] at hm)
  | start =>
    rw [← hm]
    cases x.transport <;> exact h
  | first =>
    rw [← hm]
    cases f <;> exact h
  | uncount after =>
    rw [← hm]
    cases after <;> exact h
  | release counted =>
    obtain ⟨hlisted, hprepared, ⟨hhanded, hkept⟩, hclosed, hun⟩ := h
    split_ifs at hm with hint
    · cases hm
      have hdone : x.Dismissed := ⟨.inr ⟨⟨hhanded, hkept⟩, .inr hint⟩, hun⟩
      exact hdone.sound_after counted hlisted hprepared
    · cases hm
      exact ⟨⟨hlisted, hprepared, ⟨hhanded, fun hi => absurd hi hint⟩, hclosed, hun⟩, rfl⟩
  | deliver counted =>
    rw [← hm]
    cases done
    · exact h
    · exact h.1
  | offer counted =>
    split_ifs at hm
    cases hm
    exact h.1
  | discard counted =>
    rw [← hm]
    obtain ⟨hlisted, hprepared, hkept, -, hun⟩ := h
    have hdone : ({ x with closed := true } : Accepted).Dismissed := ⟨.inr ⟨hkept, .inl rfl⟩, hun⟩
    exact hdone.sound_after counted hlisted hprepared
  | decline =>
    rw [← hm]
    cases f <;> exact h
  | adopt =>
    rw [← hm]
    obtain ⟨hlisted, hprepared, ⟨⟨hhanded, hkept⟩, hsession⟩, hbetween⟩ := h
    refine ⟨hlisted, hprepared, ⟨⟨hhanded, fun hi => ?_⟩, hsession⟩, hbetween⟩
    have hi : x.interrupted = true := hi
    simp [hi, hkept hi]
  | unlist session =>
    rw [← hm]
    cases session
    · exact ⟨rfl, h.2.2⟩
    · exact ⟨rfl, h.2.2⟩
  | prepared session =>
    rw [← hm]
    cases session
    · obtain ⟨hlisted, hdismissed, hun⟩ := h
      exact ⟨hlisted, hun.1, ⟨hun.2.1, hun.2.2.2.1, hun.2.2.2.2.1⟩, .inl ⟨hdismissed, hun⟩⟩
    · exact h
  | opening =>
    rw [← hm]
    cases f <;> exact h
  | top =>
    obtain ⟨hlisted, hsession, hactive, hnone, hmade⟩ := h
    split_ifs at hm
    · cases hm
      exact ⟨hlisted, hsession, hactive, hnone, hmade⟩
    · cases hm
      exact ⟨hlisted, hsession, hactive, by simp [hmade], by simp [hmade]⟩
  | callDeliver =>
    rw [← hm]
    cases done <;> exact h
  | callOffer =>
    split_ifs at hm
    cases hm
    exact h
  | handoff delivered =>
    rw [← hm]
    cases delivered
    · obtain ⟨hlisted, hsession, -, -, hmade⟩ := h
      exact ⟨hlisted, hsession, rfl, rfl, hmade, fun hd => Bool.noConfusion hd⟩
    · obtain ⟨hlisted, hsession, -, -, hmade, hdelivered⟩ := h
      exact ⟨hlisted, hsession, rfl, rfl, hmade, fun _ => hdelivered⟩
  | handedOff delivered =>
    rw [← hm]
    obtain ⟨hlisted, hsession, hactive, hnone, hmade, hdelivered⟩ := h
    cases delivered
    · exact ⟨hlisted, hsession, hactive, hnone, hmade⟩
    · exact ⟨hlisted, hsession, hactive, hnone, hmade, hdelivered rfl⟩
  | exchange =>
    split_ifs at hm
    cases hm
    exact h
  | settled =>
    rw [← hm]
    obtain ⟨hlisted, hsession, -, hnone, hmade, -⟩ := h
    cases f <;> exact ⟨hlisted, hsession, rfl, hnone, hmade⟩
  | rest =>
    split_ifs at hm
    · cases hm
      exact h
    · cases hm
      exact h
  | idle =>
    rw [← hm]
    cases x.retiring
    · cases f <;> exact h
    · exact h
  | resume =>
    rw [← hm]
    cases f <;> exact h
  | closing =>
    rw [← hm]
    exact ⟨h.1, h.2.1, h.2.2, rfl⟩
  | delist =>
    rw [← hm]
    obtain ⟨hlisted, hsession, hbetween, hclosed⟩ := h
    exact ⟨hlisted, hsession.1, rfl, hbetween, hclosed⟩
  | leave =>
    rw [← hm]
    obtain ⟨hlisted, hkept, hregistered, hbetween, hclosed⟩ := h
    exact ⟨hlisted, hregistered, hbetween, .inr ⟨hkept, hclosed⟩⟩

theorem Accepted.Sound.take (h : x.Sound) (hm : x.take = some y) : y.Sound := by
  cases hpc : x.pc with
  | offer counted =>
    simp only [Sound, hpc] at h
    simp only [Accepted.take, hpc, some.injEq] at hm
    rw [← hm]
    obtain ⟨⟨hlisted, hprepared, ⟨hhanded, hkept⟩, hclosed, hun⟩, howned⟩ := h
    have hint : x.interrupted = false := by
      by_contra hint
      rw [hkept (by simpa using hint)] at howned
      cases howned
    have hdone : ({ x with handed := x.handed + 1 } : Accepted).Dismissed := by
      refine ⟨.inl ⟨by simp [hhanded], ?_, hint, howned⟩, hun⟩
      by_contra hclosed'
      rw [hclosed (by simpa using hclosed')] at hint
      cases hint
    exact hdone.sound_after counted hlisted hprepared
  | callOffer =>
    simp only [Sound, hpc] at h
    simp only [Accepted.take, hpc, some.injEq] at hm
    rw [← hm]
    obtain ⟨hlisted, hsession, hactive, hsome, hmade⟩ := h
    exact ⟨hlisted, hsession, hactive, hsome, hmade, .opened, rfl, by decide⟩
  | _ => simp [Accepted.take, hpc] at hm

/-- A step of another goroutine: it may interrupt the connection and close an
interrupted one, retire its session, or close its call. -/
structure Accepted.Foreign (x y : Accepted) : Prop where
  pc : y.pc = x.pc
  handed : y.handed = x.handed
  owned : y.owned = x.owned
  listed : y.listed = x.listed
  prepared : y.prepared = x.prepared
  registered : y.registered = x.registered
  active : y.active = x.active
  finished : y.finished = x.finished
  made : y.made = x.made
  handoffs : y.handoffs = x.handoffs
  handoffDone : y.handoffDone = x.handoffDone
  stays_closed : x.closed = true → y.closed = true
  closes : y.closed = true → x.closed = true ∨ y.interrupted = true
  stays_interrupted : x.interrupted = true → y.interrupted = true
  interrupts : y.interrupted = true → x.interrupted = true ∨ x.owned = true
  call : x.call = none → y.call = none
  delivered : x.Delivered → y.Delivered

namespace Accepted.Foreign

variable (hf : x.Foreign y)

include hf

theorem kept (h : x.Kept) : y.Kept := by
  refine ⟨hf.handed.trans h.1, fun hint => ?_⟩
  rw [hf.owned]
  rcases hf.interrupts hint with hint | howned
  · exact h.2 hint
  · exact howned

theorem unopened (h : x.Unopened) : y.Unopened := by
  obtain ⟨hregistered, hactive, hfinished, hnone, hmade, hcall⟩ := h
  refine ⟨hf.registered.trans hregistered, hf.active.trans hactive,
    hf.finished.trans hfinished, hf.handoffDone.trans hnone, ?_, hf.call hcall⟩
  rw [hf.made, hf.handoffs, hmade]

theorem preparing (h : x.Preparing) : y.Preparing := by
  obtain ⟨hlisted, hprepared, hkept, hclosed, hun⟩ := h
  refine ⟨hf.listed.trans hlisted, hf.prepared.trans hprepared, hf.kept hkept, fun hc => ?_,
    hf.unopened hun⟩
  rcases hf.closes hc with hc | hint
  · exact hf.stays_interrupted (hclosed hc)
  · exact hint

theorem dismissed (h : x.Dismissed) : y.Dismissed := by
  obtain ⟨⟨hhanded, hclosed, hint, howned⟩ | ⟨hkept, hshut⟩, hun⟩ := h
  · have hint' : y.interrupted = false := by
      by_contra hne
      rcases hf.interrupts (by simpa using hne) with h | h
      · rw [h] at hint
        cases hint
      · rw [h] at howned
        cases howned
    have hclosed' : y.closed = false := by
      by_contra hne
      rcases hf.closes (by simpa using hne) with h | h
      · rw [h] at hclosed
        cases hclosed
      · rw [h] at hint'
        cases hint'
    exact ⟨.inl ⟨hf.handed.trans hhanded, hclosed', hint', hf.owned.trans howned⟩, hf.unopened hun⟩
  · exact ⟨.inr ⟨hf.kept hkept, hshut.imp hf.stays_closed hf.stays_interrupted⟩, hf.unopened hun⟩

theorem inSession (h : x.InSession) : y.InSession :=
  ⟨hf.kept h.1, hf.registered.trans h.2.1, hf.finished.trans h.2.2⟩

theorem between (h : x.Between) : y.Between := by
  refine ⟨hf.active.trans h.1, hf.handoffDone.trans h.2.1, ?_⟩
  rw [hf.made, hf.handoffs, h.2.2]

theorem sound (h : x.Sound) (hne : x.pc ≠ .accepted) : y.Sound := by
  unfold Sound at h ⊢
  rw [hf.pc]
  revert h
  cases hpc : x.pc with
  | accepted => exact absurd hpc hne
  | start | first | release | discard | admission | decline => exact hf.preparing
  | deliver | offer => exact fun h => ⟨hf.preparing h.1, hf.owned.trans h.2⟩
  | uncount after =>
    cases after with
    | finish =>
      exact fun h => ⟨hf.listed.trans h.1, hf.prepared.trans h.2.1, hf.dismissed h.2.2⟩
    | _ => exact hf.preparing
  | unlist session =>
    cases session with
    | false =>
      exact fun h => ⟨hf.listed.trans h.1, hf.prepared.trans h.2.1, hf.dismissed h.2.2⟩
    | true => exact fun h => ⟨hf.listed.trans h.1, hf.prepared.trans h.2.1,
        hf.inSession h.2.2.1, hf.between h.2.2.2⟩
  | adopt => exact fun h => ⟨hf.listed.trans h.1, hf.prepared.trans h.2.1,
      hf.inSession h.2.2.1, hf.between h.2.2.2⟩
  | prepared session =>
    cases session with
    | false => exact fun h => ⟨hf.listed.trans h.1, hf.dismissed h.2⟩
    | true => exact fun h => ⟨hf.listed.trans h.1, hf.inSession h.2.1, hf.between h.2.2⟩
  | opening | top | rest | idle | resume | closing =>
    exact fun h => ⟨hf.listed.trans h.1, hf.inSession h.2.1, hf.between h.2.2⟩
  | callDeliver | callOffer =>
    simp only [hf.listed, hf.active, hf.handoffDone, hf.handoffs, hf.made]
    exact fun h => ⟨h.1, hf.inSession h.2.1, h.2.2⟩
  | handoff delivered =>
    cases delivered with
    | false =>
      simp only [hf.listed, hf.active, hf.handoffDone, hf.handoffs, hf.made]
      exact fun h => ⟨h.1, hf.inSession h.2.1, h.2.2⟩
    | true =>
      simp only [hf.listed, hf.active, hf.handoffDone, hf.handoffs, hf.made]
      exact fun h => ⟨h.1, hf.inSession h.2.1, h.2.2.1, h.2.2.2.1, h.2.2.2.2.1,
        hf.delivered h.2.2.2.2.2⟩
  | handedOff delivered =>
    simp only [hf.listed, hf.active, hf.handoffDone, hf.handoffs, hf.made]
    exact fun h => ⟨h.1, hf.inSession h.2.1, h.2.2.1, h.2.2.2.1, h.2.2.2.2.1,
      fun hd => hf.delivered (h.2.2.2.2.2 hd)⟩
  | exchange | settled =>
    simp only [hf.listed, hf.active, hf.handoffDone, hf.handoffs, hf.made]
    exact fun h => ⟨h.1, hf.inSession h.2.1, h.2.2.1, h.2.2.2.1, h.2.2.2.2.1,
      hf.delivered h.2.2.2.2.2⟩
  | delist => exact fun h => ⟨hf.listed.trans h.1, hf.inSession h.2.1, hf.between h.2.2.1,
      hf.stays_closed h.2.2.2⟩
  | leave => exact fun h => ⟨hf.listed.trans h.1, hf.kept h.2.1, hf.registered.trans h.2.2.1,
      hf.between h.2.2.2.1, hf.stays_closed h.2.2.2.2⟩
  | ended => exact fun h => ⟨hf.listed.trans h.1, hf.registered.trans h.2.1,
      hf.between h.2.2.1, h.2.2.2.imp hf.dismissed fun hk => ⟨hf.kept hk.1, hf.stays_closed hk.2⟩⟩

end Accepted.Foreign

theorem Accepted.Foreign.refl (x : Accepted) : x.Foreign x where
  pc := rfl
  handed := rfl
  owned := rfl
  listed := rfl
  prepared := rfl
  registered := rfl
  active := rfl
  finished := rfl
  made := rfl
  handoffs := rfl
  handoffDone := rfl
  stays_closed := id
  closes := .inl
  stays_interrupted := id
  interrupts := .inl
  call := id
  delivered := id

theorem Accepted.foreign_of_callClose (hm : x.callClose done = some y) :
    x.Foreign y ∧ x.call ≠ none ∧ y.interrupted = x.interrupted := by
  have key : ∀ ph ph' : CallPhase, x.call = some ph → ph' ≠ .offered →
      y = { x with call := some ph' } →
      x.Foreign y ∧ x.call ≠ none ∧ y.interrupted = x.interrupted := by
    rintro ph ph' hcall hph' rfl
    refine ⟨{ Foreign.refl x with call := fun hnone => ?_, delivered := fun _ => ?_ }, ?_, rfl⟩
    · rw [hcall] at hnone
      cases hnone
    · exact ⟨ph', rfl, hph'⟩
    · rw [hcall]
      exact fun h => by cases h
  cases hcall : x.call with
  | none => simp [callClose, hcall] at hm
  | some ph =>
    cases ph with
      simp only [callClose, hcall, some.injEq, reduceCtorEq] at hm
    | opened =>
      exact hcall ▸ key _ .closing hcall (by decide) hm.symm
    | closing =>
      exact hcall ▸ key _ .done hcall (by decide) hm.symm
    | done =>
      cases done
      · exact hcall ▸ key _ .returned hcall (by decide) hm.symm
      · exact hcall ▸ key _ .waiting hcall (by decide) hm.symm
    | waiting =>
      split_ifs at hm
      exact hcall ▸ key _ .returned hcall (by decide) (some.inj hm).symm

theorem AcceptedMoved.foreign_interrupt (howned : x.owned = true) :
    x.Foreign { x with interrupted := true } :=
  { Accepted.Foreign.refl x with
    closes := .inl, stays_interrupted := fun _ => rfl, interrupts := fun _ => .inr howned }

theorem AcceptedMoved.foreign_close (hint : x.interrupted = true) :
    x.Foreign { x with closed := true } :=
  { Accepted.Foreign.refl x with stays_closed := fun _ => rfl, closes := fun _ => .inr hint }

theorem AcceptedMoved.foreign_retire : x.Foreign x.retire := { Accepted.Foreign.refl x with }

theorem Accepted.Sound.moved (h : x.Sound) (hm : AcceptedMoved done x y) : y.Sound := by
  have hnew : ∀ {p : Prop}, (x = .new x.transport → p) → x.pc = .accepted → p := by
    intro p hp hpc
    simp only [Sound, hpc] at h
    exact hp h
  cases hm with
  | serve f hm => exact h.serve hm
  | admitted hpc hopen =>
    simp only [Sound, hpc] at h
    obtain ⟨hlisted, hprepared, hkept, -, -, hactive, hfinished, hnone, hmade, -⟩ := h
    exact ⟨hlisted, hprepared, ⟨hkept, rfl, hfinished⟩, hactive, hnone, hmade⟩
  | declined hpc =>
    simp only [Sound, hpc] at h
    exact h
  | take hm => exact h.take hm
  | caller hm =>
    obtain ⟨hf, hcall, -⟩ := foreign_of_callClose hm
    refine hf.sound h fun hpc => hnew (fun heq => hcall ?_) hpc
    rw [heq]
    rfl
  | begin hpc hopen =>
    refine hnew (fun heq => ?_) hpc
    rw [heq]
    exact ⟨rfl, rfl, ⟨rfl, fun hi => by cases hi⟩, fun hc => (by cases hc), rfl, rfl, rfl,
      rfl, rfl, rfl⟩
  | refuse hpc =>
    refine hnew (fun heq => ?_) hpc
    rw [heq]
    exact ⟨rfl, rfl, ⟨rfl, rfl, rfl⟩, .inr ⟨⟨rfl, fun hi => by cases hi⟩, rfl⟩⟩
  | interrupt howned hnot =>
    refine (AcceptedMoved.foreign_interrupt howned).sound h fun hpc => hnew (fun heq => ?_) hpc
    rw [heq] at howned
    cases howned
  | close hint =>
    refine (AcceptedMoved.foreign_close hint).sound h fun hpc => hnew (fun heq => ?_) hpc
    rw [heq] at hint
    cases hint
  | retire hregistered =>
    refine AcceptedMoved.foreign_retire.sound h fun hpc => hnew (fun heq => ?_) hpc
    rw [heq] at hregistered
    cases hregistered

/-- The situations a connection can be in: with the accept loop, in `prepare`, dismissed
by it, in session mode, or after its session. -/
inductive Accepted.Situation (x : Accepted) : Prop
  | accepted (h : x = .new x.transport)
  | preparing (h : x.Preparing)
  | dismissed (h : x.Dismissed)
  | inSession (h : x.InSession) (hactive : x.active = true → x.Delivered)
  | left (hkept : x.Kept) (hclosed : x.closed = true) (hregistered : x.registered = false)
      (hactive : x.active = false)

theorem Accepted.Between.inactive (h : x.Between) (hactive : x.active = true) : x.Delivered := by
  rw [h.1] at hactive
  cases hactive

theorem Accepted.Sound.situation (h : x.Sound) : x.Situation := by
  unfold Sound at h
  cases hpc : x.pc <;> simp only [hpc] at h
  case accepted => exact .accepted h
  case start | first | release | discard | admission | decline => exact .preparing h
  case deliver | offer => exact .preparing h.1
  case uncount after =>
    cases after with
    | finish => exact .dismissed h.2.2
    | _ => exact .preparing h
  case unlist session =>
    cases session with
    | false => exact .dismissed h.2.2
    | true => exact .inSession h.2.2.1 h.2.2.2.inactive
  case adopt => exact .inSession h.2.2.1 h.2.2.2.inactive
  case prepared session =>
    cases session with
    | false => exact .dismissed h.2
    | true => exact .inSession h.2.1 h.2.2.inactive
  case opening | top | rest | idle | resume | closing =>
    exact .inSession h.2.1 h.2.2.inactive
  case callDeliver | callOffer =>
    exact .inSession h.2.1 fun hactive => absurd (h.2.2.1.symm.trans hactive) (by simp)
  case handoff delivered =>
    cases delivered <;>
      exact .inSession h.2.1 fun hactive => absurd (h.2.2.1.symm.trans hactive) (by simp)
  case handedOff delivered =>
    exact .inSession h.2.1 fun hactive => h.2.2.2.2.2 (h.2.2.1.symm.trans hactive)
  case exchange | settled => exact .inSession h.2.1 fun _ => h.2.2.2.2.2
  case delist => exact .inSession h.2.1 h.2.2.1.inactive
  case leave => exact .left h.2.1 h.2.2.2.2 h.2.2.1 h.2.2.2.1.1
  case ended =>
    rcases h.2.2.2 with hd | hk
    · exact .dismissed hd
    · exact .left hk.1 hk.2 h.2.1 h.2.2.1.1

theorem Accepted.Unopened.unfinished (h : x.Unopened) : x.finished = false := h.2.2.1

theorem Accepted.Sound.closed_of_finished (h : x.Sound) (hfinished : x.finished = true) :
    x.closed = true := by
  have hno : x.finished ≠ false := by simp [hfinished]
  cases h.situation with
  | accepted heq => exact absurd (by rw [heq]; rfl) hno
  | preparing hp => exact absurd hp.2.2.2.2.unfinished hno
  | dismissed hd => exact absurd hd.2.unfinished hno
  | inSession hs => exact absurd hs.2.2 hno
  | left _ hclosed => exact hclosed

theorem Accepted.Sound.delivered_of_active (h : x.Sound) (hactive : x.active = true) :
    x.Delivered := by
  have hno : x.active ≠ false := by simp [hactive]
  cases h.situation with
  | accepted heq => exact absurd (by rw [heq]; rfl) hno
  | preparing hp => exact absurd hp.2.2.2.2.2.1 hno
  | dismissed hd => exact absurd hd.2.2.1 hno
  | inSession hs hdelivered => exact hdelivered hactive
  | left _ _ _ hinactive => exact absurd hinactive hno

theorem Accepted.Sound.dismissed (h : x.Sound) (hpc : x.pc ≠ .accepted)
    (hlisted : x.listed = false) (hregistered : x.registered = false) :
    0 < x.handed ∨ x.closed = true ∨ x.interrupted = true := by
  cases h.situation with
  | accepted heq => exact absurd (by rw [heq]; rfl) hpc
  | preparing hp => exact absurd (hp.1.symm.trans hlisted) (by simp)
  | dismissed hd =>
    obtain ⟨⟨hhanded, -⟩ | ⟨-, hshut⟩, -⟩ := hd
    · exact .inl (by omega)
    · exact .inr hshut
  | inSession hs => exact absurd (hs.2.1.symm.trans hregistered) (by simp)
  | left _ hclosed => exact .inr (.inl hclosed)

theorem Accepted.Sound.handed (h : x.Sound) : x.handed ≤ 1 ∧ (0 < x.handed → x.closed = false) := by
  have hzero : x.handed = 0 → x.handed ≤ 1 ∧ (0 < x.handed → x.closed = false) := by
    intro hzero
    exact ⟨by omega, fun hpos => absurd hpos (by omega)⟩
  cases h.situation with
  | accepted heq => exact hzero (by rw [heq]; rfl)
  | preparing hp => exact hzero hp.2.2.1.1
  | dismissed hd =>
    obtain ⟨⟨hhanded, hclosed, -⟩ | ⟨hkept, -⟩, -⟩ := hd
    · exact ⟨by omega, fun _ => hclosed⟩
    · exact hzero hkept.1
  | inSession hs => exact hzero hs.1.1
  | left hkept => exact hzero hkept.1

/-- The listener has closed the connection or handed it over, or a call on it was
delivered and the `Close` of its caller has not returned. -/
def Accepted.Drained (x : Accepted) : Prop :=
  x.closed = true ∨ 0 < x.handed ∨
    ∃ ph, x.call = some ph ∧ ph ≠ .offered ∧ ph ≠ .returned

/-- What a step of the goroutine changes, and what it leaves alone: with the listener
closed, also the call. -/
structure Accepted.Effect (done : Bool) (x y : Accepted) : Prop where
  closed : x.closed = true → y.closed = true
  handed : y.handed = x.handed
  interrupted : y.interrupted = x.interrupted
  listed : x.listed = false → y.listed = false
  place : y.pc ≠ .accepted
  counted : y.pc.counted = (x.pc.counted && !x.pc.uncounts)
  call : done = true → y.call = x.call

theorem Accepted.effect_of_next {f : Finding} (hm : x.next done f = some y) : x.Effect done y := by
  cases hpc : x.pc with
    simp only [next, hpc, some.injEq, reduceCtorEq] at hm
  | start =>
    rw [← hm]
    cases x.transport <;> constructor <;>
      simp [hpc, counted, uncounts]
  | first | idle =>
    rw [← hm]
    cases f <;> cases x.retiring <;> constructor <;>
      simp [hpc, counted, uncounts]
  | uncount after =>
    rw [← hm]
    cases after <;> constructor <;>
      simp [hpc, AfterWait.pc, counted, uncounts]
  | release counted =>
    split_ifs at hm <;> cases hm <;> cases counted <;>
      constructor <;> simp [hpc, after, counted, uncounts]
  | discard counted =>
    rw [← hm]
    cases counted <;> constructor <;> simp [hpc, after, counted, uncounts]
  | deliver | callDeliver =>
    rw [← hm]
    cases done <;> constructor <;>
      simp [hpc, counted, uncounts]
  | decline | opening | settled | resume =>
    rw [← hm]
    cases f <;> constructor <;>
      simp [hpc, counted, uncounts]
  | prepared flag | handedOff flag =>
    rw [← hm]
    cases flag <;> constructor <;>
      simp [hpc, counted, uncounts]
  | adopt | unlist | handoff | closing | delist | leave =>
    rw [← hm]
    constructor <;> simp [hpc, counted, uncounts]
  | offer | callOffer | exchange =>
    split_ifs at hm
    cases hm
    constructor <;> simp [hpc, counted, uncounts]
  | top | rest =>
    split_ifs at hm with hstop <;> cases hm <;> constructor <;>
      simp_all [counted, uncounts]

structure Accepted.Forward (x y : Accepted) : Prop where
  closed : x.closed = true → y.closed = true
  handed : x.handed ≤ y.handed
  listed : x.pc ≠ .accepted → x.listed = false → y.listed = false
  place : y.pc = .accepted → x.pc = .accepted

theorem Accepted.Foreign.forward (hf : x.Foreign y) : x.Forward y where
  closed := hf.stays_closed
  handed := hf.handed.ge
  listed := fun _ h => hf.listed.trans h
  place := fun h => hf.pc ▸ h

theorem Accepted.forward_of_take (hm : x.take = some y) : x.Forward y := by
  cases hpc : x.pc with
  | offer counted =>
    simp only [take, hpc, some.injEq] at hm
    rw [← hm]
    cases counted <;> constructor <;> simp [after]
  | callOffer =>
    simp only [take, hpc, some.injEq] at hm
    rw [← hm]
    constructor <;> simp [hpc]
  | _ => simp [take, hpc] at hm

theorem AcceptedMoved.forward (hm : AcceptedMoved done x y) : x.Forward y := by
  cases hm with
  | serve f hm =>
    have he := Accepted.effect_of_next hm
    exact ⟨he.closed, he.handed.ge, fun _ => he.listed, fun h => absurd h he.place⟩
  | admitted hpc => constructor <;> simp
  | declined hpc => constructor <;> simp
  | take hm => exact Accepted.forward_of_take hm
  | caller hm => exact (Accepted.foreign_of_callClose hm).1.forward
  | begin hpc => constructor <;> simp [hpc]
  | refuse hpc => constructor <;> simp
  | interrupt howned => exact (foreign_interrupt howned).forward
  | close hint => exact (foreign_close hint).forward
  | retire => exact foreign_retire.forward

theorem Accepted.Drained.callClose (h : x.Drained) (hx : x.Sound)
    (hm : x.callClose true = some y) : y.Drained := by
  obtain ⟨hf, -⟩ := foreign_of_callClose hm
  rcases h with hclosed | hhanded | ⟨ph, hcall, -, hret⟩
  · exact .inl (hf.stays_closed hclosed)
  · exact .inr (.inl (hf.handed ▸ hhanded))
  · cases ph with
      simp only [Accepted.callClose, hcall, some.injEq] at hm
    | offered => simp at hm
    | opened =>
      rw [← hm]
      exact .inr (.inr ⟨.closing, rfl, by decide, by decide⟩)
    | closing =>
      rw [← hm]
      exact .inr (.inr ⟨.done, rfl, by decide, by decide⟩)
    | done =>
      rw [← hm]
      exact .inr (.inr ⟨.waiting, rfl, by decide, by decide⟩)
    | waiting =>
      split_ifs at hm with hfinished
      exact .inl (hf.stays_closed (hx.closed_of_finished hfinished))
    | returned => exact absurd rfl hret

/-- A drained connection stays so once the listener is closed: its session starts no
exchange, and the `Close` of a caller returns only after the session. -/
theorem Accepted.Drained.moved (h : x.Drained) (hx : x.Sound)
    (hm : AcceptedMoved true x y) : y.Drained := by
  have hforward := hm.forward
  have key : y.call = x.call → y.Drained := by
    intro hcall
    rcases h with hclosed | hhanded | hopen
    · exact .inl (hforward.closed hclosed)
    · exact .inr (.inl (lt_of_lt_of_le hhanded hforward.handed))
    · exact .inr (.inr (by rwa [hcall]))
  cases hm with
  | serve f hm => exact key ((effect_of_next hm).call rfl)
  | take hm =>
    cases hpc : x.pc with
    | offer counted =>
      simp only [Accepted.take, hpc, some.injEq] at hm
      rw [← hm]
      exact .inr (.inl (Nat.succ_pos _))
    | callOffer =>
      simp only [Accepted.take, hpc, some.injEq] at hm
      rw [← hm]
      exact .inr (.inr ⟨.opened, rfl, by decide, by decide⟩)
    | _ => simp [Accepted.take, hpc] at hm
  | caller hm => exact h.callClose hx hm
  | _ => exact key rfl

end

end Listen
