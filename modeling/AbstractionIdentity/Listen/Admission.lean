import AbstractionIdentity.Transition.Run
import Mathlib.Algebra.Order.Ring.Int
import Mathlib.Data.List.Induction
import Mathlib.Data.List.Perm.Basic

/-!
# Admission of sessions

An opening that finds `MaxSessions` sessions retires each one it meets and is admitted at the first
that is idle (`prepare`), under the listener's lock; but the states of the sessions move between
two steps of the walk. `retire` reports idle also when the session was retired before and has not
woken, so two openings can be paid for by one retirement. The limit holds along
`wokenBeforeOpening`.
-/

namespace Listen

open Transition List Option

/-- Where the goroutine of a session stands: an exchange is being served, the
next header is waited for, or `run` is about to return. -/
inductive Phase where
  | serving
  | waiting
  | leaving
  deriving DecidableEq

structure SessionState where
  phase : Phase
  retiring : Bool
  deriving DecidableEq

def SessionState.idle (s : SessionState) : Bool := s.phase = .waiting

def SessionState.retire (s : SessionState) : SessionState := { s with retiring := true }

/-- A session rests, notices that its binding expired, wakes up, or leaves after a call that cannot
be continued. -/
inductive SessionAct where
  | rest (expired deadlineFails : Bool)
  | expire
  | wake (expired usable : Bool)
  | leave
  deriving DecidableEq

def SessionState.next : SessionAct → SessionState → SessionState
  | .rest expired deadlineFails, ⟨.serving, retiring⟩ =>
    if retiring || expired || deadlineFails then ⟨.leaving, true⟩
    else ⟨.waiting, false⟩
  | .expire, ⟨.serving, _⟩ => ⟨.serving, true⟩
  | .wake expired usable, ⟨.waiting, retiring⟩ =>
    if retiring || expired || !usable then ⟨.leaving, retiring⟩
    else ⟨.serving, retiring⟩
  | .leave, ⟨.serving, retiring⟩ => ⟨.leaving, retiring⟩
  | _, s => s

/-- The part of `prepare` under the listener's lock: the sessions still to be
tried, and whether the opening is admitted. -/
structure Opening where
  todo : List ℕ
  admitted : Bool
  deriving DecidableEq

/-- The listener. A session is named by its place among the registered ones,
which does not change while an opening holds the lock (`opening`). -/
structure Admission where
  maxSessions : ℕ
  sessions : List SessionState
  opening : Option Opening
  done : Bool
  deriving DecidableEq

def Admission.start (maxSessions : ℕ) : Admission := ⟨maxSessions, [], none, false⟩

inductive AdmissionAct where
  | openBegin (order : List ℕ)
  | retireNext
  | openEnd
  | session (i : ℕ) (act : SessionAct)
  | finish (i : ℕ)
  | close
  | retireAll
  deriving DecidableEq

/-- The steps under the listener's lock, those of the sessions, and the start of `Close`. -/
def admissionStep (s : Admission) : AdmissionAct → Option Admission
  | .openBegin order =>
    if s.opening = none ∧ order.Perm (List.range s.sessions.length) then
      some { s with
        opening := some (if s.sessions.length < s.maxSessions then ⟨[], true⟩
          else ⟨order, false⟩) }
    else none
  | .retireNext =>
    match s.opening with
    | some ⟨i :: todo, admitted⟩ =>
      s.sessions[i]?.map fun x =>
        { s with
          sessions := s.sessions.set i x.retire
          -- the walk ends at the first session that reports it was idle
          opening := some (if x.idle then ⟨[], true⟩ else ⟨todo, admitted⟩) }
    | _ => none
  | .openEnd =>
    match s.opening with
    | some ⟨[], admitted⟩ =>
      some { s with
        sessions := if admitted && !s.done then s.sessions ++ [⟨.serving, false⟩]
          else s.sessions
        opening := none }
    | _ => none
  | .session i act =>
    s.sessions[i]?.map fun x => { s with sessions := s.sessions.set i (x.next act) }
  | .finish i =>
    if s.opening = none ∧ s.sessions[i]?.map (·.phase) = some .leaving then
      some { s with sessions := s.sessions.eraseIdx i }
    else none
  | .close => some { s with done := true }
  | .retireAll =>
    if s.opening = none ∧ s.done = true then
      some { s with sessions := s.sessions.map .retire }
    else none

def SessionState.weight (s : SessionState) : ℕ := if s.retiring then 0 else 1

def live (l : List SessionState) : ℕ := (l.map SessionState.weight).sum

theorem live_cons (s : SessionState) (l : List SessionState) :
    live (s :: l) = s.weight + live l := by
  simp [live]

theorem weight_le_one (s : SessionState) : s.weight ≤ 1 := by
  rw [SessionState.weight]
  split_ifs <;> omega

theorem live_le_length (l : List SessionState) : live l ≤ l.length := by
  induction l with
  | nil => exact Nat.le_refl 0
  | cons s l ih =>
    have hs := weight_le_one s
    rw [live_cons, length_cons]
    omega

theorem live_append_singleton (l : List SessionState) (s : SessionState) :
    live (l ++ [s]) = live l + s.weight := by
  simp [live]

theorem live_eraseIdx_le (l : List SessionState) (i : ℕ) : live (l.eraseIdx i) ≤ live l := by
  induction l generalizing i with
  | nil => exact Nat.le_refl 0
  | cons s l ih =>
    cases i with
    | zero =>
      rw [eraseIdx_cons_zero, live_cons]
      omega
    | succ i =>
      rw [eraseIdx_cons_succ, live_cons, live_cons]
      exact Nat.add_le_add_left (ih i) _

theorem live_map_retire (l : List SessionState) : live (l.map .retire) = 0 := by
  induction l with
  | nil => rfl
  | cons s l ih =>
    rw [map_cons, live_cons, ih]
    rfl

theorem live_set {l : List SessionState} {i : ℕ} {x : SessionState}
    (h : l[i]? = some x) (y : SessionState) :
    live (l.set i y) + x.weight = live l + y.weight := by
  induction l generalizing i with
  | nil => simp at h
  | cons s l ih =>
    cases i with
    | zero =>
      obtain rfl : s = x := by simpa using h
      rw [set_cons_zero, live_cons, live_cons]
      omega
    | succ i =>
      have hset := ih (by simpa using h)
      rw [set_cons_succ, live_cons, live_cons]
      omega

theorem weight_next_le (act : SessionAct) (s : SessionState) : (s.next act).weight ≤ s.weight := by
  obtain ⟨phase, retiring⟩ := s
  cases retiring with
  | false => exact weight_le_one _
  | true =>
    cases act <;> cases phase <;> simp [SessionState.next, SessionState.weight]

theorem idle_next (act : SessionAct) {s : SessionState} (h : s.idle = true → s.retiring = false) :
    (s.next act).idle = true → (s.next act).retiring = false := by
  obtain ⟨phase, retiring⟩ := s
  cases phase <;> cases act <;>
    simp_all [SessionState.next, SessionState.idle] <;> split <;> simp_all

/-- The bound, with what it needs while an opening holds the lock. -/
structure Bounded (s : Admission) : Prop where
  live_le : live s.sessions ≤ s.maxSessions
  room : s.done = false → ∀ o, s.opening = some o → o.admitted = true →
    live s.sessions < s.maxSessions
  woken : s.done = false → ∀ o, s.opening = some o → o.admitted = false →
    o.todo ≠ [] → ∀ x ∈ s.sessions, x.idle = true → x.retiring = false
  walked : ∀ o, s.opening = some o → o.admitted = true → o.todo = []

def wokenBeforeOpening (s : Admission) : AdmissionAct → Prop
  | .openBegin _ => s.done = true ∨ s.sessions.length < s.maxSessions ∨
      ∀ x ∈ s.sessions, x.idle = true → x.retiring = false
  | _ => True

instance (s : Admission) : DecidablePred (wokenBeforeOpening s)
  | .openBegin _ => inferInstanceAs (Decidable (_ ∨ _))
  | .retireNext | .openEnd | .session _ _ | .finish _ | .close | .retireAll =>
    isTrue trivial

theorem bounded_start (maxSessions : ℕ) : Bounded (.start maxSessions) :=
  ⟨Nat.zero_le _, nofun, nofun, nofun⟩

variable {s t : Admission}

theorem bounded_of_live_le (hlive : live s.sessions ≤ s.maxSessions)
    (hopening : s.opening = none) : Bounded s :=
  ⟨hlive, by simp [hopening], by simp [hopening], by simp [hopening]⟩

theorem Bounded.openBegin {order : List ℕ} (h : Bounded s)
    (hok : wokenBeforeOpening s (.openBegin order))
    (hstep : admissionStep s (.openBegin order) = some t) : Bounded t := by
  by_cases hroom : s.sessions.length < s.maxSessions
  · simp only [admissionStep, hroom, ↓reduceIte, ite_none_right_eq_some, some.injEq] at hstep
    obtain ⟨_, rfl⟩ := hstep
    refine ⟨h.live_le, fun _ _ _ _ => Nat.lt_of_le_of_lt (live_le_length _) hroom, ?_, ?_⟩
    · rintro _ _ ⟨⟩ hadmitted
      cases hadmitted
    · rintro _ ⟨⟩ _
      rfl
  · simp only [admissionStep, hroom, ↓reduceIte, ite_none_right_eq_some, some.injEq] at hstep
    obtain ⟨_, rfl⟩ := hstep
    refine ⟨h.live_le, ?_, ?_, ?_⟩
    · rintro _ _ ⟨⟩ hadmitted
      cases hadmitted
    · intro hdone _ _ _ _
      rcases hok with hdone' | hlt | hwoken
      · exact absurd (hdone.symm.trans hdone') Bool.false_ne_true
      · exact absurd hlt hroom
      · exact hwoken
    · rintro _ ⟨⟩ hadmitted
      cases hadmitted

theorem Bounded.retireNext (h : Bounded s)
    (hstep : admissionStep s .retireNext = some t) : Bounded t := by
  rw [admissionStep] at hstep
  split at hstep
  · next i todo admitted hopening =>
      obtain ⟨x, hx, rfl⟩ := map_eq_some_iff.1 hstep
      have hset : live (s.sessions.set i x.retire) + x.weight = live s.sessions :=
        live_set hx x.retire
      have hle : live (s.sessions.set i x.retire) ≤ live s.sessions := by omega
      refine ⟨Nat.le_trans hle h.live_le, ?_, ?_, ?_⟩
      · intro hdone o ho hadmitted
        cases hold : admitted with
        | true =>
          exact Nat.lt_of_le_of_lt hle (h.room hdone _ hopening hold)
        | false =>
          -- the walk was still going on, so only an idle session ends it, and
          -- that session was not retiring before
          have hidle : x.idle = true := by
            by_contra hne
            simp only [hne, some.injEq] at ho
            subst ho
            exact absurd hadmitted (by simp [hold])
          have hlive : x.retiring = false :=
            h.woken hdone _ hopening hold (by simp) x (mem_of_getElem? hx) hidle
          have hweight : x.weight = 1 := by simp [SessionState.weight, hlive]
          refine Nat.lt_of_lt_of_le ?_ h.live_le
          show live (s.sessions.set i x.retire) < live s.sessions
          omega
      · intro hdone o ho hadmitted htodo y hy hidle
        by_cases hx' : x.idle = true
        · simp only [hx', ↓reduceIte, some.injEq] at ho
          subst ho
          cases hadmitted
        · simp only [hx', some.injEq] at ho
          subst ho
          rcases mem_or_eq_of_mem_set hy with hold | rfl
          · exact h.woken hdone _ hopening hadmitted (by simp) y hold hidle
          · exact absurd hidle hx'
      · intro o ho hadmitted
        by_cases hx' : x.idle = true
        · simp only [hx', ↓reduceIte, some.injEq] at ho
          rw [← ho]
        · simp only [hx', some.injEq] at ho
          subst ho
          exact absurd (h.walked _ hopening hadmitted) (cons_ne_nil _ _)
  · cases hstep

theorem Bounded.openEnd (h : Bounded s) (hstep : admissionStep s .openEnd = some t) :
    Bounded t := by
  rw [admissionStep] at hstep
  split at hstep
  · next admitted hopening =>
      cases hstep
      refine bounded_of_live_le ?_ rfl
      show live (if _ then _ else _) ≤ _
      split_ifs with hadd
      · obtain ⟨hadmitted, hdone⟩ : admitted = true ∧ s.done = false := by simpa using hadd
        rw [live_append_singleton]
        exact h.room hdone _ hopening hadmitted
      · exact h.live_le
  · cases hstep

theorem Bounded.session {i : ℕ} {act : SessionAct} (h : Bounded s)
    (hstep : admissionStep s (.session i act) = some t) : Bounded t := by
  obtain ⟨x, hx, rfl⟩ := map_eq_some_iff.1 hstep
  have hle : live (s.sessions.set i (x.next act)) ≤ live s.sessions := by
    have hset := live_set hx (x.next act)
    have hnext := weight_next_le act x
    omega
  refine ⟨Nat.le_trans hle h.live_le, ?_, ?_, h.walked⟩
  · intro hdone o ho hadmitted
    exact Nat.lt_of_le_of_lt hle (h.room hdone o ho hadmitted)
  · intro hdone o ho hadmitted htodo y hy
    have hwoken := h.woken hdone o ho hadmitted htodo
    rcases mem_or_eq_of_mem_set hy with hold | rfl
    · exact hwoken y hold
    · exact idle_next act (hwoken x (mem_of_getElem? hx))

theorem Bounded.step {a : AdmissionAct} (h : Bounded s)
    (hok : wokenBeforeOpening s a) (hstep : admissionStep s a = some t) : Bounded t := by
  cases a with
  | openBegin order => exact h.openBegin hok hstep
  | retireNext => exact h.retireNext hstep
  | openEnd => exact h.openEnd hstep
  | session i act => exact h.session hstep
  | finish i =>
    rw [admissionStep] at hstep
    split_ifs at hstep with hfree
    cases hstep
    exact bounded_of_live_le (Nat.le_trans (live_eraseIdx_le _ i) h.live_le) hfree.1
  | close =>
    cases hstep
    exact ⟨h.live_le, nofun, nofun, h.walked⟩
  | retireAll =>
    rw [admissionStep] at hstep
    split_ifs at hstep with hfree
    cases hstep
    refine bounded_of_live_le ?_ hfree.1
    show live (s.sessions.map .retire) ≤ _
    rw [live_map_retire]
    exact Nat.zero_le _

theorem maxSessions_step {a : AdmissionAct}
    (hstep : admissionStep s a = some t) : t.maxSessions = s.maxSessions := by
  cases a <;> simp only [admissionStep] at hstep <;> grind

theorem bounded_run {maxSessions : ℕ} {acts : List AdmissionAct}
    (hok : along admissionStep wokenBeforeOpening (.start maxSessions) acts)
    (hrun : run admissionStep (.start maxSessions) acts = some s) :
    Bounded s ∧ s.maxSessions = maxSessions := by
  refine run_invariant (I := fun s => Bounded s ∧ s.maxSessions = maxSessions) ?_
    ⟨bounded_start _, rfl⟩ hok hrun
  rintro s a t ⟨hs, hmax⟩ ha hstep
  exact ⟨hs.step ha hstep, (maxSessions_step hstep).trans hmax⟩

/-! ### What pays for an admission -/

def AdmissionAct.opens : AdmissionAct → Bool
  | .openBegin _ | .retireNext | .openEnd => true
  | _ => false

/-- `acts` has a step that retires a session that was not retiring, and the opening of that step
has not ended since. -/
def Paid (maxSessions : ℕ) (acts : List AdmissionAct) : Prop :=
  ∃ before after u v, ∃ (i : ℕ) (x : SessionState), acts = before ++ .retireNext :: after ∧
    run admissionStep (.start maxSessions) before = some u ∧
    admissionStep u .retireNext = some v ∧ (∀ a ∈ after, a.opens = false) ∧
    u.sessions[i]? = some x ∧ x.retiring = false ∧ v.sessions[i]? = some x.retire

theorem Paid.concat {maxSessions : ℕ} {acts : List AdmissionAct} {a : AdmissionAct}
    (h : Paid maxSessions acts) (ha : a.opens = false) : Paid maxSessions (acts ++ [a]) := by
  obtain ⟨before, after, u, v, i, x, rfl, hu, hv, hafter, hx⟩ := h
  refine ⟨before, after ++ [a], u, v, i, x, by simp, hu, hv, fun b hb => ?_, hx⟩
  rcases mem_append.1 hb with hb | hb
  · exact hafter b hb
  · rw [mem_singleton.1 hb, ha]

/-- A step that is no part of an opening leaves the opening as it is, adds no session, and does
not take `Close` back. -/
theorem admissionStep_apart {a : AdmissionAct} (ha : a.opens = false)
    (hstep : admissionStep s a = some t) : t.opening = s.opening ∧
      t.sessions.length ≤ s.sessions.length ∧ (t.done = false → s.done = false) := by
  cases a with
  | openBegin order | retireNext | openEnd => cases ha
  | session i act =>
    obtain ⟨x, -, rfl⟩ := map_eq_some_iff.1 hstep
    exact ⟨rfl, by simp, id⟩
  | finish i =>
    rw [admissionStep] at hstep
    split_ifs at hstep
    cases hstep
    exact ⟨rfl, by simpa using length_eraseIdx_le s.sessions i, id⟩
  | close =>
    cases hstep
    exact ⟨rfl, Nat.le_refl _, fun h => by cases h⟩
  | retireAll =>
    rw [admissionStep] at hstep
    split_ifs at hstep
    cases hstep
    exact ⟨rfl, by simp, id⟩

theorem paid_of_admitted {maxSessions : ℕ} {acts : List AdmissionAct} {s : Admission} {o : Opening}
    (hok : along admissionStep wokenBeforeOpening (.start maxSessions) acts)
    (hrun : run admissionStep (.start maxSessions) acts = some s) (hdone : s.done = false)
    (ho : s.opening = some o) (hadmitted : o.admitted = true)
    (hfull : maxSessions ≤ s.sessions.length) : Paid maxSessions acts := by
  -- from the last action backwards, up to the one that admitted the opening
  induction acts using List.reverseRecOn generalizing s o with
  | nil =>
    cases hrun
    cases ho
  | append_singleton acts a ih =>
    obtain ⟨u, hu, hstep⟩ := (run_concat_eq_some_iff _ _ _ _ _).1 hrun
    have hold := along_of_append hok
    obtain ⟨hbounded, hmax⟩ := bounded_run hold hu
    by_cases ha : a.opens = false
    · obtain ⟨hopening, hlen, hback⟩ := admissionStep_apart ha hstep
      exact (ih hold hu (hback hdone) (hopening ▸ ho) hadmitted (hfull.trans hlen)).concat ha
    cases a with
    | session i act | finish i | close | retireAll => exact absurd rfl ha
    | openEnd =>
      rw [admissionStep] at hstep
      split at hstep <;> cases hstep
      cases ho
    | openBegin order =>
      rw [admissionStep] at hstep
      split_ifs at hstep with _ hroom
      · cases hstep
        exact absurd (hmax ▸ hroom) (Nat.not_lt.2 hfull)
      · cases hstep
        cases ho
        cases hadmitted
    | retireNext =>
      have hretire := id hstep
      rw [admissionStep] at hstep
      split at hstep
      · next i todo admitted hopening =>
          obtain ⟨x, hx, rfl⟩ := map_eq_some_iff.1 hstep
          have hlt := (List.getElem?_eq_some_iff.1 hx).1
          by_cases hwas : admitted = true
          · -- the walk of an admitted opening has nothing left to try
            exact absurd (hbounded.walked _ hopening hwas) (cons_ne_nil _ _)
          · have hidle : x.idle = true := by
              by_contra hne
              simp only [hne, some.injEq] at ho
              subst ho
              exact hwas hadmitted
            refine ⟨acts, [], u, _, i, x, rfl, hu, hretire, by simp, hx, ?_, ?_⟩
            · exact hbounded.woken hdone _ hopening (by simpa using hwas) (by simp) x
                (mem_of_getElem? hx) hidle
            · exact List.getElem?_set_self hlt
      · cases hstep

/-- In every run whose openings at the limit find every retired session awake, the sessions not
asked to retire stay within `MaxSessions`; and a session that is added at the limit was paid for,
in its own opening, by the retirement of one that was not retiring. -/
theorem live_le_maxSessions (maxSessions : ℕ) (acts : List AdmissionAct) (s : Admission)
    (hok : along admissionStep wokenBeforeOpening (.start maxSessions) acts)
    (hrun : run admissionStep (.start maxSessions) acts = some s) :
    live s.sessions ≤ maxSessions ∧
      ∀ t, admissionStep s .openEnd = some t → s.sessions.length < t.sessions.length →
        maxSessions ≤ s.sessions.length → Paid maxSessions acts := by
  obtain ⟨hbounded, hmax⟩ := bounded_run hok hrun
  refine ⟨hmax ▸ hbounded.live_le, fun t hstep hadded hfull => ?_⟩
  rw [admissionStep] at hstep
  split at hstep
  · next admitted hopening =>
      cases hstep
      dsimp only at hadded
      split_ifs at hadded with hadd
      · obtain ⟨hadmitted, hdone⟩ : admitted = true ∧ s.done = false := by simpa using hadd
        exact paid_of_admitted hok hrun hdone hopening hadmitted hfull
      · exact absurd hadded (Nat.lt_irrefl _)
  · cases hstep

/-- One place: a first session is opened and rests, and a second opening retires
it and is admitted. -/
def oneRetirement : List AdmissionAct :=
  [.openBegin [], .openEnd, .session 0 (.rest false false),
    .openBegin [0], .retireNext, .openEnd]

theorem live_le_maxSessions_sample :
    ∃ s t, run admissionStep (.start 1) (oneRetirement.take 5) = some s ∧
      admissionStep s .openEnd = some t ∧ t.sessions.length = 2 ∧
      live s.sessions ≤ 1 ∧ Paid 1 (oneRetirement.take 5) := by
  obtain ⟨hlive, hpaid⟩ := live_le_maxSessions 1 (oneRetirement.take 5) _ (by decide) rfl
  exact ⟨_, _, rfl, rfl, rfl, hlive, hpaid _ rfl (by decide) (by decide)⟩

/-- A third opening meets the first session again before it has woken, retires it
a second time and is admitted: two sessions hold the one place. -/
theorem two_admissions_for_one_retirement : ∃ s, run admissionStep (.start 1)
        (oneRetirement ++ [.openBegin [0, 1], .retireNext, .openEnd]) = some s ∧
      live s.sessions = 2 :=
  ⟨_, rfl, rfl⟩

end Listen
