import AbstractionIdentity.Transition.Run
import AbstractionIdentity.Transition.Table
import Mathlib.Logic.Function.Basic
import Mathlib.Tactic.SplitIfs

/-!
# The volume probes of a mount

`localPath` asks a volume in a goroutine of its own; at most `maxStuckVolumeProbes` probes are
outstanding on a mount. The counters, under one lock, are the number of calls at the right place
(`Counted`), and a waiting call whose channel is open finds it in the entry of its mount (`Waits`).
-/

namespace Identity

open Transition List Option Bool

def maxStuckVolumeProbes : ℤ := 8

structure Probe where
  stuck : Bool
  done : Bool
  deriving DecidableEq

/-- `freed` is the number of the channel. -/
structure MountProbes where
  outstanding : ℤ
  stuck : ℤ
  freed : Option ℕ
  deriving DecidableEq

def entry (m : Option MountProbes) : MountProbes := m.getD ⟨0, 0, none⟩

structure Probes (Mount : Type*) where
  mounts : Mount → Option MountProbes
  closed : List Bool

inductive Started where
  | probe
  | refused
  | wait (freed : ℕ)
  deriving DecidableEq

section Locked

variable {Mount : Type*} [DecidableEq Mount]

def Probes.put (s : Probes Mount) (mount : Mount) (m : Option MountProbes) : Probes Mount :=
  { s with mounts := Function.update s.mounts mount m }

def startProbe (s : Probes Mount) (mount : Mount) : Probes Mount × Started :=
  let m := entry (s.mounts mount)
  if m.outstanding < maxStuckVolumeProbes then
    (s.put mount (some { m with outstanding := m.outstanding + 1 }), .probe)
  else if m.stuck > 0 then (s.put mount (some m), .refused)
  else match m.freed with
    | some freed => (s.put mount (some m), .wait freed)
    | none =>
      ({ s.put mount (some { m with freed := some s.closed.length }) with
          closed := s.closed ++ [false] }, .wait s.closed.length)

/-- `close` of a channel, which must be open. -/
def closeChan (closed : List Bool) (freed : ℕ) : Option (List Bool) :=
  if closed[freed]? = some false then some (closed.set freed true) else none

def endProbe (s : Probes Mount) (mount : Mount) (p : Probe) : Option (Probes Mount × Probe) :=
  match s.mounts mount with
  | none => none
  | some m =>
    let left : MountProbes := ⟨m.outstanding - 1, if p.stuck then m.stuck - 1 else m.stuck, none⟩
    let entry := if left.outstanding = 0 then none else some left
    match m.freed with
    | none => some (s.put mount entry, { p with done := true })
    | some freed =>
      match closeChan s.closed freed with
      | none => none
      | some closed =>
        some ({ s.put mount entry with closed := closed }, { p with done := true })

def markStuck (s : Probes Mount) (mount : Mount) (p : Probe) : Option (Probes Mount × Probe) :=
  if p.done = false ∧ p.stuck = false then
    match s.mounts mount with
    | none => none
    | some m =>
      some (s.put mount (some { m with stuck := m.stuck + 1 }), { p with stuck := true })
  else some (s, p)

end Locked

/-- Where a call of `localPath` stands from `startProbe` on. -/
inductive PathPc where
  | start
  | waiting (freed : ℕ)
  | answer
  | late
  | returned
  deriving DecidableEq

structure PathCall (Mount : Type*) where
  mount : Mount
  pc : PathPc
  probe : Option Probe
  probing : Bool

structure PathCalls (Mount : Type*) where
  probes : Probes Mount
  calls : List (PathCall Mount)
  fault : Bool

def PathCalls.start (Mount : Type*) : PathCalls Mount := ⟨⟨fun _ => none, []⟩, [], false⟩

/-- A call, a locked round of `startProbe`, a wake-up, the deadline, `markStuck`, the answer taken,
the probe's return. -/
inductive PathAct (Mount : Type*) where
  | call (mount : Mount)
  | start (i : ℕ)
  | wake (i : ℕ)
  | deadline (i : ℕ)
  | mark (i : ℕ)
  | take (i : ℕ)
  | finish (i : ℕ)

section Step

variable {Mount : Type*} [DecidableEq Mount]

def PathCall.started (c : PathCall Mount) : Started → PathCall Mount
  | .probe => { c with pc := .answer, probe := some ⟨false, false⟩, probing := true }
  | .refused => { c with pc := .returned }
  | .wait freed => { c with pc := .waiting freed }

omit [DecidableEq Mount] in
theorem PathCall.started_mount (c : PathCall Mount) (answer : Started) :
    (c.started answer).mount = c.mount := by
  cases answer <;> rfl

def PathCalls.move (s : PathCalls Mount) (i : ℕ) (c : PathCall Mount) :
    PathAct Mount → Option (PathCalls Mount)
  | .call _ => none
  | .start _ =>
    if c.pc = .start then
      let (probes, answer) := startProbe s.probes c.mount
      some { s with probes := probes, calls := s.calls.set i (c.started answer) }
    else none
  | .wake _ =>
    match c.pc with
    | .waiting freed =>
      if s.probes.closed[freed]? = some true then
        some { s with calls := s.calls.set i { c with pc := .start } }
      else none
    | _ => none
  | .deadline _ =>
    match c.pc with
    | .waiting _ => some { s with calls := s.calls.set i { c with pc := .returned } }
    | .answer => some { s with calls := s.calls.set i { c with pc := .late } }
    | _ => none
  | .mark _ =>
    match c.pc, c.probe with
    | .late, some p =>
      match markStuck s.probes c.mount p with
      | none => some { s with fault := true }
      | some (probes, p) =>
        some { s with
          probes := probes,
          calls := s.calls.set i { c with pc := .returned, probe := some p } }
    | _, _ => none
  | .take _ =>
    if c.pc = .answer ∧ c.probing = false then
      some { s with calls := s.calls.set i { c with pc := .returned } }
    else none
  | .finish _ =>
    match c.probing, c.probe with
    | true, some p =>
      match endProbe s.probes c.mount p with
      | none => some { s with fault := true }
      | some (probes, p) =>
        some { s with
          probes := probes,
          calls := s.calls.set i { c with probe := some p, probing := false } }
    | _, _ => none

def PathAct.place : PathAct Mount → ℕ
  | .call _ => 0
  | .start i | .wake i | .deadline i | .mark i | .take i | .finish i => i

def pathStep (s : PathCalls Mount) (a : PathAct Mount) : Option (PathCalls Mount) :=
  match a with
  | .call mount =>
    some { s with calls := s.calls ++ [⟨mount, .start, none, false⟩] }
  | a =>
    match s.calls[a.place]? with
    | none => none
    | some c => s.move a.place c a

def PathCall.probingOn (mount : Mount) (c : PathCall Mount) : Bool := c.probing && c.mount = mount

def PathCall.isStuck (c : PathCall Mount) : Bool := c.probe.any (·.stuck)

def PathCall.stuckOn (mount : Mount) (c : PathCall Mount) : Bool := c.probingOn mount && c.isStuck

/-! ### The counters -/

def CountedOn (mounts : Mount → Option MountProbes) (calls : List (PathCall Mount))
    (mount : Mount) : Prop :=
  (entry (mounts mount)).outstanding = calls.countP (PathCall.probingOn mount) ∧
    (entry (mounts mount)).stuck = calls.countP (PathCall.stuckOn mount) ∧
    (entry (mounts mount)).outstanding ≤ maxStuckVolumeProbes ∧
    ((mounts mount).isSome = true ↔ 0 < (entry (mounts mount)).outstanding)

def Counted (mounts : Mount → Option MountProbes) (calls : List (PathCall Mount)) : Prop :=
  ∀ mount, CountedOn mounts calls mount

def PathCall.weight (c : PathCall Mount) : ℤ := if c.probing then 1 else 0

def PathCall.stuckWeight (c : PathCall Mount) : ℤ := if c.probing && c.isStuck then 1 else 0

variable {c c' : PathCall Mount} {i : ℕ} {mount : Mount} {s t : PathCalls Mount}

variable {a : PathAct Mount} {calls : List (PathCall Mount)} {m : Option MountProbes}
  {mounts : Mount → Option MountProbes}

theorem Counted.update (h : Counted mounts calls) (hi : calls[i]? = some c)
    (hmount : c'.mount = c.mount) (hout : (entry m).outstanding =
      (entry (mounts c.mount)).outstanding - c.weight + c'.weight) (hstuck : (entry m).stuck =
      (entry (mounts c.mount)).stuck - c.stuckWeight + c'.stuckWeight)
    (hmax : (entry m).outstanding ≤ maxStuckVolumeProbes)
    (hsome : m.isSome = true ↔ 0 < (entry m).outstanding) :
    Counted (Function.update mounts c.mount m) (calls.set i c') := by
  intro mount
  obtain ⟨hout', hstuck', hmax', hsome'⟩ := h mount
  by_cases heq : mount = c.mount
  · subst heq
    refine ⟨?_, ?_, ?_, ?_⟩
    · rw [countP_set_of_lookup hi, Function.update_self, hout, hout']
      simp [PathCall.probingOn, PathCall.weight, hmount]
    · rw [countP_set_of_lookup hi, Function.update_self, hstuck, hstuck']
      simp [PathCall.stuckOn, PathCall.probingOn, PathCall.stuckWeight, hmount]
    · rwa [Function.update_self]
    · rwa [Function.update_self]
  · have hc : PathCall.probingOn mount c = false := by
      simp [PathCall.probingOn, Ne.symm heq]
    have hc' : PathCall.probingOn mount c' = false := by
      simp [PathCall.probingOn, hmount, Ne.symm heq]
    unfold CountedOn
    rw [Function.update_of_ne heq, countP_set_of_lookup hi, countP_set_of_lookup hi]
    simp only [PathCall.stuckOn, hc, hc', Bool.false_and, Bool.false_eq_true, if_false,
      sub_zero, add_zero]
    exact ⟨hout', hstuck', hmax', hsome'⟩

theorem Counted.set (h : Counted mounts calls) (hi : calls[i]? = some c)
    (hmount : c'.mount = c.mount) (hweight : c'.weight = c.weight)
    (hstuck : c'.stuckWeight = c.stuckWeight) : Counted mounts (calls.set i c') := by
  obtain ⟨-, -, hmax, hsome⟩ := h c.mount
  have hupdate := h.update hi hmount (by rw [hweight]; omega) (by rw [hstuck]; omega)
    hmax hsome
  rwa [Function.update_eq_self] at hupdate

theorem Counted.concat (h : Counted mounts calls) (mount : Mount) :
    Counted mounts (calls ++ [⟨mount, .start, none, false⟩]) := by
  intro mount'
  have hnew : PathCall.probingOn mount' ⟨mount, .start, none, false⟩ = false := rfl
  obtain ⟨hout, hstuck, hrest⟩ := h mount'
  refine ⟨?_, ?_, hrest⟩
  · rw [hout, countP_append, countP_singleton, hnew]
    rfl
  · rw [hstuck, countP_append, countP_singleton, PathCall.stuckOn, hnew]
    rfl

theorem countP_stuckOn_le (calls : List (PathCall Mount)) (mount : Mount) :
    calls.countP (PathCall.stuckOn mount) ≤ calls.countP (PathCall.probingOn mount) :=
  countP_mono_left fun _ _ hc => (and_eq_true_iff.1 hc).1

/-! ### The channels -/

structure Channels (s : Probes Mount) : Prop where
  opened : ∀ mount freed, (entry (s.mounts mount)).freed = some freed →
    s.closed[freed]? = some false
  apart : ∀ mount mount' freed, (entry (s.mounts mount)).freed = some freed →
    (entry (s.mounts mount')).freed = some freed → mount = mount'

/-- A channel that was handed out on the mount is closed, or it is the one the next
returning probe of the mount closes. -/
def Awaited (s : Probes Mount) (mount : Mount) (freed : ℕ) : Prop :=
  s.closed[freed]? = some true ∨ (entry (s.mounts mount)).freed = some freed

theorem Channels.put {s : Probes Mount} (h : Channels s) {mount : Mount}
    {m : Option MountProbes} (hm : (entry m).freed = (entry (s.mounts mount)).freed) :
    Channels (s.put mount m) := by
  have hsame : ∀ mount', (entry ((s.put mount m).mounts mount')).freed =
      (entry (s.mounts mount')).freed := by
    intro mount'
    by_cases heq : mount' = mount
    · subst heq
      simp [Probes.put, hm]
    · simp [Probes.put, heq]
  refine ⟨fun mount' freed hfreed => ?_, fun mount' mount'' freed hfreed hfreed' => ?_⟩
  · exact h.opened mount' freed (hsame mount' ▸ hfreed)
  · exact h.apart mount' mount'' freed (hsame mount' ▸ hfreed) (hsame mount'' ▸ hfreed')

theorem Awaited.put {s : Probes Mount} {mount mount' : Mount} {freed : ℕ}
    (h : Awaited s mount' freed) {m : Option MountProbes}
    (hm : (entry m).freed = (entry (s.mounts mount)).freed) :
    Awaited (s.put mount m) mount' freed := by
  rcases h with hclosed | hentry
  · exact .inl hclosed
  · right
    by_cases heq : mount' = mount
    · subst heq
      simpa [Probes.put, hm] using hentry
    · simpa [Probes.put, heq] using hentry

/-- One locked section to the next: the channels stay in order and no waiting call
loses sight of its channel. -/
def Probes.Keeps (s t : Probes Mount) : Prop :=
  Channels t ∧ ∀ mount freed, Awaited s mount freed → Awaited t mount freed

theorem keeps_put {s : Probes Mount} (h : Channels s)
    (hm : (entry m).freed = (entry (s.mounts mount)).freed) :
    s.Keeps (s.put mount m) :=
  ⟨h.put hm, fun _ _ hawaited => hawaited.put hm⟩

theorem keeps_makeChan {s : Probes Mount} (h : Channels s)
    (hfreed : (entry (s.mounts mount)).freed = none) :
    s.Keeps { s.put mount (some { entry (s.mounts mount) with
      freed := some s.closed.length }) with closed := s.closed ++ [false] } := by
  have hold : ∀ freed b, s.closed[freed]? = some b → (s.closed ++ [false])[freed]? = some b :=
    fun freed b hb => lookup_concat_iff.2 <| .inr
      ⟨fun heq => by simp [heq] at hb, hb⟩
  -- an entry that has a channel keeps it, and it is an old one unless the mount is this one
  have hentry : ∀ mount' freed, (entry (Function.update s.mounts mount
      (some { entry (s.mounts mount) with freed := some s.closed.length }) mount')).freed =
        some freed → mount' = mount ∧ freed = s.closed.length ∨
      (entry (s.mounts mount')).freed = some freed := by
    intro mount' freed hf
    by_cases heq : mount' = mount
    · subst heq
      rw [Function.update_self] at hf
      exact .inl ⟨rfl, (some.inj hf).symm⟩
    · rw [Function.update_of_ne heq] at hf
      exact .inr hf
  refine ⟨⟨fun mount' freed hf => ?_, fun mount' mount'' freed hf hf' => ?_⟩, ?_⟩
  · rcases hentry mount' freed hf with ⟨-, rfl⟩ | hf
    · simp
    · exact hold freed false (h.opened mount' freed hf)
  · rcases hentry mount' freed hf with ⟨hmount, hlen⟩ | hold' <;>
      rcases hentry mount'' freed hf' with ⟨hmount', hlen'⟩ | hold''
    · rw [hmount, hmount']
    · exact absurd (h.opened _ _ hold'') (by simp [hlen])
    · exact absurd (h.opened _ _ hold') (by simp [hlen'])
    · exact h.apart mount' mount'' freed hold' hold''
  · rintro mount' freed (hclosed | hf)
    · exact .inl (hold freed true hclosed)
    · right
      have hne : mount' ≠ mount := by
        rintro rfl
        rw [hfreed] at hf
        cases hf
      simpa [Probes.put, hne] using hf

theorem keeps_closeChan {s : Probes Mount} (h : Channels s) {freed : ℕ}
    (hfreed : (entry (s.mounts mount)).freed = some freed) (hm : (entry m).freed = none) :
    s.Keeps { s.put mount m with closed := s.closed.set freed true } := by
  have hopen := h.opened mount freed hfreed
  have hentry : ∀ mount' freed', (entry (Function.update s.mounts mount m mount')).freed =
      some freed' → mount' ≠ mount ∧ (entry (s.mounts mount')).freed = some freed' := by
    intro mount' freed' hf
    by_cases heq : mount' = mount
    · subst heq
      rw [Function.update_self, hm] at hf
      cases hf
    · rw [Function.update_of_ne heq] at hf
      exact ⟨heq, hf⟩
  refine ⟨⟨fun mount' freed' hf => ?_, fun mount' mount'' freed' hf hf' => ?_⟩, ?_⟩
  · obtain ⟨hne, hold⟩ := hentry mount' freed' hf
    refine (lookup_set_iff hopen).2 (.inr ⟨fun heq => ?_, h.opened mount' freed' hold⟩)
    exact hne (h.apart mount' mount freed' hold (heq ▸ hfreed))
  · exact h.apart mount' mount'' freed' (hentry _ _ hf).2 (hentry _ _ hf').2
  · intro mount' freed' hawaited
    by_cases hsame : freed' = freed
    · exact .inl ((lookup_set_iff hopen).2 (.inl ⟨hsame, rfl⟩))
    · rcases hawaited with hclosed | hf
      · exact .inl ((lookup_set_iff hopen).2 (.inr ⟨hsame, hclosed⟩))
      · right
        have hne : mount' ≠ mount := by
          rintro rfl
          rw [hfreed] at hf
          exact hsame (some.inj hf).symm
        simpa [Probes.put, hne] using hf

/-! ### The three operations -/

inductive StartRound (s : Probes Mount) (mount : Mount) : Probes Mount × Started → Prop
  | probe (hfree : (entry (s.mounts mount)).outstanding < maxStuckVolumeProbes) :
      StartRound s mount (s.put mount (some { entry (s.mounts mount) with
        outstanding := (entry (s.mounts mount)).outstanding + 1 }), .probe)
  | refused (hfull : ¬ (entry (s.mounts mount)).outstanding < maxStuckVolumeProbes)
      (hstuck : (entry (s.mounts mount)).stuck > 0) :
      StartRound s mount (s.put mount (some (entry (s.mounts mount))), .refused)
  | join (freed : ℕ)
      (hfull : ¬ (entry (s.mounts mount)).outstanding < maxStuckVolumeProbes)
      (hstuck : ¬ (entry (s.mounts mount)).stuck > 0)
      (hfreed : (entry (s.mounts mount)).freed = some freed) :
      StartRound s mount (s.put mount (some (entry (s.mounts mount))), .wait freed)
  | make (hfull : ¬ (entry (s.mounts mount)).outstanding < maxStuckVolumeProbes)
      (hstuck : ¬ (entry (s.mounts mount)).stuck > 0)
      (hfreed : (entry (s.mounts mount)).freed = none) :
      StartRound s mount ({ s.put mount (some { entry (s.mounts mount) with
        freed := some s.closed.length }) with closed := s.closed ++ [false] },
        .wait s.closed.length)

theorem startRound (s : Probes Mount) (mount : Mount) :
    StartRound s mount (startProbe s mount) := by
  unfold startProbe
  dsimp only
  split_ifs with hfree hstuck
  · exact .probe hfree
  · exact .refused hfree hstuck
  · split
    · next freed hfreed => exact .join freed hfree hstuck hfreed
    · next hfreed => exact .make hfree hstuck hfreed

theorem keeps_startProbe {s : Probes Mount} (h : Channels s) (mount : Mount) :
    s.Keeps (startProbe s mount).1 := by
  have hround := startRound s mount
  generalize startProbe s mount = result at hround
  cases hround with
  | probe => exact keeps_put h rfl
  | refused => exact keeps_put h rfl
  | join => exact keeps_put h rfl
  | make _ _ hfreed => exact keeps_makeChan h hfreed

def entryAfter (m : MountProbes) (p : Probe) : Option MountProbes :=
  if m.outstanding - 1 = 0 then none
  else some ⟨m.outstanding - 1, if p.stuck then m.stuck - 1 else m.stuck, none⟩

theorem entryAfter_freed (m : MountProbes) (p : Probe) : (entry (entryAfter m p)).freed = none := by
  unfold entryAfter
  split_ifs <;> rfl

theorem endProbe_eq {s : Probes Mount} (h : Channels s) {m : MountProbes}
    (hm : s.mounts mount = some m) (p : Probe) :
    ∃ t, endProbe s mount p = some (t, { p with done := true }) ∧ s.Keeps t ∧
      t.mounts = Function.update s.mounts mount (entryAfter m p) ∧
      ∀ freed, Awaited s mount freed → t.closed[freed]? = some true := by
  have hentry : entry (s.mounts mount) = m := by rw [hm]; rfl
  cases hfreed : m.freed with
  | none =>
    refine ⟨s.put mount (entryAfter m p), ?_, keeps_put h ?_, rfl, ?_⟩
    · simp only [endProbe, hm, hfreed]
      rfl
    · rw [entryAfter_freed, hentry, hfreed]
    · rintro freed (hclosed | hf)
      · exact hclosed
      · rw [hentry, hfreed] at hf
        cases hf
  | some freed =>
    have hf : (entry (s.mounts mount)).freed = some freed := by rw [hentry, hfreed]
    have hopen := h.opened mount freed hf
    refine ⟨{ s.put mount (entryAfter m p) with closed := s.closed.set freed true }, ?_,
      keeps_closeChan h hf (entryAfter_freed m p), rfl, ?_⟩
    · simp only [endProbe, hm, hfreed, closeChan, hopen, if_true]
      rfl
    · intro freed' hawaited
      refine (lookup_set_iff hopen).2 ?_
      by_cases hsame : freed' = freed
      · exact .inl ⟨hsame, rfl⟩
      · refine .inr ⟨hsame, hawaited.resolve_right fun hf' => ?_⟩
        exact hsame (some.inj (hf'.symm.trans hf))

/-! ### Every run -/

/-- A probe that has not returned is not done, one that has is; a call without a probe waits for a
channel it can still see closed. -/
def PathCall.Ok (probes : Probes Mount) (c : PathCall Mount) : Prop :=
  (c.probing = true → ∃ p, c.probe = some p ∧ p.done = false) ∧
    (c.probing = false → ∀ p, c.probe = some p → p.done = true) ∧
    match c.pc with
    | .start => c.probe = none
    | .waiting freed => c.probe = none ∧ Awaited probes c.mount freed
    | _ => True

open PathCall

omit [DecidableEq Mount] in
theorem PathCall.Ok.keeps {s t : Probes Mount} (h : c.Ok s) (hkeeps : s.Keeps t) : c.Ok t := by
  obtain ⟨hprobing, hdone, hpc⟩ := h
  refine ⟨hprobing, hdone, ?_⟩
  split
  · next heq => simpa [heq] using hpc
  · next freed heq =>
      rw [heq] at hpc
      exact ⟨hpc.1, hkeeps.2 _ _ hpc.2⟩
  · trivial

omit [DecidableEq Mount] in
theorem PathCall.Ok.not_probing {s : Probes Mount} (h : c.Ok s)
    (hprobe : c.probe = none) : c.probing = false := by
  by_contra hne
  obtain ⟨p, hp, -⟩ := h.1 (by simpa using hne)
  rw [hprobe] at hp
  cases hp

structure PathCalls.Sound (s : PathCalls Mount) : Prop where
  fault : s.fault = false
  counted : Counted s.probes.mounts s.calls
  channels : Channels s.probes
  ok : ∀ (i : ℕ) (c : PathCall Mount), s.calls[i]? = some c → c.Ok s.probes

theorem PathCalls.Sound.ok_set (h : s.Sound) {t : Probes Mount}
    (hkeeps : s.probes.Keeps t) (hc' : c'.Ok t) (j : ℕ)
    (d : PathCall Mount) (hd : (s.calls.set i c')[j]? = some d) : d.Ok t := by
  rcases lookup_set hd with ⟨-, rfl⟩ | ⟨-, hd⟩
  · exact hc'
  · exact (h.ok j d hd).keeps hkeeps

omit [DecidableEq Mount] in
theorem keeps_refl {s : Probes Mount} (h : Channels s) : s.Keeps s := ⟨h, fun _ _ ha => ha⟩

theorem PathCalls.Sound.set (h : s.Sound) (hi : s.calls[i]? = some c) (hmount : c'.mount = c.mount)
    (hprobe : c'.probe = c.probe) (hprobing : c'.probing = c.probing)
    (hc' : c'.Ok s.probes) : PathCalls.Sound { s with calls := s.calls.set i c' } where
  fault := h.fault
  counted := by
    refine h.counted.set hi hmount ?_ ?_
    · rw [weight, weight, hprobing]
    · rw [stuckWeight, stuckWeight, hprobing, isStuck, isStuck, hprobe]
  channels := h.channels
  ok := h.ok_set (keeps_refl h.channels) hc'

theorem PathCalls.Sound.exists_entry (h : s.Sound) (hi : s.calls[i]? = some c)
    (hprobing : c.probing = true) :
    ∃ m, s.probes.mounts c.mount = some m := by
  obtain ⟨hout, -, -, hsome⟩ := h.counted c.mount
  have hpos : 0 < s.calls.countP (probingOn c.mount) :=
    countP_pos_iff.2 ⟨c, mem_of_getElem? hi, by
      rw [probingOn, hprobing]
      simp⟩
  exact isSome_iff_exists.1 (hsome.2 (by omega))

theorem PathCalls.Sound.counted_full (h : s.Sound) (hi : s.calls[i]? = some c)
    (hmount : c'.mount = c.mount) (hprobing : c.probing = false) (hprobing' : c'.probing = false)
    (hfull : ¬ (entry (s.probes.mounts c.mount)).outstanding < maxStuckVolumeProbes)
    {m : MountProbes} (hout : m.outstanding = (entry (s.probes.mounts c.mount)).outstanding)
    (hstuck : m.stuck = (entry (s.probes.mounts c.mount)).stuck) :
    Counted (Function.update s.probes.mounts c.mount (some m)) (s.calls.set i c') := by
  have hentry : entry (some m) = m := rfl
  have hmax : maxStuckVolumeProbes = 8 := rfl
  refine h.counted.update hi hmount ?_ ?_ ?_ ?_
  · rw [hentry, hout, weight, weight, hprobing, hprobing']
    simp
  · rw [hentry, hstuck, stuckWeight, stuckWeight, hprobing, hprobing']
    simp
  · rw [hentry, hout]
    exact (h.counted c.mount).2.2.1
  · rw [hentry, hout, isSome_some, eq_self, true_iff]
    omega

omit [DecidableEq Mount] in
theorem PathCall.Ok.of_probe {s t : Probes Mount} (h : c.Ok s)
    {p : Probe} (hp : c.probe = some p) (hpc : c'.pc = c.pc)
    (hprobing : c'.probing = true → ∃ q, c'.probe = some q ∧ q.done = false)
    (hdone : c'.probing = false → ∀ q, c'.probe = some q → q.done = true) : c'.Ok t := by
  have hrest := h.2.2
  refine ⟨hprobing, hdone, ?_⟩
  rw [hpc]
  cases hc : c.pc with
  | start =>
    rw [hc, hp] at hrest
    cases hrest
  | waiting freed =>
    rw [hc, hp] at hrest
    cases hrest.1
  | _ => trivial

theorem PathCalls.Sound.start (h : s.Sound) (hi : s.calls[i]? = some c) (hpc : c.pc = .start) :
    PathCalls.Sound { s with
      probes := (startProbe s.probes c.mount).1,
      calls := s.calls.set i (c.started (startProbe s.probes c.mount).2) } := by
  have hok := h.ok i c hi
  have hprobe : c.probe = none := by
    have hrest := hok.2.2
    rwa [hpc] at hrest
  have hprobing := hok.not_probing hprobe
  have hkeeps := keeps_startProbe h.channels c.mount
  have hround := startRound s.probes c.mount
  -- the new call and the counters are read off the branch that was taken
  have hnew : (c.started (startProbe s.probes c.mount).2).Ok (startProbe s.probes c.mount).1 ∧
      Counted (startProbe s.probes c.mount).1.mounts
        (s.calls.set i (c.started (startProbe s.probes c.mount).2)) := by
    generalize startProbe s.probes c.mount = result at hround ⊢
    have hmount := c.started_mount result.2
    cases hround with
    | probe hfree =>
      refine ⟨⟨fun _ => ⟨_, rfl, rfl⟩, fun hno => Bool.noConfusion hno, trivial⟩, ?_⟩
      have hcount := (h.counted c.mount).1
      refine h.counted.update hi hmount ?_ ?_ ?_ ?_
      · simp [weight, started, entry, hprobing]
      · simp [stuckWeight, started, isStuck, entry, hprobing]
      · simp only [entry, getD_some] at hfree ⊢
        omega
      · simp only [isSome_some, entry, getD_some, true_iff] at hcount ⊢
        omega
    | refused hfull =>
      exact ⟨⟨hok.1, hok.2.1, trivial⟩, h.counted_full hi hmount hprobing hprobing hfull rfl rfl⟩
    | join freed hfull _ hfreed =>
      refine ⟨⟨hok.1, hok.2.1, hprobe, .inr ?_⟩,
        h.counted_full hi hmount hprobing hprobing hfull rfl rfl⟩
      simpa [Probes.put, started, entry] using hfreed
    | make hfull _ hfreed =>
      refine ⟨⟨hok.1, hok.2.1, hprobe, .inr ?_⟩,
        h.counted_full hi hmount hprobing hprobing hfull rfl rfl⟩
      simp [Probes.put, started, entry]
  exact ⟨h.fault, hnew.2, hkeeps.1, h.ok_set hkeeps hnew.1⟩

theorem PathCalls.Sound.mark (h : s.Sound) (hi : s.calls[i]? = some c) {p : Probe}
    (hp : c.probe = some p) :
    ∃ t p', markStuck s.probes c.mount p = some (t, p') ∧ PathCalls.Sound { s with
      probes := t, calls := s.calls.set i { c with pc := .returned, probe := some p' } } := by
  obtain ⟨hprobing, hdone, -⟩ := h.ok i c hi
  by_cases hmark : p.done = false ∧ p.stuck = false
  · -- the probe has not returned, so its mount has an entry
    have hyes : c.probing = true := by
      by_contra hno
      have hdone' := hdone (by simpa using hno) p hp
      rw [hmark.1] at hdone'
      cases hdone'
    obtain ⟨m, hm⟩ := h.exists_entry hi hyes
    have hentry : entry (s.probes.mounts c.mount) = m := by rw [hm]; rfl
    have hkeeps : s.probes.Keeps
        (s.probes.put c.mount (some { m with stuck := m.stuck + 1 })) :=
      keeps_put h.channels (by rw [hentry]; rfl)
    refine ⟨s.probes.put c.mount (some { m with stuck := m.stuck + 1 }),
      { p with stuck := true }, ?_, h.fault, ?_, hkeeps.1, h.ok_set hkeeps ?_⟩
    · rw [markStuck, if_pos hmark, hm]
    · obtain ⟨-, -, hmax, hsome⟩ := h.counted c.mount
      rw [hentry] at hmax hsome
      rw [hm] at hsome
      have hmax' : (entry (some { m with stuck := m.stuck + 1 })).outstanding ≤
          maxStuckVolumeProbes := hmax
      have hmount : ({ c with pc := .returned, probe := some { p with stuck := true } } :
          PathCall Mount).mount = c.mount := rfl
      refine h.counted.update hi hmount ?_ ?_ hmax' hsome
      · rw [hentry]
        simp [weight, entry]
      · rw [hentry]
        simp [stuckWeight, isStuck, entry, hyes, hp, hmark.2]
    · exact ⟨fun _ => ⟨_, rfl, hmark.1⟩,
        fun hno => absurd (hyes.symm.trans hno) (by decide), trivial⟩
  · refine ⟨s.probes, p, by rw [markStuck, if_neg hmark], ?_⟩
    refine h.set hi rfl hp.symm rfl ⟨fun hyes => ?_, fun hno q hq => ?_, trivial⟩
    · obtain ⟨q, hq, hqd⟩ := hprobing hyes
      exact ⟨q, hp.symm.trans hq, hqd⟩
    · exact hdone hno q (hp.trans hq)

theorem PathCalls.Sound.finish {s : PathCalls Mount} (h : s.Sound) {i : ℕ}
    {c : PathCall Mount} (hi : s.calls[i]? = some c) (hprobing : c.probing = true)
    {p : Probe} (hp : c.probe = some p) :
    ∃ t p', endProbe s.probes c.mount p = some (t, p') ∧ PathCalls.Sound { s with
        probes := t, calls := s.calls.set i { c with probe := some p', probing := false } } ∧
      ∀ freed, Awaited s.probes c.mount freed → t.closed[freed]? = some true := by
  obtain ⟨m, hm⟩ := h.exists_entry hi hprobing
  have hentry : entry (s.probes.mounts c.mount) = m := by rw [hm]; rfl
  obtain ⟨t, hend, hkeeps, hmounts, hclosed⟩ := endProbe_eq h.channels hm p
  obtain ⟨hout, hstuck, hmax, hsome⟩ := h.counted c.mount
  rw [hentry] at hout hstuck hmax hsome
  have hpos : 0 < m.outstanding := hsome.1 (by rw [hm]; rfl)
  have hweight : c.weight = 1 := by rw [weight, if_pos hprobing]
  have hsweight : c.stuckWeight = if p.stuck then 1 else 0 := by
    rw [stuckWeight, isStuck, hprobing, hp, any_some, Bool.true_and]
  let c' : PathCall Mount := { c with probe := some { p with done := true }, probing := false }
  have hmount : c'.mount = c.mount := rfl
  -- the last probe of a mount leaves no stuck one behind
  have hlast : 0 ≤ m.stuck - c.stuckWeight ∧ m.stuck - c.stuckWeight ≤ m.outstanding - 1 := by
    have hle := countP_stuckOn_le (s.calls.set i c') c.mount
    have hset := countP_set_of_lookup (a := c') (p := stuckOn c.mount) hi
    have hset' := countP_set_of_lookup (a := c') (p := probingOn c.mount) hi
    have hon : probingOn c.mount c = true := by
      simp [probingOn, hprobing]
    have hson : stuckOn c.mount c = c.isStuck := by
      rw [stuckOn, hon, Bool.true_and]
    have hsw : c.stuckWeight = if c.isStuck then 1 else 0 := by
      rw [stuckWeight, hprobing, Bool.true_and]
    rw [hson, ← hsw, ← hstuck] at hset
    rw [hon, ← hout] at hset'
    have hoff : probingOn c.mount c' = false := rfl
    have hsoff : stuckOn c.mount c' = false := rfl
    rw [hsoff] at hset
    rw [hoff] at hset'
    simp only [if_true, false_eq_true, if_false] at hset hset'
    omega
  refine ⟨t, _, hend, ⟨h.fault, ?_, hkeeps.1, h.ok_set hkeeps ?_⟩, hclosed⟩
  · dsimp only
    rw [hmounts]
    have hweight' : c'.weight = 0 := rfl
    have hsweight' : c'.stuckWeight = 0 := rfl
    by_cases hzero : m.outstanding - 1 = 0
    · have hafter : entryAfter m p = none := if_pos hzero
      rw [hafter]
      refine h.counted.update hi hmount ?_ ?_ (by decide) (by decide)
      · rw [hentry, hweight, hweight']
        exact (by omega : (0 : ℤ) = m.outstanding - 1 + 0)
      · rw [hentry, hsweight']
        exact (by omega : (0 : ℤ) = m.stuck - c.stuckWeight + 0)
    · have hafter : entryAfter m p = some ⟨m.outstanding - 1,
          if p.stuck then m.stuck - 1 else m.stuck, none⟩ := if_neg hzero
      rw [hafter]
      refine h.counted.update hi hmount ?_ ?_ ?_ ?_
      · rw [hentry, hweight, hweight', add_zero]
        rfl
      · rw [hentry, hsweight, hsweight', add_zero]
        simp only [entry, getD_some]
        split_ifs <;> omega
      · simp only [entry, getD_some]
        omega
      · simp only [isSome_some, entry, getD_some, true_iff]
        omega
  · exact (h.ok i c hi).of_probe hp rfl (fun hyes => Bool.noConfusion hyes) fun _ q hq => by
      cases hq
      rfl

theorem PathCalls.sound_start : (PathCalls.start Mount).Sound where
  fault := rfl
  counted := fun _ => ⟨rfl, rfl, (by decide : (0 : ℤ) ≤ 8),
    (by decide : (none : Option MountProbes).isSome = true ↔ (0 : ℤ) < 0)⟩
  channels := ⟨fun _ _ hf => (nomatch hf), fun _ _ _ hf => (nomatch hf)⟩
  ok := fun i c hc => by simp [PathCalls.start] at hc

theorem PathCalls.Sound.move (h : s.Sound) (hi : s.calls[i]? = some c)
    (hmove : s.move i c a = some t) : t.Sound := by
  have hok := h.ok i c hi
  cases a with
    simp only [PathCalls.move] at hmove
  | call => cases hmove
  | start =>
    split_ifs at hmove with hpc
    cases hmove
    exact h.start hi hpc
  | wake =>
    cases hpc : c.pc with
    | waiting freed =>
      simp only [hpc] at hmove
      split_ifs at hmove
      cases hmove
      have hprobe : c.probe = none := by
        have hrest := hok.2.2
        rw [hpc] at hrest
        exact hrest.1
      exact h.set hi rfl rfl rfl ⟨hok.1, hok.2.1, hprobe⟩
    | _ => simp [hpc] at hmove
  | deadline =>
    cases hpc : c.pc with
    | waiting freed =>
      simp only [hpc] at hmove
      cases hmove
      exact h.set hi rfl rfl rfl ⟨hok.1, hok.2.1, trivial⟩
    | answer =>
      simp only [hpc] at hmove
      cases hmove
      exact h.set hi rfl rfl rfl ⟨hok.1, hok.2.1, trivial⟩
    | _ => simp [hpc] at hmove
  | mark =>
    split at hmove
    · next p _ hp =>
        obtain ⟨u, p', hmark, hsound⟩ := h.mark hi hp
        rw [hmark] at hmove
        cases hmove
        exact hsound
    · cases hmove
  | take =>
    split_ifs at hmove with hpc
    cases hmove
    exact h.set hi rfl rfl rfl ⟨hok.1, hok.2.1, trivial⟩
  | finish =>
    split at hmove
    · next p hprobing hp =>
        obtain ⟨u, p', hend, hsound, -⟩ := h.finish hi hprobing hp
        rw [hend] at hmove
        cases hmove
        exact hsound
    · cases hmove

theorem pathStep_eq_some (hstep : pathStep s a = some t) : (∃ mount, a = .call mount ∧
      t = { s with calls := s.calls ++ [⟨mount, .start, none, false⟩] }) ∨
    ∃ c, s.calls[a.place]? = some c ∧ s.move a.place c a = some t := by
  cases a with
  | call mount =>
    cases hstep
    exact .inl ⟨mount, rfl, rfl⟩
  | _ =>
    simp only [pathStep] at hstep
    split at hstep
    · cases hstep
    · next c hc => exact .inr ⟨c, hc, hstep⟩

theorem PathCalls.Sound.step (h : s.Sound) (hstep : pathStep s a = some t) : t.Sound := by
  rcases pathStep_eq_some hstep with ⟨mount, -, rfl⟩ | ⟨c, hc, hmove⟩
  · refine ⟨h.fault, h.counted.concat mount, h.channels, forall_concat h.ok ?_⟩
    exact ⟨fun hyes => Bool.noConfusion hyes, fun _ p hp => (by cases hp), rfl⟩
  · exact h.move hc hmove

end Step

end Identity
