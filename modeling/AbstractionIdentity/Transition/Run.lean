import Mathlib.Data.Option.Basic

/-!
# Runs of a partial step function

A system is one partial function `step : σ → α → Option σ`. The action carries every choice of the
environment, so a schedule is a list of actions and its run a value that can be computed.
`along step ok s as` says that every action meets `ok` in the state in which it is taken; an
invariant that survives these steps is carried along such schedules (`run_invariant`).
-/

namespace Transition

variable {σ α : Type*}

/-- The state after the actions `as`, taken in order from `s`. -/
def run (step : σ → α → Option σ) : σ → List α → Option σ
  | s, [] => some s
  | s, a :: as => (step s a).bind fun t => run step t as

/-- Every action of the schedule meets `ok` in the state it is taken in. -/
def along (step : σ → α → Option σ) (ok : σ → α → Prop) : σ → List α → Prop
  | _, [] => True
  | s, a :: as => ok s a ∧
      match step s a with
      | none => True
      | some t => along step ok t as

instance decidableAlong (step : σ → α → Option σ) (ok : σ → α → Prop)
    [∀ s a, Decidable (ok s a)] : ∀ s as, Decidable (along step ok s as)
  | _, [] => isTrue trivial
  | s, a :: as =>
    have : Decidable (match step s a with
        | none => True
        | some t => along step ok t as) :=
      match step s a with
      | none => isTrue trivial
      | some t => decidableAlong step ok t as
    inferInstanceAs (Decidable (_ ∧ _))

@[simp] theorem run_nil (step : σ → α → Option σ) (s : σ) : run step s [] = some s := rfl

theorem run_cons (step : σ → α → Option σ) (s : σ) (a : α) (as : List α) :
    run step s (a :: as) = (step s a).bind fun t => run step t as := rfl

theorem run_cons_eq_some_iff (step : σ → α → Option σ) (s u : σ) (a : α) (as : List α) :
    run step s (a :: as) = some u ↔ ∃ t, step s a = some t ∧ run step t as = some u := by
  rw [run_cons, Option.bind_eq_some_iff]

theorem run_concat_eq_some_iff (step : σ → α → Option σ) (s u : σ) (a : α) (as : List α) :
    run step s (as ++ [a]) = some u ↔ ∃ t, run step s as = some t ∧ step t a = some u := by
  induction as generalizing s with
  | nil => simp [run_cons]
  | cons b as ih =>
    rw [List.cons_append, run_cons_eq_some_iff]
    simp only [ih, run_cons_eq_some_iff]
    constructor
    · rintro ⟨v, hv, t, ht, hu⟩
      exact ⟨t, ⟨v, hv, ht⟩, hu⟩
    · rintro ⟨t, ⟨v, hv, ht⟩, hu⟩
      exact ⟨v, hv, t, ht, hu⟩

theorem along_cons (step : σ → α → Option σ) (ok : σ → α → Prop) (s : σ) (a : α) (as : List α) :
    along step ok s (a :: as) ↔ ok s a ∧ ∀ t, step s a = some t → along step ok t as := by
  constructor
  · rintro ⟨ha, has⟩
    refine ⟨ha, fun t ht => ?_⟩
    rw [ht] at has
    exact has
  · rintro ⟨ha, has⟩
    refine ⟨ha, ?_⟩
    cases h : step s a with
    | none => trivial
    | some t => exact has t h

theorem along_of_append {step : σ → α → Option σ} {ok : σ → α → Prop} {s : σ} {as bs : List α}
    (h : along step ok s (as ++ bs)) : along step ok s as := by
  induction as generalizing s with
  | nil => trivial
  | cons a as ih =>
    obtain ⟨ha, hrest⟩ := (along_cons step ok s a (as ++ bs)).1 h
    exact (along_cons step ok s a as).2 ⟨ha, fun t ht => ih (hrest t ht)⟩

/-- The invariant rule: what holds at the start and is kept by every step that
meets `ok` holds after every run all of whose steps meet `ok`. -/
theorem run_invariant {step : σ → α → Option σ} {ok : σ → α → Prop} {I : σ → Prop}
    (hstep : ∀ s a t, I s → ok s a → step s a = some t → I t)
    {s t : σ} {as : List α} (hs : I s) (hok : along step ok s as)
    (hrun : run step s as = some t) : I t := by
  induction as generalizing s with
  | nil =>
    rw [run_nil, Option.some.injEq] at hrun
    exact hrun ▸ hs
  | cons a as ih =>
    obtain ⟨u, hu, hrest⟩ := (run_cons_eq_some_iff step s t a as).1 hrun
    obtain ⟨ha, has⟩ := (along_cons step ok s a as).1 hok
    exact ih (hstep s a u hs ha hu) (has u hu) hrest

theorem run_invariant_of_forall {step : σ → α → Option σ} {I : σ → Prop}
    (hstep : ∀ s a t, I s → step s a = some t → I t)
    {s t : σ} {as : List α} (hs : I s) (hrun : run step s as = some t) :
    I t := by
  induction as generalizing s with
  | nil =>
    rw [run_nil, Option.some.injEq] at hrun
    exact hrun ▸ hs
  | cons a as ih =>
    obtain ⟨u, hu, hrest⟩ := (run_cons_eq_some_iff step s t a as).1 hrun
    exact ih (hstep s a u hs hu) hrest

end Transition
