import Mathlib.Data.Option.Basic

/-!
# A resource closed under a lock

Several threads use a resource under one lock, and any of them may close it. `Latched`: while one
thread is inside the resource is open, and when it is closed and the lock free, what closing is for
(`shut`) has been achieved. The rules are the moves of one thread.
-/

namespace Latch

inductive Role where
  | out
  | inside
  | closing
  | gone
  deriving DecidableEq

def Role.holds : Role → Bool
  | .inside | .closing => true
  | _ => false

variable {ι : Type*} {mu : Option ι} {closed shut shut' : Prop} {role role' : ι → Role} {p : ι}

structure Latched (mu : Option ι) (closed shut : Prop) (role : ι → Role) : Prop where
  holder : ∀ p, mu = some p ↔ (role p).holds = true
  inside : ∀ p, role p = .inside → ¬ closed
  closing : ∀ p, role p = .closing → closed
  rest : closed → mu = none → shut
  gone : ∀ p, role p = .gone → closed ∧ mu = none

theorem Latched.stay (h : Latched mu closed shut role) (hrole : ∀ q, role' q = role q)
    (hshut : closed → mu = none → shut → shut') : Latched mu closed shut' role' := by
  obtain rfl : role' = role := funext hrole
  exact { h with rest := fun hc hmu => hshut hc hmu (h.rest hc hmu) }

section

variable (hother : ∀ q, q ≠ p → role' q = role q)

include hother

theorem role_of_ne {r r' : Role} {q : ι} (hp : role' p = r') (hne : r' ≠ r)
    (hq : role' q = r) : q ≠ p ∧ role q = r := by
  have hqp : q ≠ p := by
    rintro rfl
    exact hne (hp.symm.trans hq)
  exact ⟨hqp, (hother q hqp).symm.trans hq⟩

section

variable (h : Latched mu closed shut role)

include h

theorem Latched.holder_iff (hmu : mu = none ∨ mu = some p)
    {mu' : Option ι} (hmu' : mu' = if (role' p).holds then some p else none) (q : ι) :
    mu' = some q ↔ (role' q).holds = true := by
  by_cases hq : q = p
  · rw [hmu', hq]
    cases (role' p).holds <;> simp
  · have hfree : (role q).holds = false := by
      rw [← Bool.not_eq_true, ← h.holder q]
      rcases hmu with rfl | rfl
      · exact fun heq => by cases heq
      · exact fun heq => hq (Option.some.inj heq).symm
    rw [hother q hq, hfree, hmu']
    cases (role' p).holds with
    | true => simpa using fun heq => hq heq.symm
    | false => simp

theorem Latched.enter (hmu : mu = none)
    (hopen : ¬ closed) (hp : role' p = .inside) : Latched (some p) closed shut' role' where
  holder := h.holder_iff hother (.inl hmu) (by rw [hp]; rfl)
  inside _ _ := hopen
  closing q hq := h.closing q (role_of_ne hother hp (by decide) hq).2
  rest _ hnone := by cases hnone
  gone q hq := absurd (h.gone q (role_of_ne hother hp (by decide) hq).2).1 hopen

theorem Latched.leave (hinside : role p = .inside)
    (hp : role' p = .out) : Latched none closed shut' role' where
  holder := h.holder_iff hother (.inr ((h.holder p).2 (by rw [hinside]; rfl)))
    (by rw [hp]; rfl)
  inside q hq := h.inside q (role_of_ne hother hp (by decide) hq).2
  closing q hq := h.closing q (role_of_ne hother hp (by decide) hq).2
  rest hclosed := absurd hclosed (h.inside p hinside)
  gone q hq := absurd (h.gone q (role_of_ne hother hp (by decide) hq).2).1
    (h.inside p hinside)

theorem Latched.close (hmu : mu = none) (hopen : ¬ closed)
    {closed' : Prop} (hclosed : closed') (hp : role' p = .closing) :
    Latched (some p) closed' shut' role' where
  holder := h.holder_iff hother (.inl hmu) (by rw [hp]; rfl)
  inside q hq := by
    have hholds := (h.holder q).2 (by rw [(role_of_ne hother hp (by decide) hq).2]; rfl)
    rw [hmu] at hholds
    cases hholds
  closing _ _ := hclosed
  rest _ hnone := by cases hnone
  gone q hq := absurd (h.gone q (role_of_ne hother hp (by decide) hq).2).1 hopen

theorem Latched.finish (hclosing : role p = .closing)
    (hshut : shut') (hp : role' p = .gone) : Latched none closed shut' role' where
  holder := h.holder_iff hother (.inr ((h.holder p).2 (by rw [hclosing]; rfl)))
    (by rw [hp]; rfl)
  inside q hq := h.inside q (role_of_ne hother hp (by decide) hq).2
  closing _ _ := h.closing p hclosing
  rest _ _ := hshut
  gone _ _ := ⟨h.closing p hclosing, rfl⟩

theorem Latched.already (hmu : mu = none)
    (hclosed : closed) (hp : role' p = .gone) : Latched mu closed shut role' where
  holder := h.holder_iff hother (.inl hmu) (by rw [hp]; exact hmu)
  inside q hq := h.inside q (role_of_ne hother hp (by decide) hq).2
  closing _ _ := hclosed
  rest := h.rest
  gone _ _ := ⟨hclosed, hmu⟩

end

end

end Latch
