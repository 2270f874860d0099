import AbstractionIdentity.Transition.Table

/-!
# A reader/writer lock as the modes its threads hold

`admits held m` says that a thread may take the lock in mode `m`. `Exclusive held` is mutual
exclusion, and every change of one place that the lock admits keeps it.
-/

namespace Lock

open Transition List

inductive Mode where
  | free
  | read
  | write
  deriving DecidableEq

def admits (held : List Mode) : Mode → Bool
  | .free => true
  | .read => held.all (· != Mode.write)
  | .write => held.all (· == Mode.free)

/-- A place that holds the lock for writing is the only one that holds it. -/
def Exclusive (held : List Mode) : Prop :=
  ∀ (i j : ℕ) (m : Mode), i ≠ j → held[i]? = some .write → held[j]? = some m →
    m = .free

theorem exclusive_nil : Exclusive [] := by
  intro i j m _ hi
  simp at hi

theorem Exclusive.ne_write {held : List Mode} (h : Exclusive held) {i j : ℕ}
    {m n : Mode} (hij : i ≠ j) (hi : held[i]? = some m) (hm : m ≠ .free)
    (hj : held[j]? = some n) : n ≠ .write := by
  rintro rfl
  exact hm (h j i m (Ne.symm hij) hj hi)

theorem Exclusive.append_free {held : List Mode} (h : Exclusive held) :
    Exclusive (held ++ [.free]) := by
  intro i j m hij hi hj
  rcases lookup_concat_iff.1 hi with ⟨-, hfree⟩ | ⟨-, hi⟩
  · cases hfree
  · rcases lookup_concat_iff.1 hj with ⟨-, hfree⟩ | ⟨-, hj⟩
    · exact hfree
    · exact h i j m hij hi hj

theorem Exclusive.set {held : List Mode} (h : Exclusive held) (k : ℕ) {m : Mode}
    (hm : admits held m = true) : Exclusive (held.set k m) := by
  intro i j n hij hi hj
  rcases lookup_set hi with ⟨rfl, rfl⟩ | ⟨_, hi'⟩
  · -- the place that was set now writes, so all others were free
    rcases lookup_set hj with ⟨rfl, _⟩ | ⟨_, hj⟩
    · exact absurd rfl hij
    · have hall := all_eq_true.1 hm n (mem_of_getElem? hj)
      simpa using hall
  · rcases lookup_set hj with ⟨rfl, rfl⟩ | ⟨_, hj⟩
    · -- another place writes, so only `free` was admitted
      cases n with
      | free => rfl
      | read =>
        have hall := all_eq_true.1 hm .write (mem_of_getElem? hi')
        simp at hall
      | write =>
        have hall := all_eq_true.1 hm .write (mem_of_getElem? hi')
        simp at hall
    · exact h i j n hij hi' hj

theorem Exclusive.set_same {held : List Mode} (h : Exclusive held) {k : ℕ}
    {m : Mode} (hk : held[k]? = some m) : Exclusive (held.set k m) := by
  have hlt : k < held.length := (List.getElem?_eq_some_iff.1 hk).1
  have hget : held[k] = m := (List.getElem?_eq_some_iff.1 hk).2
  rw [← hget, set_getElem_self]
  exact h

/-- Locks that are taken in an order: if whoever waits does so for something held by one who does
not wait, or waits for something larger, then someone does not wait. -/
theorem exists_not_waiting {ι : Type*} {active : ι → Prop} {waits : ι → Option ℕ} {bound : ℕ}
    (hbound : ∀ i m, waits i = some m → m < bound)
    (hheld : ∀ i m, active i → waits i = some m →
      ∃ j, active j ∧ ∀ m', waits j = some m' → m < m') {i : ι} (hi : active i) :
    ∃ j, active j ∧ waits j = none := by
  cases hw : waits i with
  | none => exact ⟨i, hi, hw⟩
  | some m =>
    induction hk : bound - m using Nat.strong_induction_on generalizing i m with
    | _ k ih =>
      obtain ⟨j, hj, hlater⟩ := hheld i m hi hw
      cases hwj : waits j with
      | none => exact ⟨j, hj, hwj⟩
      | some m' =>
        have hm := hlater m' hwj
        have hlt := hbound j m' hwj
        exact ih (bound - m') (by omega) hj m' hwj rfl

end Lock
