import AbstractionIdentity.Transition.Run
import AbstractionIdentity.Transition.Table
import AbstractionIdentity.Windows.TrustedPath
import Mathlib.Data.List.Nodup

/-!
# Admissions to the server queries

`AdmitServerQueries` merges its entries into two DACLs and remembers what it found and what it left.
Closing puts the former back, if the DACL still reads as the latter. So an admission undoes its own
effect when it is the last one open (`Stacked`), and not in another order.
-/

namespace Windows

open Transition List

/-- The two objects whose DACLs are written, in the order of the source. -/
inductive QueryTarget where
  | process
  | token
  deriving DecidableEq

def QueryTarget.mask : QueryTarget → AccessMask
  | .process => 0x1000
  | .token => 0x8

section Dacl

variable {Sid : Type*} [DecidableEq Sid]

abbrev Dacl (Sid : Type*) := List (Ace Sid)

/-- The entry a grant for `sid` is merged into. -/
def Ace.takes (sid : Sid) (ace : Ace Sid) : Bool :=
  !ace.inheritOnly && ace.type = .allowed && ace.sid = sid

/-- One `GRANT_ACCESS` entry of `ACLFromEntries`. -/
def grant (mask : AccessMask) (sid : Sid) : Dacl Sid → Dacl Sid
  | [] => [⟨false, .allowed, mask, sid⟩]
  | ace :: rest =>
    if ace.takes sid then { ace with mask := ace.mask ||| mask } :: rest
    else ace :: grant mask sid rest

/-- `ACLFromEntries` of `serverQueryEntries`. -/
def grantAll (mask : AccessMask) (sids : List Sid) (dacl : Dacl Sid) : Dacl Sid :=
  sids.foldl (fun dacl sid => grant mask sid dacl) dacl

def Grants (dacl : Dacl Sid) (mask : AccessMask) (sid : Sid) : Prop :=
  ∃ ace ∈ dacl, ace.takes sid = true ∧ ace.mask &&& mask = mask

instance (dacl : Dacl Sid) (mask : AccessMask) (sid : Sid) :
    Decidable (Grants dacl mask sid) :=
  inferInstanceAs (Decidable (∃ ace ∈ dacl, _))

end Dacl

/-- A successful call of `AdmitServerQueries`: the containers, and for each object
the DACL that was found and the one that was left. `closed` is its `once`. -/
structure Admission (Sid : Type*) where
  containers : List Sid
  before : QueryTarget → Dacl Sid
  applied : QueryTarget → Dacl Sid
  closed : Bool

structure Admissions (Sid : Type*) where
  dacl : QueryTarget → Dacl Sid
  made : List (Admission Sid)

inductive AdmissionAct (Sid : Type*) where
  | admits (containers : List Sid)
  | close (i : ℕ)

section Step

variable {Sid : Type*} [DecidableEq Sid] (isContainer : Sid → Bool)

def Admission.make (dacl : QueryTarget → Dacl Sid) (containers : List Sid) :
    Admission Sid where
  containers := containers
  before := dacl
  applied := fun target => grantAll target.mask containers (dacl target)
  closed := false

def Admission.restore (a : Admission Sid) (dacl : QueryTarget → Dacl Sid)
    (target : QueryTarget) : Dacl Sid :=
  if dacl target = a.applied target then a.before target else dacl target

/-- `AdmitServerQueries` with containers it takes, and the function it returns; a
second close does nothing. -/
def admissionStep (s : Admissions Sid) : AdmissionAct Sid → Option (Admissions Sid)
  | .admits containers =>
    if containers ≠ [] ∧ containers.Nodup ∧ containers.all isContainer = true then
      let a := Admission.make s.dacl containers
      some ⟨a.applied, s.made ++ [a]⟩
    else none
  | .close i =>
    match s.made[i]? with
    | none => none
    | some a =>
      if a.closed then some s
      else some ⟨a.restore s.dacl, s.made.set i { a with closed := true }⟩

/-- Every open admission has its containers granted, and once all are closed the
DACLs are the original ones. -/
def OwnGrants (original : QueryTarget → Dacl Sid) (s : Admissions Sid) : Prop :=
  (∀ a ∈ s.made, a.closed = false → ∀ target, ∀ sid ∈ a.containers,
    Grants (s.dacl target) target.mask sid) ∧
  ((∀ a ∈ s.made, a.closed = true) → s.dacl = original)

def nested (s : Admissions Sid) : AdmissionAct Sid → Prop
  | .admits _ => True
  | .close i => (s.made.drop (i + 1)).all (·.closed) = true ∨
      s.made[i]?.all (·.closed) = true

omit [DecidableEq Sid] in
instance decidableNested (s : Admissions Sid) : ∀ a, Decidable (nested s a)
  | .admits _ => isTrue trivial
  | .close _ => inferInstanceAs (Decidable (_ ∨ _))

/-! ### What a grant leaves in place -/

variable {a : Admission Sid} {dacl original : QueryTarget → Dacl Sid} {made : List (Admission Sid)}
  {mask : AccessMask} {sid : Sid}

theorem or_and_eq_of_and_eq {a b : AccessMask} (h : a &&& mask = mask) :
    (a ||| b) &&& mask = mask := by
  rw [BitVec.and_or_distrib_right, h]
  ext i
  simp only [BitVec.getElem_or, BitVec.getElem_and]
  cases b[i] <;> cases mask[i] <;> rfl

theorem grants_grant_self (mask : AccessMask) (sid : Sid) (dacl : Dacl Sid) :
    Grants (grant mask sid dacl) mask sid := by
  induction dacl with
  | nil => exact ⟨_, .head _, by simp [Ace.takes], BitVec.and_self⟩
  | cons ace rest ih =>
    rw [grant]
    split_ifs with htakes
    · refine ⟨_, .head _, htakes, ?_⟩
      dsimp only
      rw [BitVec.or_comm]
      exact or_and_eq_of_and_eq BitVec.and_self
    · obtain ⟨ace', hmem, hrest⟩ := ih
      exact ⟨ace', .tail _ hmem, hrest⟩

theorem Grants.grant {dacl : Dacl Sid} {mask' : AccessMask}
    (h : Grants dacl mask sid) (sid' : Sid) : Grants (grant mask' sid' dacl) mask sid := by
  induction dacl with
  | nil =>
    obtain ⟨ace, hmem, -⟩ := h
    cases hmem
  | cons ace rest ih =>
    obtain ⟨ace', hmem, htakes, hmask⟩ := h
    rw [Windows.grant]
    split_ifs with hhead
    · rcases mem_cons.1 hmem with rfl | hmem
      · exact ⟨_, .head _, htakes, or_and_eq_of_and_eq hmask⟩
      · exact ⟨ace', .tail _ hmem, htakes, hmask⟩
    · rcases mem_cons.1 hmem with rfl | hmem
      · exact ⟨_, .head _, htakes, hmask⟩
      · obtain ⟨ace'', hmem', hrest⟩ := ih ⟨ace', hmem, htakes, hmask⟩
        exact ⟨ace'', .tail _ hmem', hrest⟩

theorem Grants.grantAll {dacl : Dacl Sid} {mask' : AccessMask}
    (h : Grants dacl mask sid) (sids : List Sid) :
    Grants (grantAll mask' sids dacl) mask sid := by
  induction sids generalizing dacl with
  | nil => exact h
  | cons sid' sids ih => exact ih (h.grant sid')

theorem grants_grantAll (mask : AccessMask) {sids : List Sid}
    (hsid : sid ∈ sids) (dacl : Dacl Sid) : Grants (grantAll mask sids dacl) mask sid := by
  induction sids generalizing dacl with
  | nil => cases hsid
  | cons sid' sids ih =>
    rcases mem_cons.1 hsid with rfl | hsid
    · exact (grants_grant_self mask sid dacl).grantAll sids
    · exact ih hsid _

/-! ### Open admissions stand on each other -/

/-- The admissions, newest first, over the DACLs `dacl`: the newest open one left
them, and what it found is what the older ones stand under. -/
def Stacked (original : QueryTarget → Dacl Sid) :
    List (Admission Sid) → (QueryTarget → Dacl Sid) → Prop
  | [], dacl => dacl = original
  | a :: older, dacl =>
    if a.closed then Stacked original older dacl
    else (dacl = a.applied ∧ a = Admission.make a.before a.containers) ∧
      Stacked original older a.before

theorem stacked_append_of_closed
    {newer older : List (Admission Sid)} (hclosed : ∀ a ∈ newer, a.closed = true) :
    Stacked original (newer ++ older) dacl ↔ Stacked original older dacl := by
  induction newer with
  | nil => rfl
  | cons a newer ih =>
    rw [cons_append, Stacked, if_pos (hclosed a (.head _)), ih fun b hb => hclosed b (.tail _ hb)]

theorem Stacked.grants (h : Stacked original made dacl)
    (ha : a ∈ made) (hopen : a.closed = false) (target : QueryTarget)
    (hsid : sid ∈ a.containers) : Grants (dacl target) target.mask sid := by
  induction made generalizing dacl with
  | nil => cases ha
  | cons b older ih =>
    rw [Stacked] at h
    split_ifs at h with hb
    · rcases mem_cons.1 ha with rfl | ha
      · rw [hb] at hopen
        cases hopen
      · exact ih h ha
    · obtain ⟨⟨rfl, hmake⟩, holder⟩ := h
      have happlied : b.applied target =
          Windows.grantAll target.mask b.containers (b.before target) := by
        rw [hmake]
        rfl
      rw [happlied]
      rcases mem_cons.1 ha with rfl | ha
      · exact grants_grantAll target.mask hsid _
      · exact (ih holder ha).grantAll _

theorem Stacked.original_of_closed
    (h : Stacked original made dacl) (hclosed : ∀ a ∈ made, a.closed = true) :
    dacl = original := by
  rw [← append_nil made, stacked_append_of_closed hclosed] at h
  exact h

omit [DecidableEq Sid] in
theorem reverse_eq_of_lookup {i : ℕ} (hi : made[i]? = some a) :
    made.reverse = (made.drop (i + 1)).reverse ++ a :: (made.take i).reverse := by
  obtain ⟨hlt, rfl⟩ := List.getElem?_eq_some_iff.1 hi
  calc made.reverse = (made.take i ++ made[i] :: made.drop (i + 1)).reverse := by
        rw [getElem_cons_drop, take_append_drop]
    _ = (made.drop (i + 1)).reverse ++ made[i] :: (made.take i).reverse := by simp

omit [DecidableEq Sid] in
theorem reverse_set_of_lookup {i : ℕ} {b : Admission Sid} (hi : made[i]? = some a) :
    (made.set i b).reverse = (made.drop (i + 1)).reverse ++ b :: (made.take i).reverse := by
  have hlt : i < made.length := (List.getElem?_eq_some_iff.1 hi).1
  rw [set_eq_take_append_cons_drop, if_pos hlt]
  simp

variable {isContainer} in
theorem Stacked.step {s t : Admissions Sid}
    {a : AdmissionAct Sid} (h : Stacked original s.made.reverse s.dacl)
    (hnested : nested s a) (hstep : admissionStep isContainer s a = some t) :
    Stacked original t.made.reverse t.dacl := by
  cases a with
  | admits containers =>
    simp only [admissionStep] at hstep
    split_ifs at hstep
    cases hstep
    rw [reverse_append, reverse_singleton, singleton_append, Stacked,
      if_neg (by simp [Admission.make])]
    exact ⟨⟨rfl, rfl⟩, h⟩
  | close i =>
    simp only [admissionStep] at hstep
    split at hstep
    · cases hstep
    · next a hi =>
        split_ifs at hstep with hclosed
        · cases hstep
          exact h
        · cases hstep
          -- what was made after the admission is closed, so the admission left the DACLs
          have hnewer : ∀ b ∈ (s.made.drop (i + 1)).reverse, b.closed = true := by
            have hall := hnested.resolve_right (by simp [hi, hclosed])
            exact fun b hb => all_eq_true.1 hall b (mem_reverse.1 hb)
          rw [reverse_eq_of_lookup hi, stacked_append_of_closed hnewer, Stacked,
            if_neg hclosed] at h
          obtain ⟨⟨hdacl, -⟩, holder⟩ := h
          have hrestore : a.restore s.dacl = a.before := by
            funext target
            rw [Admission.restore, if_pos (congrFun hdacl target)]
          rw [reverse_set_of_lookup hi, stacked_append_of_closed hnewer, Stacked,
            if_pos rfl, hrestore]
          exact holder

variable {isContainer} in
/-- Along every run that closes admissions in the reverse order of their making, each open one has
its grants, and closing all gives the original DACLs back. -/
theorem ownGrants_of_nested {original : QueryTarget → Dacl Sid}
    {as : List (AdmissionAct Sid)} {s : Admissions Sid}
    (hnested : along (admissionStep isContainer) nested ⟨original, []⟩ as)
    (hrun : run (admissionStep isContainer) ⟨original, []⟩ as = some s) :
    OwnGrants original s := by
  have h : Stacked original s.made.reverse s.dacl :=
    run_invariant (I := fun s : Admissions Sid => Stacked original s.made.reverse s.dacl)
      (fun _ _ _ hs hok hstep => hs.step hok hstep) (by rfl) hnested hrun
  refine ⟨fun a ha hopen target sid hsid => ?_, fun hclosed => ?_⟩
  · exact h.grants (mem_reverse.2 ha) hopen target hsid
  · exact h.original_of_closed fun a ha => hclosed a (mem_reverse.1 ha)

end Step

def nestedRun : List (AdmissionAct ℕ) := [.admits [1], .admits [1, 2], .close 1, .close 0]

theorem ownGrants_of_nested_nestedRun :
    ∃ s, run (admissionStep fun _ : ℕ => true) ⟨fun _ => [], []⟩ nestedRun = some s ∧
      s.dacl = fun _ => [] := by
  have hnested : along (admissionStep fun _ : ℕ => true) nested ⟨fun _ => [], []⟩
      nestedRun := by decide
  exact ⟨_, rfl, (ownGrants_of_nested hnested rfl).2 (by decide)⟩

/-- The first admission closed while the second is open: it finds a changed DACL and
leaves its entry, which the second one puts back when it is closed. -/
def crossedRun : List (AdmissionAct ℕ) := [.admits [1], .admits [2], .close 0, .close 1]

/-- Two admissions of one container: the second changes nothing, so the first finds
its own DACL and takes the grant away from the second. -/
def sharedRun : List (AdmissionAct ℕ) := [.admits [1], .admits [1], .close 0]

/-- Closed out of order, an admission leaves its entry behind, or takes away the
grant of an admission that is still open. -/
theorem not_ownGrants_out_of_order :
    (∃ s, run (admissionStep fun _ : ℕ => true) ⟨fun _ => [], []⟩ crossedRun = some s ∧
      (∀ a ∈ s.made, a.closed = true) ∧ s.dacl .process = [⟨false, .allowed, 0x1000, 1⟩] ∧
      ¬ OwnGrants (fun _ => []) s) ∧
    ∃ s, run (admissionStep fun _ : ℕ => true) ⟨fun _ => [], []⟩ sharedRun = some s ∧
      (∃ a ∈ s.made, a.closed = false ∧ a.containers = [1]) ∧ s.dacl .process = [] ∧
      ¬ OwnGrants (fun _ => []) s := by
  refine ⟨⟨_, rfl, by decide, by decide, ?_⟩, _, rfl, by decide, by decide, ?_⟩
  · rintro ⟨-, hrestored⟩
    have hprocess := congrFun (hrestored (by decide)) .process
    exact absurd hprocess (by decide)
  · rintro ⟨hgrants, -⟩
    have hgrant := hgrants _ (.tail _ (.head _)) rfl .process 1 (by decide)
    exact absurd hgrant (by decide)

end Windows
