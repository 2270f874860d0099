import AbstractionIdentity.Text.Bytes
import AbstractionIdentity.Transition.Run
import AbstractionIdentity.Transition.Table
import Mathlib.Logic.Function.Basic

/-!
# The admission registry

`ConfigureAdmission` enters the AppContainers that endpoints admit into a map and returns a function
that removes them. Callers may change the slices they passed, so slices are cells of a memory: the
registry holds addresses of cells it cloned. Critical sections are single steps.
-/

namespace Listen.EndpointAdmission

open Text Transition Option

/-! ## Validation -/

inductive AdmissionError where
  | required
  | invalidOrRepeatedSid (sid : Bytes)
  | invalidSid (sid : Bytes)
  | endpoint
  | configured (endpoint : Bytes)
  deriving DecidableEq

def canonicalPart (part : Bytes) : Bool :=
  ((digits part).filter (· < 2 ^ 32)).any fun n => decimal n = part

def checkContainers : List Bytes → List Bytes → Option AdmissionError
  | [], _ => none
  | sid :: rest, seen =>
    let parts := split 45 sid
    if parts.length ≠ 11 ∨ [45].intercalate (parts.take 4) ≠ ascii "S-1-15-2" ∨ sid ∈ seen then
      some (.invalidOrRepeatedSid sid)
    else if (parts.drop 4).all canonicalPart then checkContainers rest (sid :: seen)
    else some (.invalidSid sid)

def checkEndpoints : List Bytes → List Bytes → Option AdmissionError
  | [], _ => none
  | endpoint :: rest, seen =>
    if endpoint = [] ∨ endpoint.any (· ∈ [0, 13, 10]) ∨ endpoint ∈ seen then some .endpoint
    else checkEndpoints rest (endpoint :: seen)

def validate (endpoints containers : List Bytes) : Option AdmissionError :=
  if endpoints = [] ∨ containers = [] then some .required
  else
    match checkContainers containers [] with
    | some err => some err
    | none => checkEndpoints endpoints []

/-! ## The registry -/

structure Cell where
  content : List Bytes
  ours : Bool
  deriving DecidableEq

inductive Release where
  | armed
  | releasing
  | released
  deriving DecidableEq

/-- An accepted configuration: the cell of its `owned`, its release function, and what the
arguments were. -/
structure Accepted where
  owned : ℕ
  release : Release
  endpoints : List Bytes
  containers : List Bytes
  deriving DecidableEq

/-- A call, with the cells of its arguments and its result: an error, or the configuration whose
release function it returned. -/
structure Call where
  endpoints : ℕ
  containers : ℕ
  result : Option (Except AdmissionError ℕ)

structure Registry where
  cells : List Cell := []
  entries : Bytes → Option ℕ := fun _ => none
  calls : List Call := []
  accepted : List Accepted := []

def Registry.content (s : Registry) (addr : ℕ) : List Bytes :=
  (s.cells[addr]?.map Cell.content).getD []

def Registry.busy (s : Registry) (addr : ℕ) : Bool :=
  s.calls.any fun c => c.result.isNone && (c.endpoints = addr || c.containers = addr)

def Registry.foreign (s : Registry) (addr : ℕ) : Bool := s.cells[addr]?.any fun c => !c.ours

def install (containers : List Bytes) : List Bytes → Registry → Registry
  | [], s => s
  | endpoint :: rest, s =>
    install containers rest
      { s with
        cells := s.cells ++ [⟨containers, true⟩]
        entries := Function.update s.entries endpoint (some s.cells.length) }

def configure (endpoints containers : List Bytes) (s : Registry) :
    Except AdmissionError Registry :=
  match validate endpoints containers with
  | some err => .error err
  | none =>
    match endpoints.find? fun endpoint => (s.entries endpoint).isSome with
    | some endpoint => .error (.configured endpoint)
    | none =>
      let t := install containers endpoints s
      .ok { t with
        cells := t.cells ++ [⟨endpoints, true⟩]
        accepted := t.accepted ++ [⟨t.cells.length, .armed, endpoints, containers⟩] }

def remove (endpoints : List Bytes) (entries : Bytes → Option ℕ) : Bytes → Option ℕ :=
  endpoints.foldl (fun entries endpoint => Function.update entries endpoint none) entries

/-- What callers do: they make and change slices, call `ConfigureAdmission` and
`admittedContainers`, and call a release function. `commit` and `delete` are critical sections. -/
inductive Act where
  | make (content : List Bytes)
  | write (addr : ℕ) (content : List Bytes)
  | call (endpoints containers : ℕ)
  | commit (call : ℕ)
  | release (k : ℕ)
  | delete (k : ℕ)
  | admittedContainers (endpoint : Bytes)

/-- One act. A slice that a pending call has got is not written until the call has committed: Go
leaves what `ConfigureAdmission` would read from it undefined. -/
def step (s : Registry) : Act → Option Registry
  | .make content => some { s with cells := s.cells ++ [⟨content, false⟩] }
  | .write addr content =>
    if s.foreign addr && !s.busy addr then
      some { s with cells := s.cells.set addr ⟨content, false⟩ }
    else none
  | .call endpoints containers =>
    if s.foreign endpoints && s.foreign containers then
      some { s with calls := s.calls ++ [⟨endpoints, containers, none⟩] }
    else none
  | .commit i =>
    match s.calls[i]? with
    | some ⟨endpoints, containers, none⟩ =>
      match configure (s.content endpoints) (s.content containers) s with
      | .error err =>
        some { s with calls := s.calls.set i ⟨endpoints, containers, some (.error err)⟩ }
      | .ok t => some { t with
          calls := s.calls.set i ⟨endpoints, containers, some (.ok s.accepted.length)⟩ }
    | _ => none
  | .release k =>
    match s.accepted[k]? with
    | some a =>
      -- a later call waits for the first one or returns
      if a.release = .armed then
        some { s with accepted := s.accepted.set k { a with release := .releasing } }
      else some s
    | none => none
  | .delete k =>
    match s.accepted[k]? with
    | some a =>
      if a.release = .releasing then
        some { s with
          entries := remove (s.content a.owned) s.entries
          accepted := s.accepted.set k { a with release := .released } }
      else none
    | none => none
  | .admittedContainers endpoint =>
    some { s with
      cells := s.cells ++ [⟨((s.entries endpoint).map s.content).getD [], false⟩] }

/-! ## The invariant -/

def Registry.Serves (s : Registry) (k : ℕ) (a : Accepted) (endpoint : Bytes) : Prop :=
  s.accepted[k]? = some a ∧ a.release ≠ .released ∧ endpoint ∈ a.endpoints

structure Invariant (s : Registry) : Prop where
  owned : ∀ {k : ℕ} {a : Accepted}, s.accepted[k]? = some a → a.release ≠ .released →
    s.cells[a.owned]? = some ⟨a.endpoints, true⟩
  present : ∀ {k : ℕ} {a : Accepted} {endpoint : Bytes}, s.Serves k a endpoint →
    ∃ addr : ℕ, s.entries endpoint = some addr ∧ s.cells[addr]? = some ⟨a.containers, true⟩
  served : ∀ {endpoint : Bytes} {addr : ℕ}, s.entries endpoint = some addr →
    ∃ k a, s.Serves k a endpoint
  disjoint : ∀ {i j : ℕ} {a b : Accepted} {endpoint : Bytes},
    s.Serves i a endpoint → s.Serves j b endpoint → i = j

def Keeps (cells cells' : List Cell) : Prop :=
  ∀ (addr : ℕ) (content : List Bytes),
    cells[addr]? = some ⟨content, true⟩ → cells'[addr]? = some ⟨content, true⟩

theorem keeps_append (cells more : List Cell) : Keeps cells (cells ++ more) := by
  intro addr content h
  have hlt : addr < cells.length := (List.getElem?_eq_some_iff.1 h).1
  rw [List.getElem?_append_left hlt, h]

theorem keeps_set {cells : List Cell} {addr : ℕ} {cell : Cell}
    (h : cells[addr]?.any (fun c => !c.ours) = true) : Keeps cells (cells.set addr cell) := by
  intro other content hother
  by_cases heq : other = addr
  · subst heq
    rw [hother] at h
    cases h
  · rw [List.getElem?_set_ne (Ne.symm heq), hother]

variable {a : Accepted} {containers endpoints : List Bytes} {k : ℕ} {s t : Registry}

theorem Invariant.of_keeps (h : Invariant s) (hcells : Keeps s.cells t.cells)
    (hentries : t.entries = s.entries) (haccepted : t.accepted = s.accepted) : Invariant t := by
  have hserves : ∀ {k a endpoint}, t.Serves k a endpoint ↔ s.Serves k a endpoint := by
    intro k a endpoint
    rw [Registry.Serves, Registry.Serves, haccepted]
  refine ⟨fun ha hlive => ?_, fun hs => ?_, fun he => ?_, fun hi hj => ?_⟩
  · rw [haccepted] at ha
    exact hcells _ _ (h.owned ha hlive)
  · obtain ⟨addr, hentry, hcell⟩ := h.present (hserves.1 hs)
    exact ⟨addr, by rw [hentries, hentry], hcells _ _ hcell⟩
  · rw [hentries] at he
    obtain ⟨k, a, hs⟩ := h.served he
    exact ⟨k, a, hserves.2 hs⟩
  · exact h.disjoint (hserves.1 hi) (hserves.1 hj)

/-! ## The loops -/

theorem install_spec {containers endpoints : List Bytes} {s : Registry} :
    Keeps s.cells (install containers endpoints s).cells ∧
      (install containers endpoints s).accepted = s.accepted ∧
      (∀ e ∉ endpoints, (install containers endpoints s).entries e = s.entries e) ∧
      ∀ e ∈ endpoints, ∃ addr, (install containers endpoints s).entries e = some addr ∧
        (install containers endpoints s).cells[addr]? = some ⟨containers, true⟩ := by
  induction endpoints generalizing s with
  | nil => exact ⟨fun _ _ h => h, rfl, fun _ _ => rfl, fun _ h => (nomatch h)⟩
  | cons endpoint rest ih =>
    rw [install]
    obtain ⟨hkeeps, haccepted, hother, hhere⟩ := @ih { s with
      cells := s.cells ++ [⟨containers, true⟩]
      entries := Function.update s.entries endpoint (some s.cells.length) }
    refine ⟨fun addr content h => ?_, haccepted, fun e he => ?_, fun e he => ?_⟩
    · exact hkeeps addr content (keeps_append _ _ addr content h)
    · rw [List.mem_cons, not_or] at he
      rw [hother e he.2]
      exact Function.update_of_ne he.1 _ _
    · by_cases hrest : e ∈ rest
      · exact hhere e hrest
      · obtain rfl : e = endpoint := (List.mem_cons.1 he).resolve_right hrest
        refine ⟨s.cells.length, ?_, hkeeps _ _ ?_⟩
        · rw [hother e hrest]
          exact Function.update_self _ _ _
        · exact List.getElem?_concat_length

theorem remove_apply {entries : Bytes → Option ℕ} {e : Bytes} :
    remove endpoints entries e = if e ∈ endpoints then none else entries e := by
  induction endpoints generalizing entries with
  | nil => rfl
  | cons endpoint rest ih =>
    have hrest : remove (endpoint :: rest) entries =
      remove rest (Function.update entries endpoint none) := rfl
    rw [hrest, ih]
    by_cases he : e = endpoint
    · subst he
      simp
    · simp [he]

/-! ## Steps -/

theorem configure_ok (h : configure endpoints containers s = .ok t) :
    (∀ e ∈ endpoints, s.entries e = none) ∧ t = { install containers endpoints s with
        cells := (install containers endpoints s).cells ++ [⟨endpoints, true⟩]
        accepted := (install containers endpoints s).accepted ++
          [⟨(install containers endpoints s).cells.length, .armed, endpoints, containers⟩] } := by
  rw [configure] at h
  cases hvalid : validate endpoints containers with
  | some err =>
    rw [hvalid] at h
    cases h
  | none =>
    cases hfind : endpoints.find? fun endpoint => (s.entries endpoint).isSome with
    | some endpoint =>
      rw [hvalid, hfind] at h
      cases h
    | none =>
      rw [hvalid, hfind] at h
      cases h
      refine ⟨fun e he => ?_, rfl⟩
      exact not_isSome_iff_eq_none.1 (List.find?_eq_none.1 hfind e he)

theorem Invariant.configure
    (h : Invariant s) (hok : configure endpoints containers s = .ok t) : Invariant t := by
  obtain ⟨hfree, rfl⟩ := configure_ok hok
  obtain ⟨hkeeps, haccepted, hother, hhere⟩ := @install_spec containers endpoints s
  generalize install containers endpoints s = u at *
  have hkeeps' : Keeps s.cells (u.cells ++ [⟨endpoints, true⟩]) := fun addr content hc =>
    keeps_append _ _ addr content (hkeeps addr content hc)
  -- an endpoint that is served already is not one of the new ones
  have hold : ∀ {k a e}, s.Serves k a e → e ∉ endpoints := by
    intro k a e hs he
    obtain ⟨addr, hentry, -⟩ := h.present hs
    rw [hfree e he] at hentry
    cases hentry
  have hserves : ∀ {k a e}, Registry.Serves { u with
      cells := u.cells ++ [⟨endpoints, true⟩]
      accepted := u.accepted ++ [⟨u.cells.length, .armed, endpoints, containers⟩] } k a e →
      k = s.accepted.length ∧ a = ⟨u.cells.length, .armed, endpoints, containers⟩ ∧
        e ∈ endpoints ∨ k ≠ s.accepted.length ∧ s.Serves k a e := by
    rintro k a e ⟨ha, hlive, he⟩
    dsimp only at ha
    rw [haccepted] at ha
    rcases lookup_concat_iff.1 ha with ⟨rfl, rfl⟩ | ⟨hk, ha⟩
    · exact .inl ⟨rfl, rfl, he⟩
    · exact .inr ⟨hk, ha, hlive, he⟩
  refine ⟨fun ha hlive => ?_, fun hs => ?_, fun {e addr} hentry => ?_, fun hi hj => ?_⟩
  · dsimp only at ha
    rw [haccepted] at ha
    rcases lookup_concat_iff.1 ha with ⟨-, rfl⟩ | ⟨-, ha⟩
    · exact List.getElem?_concat_length
    · exact hkeeps' _ _ (h.owned ha hlive)
  · rcases hserves hs with ⟨-, rfl, he⟩ | ⟨-, hs⟩
    · obtain ⟨addr, hentry, hcell⟩ := hhere _ he
      exact ⟨addr, hentry, keeps_append _ _ _ _ hcell⟩
    · obtain ⟨addr, hentry, hcell⟩ := h.present hs
      exact ⟨addr, (hother _ (hold hs)).trans hentry, hkeeps' _ _ hcell⟩
  · by_cases he : e ∈ endpoints
    · refine ⟨s.accepted.length, ⟨u.cells.length, .armed, endpoints, containers⟩, ?_, ?_, he⟩
      · dsimp only
        rw [haccepted]
        exact List.getElem?_concat_length
      · exact fun hrel => (nomatch hrel)
    · obtain ⟨k, a, ha, hlive, hmem⟩ := h.served ((hother e he).symm.trans hentry)
      refine ⟨k, a, ?_, hlive, hmem⟩
      dsimp only
      rw [haccepted]
      exact lookup_concat_iff.2 (.inr ⟨Nat.ne_of_lt (List.getElem?_eq_some_iff.1 ha).1, ha⟩)
  · rcases hserves hi with ⟨rfl, -, he⟩ | ⟨-, hi⟩ <;> rcases hserves hj with ⟨rfl, -, he'⟩ | ⟨-, hj⟩
    · rfl
    · exact absurd he (hold hj)
    · exact absurd he' (hold hi)
    · exact h.disjoint hi hj

theorem Invariant.releasing (h : Invariant s)
    (ha : s.accepted[k]? = some a) (harmed : a.release = .armed) :
    Invariant { s with accepted := s.accepted.set k { a with release := .releasing } } := by
  have hlive : a.release ≠ .released := by
    rw [harmed]
    exact fun hr => (nomatch hr)
  have howned : s.cells[a.owned]? = some ⟨a.endpoints, true⟩ := h.owned ha hlive
  have hserves : ∀ {i : ℕ} {b : Accepted} {e : Bytes}, Registry.Serves { s with
      accepted := s.accepted.set k { a with release := .releasing } } i b e →
      ∃ c, s.Serves i c e ∧ c.containers = b.containers := by
    rintro i b e ⟨hb, hb_live, he⟩
    rcases lookup_set hb with ⟨rfl, rfl⟩ | ⟨-, hb⟩
    · exact ⟨a, ⟨ha, hlive, he⟩, rfl⟩
    · exact ⟨b, ⟨hb, hb_live, he⟩, rfl⟩
  refine ⟨fun hb hb_live => ?_, fun hs => ?_, fun hentry => ?_, fun hi hj => ?_⟩
  · rcases lookup_set hb with ⟨-, rfl⟩ | ⟨-, hb⟩
    · exact howned
    · exact h.owned hb hb_live
  · obtain ⟨c, hc, hcontainers⟩ := hserves hs
    rw [← hcontainers]
    exact h.present hc
  · obtain ⟨i, b, hb, hlive, he⟩ := h.served hentry
    by_cases hik : i = k
    · subst hik
      obtain rfl : a = b := some.inj (ha.symm.trans hb)
      exact ⟨i, _, (lookup_set_iff ha).2 (.inl ⟨rfl, rfl⟩), fun hr => (nomatch hr), he⟩
    · exact ⟨i, b, (lookup_set_iff ha).2 (.inr ⟨hik, hb⟩), hlive, he⟩
  · obtain ⟨c, hc, -⟩ := hserves hi
    obtain ⟨c', hc', -⟩ := hserves hj
    exact h.disjoint hc hc'

theorem Invariant.delete (h : Invariant s)
    (ha : s.accepted[k]? = some a) (hreleasing : a.release = .releasing) :
    Invariant { s with
      entries := remove (s.content a.owned) s.entries
      accepted := s.accepted.set k { a with release := .released } } := by
  have hlive : a.release ≠ .released := by
    rw [hreleasing]
    exact fun hr => (nomatch hr)
  have hcontent : s.content a.owned = a.endpoints := by
    rw [Registry.content, h.owned ha hlive]
    rfl
  have hserves : ∀ {i : ℕ} {b : Accepted} {e : Bytes}, Registry.Serves { s with
      entries := remove (s.content a.owned) s.entries
      accepted := s.accepted.set k { a with release := .released } } i b e →
      i ≠ k ∧ s.Serves i b e := by
    rintro i b e ⟨hb, hb_live, he⟩
    rcases lookup_set hb with ⟨rfl, rfl⟩ | ⟨hik, hb⟩
    · exact absurd rfl hb_live
    · exact ⟨hik, hb, hb_live, he⟩
  refine ⟨fun hb hb_live => ?_, fun hs => ?_, fun {e addr} hentry => ?_, fun hi hj => ?_⟩
  · rcases lookup_set hb with ⟨rfl, rfl⟩ | ⟨-, hb⟩
    · exact absurd rfl hb_live
    · exact h.owned hb hb_live
  · obtain ⟨hik, hs⟩ := hserves hs
    obtain ⟨addr, hentry, hcell⟩ := h.present hs
    refine ⟨addr, ?_, hcell⟩
    dsimp only
    rw [remove_apply, hcontent, if_neg, hentry]
    exact fun he => hik (h.disjoint hs ⟨ha, hlive, he⟩)
  · dsimp only at hentry
    rw [remove_apply, hcontent] at hentry
    split_ifs at hentry with he
    obtain ⟨i, b, hb, hb_live, hmem⟩ := h.served hentry
    refine ⟨i, b, (lookup_set_iff ha).2 (.inr ⟨?_, hb⟩), hb_live, hmem⟩
    rintro rfl
    obtain rfl : a = b := some.inj (ha.symm.trans hb)
    exact he hmem
  · exact h.disjoint (hserves hi).2 (hserves hj).2

theorem step_commit {i : ℕ} (h : step s (.commit i) = some t) :
    ∃ c, s.calls[i]? = some c ∧ c.result = none ∧
      ((∃ err, t = { s with calls := s.calls.set i { c with result := some (.error err) } }) ∨
        ∃ u, configure (s.content c.endpoints) (s.content c.containers) s = .ok u ∧
          t = { u with calls :=
            s.calls.set i { c with result := some (.ok s.accepted.length) } }) := by
  rw [step] at h
  split at h
  next endpoints containers hcall =>
    refine ⟨_, hcall, rfl, ?_⟩
    split at h
    next err herr =>
      cases h
      exact .inl ⟨err, rfl⟩
    next u hu =>
      cases h
      exact .inr ⟨u, hu, rfl⟩
  · cases h

theorem step_release (h : step s (.release k) = some t) : ∃ a, s.accepted[k]? = some a ∧
      (a.release = .armed ∧
        t = { s with accepted := s.accepted.set k { a with release := .releasing } } ∨
        a.release ≠ .armed ∧ t = s) := by
  rw [step] at h
  split at h
  next a ha =>
    refine ⟨a, ha, ?_⟩
    split_ifs at h with harmed
    · cases h
      exact .inl ⟨harmed, rfl⟩
    · cases h
      exact .inr ⟨harmed, rfl⟩
  · cases h

theorem step_delete (h : step s (.delete k) = some t) :
    ∃ a, s.accepted[k]? = some a ∧ a.release = .releasing ∧ t = { s with
        entries := remove (s.content a.owned) s.entries
        accepted := s.accepted.set k { a with release := .released } } := by
  rw [step] at h
  split at h
  next a ha =>
    split_ifs at h with hreleasing
    cases h
    exact ⟨a, ha, hreleasing, rfl⟩
  · cases h

theorem step_invariant (s : Registry) (act : Act) (t : Registry) (h : Invariant s)
    (hstep : step s act = some t) : Invariant t := by
  cases act with
  | make content =>
    cases hstep
    exact h.of_keeps (keeps_append _ _) rfl rfl
  | write addr content =>
    rw [step] at hstep
    split_ifs at hstep with hfree
    cases hstep
    exact h.of_keeps (keeps_set (Bool.and_eq_true_iff.1 hfree).1) rfl rfl
  | call endpoints containers =>
    rw [step] at hstep
    split_ifs at hstep with hforeign
    cases hstep
    exact h.of_keeps (fun _ _ hc => hc) rfl rfl
  | commit i =>
    obtain ⟨c, -, -, ⟨err, rfl⟩ | ⟨u, hu, rfl⟩⟩ := step_commit hstep
    · exact h.of_keeps (fun _ _ hc => hc) rfl rfl
    · exact (h.configure hu).of_keeps (fun _ _ hc => hc) rfl rfl
  | release k =>
    obtain ⟨a, ha, ⟨harmed, rfl⟩ | ⟨-, rfl⟩⟩ := step_release hstep
    · exact h.releasing ha harmed
    · exact h
  | delete k =>
    obtain ⟨a, ha, hreleasing, rfl⟩ := step_delete hstep
    exact h.delete ha hreleasing
  | admittedContainers endpoint =>
    cases hstep
    exact h.of_keeps (keeps_append _ _) rfl rfl

theorem invariant_empty : Invariant {} :=
  ⟨fun ha => (nomatch ha), fun hs => (nomatch hs.1), fun he => (nomatch he),
    fun hi => (nomatch hi.1)⟩

/-! ## Runs -/

def Registry.lookup (s : Registry) (endpoint : Bytes) : Option (List Bytes) :=
  (s.entries endpoint).map s.content

theorem Invariant.lookup_iff (h : Invariant s) {endpoint : Bytes} :
    s.lookup endpoint = some containers ↔
      ∃ k a, s.Serves k a endpoint ∧ a.containers = containers := by
  have hpresent : ∀ {k : ℕ} {a : Accepted}, s.Serves k a endpoint →
      s.lookup endpoint = some a.containers := by
    intro k a hs
    obtain ⟨addr, hentry, hcell⟩ := h.present hs
    rw [Registry.lookup, hentry, map_some, Registry.content, hcell]
    rfl
  constructor
  · intro hlookup
    obtain ⟨addr, hentry, -⟩ := map_eq_some_iff.1 hlookup
    obtain ⟨k, a, hs⟩ := h.served hentry
    exact ⟨k, a, hs, some.inj ((hpresent hs).symm.trans hlookup)⟩
  · rintro ⟨k, a, hs, rfl⟩
    exact hpresent hs

theorem step_released {act : Act}
    (hstep : step s act = some t) (ha : s.accepted[k]? = some a) (hrel : a.release = .released) :
    t.accepted[k]? = some a := by
  have hset : ∀ {j : ℕ} {b c : Accepted}, s.accepted[j]? = some b → b.release ≠ .released →
      (s.accepted.set j c)[k]? = some a := by
    intro j b c hb hlive
    refine (lookup_set_iff hb).2 (.inr ⟨?_, ha⟩)
    rintro rfl
    obtain rfl : a = b := some.inj (ha.symm.trans hb)
    exact hlive hrel
  cases act with
  | make content =>
    cases hstep
    exact ha
  | write addr content =>
    rw [step] at hstep
    split_ifs at hstep
    cases hstep
    exact ha
  | call endpoints containers =>
    rw [step] at hstep
    split_ifs at hstep
    cases hstep
    exact ha
  | commit i =>
    obtain ⟨c, -, -, ⟨err, rfl⟩ | ⟨u, hu, rfl⟩⟩ := step_commit hstep
    · exact ha
    · obtain ⟨-, rfl⟩ := configure_ok hu
      dsimp only
      rw [install_spec.2.1]
      exact lookup_concat_iff.2 (.inr ⟨Nat.ne_of_lt (List.getElem?_eq_some_iff.1 ha).1, ha⟩)
  | release j =>
    obtain ⟨b, hb, ⟨harmed, rfl⟩ | ⟨-, rfl⟩⟩ := step_release hstep
    · exact hset hb (by rw [harmed]; exact fun hr => (nomatch hr))
    · exact ha
  | delete j =>
    obtain ⟨b, hb, hreleasing, rfl⟩ := step_delete hstep
    exact hset hb (by rw [hreleasing]; exact fun hr => (nomatch hr))
  | admittedContainers endpoint =>
    cases hstep
    exact ha

theorem rejected_unchanged {i : ℕ} {c : Call} {err : AdmissionError}
    (hstep : step s (.commit i) = some t) (hc : t.calls[i]? = some c)
    (herr : c.result = some (.error err)) :
    t.cells = s.cells ∧ t.entries = s.entries ∧ t.accepted = s.accepted := by
  obtain ⟨c', hc', -, ⟨err', rfl⟩ | ⟨u, hu, rfl⟩⟩ := step_commit hstep
  · exact ⟨rfl, rfl, rfl⟩
  · rcases lookup_set hc with ⟨-, rfl⟩ | ⟨hne, -⟩
    · cases herr
    · exact absurd rfl hne

/-- Along every run the registry is the disjoint union of the configurations accepted and not
released; a rejected call changes nothing, nor does a release function called again. -/
theorem registry_union {acts : List Act} {s : Registry} (hrun : run step {} acts = some s) :
    (∀ endpoint containers, s.lookup endpoint = some containers ↔
      ∃ k a, s.Serves k a endpoint ∧ a.containers = containers) ∧
      (∀ i j a b endpoint, s.Serves i a endpoint → s.Serves j b endpoint → i = j) ∧
      (∀ i t c err, step s (.commit i) = some t → t.calls[i]? = some c →
        c.result = some (.error err) →
          t.cells = s.cells ∧ t.entries = s.entries ∧ t.accepted = s.accepted) ∧
      (∀ k a, s.accepted[k]? = some a → a.release ≠ .armed → step s (.release k) = some s) ∧
      ∀ k a more t, s.accepted[k]? = some a → a.release = .released → run step s more = some t →
        t.accepted[k]? = some a ∧ step t (.release k) = some t ∧ step t (.delete k) = none := by
  have hinv : Invariant s := run_invariant_of_forall step_invariant invariant_empty hrun
  have hnoop : ∀ {t : Registry} {k : ℕ} {a : Accepted}, t.accepted[k]? = some a →
      a.release ≠ .armed → step t (.release k) = some t := by
    intro t k a ha harmed
    rw [step, ha]
    exact if_neg harmed
  refine ⟨fun endpoint containers => hinv.lookup_iff, fun i j a b endpoint hi hj =>
    hinv.disjoint hi hj, fun i t c err hstep hc herr => rejected_unchanged hstep hc herr,
    fun k a ha harmed => hnoop ha harmed, fun k a more t ha hrel hmore => ?_⟩
  have hstays : t.accepted[k]? = some a :=
    @run_invariant_of_forall Registry Act step (fun u => u.accepted[k]? = some a)
      (fun _ _ _ hu hstep => step_released hstep hu hrel) s t more ha hmore
  refine ⟨hstays, hnoop hstays (by rw [hrel]; exact fun hr => (nomatch hr)), ?_⟩
  rw [step, hstays]
  exact if_neg (by rw [hrel]; exact fun hr => (nomatch hr))

/-- Two endpoints are configured, released twice, and one of them configured again. -/
def reconfigured : List Act :=
  [.make [[97], [98]], .make [ascii "S-1-15-2-1-2-3-4-5-6-7"], .call 0 1, .commit 0,
    .write 1 [], .write 0 [[97]], .release 0, .delete 0, .make [ascii "S-1-15-2-7-6-5-4-3-2-1"],
    .call 0 5, .commit 1, .release 0]

theorem registry_union_reconfigured :
    ∃ s, run step {} reconfigured = some s ∧ ∀ endpoint containers,
      s.lookup endpoint = some containers ↔
        ∃ k a, s.Serves k a endpoint ∧ a.containers = containers := by
  obtain ⟨s, hs⟩ := isSome_iff_exists.1
    (show (run step {} reconfigured).isSome = true by decide +kernel)
  exact ⟨s, hs, (registry_union hs).1⟩

end Listen.EndpointAdmission
