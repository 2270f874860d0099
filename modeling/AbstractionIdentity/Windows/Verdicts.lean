import AbstractionIdentity.Transition.Run
import AbstractionIdentity.Transition.Table
import Mathlib.Data.List.Perm.Basic
import Mathlib.Tactic.SplitIfs

/-!
# The cache of Authenticode verdicts

`verifyProcessImageAt` reuses a verdict reached for the same process instance at the same path. One
lock guards `entries`, with a duplicated handle each, and `working`, the verification that runs for
a key; verification and duplication run outside it. `filed` is what a call's own `verifyFile`
returned (`VerifiedBy`).
-/

namespace Windows

open Transition List Option

def codeVerdictLifetime : ℤ := 300000000000

def codeVerdictLimit : ℕ := 256

structure CodeVerdictKey where
  pid : UInt32
  started : ℤ
  image : String
  revocation : Bool
  deriving DecidableEq

section Cache

variable {Verdict : Type*}

structure CodeVerdict (Verdict : Type*) where
  proc : ℕ
  verdict : Verdict
  at_ : ℤ
  deriving DecidableEq

abbrev Entries (Verdict : Type*) := List (CodeVerdictKey × CodeVerdict Verdict)

structure VerdictCache (Verdict : Type*) where
  entries : Entries Verdict
  closed : List ℕ

def VerdictCache.evict (c : VerdictCache Verdict)
    (out : CodeVerdictKey × CodeVerdict Verdict → Bool) : VerdictCache Verdict where
  entries := c.entries.filter fun x => !out x
  closed := c.closed ++ (c.entries.filter out).map (·.2.proc)

def VerdictCache.dropVerdict (c : VerdictCache Verdict) (key : CodeVerdictKey) :
    VerdictCache Verdict :=
  c.evict (·.1 = key)

def stale (now : ℤ) (at_ : ℤ) : Bool := now - at_ ≥ codeVerdictLifetime || now < at_

def older (oldest : Option (CodeVerdictKey × CodeVerdict Verdict))
    (x : CodeVerdictKey × CodeVerdict Verdict) :
    Option (CodeVerdictKey × CodeVerdict Verdict) :=
  match oldest with
  | none => some x
  | some o => if x.2.at_ < o.2.at_ then some x else some o

def VerdictCache.keepVerdict (c : VerdictCache Verdict) (gone : CodeVerdictKey → Bool)
    (key : CodeVerdictKey) (held : ℕ) (verdict : Verdict) (now : ℤ) :
    VerdictCache Verdict :=
  let c := c.dropVerdict key
  let c := c.evict fun x => gone x.1 || stale now x.2.at_
  let c :=
    if c.entries.length ≥ codeVerdictLimit then
      match c.entries.foldl older none with
      | some oldest => c.dropVerdict oldest.1
      | none => c
    else c
  { c with entries := c.entries ++ [(key, ⟨held, verdict, now⟩)] }

end Cache

inductive VerifyErr (Err : Type*) where
  | failed (err : Err)
  | interrupted
  deriving DecidableEq

abbrev VerifyResult (Verdict Err : Type*) := Except (VerifyErr Err) (Verdict × ℤ)

/-- Where a call stands; `served` is the clock reading with which the verdict was taken from an
entry. -/
inductive VerifyPc (Verdict Err : Type*) where
  | lookup
  | waiting (worker : ℕ)
  | verifying
  | keeping (verdict : Verdict) (now : ℤ)
  | held (verdict : Verdict) (now : ℤ) (proc : ℕ)
  | finishing (result : VerifyResult Verdict Err)
  | returned (result : VerifyResult Verdict Err) (served : Option ℤ)

/-- `filed` is what the call's own `verifyFile` returned and the clock right after;
`record` is its `codeVerification`, once `done` is closed. -/
structure VerifyCall (Verdict Err : Type*) where
  key : CodeVerdictKey
  pc : VerifyPc Verdict Err
  filed : Option (Except Err Verdict × ℤ)
  record : Option (VerifyResult Verdict Err)

structure Verdicts (Verdict Err : Type*) where
  cache : VerdictCache Verdict
  working : CodeVerdictKey → Option ℕ
  calls : List (VerifyCall Verdict Err)
  made : ℕ

def Verdicts.start (Verdict Err : Type*) : Verdicts Verdict Err := ⟨⟨[], []⟩, fun _ => none, [], 0⟩

/-- The steps of the calls, with what the system answers them; `reorder` changes the
order in which the map is visited. -/
inductive VerifyAct (Verdict Err : Type*) where
  | call (key : CodeVerdictKey)
  | reorder (entries : Entries Verdict)
  | lookup (i : ℕ) (now : ℤ)
  | wake (i : ℕ)
  | verify (i : ℕ) (answer : Except Err Verdict) (now : ℤ)
  | interrupt (i : ℕ)
  | duplicate (i : ℕ) (ok : Bool)
  | confirm (i : ℕ) (sameStart : Bool) (gone : CodeVerdictKey → Bool)
  | finish (i : ℕ)

section Step

variable {Verdict Err : Type*}

def Verdicts.join (s : Verdicts Verdict Err) (i : ℕ) (c : VerifyCall Verdict Err) :
    Verdicts Verdict Err :=
  match s.working c.key with
  | some worker => { s with calls := s.calls.set i { c with pc := .waiting worker } }
  | none => { s with
      working := Function.update s.working c.key (some i),
      calls := s.calls.set i { c with pc := .verifying } }

def Verdicts.lookup (s : Verdicts Verdict Err) (i : ℕ) (c : VerifyCall Verdict Err)
    (now : ℤ) : Verdicts Verdict Err :=
  match s.cache.entries.find? (·.1 = c.key) with
  | none => s.join i c
  | some (_, entry) =>
    if stale now entry.at_ then
      ({ s with cache := s.cache.dropVerdict c.key } : Verdicts Verdict Err).join i c
    else { s with calls := s.calls.set i { c with
          pc := .returned (.ok (entry.verdict, entry.at_)) (some now) } }

def afterVerify (now : ℤ) : Except Err Verdict → VerifyPc Verdict Err
  | .ok verdict => .keeping verdict now
  | .error err => .finishing (.error (.failed err))

def Verdicts.move (s : Verdicts Verdict Err) (i : ℕ) (c : VerifyCall Verdict Err) :
    VerifyAct Verdict Err → Option (Verdicts Verdict Err)
  | .call _ | .reorder _ => none
  | .lookup _ now =>
    match c.pc with
    | .lookup => some (s.lookup i c now)
    | _ => none
  | .wake _ =>
    match c.pc with
    | .waiting worker =>
      match s.calls[worker]?.bind (·.record) with
      | some result =>
        some { s with calls := s.calls.set i { c with pc := .returned result none } }
      | none => none
    | _ => none
  | .verify _ answer now =>
    match c.pc with
    | .verifying =>
      some { s with calls := s.calls.set i { c with
        filed := some (answer, now), pc := afterVerify now answer } }
    | _ => none
  | .interrupt _ =>
    match c.pc with
    | .verifying =>
      some { s with calls := s.calls.set i { c with
        pc := .finishing (.error .interrupted) } }
    | _ => none
  | .duplicate _ ok =>
    match c.pc with
    | .keeping verdict now =>
      if ok then
        some { s with
          made := s.made + 1,
          calls := s.calls.set i { c with pc := .held verdict now s.made } }
      else some { s with calls := s.calls.set i { c with
        pc := .finishing (.ok (verdict, now)) } }
    | _ => none
  | .confirm _ sameStart gone =>
    match c.pc with
    | .held verdict now proc =>
      let calls := s.calls.set i { c with pc := .finishing (.ok (verdict, now)) }
      if sameStart then
        some { s with
          cache := s.cache.keepVerdict gone c.key proc verdict now, calls := calls }
      else
        some { s with
          cache := { s.cache with closed := s.cache.closed ++ [proc] }, calls := calls }
    | _ => none
  | .finish _ =>
    match c.pc with
    | .finishing result =>
      some { s with
        working := Function.update s.working c.key none,
        calls := s.calls.set i { c with
          record := some result, pc := .returned result none } }
    | _ => none

def VerifyAct.place : VerifyAct Verdict Err → ℕ
  | .call _ | .reorder _ => 0
  | .lookup i _ | .wake i | .verify i _ _ | .interrupt i | .duplicate i _
  | .confirm i _ _ | .finish i => i

variable [DecidableEq Verdict]

def verdictStep (s : Verdicts Verdict Err) (a : VerifyAct Verdict Err) :
    Option (Verdicts Verdict Err) :=
  match a with
  | .call key => some { s with calls := s.calls ++ [⟨key, .lookup, none, none⟩] }
  | .reorder entries =>
    if entries.Perm s.cache.entries then
      some { s with cache := { s.cache with entries := entries } }
    else none
  | a =>
    match s.calls[a.place]? with
    | none => none
    | some c => s.move a.place c a

end Step

section Cache

variable {Verdict : Type*}

/-! ### Where the handles are -/

def VerdictCache.procs (c : VerdictCache Verdict) : List ℕ := c.closed ++ c.entries.map (·.2.proc)

theorem VerdictCache.procs_evict (c : VerdictCache Verdict)
    (out : CodeVerdictKey × CodeVerdict Verdict → Bool) :
    (c.evict out).procs.Perm c.procs := by
  have hsplit : (c.entries.filter out ++ c.entries.filter fun x => !out x).Perm c.entries :=
    filter_append_perm out c.entries
  rw [procs, evict, append_assoc, ← map_append]
  exact (hsplit.map _).append_left _

theorem foldl_older_mem (entries : Entries Verdict)
    (oldest : CodeVerdictKey × CodeVerdict Verdict) :
    ∃ x ∈ oldest :: entries, entries.foldl older (some oldest) = some x := by
  induction entries generalizing oldest with
  | nil => exact ⟨oldest, .head _, rfl⟩
  | cons y entries ih =>
    rw [foldl_cons, older]
    split_ifs
    · obtain ⟨x, hx, heq⟩ := ih y
      exact ⟨x, .tail _ hx, heq⟩
    · obtain ⟨x, hx, heq⟩ := ih oldest
      refine ⟨x, ?_, heq⟩
      rcases mem_cons.1 hx with rfl | hx
      · exact .head _
      · exact .tail _ (.tail _ hx)

theorem exists_oldest {entries : Entries Verdict} (hne : entries ≠ []) :
    ∃ x ∈ entries, entries.foldl older none = some x := by
  cases entries with
  | nil => exact absurd rfl hne
  | cons y entries => exact foldl_older_mem entries y

structure VerdictCache.InOrder (c : VerdictCache Verdict) : Prop where
  keys : (c.entries.map (·.1)).Nodup
  limit : c.entries.length ≤ codeVerdictLimit

variable {c : VerdictCache Verdict}

theorem VerdictCache.InOrder.evict (h : c.InOrder)
    (out : CodeVerdictKey × CodeVerdict Verdict → Bool) : (c.evict out).InOrder where
  keys := h.keys.sublist (filter_sublist.map _)
  limit := (length_filter_le _ _).trans h.limit

theorem VerdictCache.length_dropVerdict_lt
    {x : CodeVerdictKey × CodeVerdict Verdict} (hx : x ∈ c.entries) :
    (c.dropVerdict x.1).entries.length < c.entries.length := by
  refine length_filter_lt_length_iff_exists.2 ⟨x, hx, ?_⟩
  simp

def VerdictCache.makeRoom (c : VerdictCache Verdict) (gone : CodeVerdictKey → Bool)
    (key : CodeVerdictKey) (now : ℤ) : VerdictCache Verdict :=
  let c := (c.dropVerdict key).evict fun x => gone x.1 || stale now x.2.at_
  if c.entries.length ≥ codeVerdictLimit then
    match c.entries.foldl older none with
    | some oldest => c.dropVerdict oldest.1
    | none => c
  else c

theorem VerdictCache.keepVerdict_eq (c : VerdictCache Verdict) (gone : CodeVerdictKey → Bool)
    (key : CodeVerdictKey) (held : ℕ) (verdict : Verdict) (now : ℤ) :
    c.keepVerdict gone key held verdict now = { c.makeRoom gone key now with
        entries := (c.makeRoom gone key now).entries ++ [(key, ⟨held, verdict, now⟩)] } :=
  rfl

section

variable (h : c.InOrder) (gone : CodeVerdictKey → Bool) (key : CodeVerdictKey)

include h gone key

theorem VerdictCache.makeRoom_spec (now : ℤ) :
    (c.makeRoom gone key now).InOrder ∧ (c.makeRoom gone key now).procs.Perm c.procs ∧
      (c.makeRoom gone key now).entries.length < codeVerdictLimit ∧
      ∀ x ∈ (c.makeRoom gone key now).entries, x ∈ c.entries ∧ x.1 ≠ key := by
  have hd : ((c.dropVerdict key).evict fun x => gone x.1 || stale now x.2.at_).InOrder :=
    (h.evict (·.1 = key)).evict _
  have hprocs := ((c.dropVerdict key).procs_evict fun x => gone x.1 || stale now x.2.at_).trans
    (c.procs_evict (·.1 = key))
  have hmem : ∀ x ∈ ((c.dropVerdict key).evict
      fun x => gone x.1 || stale now x.2.at_).entries, x ∈ c.entries ∧ x.1 ≠ key := by
    intro x hx
    have hx' := mem_of_mem_filter hx
    refine ⟨mem_of_mem_filter hx', ?_⟩
    simpa using of_mem_filter hx'
  rw [makeRoom]
  generalize (c.dropVerdict key).evict (fun x => gone x.1 || stale now x.2.at_) = d
    at hd hprocs hmem
  split_ifs with hfull
  · -- a full cache has an oldest entry, which makes way
    have hne : d.entries ≠ [] := by
      intro hnil
      simp [hnil, codeVerdictLimit] at hfull
    obtain ⟨x, hx, holdest⟩ := exists_oldest hne
    rw [holdest]
    refine ⟨hd.evict _, (d.procs_evict _).trans hprocs, ?_, fun y hy => ?_⟩
    · exact (length_dropVerdict_lt hx).trans_le hd.limit
    · exact hmem y (mem_of_mem_filter hy)
  · exact ⟨hd, hprocs, Nat.lt_of_not_ge hfull, hmem⟩

theorem VerdictCache.InOrder.keepVerdict (held : ℕ) (verdict : Verdict)
    (now : ℤ) : (c.keepVerdict gone key held verdict now).InOrder := by
  obtain ⟨horder, -, hroom, hmem⟩ := makeRoom_spec h gone key now
  rw [keepVerdict_eq]
  refine ⟨?_, ?_⟩
  · rw [map_append, nodup_append]
    refine ⟨horder.keys, by simp, ?_⟩
    rintro k hk k' hk' rfl
    obtain ⟨x, hx, rfl⟩ := mem_map.1 hk
    exact (hmem x hx).2 (by simpa using hk')
  · rw [length_append]
    exact hroom

theorem VerdictCache.procs_keepVerdict (held : ℕ) (verdict : Verdict)
    (now : ℤ) : (c.keepVerdict gone key held verdict now).procs.Perm (c.procs ++ [held]) := by
  rw [keepVerdict_eq, procs, map_append, ← append_assoc]
  exact (makeRoom_spec h gone key now).2.1.append_right _

end

end Cache

section Step

variable {Verdict Err : Type*}

/-! ### Where the verdicts come from -/

def VerifiedBy (calls : List (VerifyCall Verdict Err)) (key : CodeVerdictKey)
    (verdict : Verdict) (now : ℤ) : Prop :=
  ∃ (j : ℕ) (d : VerifyCall Verdict Err), calls[j]? = some d ∧ d.key = key ∧
    d.filed = some (.ok verdict, now)

def Grows (calls calls' : List (VerifyCall Verdict Err)) : Prop :=
  ∀ (j : ℕ) (d : VerifyCall Verdict Err), calls[j]? = some d →
    ∃ d', calls'[j]? = some d' ∧ d'.key = d.key ∧ ∀ f, d.filed = some f → d'.filed = some f

variable {c c' : VerifyCall Verdict Err} {calls calls' : List (VerifyCall Verdict Err)} {i : ℕ}
  {s : Verdicts Verdict Err}

theorem grows_set (hi : calls[i]? = some c) (hkey : c'.key = c.key)
    (hfiled : ∀ f, c.filed = some f → c'.filed = some f) : Grows calls (calls.set i c') := by
  intro j d hd
  by_cases hj : j = i
  · obtain rfl : c = d := some.inj (hi.symm.trans (hj ▸ hd))
    exact ⟨c', (lookup_set_iff hi).2 (.inl ⟨hj, rfl⟩), hkey, hfiled⟩
  · exact ⟨d, (lookup_set_iff hi).2 (.inr ⟨hj, hd⟩), rfl, fun _ hf => hf⟩

theorem grows_concat (calls : List (VerifyCall Verdict Err)) (c : VerifyCall Verdict Err) :
    Grows calls (calls ++ [c]) := by
  intro j d hd
  have hlt : j < calls.length := (List.getElem?_eq_some_iff.1 hd).1
  exact ⟨d, lookup_concat_iff.2 (.inr ⟨Nat.ne_of_lt hlt, hd⟩), rfl, fun _ hf => hf⟩

variable {key : CodeVerdictKey} {working : CodeVerdictKey → Option ℕ}

theorem VerifiedBy.grows {verdict : Verdict} {now : ℤ}
    (h : VerifiedBy calls key verdict now) (hgrows : Grows calls calls') :
    VerifiedBy calls' key verdict now := by
  obtain ⟨j, d, hd, hkey, hfiled⟩ := h
  obtain ⟨d', hd', hkey', hfiled'⟩ := hgrows j d hd
  exact ⟨j, d', hd', hkey'.trans hkey, hfiled' _ hfiled⟩

def ResultFrom (calls : List (VerifyCall Verdict Err)) (key : CodeVerdictKey)
    (result : VerifyResult Verdict Err) : Prop :=
  ∀ verdict now, result = .ok (verdict, now) → VerifiedBy calls key verdict now

def Fresh (result : VerifyResult Verdict Err) (served : Option ℤ) : Prop :=
  ∀ now, served = some now → ∃ verdict at_, result = .ok (verdict, at_) ∧
    now - at_ < codeVerdictLifetime ∧ at_ ≤ now

def VerifyPc.Told (calls : List (VerifyCall Verdict Err)) (key : CodeVerdictKey)
    (filed : Option (Except Err Verdict × ℤ)) : VerifyPc Verdict Err → Prop
  | .lookup => filed = none
  | .waiting worker => ∃ d, calls[worker]? = some d ∧ d.key = key
  | .verifying => filed = none
  | .keeping verdict now | .held verdict now _ => filed = some (.ok verdict, now)
  | .finishing result =>
    ∀ verdict now, result = .ok (verdict, now) → filed = some (.ok verdict, now)
  | .returned result served => ResultFrom calls key result ∧ Fresh result served

def VerifyCall.Told (calls : List (VerifyCall Verdict Err)) (c : VerifyCall Verdict Err) :
    Prop :=
  c.pc.Told calls c.key c.filed ∧ ∀ result, c.record = some result →
    ResultFrom calls c.key result

theorem ResultFrom.grows {result : VerifyResult Verdict Err}
    (h : ResultFrom calls key result) (hgrows : Grows calls calls') :
    ResultFrom calls' key result :=
  fun verdict now hr => (h verdict now hr).grows hgrows

theorem VerifyCall.Told.grows (h : c.Told calls) (hgrows : Grows calls calls') : c.Told calls' := by
  refine ⟨?_, fun result hr => (h.2 result hr).grows hgrows⟩
  have hpc := h.1
  cases hc : c.pc with
  | waiting worker =>
    rw [hc] at hpc
    obtain ⟨d, hd, hkey⟩ := hpc
    obtain ⟨d', hd', hkey', -⟩ := hgrows worker d hd
    exact ⟨d', hd', hkey'.trans hkey⟩
  | returned result served =>
    rw [hc] at hpc
    exact ⟨hpc.1.grows hgrows, hpc.2⟩
  | _ =>
    rw [hc] at hpc
    exact hpc

/-! ### Who verifies a key -/

def VerifyPc.works : VerifyPc Verdict Err → Bool
  | .verifying | .keeping _ _ | .held _ _ _ | .finishing _ => true
  | .lookup | .waiting _ | .returned _ _ => false

/-- A call that verifies is the one `working` has for its key, and what `working` has
is a call for the key. -/
structure Linked (working : CodeVerdictKey → Option ℕ)
    (calls : List (VerifyCall Verdict Err)) : Prop where
  worker : ∀ (i : ℕ) (c : VerifyCall Verdict Err), calls[i]? = some c →
    c.pc.works = true → working c.key = some i
  call : ∀ key worker, working key = some worker →
    ∃ d, calls[worker]? = some d ∧ d.key = key

theorem exists_of_grows (h : Linked working calls) (hgrows : Grows calls calls') {worker : ℕ}
    (hw : working key = some worker) : ∃ d, calls'[worker]? = some d ∧ d.key = key := by
  obtain ⟨d, hd, hkey⟩ := h.call key worker hw
  obtain ⟨d', hd', hkey', -⟩ := hgrows worker d hd
  exact ⟨d', hd', hkey'.trans hkey⟩

theorem Linked.set (h : Linked working calls) (hi : calls[i]? = some c) (hkey : c'.key = c.key)
    (hworks : c'.pc.works = true → c.pc.works = true)
    (hgrows : Grows calls (calls.set i c')) : Linked working (calls.set i c') where
  worker := by
    intro j d hd hw
    rcases lookup_set hd with ⟨rfl, rfl⟩ | ⟨-, hd⟩
    · rw [hkey]
      exact h.worker j c hi (hworks hw)
    · exact h.worker j d hd hw
  call := fun _ _ hw => exists_of_grows h hgrows hw

theorem Linked.begin (h : Linked working calls) (hi : calls[i]? = some c) (hkey : c'.key = c.key)
    (hfree : working c.key = none) (hgrows : Grows calls (calls.set i c')) :
    Linked (Function.update working c.key (some i)) (calls.set i c') where
  worker := by
    intro j d hd hw
    rcases lookup_set hd with ⟨rfl, rfl⟩ | ⟨-, hd⟩
    · rw [hkey, Function.update_self]
    · have hworker := h.worker j d hd hw
      have hne : d.key ≠ c.key := by
        intro heq
        rw [heq, hfree] at hworker
        cases hworker
      rwa [Function.update_of_ne hne]
  call := by
    intro key worker hw
    by_cases heq : key = c.key
    · subst heq
      rw [Function.update_self] at hw
      cases hw
      exact ⟨c', (lookup_set_iff hi).2 (.inl ⟨rfl, rfl⟩), hkey⟩
    · rw [Function.update_of_ne heq] at hw
      exact exists_of_grows h hgrows hw

theorem Linked.finish {working : CodeVerdictKey → Option ℕ}
    {calls : List (VerifyCall Verdict Err)} (h : Linked working calls) {i : ℕ}
    {c c' : VerifyCall Verdict Err} (hi : calls[i]? = some c)
    (hworks : c.pc.works = true) (hdone : c'.pc.works = false)
    (hgrows : Grows calls (calls.set i c')) :
    Linked (Function.update working c.key none) (calls.set i c') where
  worker := by
    intro j d hd hw
    rcases lookup_set hd with ⟨rfl, rfl⟩ | ⟨hj, hd⟩
    · rw [hdone] at hw
      cases hw
    · have hworker := h.worker j d hd hw
      have hne : d.key ≠ c.key := by
        intro heq
        rw [heq, h.worker i c hi hworks] at hworker
        exact hj (some.inj hworker).symm
      rwa [Function.update_of_ne hne]
  call := by
    intro key worker hw
    by_cases heq : key = c.key
    · subst heq
      rw [Function.update_self] at hw
      cases hw
    · rw [Function.update_of_ne heq] at hw
      exact exists_of_grows h hgrows hw

/-! ### Every run -/

def VerifyCall.holds (proc : ℕ) (c : VerifyCall Verdict Err) : Bool :=
  match c.pc with
  | .held _ _ held => held = proc
  | _ => false

open VerifyCall

def Balanced (cache : VerdictCache Verdict) (calls : List (VerifyCall Verdict Err))
    (made : ℕ) : Prop :=
  ∀ proc, (cache.procs.count proc : ℤ) + calls.countP (VerifyCall.holds proc) =
    if proc < made then 1 else 0

theorem Balanced.set {cache cache' : VerdictCache Verdict} {made : ℕ}
    (h : Balanced cache calls made) (hprocs : cache'.procs.Perm cache.procs)
    (hi : calls[i]? = some c) (hc : ∀ proc, c.holds proc = false)
    (hc' : ∀ proc, c'.holds proc = false) : Balanced cache' (calls.set i c') made := by
  intro proc
  rw [countP_set_of_lookup hi, hprocs.count_eq, hc, hc']
  simpa using h proc

structure Verdicts.Sound (s : Verdicts Verdict Err) : Prop where
  order : s.cache.InOrder
  entries : ∀ x ∈ s.cache.entries, VerifiedBy s.calls x.1 x.2.verdict x.2.at_
  balanced : Balanced s.cache s.calls s.made
  linked : Linked s.working s.calls
  told : ∀ (i : ℕ) (c : VerifyCall Verdict Err), s.calls[i]? = some c → c.Told s.calls

theorem Verdicts.sound_start : (Verdicts.start Verdict Err).Sound where
  order := ⟨by simp [start], by simp [start]⟩
  entries := by simp [start]
  balanced := by simp [Balanced, start, VerdictCache.procs]
  linked := ⟨by simp [start], by simp [start]⟩
  told := by simp [start]

theorem told_set (h : s.Sound) (hgrows : Grows s.calls (s.calls.set i c'))
    (hc' : c'.Told (s.calls.set i c')) (j : ℕ) (d : VerifyCall Verdict Err)
    (hd : (s.calls.set i c')[j]? = some d) : d.Told (s.calls.set i c') := by
  rcases lookup_set hd with ⟨-, rfl⟩ | ⟨-, hd⟩
  · exact hc'
  · exact (h.told j d hd).grows hgrows

theorem Verdicts.Sound.set (h : s.Sound) (hi : s.calls[i]? = some c) (hkey : c'.key = c.key)
    (hfiled : ∀ f, c.filed = some f → c'.filed = some f)
    (hc : ∀ proc, c.holds proc = false) (hc' : ∀ proc, c'.holds proc = false)
    (hworks : c'.pc.works = true → c.pc.works = true) (htold : c'.Told (s.calls.set i c')) :
    Verdicts.Sound { s with calls := s.calls.set i c' } := by
  have hgrows := grows_set hi hkey hfiled
  exact {
    order := h.order
    entries := fun x hx => (h.entries x hx).grows hgrows
    balanced := h.balanced.set (.refl _) hi hc hc'
    linked := h.linked.set hi hkey hworks hgrows
    told := told_set h hgrows htold }

theorem Verdicts.Sound.evict (h : s.Sound) (out : CodeVerdictKey × CodeVerdict Verdict → Bool) :
    Verdicts.Sound { s with cache := s.cache.evict out } where
  order := h.order.evict out
  entries := fun x hx => h.entries x (mem_of_mem_filter hx)
  balanced := fun proc => by
    rw [(s.cache.procs_evict out).count_eq]
    exact h.balanced proc
  linked := h.linked
  told := h.told

theorem Verdicts.Sound.join (h : s.Sound) (hi : s.calls[i]? = some c) (hpc : c.pc = .lookup) :
    (s.join i c).Sound := by
  have hrecord := (h.told i c hi).2
  have hfiled : c.filed = none := by
    have hpc' := (h.told i c hi).1
    rwa [hpc] at hpc'
  have hc : ∀ proc, c.holds proc = false := fun proc => by rw [holds, hpc]
  rw [Verdicts.join]
  split
  · next worker hw =>
      have hgrows : Grows s.calls (s.calls.set i { c with pc := .waiting worker }) :=
        grows_set hi rfl fun _ hf => hf
      refine h.set hi rfl (fun _ hf => hf) hc (fun _ => rfl) (fun hw' => Bool.noConfusion hw')
        ⟨exists_of_grows h.linked hgrows hw, fun result hr => ?_⟩
      exact (hrecord result hr).grows hgrows
  · next hfree =>
      have hgrows : Grows s.calls (s.calls.set i { c with pc := .verifying }) :=
        grows_set hi rfl fun _ hf => hf
      exact {
        order := h.order
        entries := fun x hx => (h.entries x hx).grows hgrows
        balanced := h.balanced.set (.refl _) hi hc fun _ => rfl
        linked := h.linked.begin hi rfl hfree hgrows
        told := told_set h hgrows
          ⟨hfiled, fun result hr => (hrecord result hr).grows hgrows⟩ }

theorem Verdicts.Sound.lookup (h : s.Sound) (hi : s.calls[i]? = some c) (hpc : c.pc = .lookup)
    (now : ℤ) : (s.lookup i c now).Sound := by
  rw [Verdicts.lookup]
  split
  · exact h.join hi hpc
  · next key entry hfind =>
      split_ifs with hstale
      · exact (h.evict _).join hi hpc
      · have hgrows : Grows s.calls (s.calls.set i { c with
            pc := .returned (.ok (entry.verdict, entry.at_)) (some now) }) :=
          grows_set hi rfl fun _ hf => hf
        have hkey : key = c.key := by simpa using List.find?_some hfind
        have hfrom := (h.entries _ (mem_of_find?_eq_some hfind)).grows hgrows
        simp only [stale, Bool.or_eq_true, decide_eq_true_eq, not_or] at hstale
        refine h.set hi rfl (fun _ hf => hf) (fun proc => by rw [holds, hpc])
          (fun _ => rfl) (fun hw => Bool.noConfusion hw)
          ⟨⟨fun verdict at_ hr => ?_, fun now' hnow => ?_⟩, fun result hr => ?_⟩
        · cases hr
          exact hkey ▸ hfrom
        · cases hnow
          exact ⟨_, _, rfl, by omega, by omega⟩
        · exact ((h.told i c hi).2 result hr).grows hgrows

theorem Verdicts.Sound.work (h : s.Sound) (hi : s.calls[i]? = some c)
    (hc : ∀ proc, c.holds proc = false) (hworks : c.pc.works = true)
    {pc : VerifyPc Verdict Err} {filed : Option (Except Err Verdict × ℤ)}
    (hfiled : ∀ f, c.filed = some f → filed = some f)
    (hheld : ∀ proc, ({ c with pc := pc, filed := filed } :
      VerifyCall Verdict Err).holds proc = false) (htold : ∀ calls, pc.Told calls c.key filed) :
    Verdicts.Sound { s with calls := s.calls.set i { c with pc := pc, filed := filed } } :=
  h.set hi rfl hfiled hc hheld (fun _ => hworks)
    ⟨htold _, fun result hr =>
      ((h.told i c hi).2 result hr).grows (grows_set hi rfl hfiled)⟩

theorem Verdicts.Sound.release {s : Verdicts Verdict Err} (h : s.Sound) {i : ℕ}
    {c : VerifyCall Verdict Err} (hi : s.calls[i]? = some c) {verdict : Verdict} {now : ℤ}
    {proc : ℕ} (hpc : c.pc = .held verdict now proc) {cache : VerdictCache Verdict}
    (horder : cache.InOrder) (hprocs : cache.procs.Perm (s.cache.procs ++ [proc]))
    (hentries : ∀ x ∈ cache.entries, VerifiedBy s.calls x.1 x.2.verdict x.2.at_) :
    Verdicts.Sound { s with
      cache := cache,
      calls := s.calls.set i { c with pc := .finishing (.ok (verdict, now)) } } := by
  have htold := (h.told i c hi).1
  rw [hpc] at htold
  have hgrows : Grows s.calls (s.calls.set i { c with
      pc := .finishing (.ok (verdict, now)) }) := grows_set hi rfl fun _ hf => hf
  exact {
    order := horder
    entries := fun x hx => (hentries x hx).grows hgrows
    balanced := fun proc' => by
      have hold := h.balanced proc'
      have hc : c.holds proc' = decide (proc = proc') := by rw [holds, hpc]
      have hc' : ({ c with pc := .finishing (.ok (verdict, now)) } :
          VerifyCall Verdict Err).holds proc' = false := rfl
      rw [countP_set_of_lookup hi, hprocs.count_eq, count_append, hc, hc', count_singleton]
      by_cases hproc : proc = proc'
      · simp only [hproc, decide_true, beq_self_eq_true, if_true, Bool.false_eq_true, if_false]
        push_cast
        omega
      · simp only [hproc, decide_false, beq_eq_false_iff_ne.2 hproc, Bool.false_eq_true, if_false]
        push_cast
        omega
    linked := h.linked.set hi rfl (fun _ => by rw [hpc]; rfl) hgrows
    told := told_set h hgrows ⟨fun verdict' now' hr => by
        cases hr
        exact htold, fun result hr => ((h.told i c hi).2 result hr).grows hgrows⟩ }

theorem Verdicts.Sound.move {t : Verdicts Verdict Err} (h : s.Sound) (hi : s.calls[i]? = some c)
    {a : VerifyAct Verdict Err} (hmove : s.move i c a = some t) : t.Sound := by
  have htold := (h.told i c hi).1
  have hrecord := (h.told i c hi).2
  cases a with
  | call => cases hmove
  | reorder => cases hmove
  | lookup _ now =>
    cases hpc : c.pc with
    | lookup =>
      simp only [Verdicts.move, hpc, some.injEq] at hmove
      exact hmove ▸ h.lookup hi hpc now
    | _ => simp [Verdicts.move, hpc] at hmove
  | wake =>
    cases hpc : c.pc with
    | waiting worker =>
      simp only [Verdicts.move, hpc] at hmove
      split at hmove
      · next result hresult =>
          cases hmove
          rw [hpc] at htold
          obtain ⟨d, hd, hkey⟩ := htold
          have hfrom := (h.told worker d hd).2 result (by simpa [hd] using hresult)
          have hgrows : Grows s.calls
              (s.calls.set i { c with pc := .returned result none }) :=
            grows_set hi rfl fun _ hf => hf
          refine h.set hi rfl (fun _ hf => hf)
            (fun proc => by rw [holds, hpc]) (fun _ => rfl)
            (fun hw => Bool.noConfusion hw)
            ⟨⟨(hkey ▸ hfrom).grows hgrows, fun now hnow => ?_⟩, fun r hr => ?_⟩
          · cases hnow
          · exact (hrecord r hr).grows hgrows
      · cases hmove
    | _ => simp [Verdicts.move, hpc] at hmove
  | verify _ answer now =>
    cases hpc : c.pc with
    | verifying =>
      simp only [Verdicts.move, hpc] at hmove
      cases hmove
      rw [hpc] at htold
      have hnone : c.filed = none := htold
      refine h.work hi (fun proc => by rw [holds, hpc]) (by rw [hpc]; rfl)
        (fun f hf => ?_) (fun proc => ?_) fun calls => ?_
      · rw [hnone] at hf
        cases hf
      · cases answer <;> rfl
      · cases answer with
        | ok verdict => rfl
        | error err => exact fun verdict now hr => by cases hr
    | _ => simp [Verdicts.move, hpc] at hmove
  | interrupt =>
    cases hpc : c.pc with
    | verifying =>
      simp only [Verdicts.move, hpc] at hmove
      cases hmove
      exact h.work hi (fun proc => by rw [holds, hpc]) (by rw [hpc]; rfl)
        (fun f hf => hf) (fun proc => rfl) fun calls verdict now hr => by cases hr
    | _ => simp [Verdicts.move, hpc] at hmove
  | duplicate _ ok =>
    cases hpc : c.pc with
    | keeping verdict now =>
      rw [hpc] at htold
      simp only [Verdicts.move, hpc] at hmove
      split_ifs at hmove
      · cases hmove
        have hgrows : Grows s.calls (s.calls.set i { c with
            pc := .held verdict now s.made }) := grows_set hi rfl fun _ hf => hf
        exact {
          order := h.order
          entries := fun x hx => (h.entries x hx).grows hgrows
          balanced := fun proc => by
            -- the new handle is the only one that comes in
            have hold := h.balanced proc
            rw [countP_set_of_lookup hi]
            have hc : c.holds proc = false := by rw [holds, hpc]
            rw [hc]
            by_cases hproc : s.made = proc
            · subst hproc
              simp [holds] at hold ⊢
              omega
            · have hlt : proc < s.made + 1 ↔ proc < s.made := by omega
              simp only [holds, hproc, hlt, decide_false, Bool.false_eq_true,
                if_false, sub_zero, add_zero]
              exact hold
          linked := h.linked.set hi rfl (fun _ => by rw [hpc]; rfl) hgrows
          told := told_set h hgrows
            ⟨htold, fun result hr => (hrecord result hr).grows hgrows⟩ }
      · cases hmove
        exact h.work hi (fun proc => by rw [holds, hpc]) (by rw [hpc]; rfl)
          (fun f hf => hf) (fun proc => rfl) fun calls verdict' now' hr => by
            cases hr
            exact htold
    | _ => simp [Verdicts.move, hpc] at hmove
  | confirm _ sameStart gone =>
    cases hpc : c.pc with
    | held verdict now proc =>
      simp only [Verdicts.move, hpc] at hmove
      rw [hpc] at htold
      split_ifs at hmove
      · cases hmove
        refine h.release hi hpc (h.order.keepVerdict gone c.key proc verdict now)
          (VerdictCache.procs_keepVerdict h.order gone c.key proc verdict now)
          fun x hx => ?_
        rw [VerdictCache.keepVerdict_eq] at hx
        rcases mem_append.1 hx with hx | hx
        · exact h.entries x ((VerdictCache.makeRoom_spec h.order gone c.key now).2.2.2 x hx).1
        · obtain rfl := mem_singleton.1 hx
          exact ⟨i, c, hi, rfl, htold⟩
      · cases hmove
        refine h.release hi hpc ⟨h.order.keys, h.order.limit⟩ ?_ h.entries
        rw [VerdictCache.procs, VerdictCache.procs, append_assoc, append_assoc]
        exact perm_append_comm.append_left _
    | _ => simp [Verdicts.move, hpc] at hmove
  | finish =>
    cases hpc : c.pc with
    | finishing result =>
      rw [hpc] at htold
      simp only [Verdicts.move, hpc] at hmove
      cases hmove
      have hgrows : Grows s.calls (s.calls.set i { c with
          record := some result, pc := .returned result none }) :=
        grows_set hi rfl fun _ hf => hf
      have hfrom : ResultFrom s.calls c.key result :=
        fun verdict now hr => ⟨i, c, hi, rfl, htold verdict now hr⟩
      exact {
        order := h.order
        entries := fun x hx => (h.entries x hx).grows hgrows
        balanced := h.balanced.set (.refl _) hi
          (fun proc => by rw [holds, hpc]) fun _ => rfl
        linked := h.linked.finish hi (by rw [hpc]; rfl) rfl hgrows
        told := told_set h hgrows ⟨⟨hfrom.grows hgrows, fun now hnow => by cases hnow⟩,
          fun r hr => by
            cases hr
            exact hfrom.grows hgrows⟩ }
    | _ => simp [Verdicts.move, hpc] at hmove

variable [DecidableEq Verdict]

theorem Verdicts.Sound.step {t : Verdicts Verdict Err} {a : VerifyAct Verdict Err}
    (h : s.Sound) (hstep : verdictStep s a = some t) : t.Sound := by
  cases a with
  | call key =>
    cases hstep
    have hgrows := grows_concat s.calls ⟨key, .lookup, none, none⟩
    refine ⟨h.order, fun x hx => (h.entries x hx).grows hgrows, fun proc => ?_, ⟨?_, ?_⟩, ?_⟩
    · rw [countP_append, countP_singleton]
      simpa [holds] using h.balanced proc
    · intro i c hc hworks
      rcases lookup_concat_iff.1 hc with ⟨-, rfl⟩ | ⟨-, hc⟩
      · cases hworks
      · exact h.linked.worker i c hc hworks
    · exact fun key worker hw => exists_of_grows h.linked hgrows hw
    · refine forall_concat (fun i c hc => (h.told i c hc).grows hgrows) ⟨rfl, ?_⟩
      exact fun result hr => by cases hr
  | reorder entries =>
    simp only [verdictStep] at hstep
    split_ifs at hstep with hperm
    cases hstep
    have hkeys : (entries.map (·.1)).Perm (s.cache.entries.map (·.1)) := hperm.map _
    refine ⟨⟨hkeys.nodup_iff.2 h.order.keys, ?_⟩, fun x hx => ?_, fun proc => ?_, h.linked, h.told⟩
    · rw [hperm.length_eq]
      exact h.order.limit
    · exact h.entries x (hperm.mem_iff.1 hx)
    · have hprocs : (({ s.cache with entries := entries } : VerdictCache Verdict).procs).Perm
          s.cache.procs := (hperm.map _).append_left _
      rw [hprocs.count_eq]
      exact h.balanced proc
  | _ =>
    simp only [verdictStep] at hstep
    split at hstep
    · cases hstep
    · next c hc => exact h.move hc hstep

/-- Along every run a returned verdict comes from a `verifyFile` for the same key, and is less than
five minutes old if it was served; one call at a time verifies a key; there are at most 256 entries,
and every duplicated handle is closed once or in one place. -/
theorem verdict_cache {as : List (VerifyAct Verdict Err)} {s : Verdicts Verdict Err}
    (hrun : run verdictStep (Verdicts.start Verdict Err) as = some s) :
    (∀ (i : ℕ) (c : VerifyCall Verdict Err) (verdict : Verdict) (at_ : ℤ)
      (served : Option ℤ), s.calls[i]? = some c →
      c.pc = .returned (.ok (verdict, at_)) served →
      VerifiedBy s.calls c.key verdict at_ ∧
        ∀ now, served = some now → now - at_ < codeVerdictLifetime ∧ at_ ≤ now) ∧
    (∀ x ∈ s.cache.entries, VerifiedBy s.calls x.1 x.2.verdict x.2.at_) ∧
    (∀ (i j : ℕ) (c d : VerifyCall Verdict Err), s.calls[i]? = some c →
      s.calls[j]? = some d → c.pc = .verifying → d.pc = .verifying → c.key = d.key →
      i = j) ∧
    (s.cache.entries.map (·.1)).Nodup ∧ s.cache.entries.length ≤ 256 ∧
    ∀ proc < s.made, s.cache.closed.count proc + (s.cache.entries.map (·.2.proc)).count proc +
      s.calls.countP (VerifyCall.holds proc) = 1 := by
  have h : s.Sound :=
    run_invariant_of_forall (fun _ _ _ hs hstep => hs.step hstep) Verdicts.sound_start hrun
  refine ⟨?_, h.entries, ?_, h.order.keys, h.order.limit, fun proc hproc => ?_⟩
  · intro i c verdict at_ served hc hpc
    have htold := (h.told i c hc).1
    rw [hpc] at htold
    refine ⟨htold.1 verdict at_ rfl, fun now hnow => ?_⟩
    obtain ⟨verdict', at', hr, hfresh⟩ := htold.2 now hnow
    cases hr
    exact hfresh
  · intro i j c d hc hd hcpc hdpc hkey
    have hi := h.linked.worker i c hc (by rw [hcpc]; rfl)
    have hj := h.linked.worker j d hd (by rw [hdpc]; rfl)
    rw [hkey, hj] at hi
    exact (some.inj hi).symm
  · have hbalanced := h.balanced proc
    rw [if_pos hproc, VerdictCache.procs, count_append] at hbalanced
    omega

end Step

def sampleKey : CodeVerdictKey := ⟨7, 0, "a.exe", false⟩

/-- A call verifies and keeps its verdict, a second one waits for it, a third is
served from the entry four minutes later. -/
def sharedVerdict : List (VerifyAct ℕ Unit) :=
  [.call sampleKey, .lookup 0 0, .call sampleKey, .lookup 1 0, .verify 0 (.ok 5) 10,
    .duplicate 0 true, .confirm 0 true fun _ => false, .finish 0, .wake 1, .call sampleKey,
    .lookup 2 240000000010]

theorem verdict_cache_sharedVerdict :
    ∃ s, run verdictStep (Verdicts.start ℕ Unit) sharedVerdict = some s ∧
      VerifiedBy s.calls sampleKey 5 10 ∧ s.cache.entries.length ≤ 256 := by
  have hserved := (verdict_cache (show run verdictStep _ sharedVerdict = some _ from rfl)).1
    2 _ 5 10 (some 240000000010) rfl rfl
  exact ⟨_, rfl, hserved.1,
    (verdict_cache (show run verdictStep _ sharedVerdict = some _ from rfl)).2.2.2.2.1⟩

end Windows
