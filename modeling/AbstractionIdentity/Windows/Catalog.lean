import AbstractionIdentity.Identity.Proof

/-!
# Verification through the system catalogs

`verifyCatalog` verifies a file as a member of each catalog that lists its hash, up to the first
that Windows accepts. A context is released by the next call of the enumeration, the last one by
the function itself; the model records contexts returned and released.
-/

namespace Windows.Catalog

open Text Identity List

/-! ## Verdicts -/

structure TrustError where
  code : Option ℕ
  text : Bytes
  deriving DecidableEq

def trustENoSignature : ℕ := 0x800B0100

def trustESubjectFormUnknown : ℕ := 0x800B0003

def trustEProviderUnknown : ℕ := 0x800B0001

def trustEBadDigest : ℕ := 0x80096010

def certEUntrustedRoot : ℕ := 0x800B0109

def certEExpired : ℕ := 0x800B0101

def certERevoked : ℕ := 0x800B010C

def certEChaining : ℕ := 0x800B010A

def certEUntrustedTestRoot : ℕ := 0x800B010D

def cryptERevocationOffline : ℕ := 0x80092013

def cryptENotFound : ℕ := 0x80092004

def trustVerdict (err : TrustError) : Bytes × Proof :=
  let code := err.code.getD 0
  if code = trustENoSignature ∨ code = cryptENotFound then (ascii "no signature", .unsigned)
  else if code = trustESubjectFormUnknown then
    (ascii "the file is not of a form Authenticode can sign", .unsigned)
  else if code = trustEProviderUnknown then
    (ascii "no trust provider for this file type", .unsigned)
  else if code = trustEBadDigest then
    (ascii "signed, but the file has been modified since it was signed", .invalid)
  else if code = certEUntrustedRoot ∨ code = certEUntrustedTestRoot then
    (ascii "signed by a certificate chaining to a root this machine does not trust", .invalid)
  else if code = certEExpired then (ascii "signed by an expired certificate", .invalid)
  else if code = certERevoked then (ascii "signed by a revoked certificate", .invalid)
  else if code = certEChaining then
    (ascii "signed, but the certificate chain could not be built", .invalid)
  else if code = cryptERevocationOffline then
    (ascii "revocation status could not be checked", .invalid)
  else (ascii "not trusted: " ++ err.text, .invalid)

theorem trustVerdict_rung (err : TrustError) :
    (trustVerdict err).2 = .unsigned ∨ (trustVerdict err).2 = .invalid := by
  rw [trustVerdict]
  split_ifs <;> simp

structure Code where
  subject : Bytes := []
  issuer : Bytes := []
  trusted : Bool := false
  status : Bytes := []
  catalog : Bool := false
  deriving DecidableEq

/-! ## The program -/

/-- What the system answers when a catalog is examined: whether it has a path and can be opened,
the verdict, the signer if it can be read, and whether the file is still at its path. -/
structure Examination where
  hasInfo : Bool
  opens : Bool
  refusal : Option TrustError
  signer : Option (Bytes × Bytes)
  sameFile : Bool
  deriving DecidableEq

inductive Member where
  | unreadable
  | accepted (code : Code)
  | refused (err : TrustError)
  deriving DecidableEq

def catalogMember (x : Examination) : Member :=
  if !x.hasInfo || !x.opens then .unreadable
  else
    match x.refusal with
    | some err => .refused err
    | none =>
      if !x.sameFile then .unreadable
      else .accepted
        { subject := (x.signer.map Prod.fst).getD []
          issuer := (x.signer.map Prod.snd).getD []
          trusted := true
          status := ascii "valid, signed through a system catalog"
          catalog := true }

inductive Event where
  | adminAcquired
  | returned (i : ℕ)
  | released (i : ℕ)
  | adminReleased
  deriving DecidableEq

structure Verified where
  code : Code
  verdict : Proof
  listed : Bool
  deriving DecidableEq

def notListed : Verified := ⟨{}, .unsigned, false⟩

def maxCatalogs : ℕ := 64

def release : Option ℕ → List Event
  | none => []
  | some i => [.released i]

def conclude (refusal : Option TrustError) : Verified :=
  match refusal with
  | none => notListed
  | some err =>
    ⟨{ status := ascii "listed by a system catalog Windows refused: " ++ (trustVerdict err).1
       catalog := true }, (trustVerdict err).2, true⟩

def keepRefusal (refusal : Option TrustError) (err : TrustError) : Option TrustError :=
  if refusal.isNone ∧ (trustVerdict err).2 ≠ .unsigned then some err else refusal

/-- The loop, with the turns left, the number of the next context, the catalogs the enumeration
still has, the previous context and the kept refusal. -/
def searchFrom : ℕ → ℕ → List Examination → Option ℕ → Option TrustError → List Event →
    Verified × List Event
  | 0, _, _, prev, refusal, events => (conclude refusal, events ++ release prev)
  | _ + 1, _, [], prev, refusal, events => (conclude refusal, events ++ release prev)
  | left + 1, i, x :: rest, prev, refusal, events =>
    -- the enumeration releases the previous context
    let events := events ++ release prev ++ [.returned i]
    match catalogMember x with
    | .accepted code => (⟨code, .bound, true⟩, events ++ [.released i])
    | .unreadable => searchFrom left (i + 1) rest (some i) refusal events
    | .refused err => searchFrom left (i + 1) rest (some i) (keepRefusal refusal err) events

inductive Prepared where
  | noAdmin
  | noHash
  | noTag
  | ready
  deriving DecidableEq

def verifyCatalog (prepared : Prepared) (catalogs : List Examination) : Verified × List Event :=
  match prepared with
  | .noAdmin => (notListed, [])
  | .noHash | .noTag => (notListed, [.adminAcquired, .adminReleased])
  | .ready =>
    let found := searchFrom maxCatalogs 0 catalogs none none [.adminAcquired]
    (found.1, found.2 ++ [.adminReleased])

/-! ## What it decides -/

def accepts (x : Examination) : Option Code :=
  match catalogMember x with
  | .accepted code => some code
  | _ => none

def refusesOtherwise (x : Examination) : Option TrustError :=
  match catalogMember x with
  | .refused err => if (trustVerdict err).2 = .unsigned then none else some err
  | _ => none

def verdictOf (refusal : Option TrustError) (catalogs : List Examination) : Verified :=
  match catalogs.findSome? accepts with
  | some code => ⟨code, .bound, true⟩
  | none => conclude (refusal.or (catalogs.findSome? refusesOtherwise))

section Cons

variable {refusal : Option TrustError} {x : Examination} {rest : List Examination}

theorem verdictOf_accepted {code : Code} (hx : catalogMember x = .accepted code) :
    verdictOf refusal (x :: rest) = ⟨code, .bound, true⟩ := by
  simp [verdictOf, accepts, hx]

theorem verdictOf_unreadable (hx : catalogMember x = .unreadable) :
    verdictOf refusal (x :: rest) = verdictOf refusal rest := by
  simp [verdictOf, accepts, refusesOtherwise, hx]

theorem verdictOf_refused {err : TrustError} (hx : catalogMember x = .refused err) :
    verdictOf refusal (x :: rest) = verdictOf (keepRefusal refusal err) rest := by
  by_cases hrung : (trustVerdict err).2 = .unsigned
  · simp [verdictOf, accepts, refusesOtherwise, keepRefusal, hx, hrung]
  · cases refusal <;> simp [verdictOf, accepts, refusesOtherwise, keepRefusal, hx, hrung]

end Cons

def pairs : ℕ → List Event
  | 0 => []
  | n + 1 => pairs n ++ [.returned n, .released n]

theorem searchFrom_spec {left i : ℕ} {catalogs : List Examination} {prev : Option ℕ}
    {refusal : Option TrustError} {events : List Event}
    (h : events ++ release prev = .adminAcquired :: pairs i) :
    (searchFrom left i catalogs prev refusal events).1 = verdictOf refusal (catalogs.take left) ∧
      ∃ n ≤ i + min left catalogs.length,
        (searchFrom left i catalogs prev refusal events).2 = .adminAcquired :: pairs n := by
  induction left generalizing i catalogs prev refusal events with
  | zero =>
    rw [searchFrom, take_zero]
    refine ⟨?_, i, Nat.le_add_right _ _, h⟩
    rw [verdictOf, List.findSome?_nil, List.findSome?_nil, Option.or_none]
  | succ left ih =>
    cases catalogs with
    | nil =>
      rw [searchFrom, take_nil]
      refine ⟨?_, i, Nat.le_add_right _ _, h⟩
      rw [verdictOf, List.findSome?_nil, List.findSome?_nil, Option.or_none]
    | cons x rest =>
      have hnext : events ++ release prev ++ [.returned i] ++ release (some i) =
          .adminAcquired :: pairs (i + 1) := by
        rw [h, pairs, release, append_assoc]
        rfl
      have hbound : ∀ n, n ≤ i + 1 + min left rest.length →
          n ≤ i + min (left + 1) (x :: rest).length := by
        intro n hn
        rw [length_cons]
        omega
      rw [searchFrom, take_succ_cons]
      cases hx : catalogMember x with
      | accepted code =>
        rw [verdictOf_accepted hx]
        exact ⟨rfl, i + 1, hbound _ (Nat.le_add_right _ _), hnext⟩
      | unreadable =>
        rw [verdictOf_unreadable hx]
        obtain ⟨hverdict, n, hn, htrace⟩ := @ih (i + 1) rest (some i) refusal _ hnext
        exact ⟨hverdict, n, hbound n hn, htrace⟩
      | refused err =>
        rw [verdictOf_refused hx]
        obtain ⟨hverdict, n, hn, htrace⟩ :=
          @ih (i + 1) rest (some i) (keepRefusal refusal err) _ hnext
        exact ⟨hverdict, n, hbound n hn, htrace⟩

theorem count_pairs (n i : ℕ) : (pairs n).count (.returned i) = (if i < n then 1 else 0) ∧
      (pairs n).count (.released i) = (if i < n then 1 else 0) := by
  induction n with
  | zero => exact ⟨rfl, rfl⟩
  | succ n ih =>
    have hreturned : [Event.returned n, .released n].count (.returned i) =
        if i = n then 1 else 0 := by
      by_cases hi : i = n
      · simp [hi]
      · simp [hi, Ne.symm hi]
    have hreleased : [Event.returned n, .released n].count (.released i) =
        if i = n then 1 else 0 := by
      by_cases hi : i = n
      · simp [hi]
      · simp [hi, Ne.symm hi]
    rw [pairs, count_append, count_append, ih.1, ih.2, hreturned, hreleased]
    constructor <;> split_ifs <;> omega

theorem adminReleased_not_mem_pairs (n : ℕ) : Event.adminReleased ∉ pairs n := by
  induction n with
  | zero => exact not_mem_nil
  | succ n ih =>
    rw [pairs, mem_append, not_or]
    exact ⟨ih, by simp⟩

theorem conclude_listed (err : TrustError) (h : (trustVerdict err).2 ≠ .unsigned) :
    conclude (some err) =
      ⟨{ status := ascii "listed by a system catalog Windows refused: " ++ (trustVerdict err).1
         catalog := true }, .invalid, true⟩ := by
  rw [conclude, (trustVerdict_rung err).resolve_left h]

theorem rung_of_refusesOtherwise {catalogs : List Examination} {err : TrustError}
    (h : catalogs.findSome? refusesOtherwise = some err) : (trustVerdict err).2 ≠ .unsigned := by
  obtain ⟨x, -, hx⟩ := exists_of_findSome?_eq_some h
  rw [refusesOtherwise] at hx
  split at hx
  · split_ifs at hx with hrung
    cases hx
    exact hrung
  · cases hx

/-- The contexts of a run: each that was returned is released exactly once, and the administrator
context is released last. -/
def Released (events : List Event) : Prop :=
  (∀ i, .returned i ∈ events → events.count (.released i) = 1) ∧
    ∃ before, events = before ++ [.adminReleased] ∧ .adminReleased ∉ before

theorem released_pairs (n : ℕ) : Released ((.adminAcquired :: pairs n) ++ [.adminReleased]) := by
  refine ⟨fun i hi => ?_, _, rfl, ?_⟩
  · have hmem : .returned i ∈ pairs n := by simpa using hi
    have hcount := count_pos_iff.2 hmem
    rw [(count_pairs n i).1] at hcount
    rw [count_append, count_cons_of_ne (by simp), (count_pairs n i).2]
    split_ifs at hcount ⊢ with hlt
    · simp
    · omega
  · rw [mem_cons, not_or]
    exact ⟨by simp, adminReleased_not_mem_pairs n⟩

/-- The verdict by the first `maxCatalogs` catalogs: trusted with the first that accepts, invalid
with the first other refusal if none does, otherwise not listed. Each context is released exactly
once. -/
theorem verifyCatalog_spec (catalogs : List Examination) :
    (∀ code, (catalogs.take maxCatalogs).findSome? accepts = some code →
      (verifyCatalog .ready catalogs).1 = ⟨code, .bound, true⟩) ∧
      (∀ err, (catalogs.take maxCatalogs).findSome? accepts = none →
        (catalogs.take maxCatalogs).findSome? refusesOtherwise = some err →
          (verifyCatalog .ready catalogs).1 =
            ⟨{ status := ascii "listed by a system catalog Windows refused: " ++
                 (trustVerdict err).1
               catalog := true }, .invalid, true⟩) ∧
      ((verifyCatalog .ready catalogs).1.listed = true ∧
        (verifyCatalog .ready catalogs).1.verdict = .invalid ↔
          (catalogs.take maxCatalogs).findSome? accepts = none ∧
            (catalogs.take maxCatalogs).findSome? refusesOtherwise ≠ none) ∧
      ((verifyCatalog .ready catalogs).1.listed = false ↔
        (catalogs.take maxCatalogs).findSome? accepts = none ∧
          (catalogs.take maxCatalogs).findSome? refusesOtherwise = none) ∧
      (∀ prepared, prepared ≠ .ready → (verifyCatalog prepared catalogs).1.listed = false) ∧
      ∀ prepared, prepared ≠ .noAdmin → Released (verifyCatalog prepared catalogs).2 := by
  obtain ⟨hverdict, n, -, htrace⟩ :=
    @searchFrom_spec maxCatalogs 0 catalogs none none [.adminAcquired] rfl
  have hready : (verifyCatalog .ready catalogs).1 =
      verdictOf none (catalogs.take maxCatalogs) := hverdict
  have hevents : (verifyCatalog .ready catalogs).2 =
      (.adminAcquired :: pairs n) ++ [.adminReleased] :=
    congrArg (· ++ [Event.adminReleased]) htrace
  have hcode : ∀ code, (catalogs.take maxCatalogs).findSome? accepts = some code →
      (verifyCatalog .ready catalogs).1 = ⟨code, .bound, true⟩ := by
    intro code hcode
    rw [hready, verdictOf, hcode]
  have hrefused : ∀ err, (catalogs.take maxCatalogs).findSome? accepts = none →
      (catalogs.take maxCatalogs).findSome? refusesOtherwise = some err →
        (verifyCatalog .ready catalogs).1 =
          ⟨{ status := ascii "listed by a system catalog Windows refused: " ++ (trustVerdict err).1
             catalog := true }, .invalid, true⟩ := by
    intro err hnone herr
    rw [hready, verdictOf, hnone, herr]
    exact conclude_listed err (rung_of_refusesOtherwise herr)
  have hneither : (catalogs.take maxCatalogs).findSome? accepts = none →
      (catalogs.take maxCatalogs).findSome? refusesOtherwise = none →
        (verifyCatalog .ready catalogs).1 = notListed := by
    intro hnone hother
    rw [hready, verdictOf, hnone, hother]
    rfl
  refine ⟨hcode, hrefused, and_assoc.1 ⟨?_, fun prepared hprepared => ?_,
    fun prepared hprepared => ?_⟩⟩
  · cases haccepts : (catalogs.take maxCatalogs).findSome? accepts with
    | some code => simp [hcode code haccepts, Proof.bound, Proof.invalid]
    | none =>
      cases hother : (catalogs.take maxCatalogs).findSome? refusesOtherwise with
      | some err => simp [hrefused err haccepts hother]
      | none => simp [hneither haccepts hother, notListed]
  · cases prepared with
    | noAdmin => rfl
    | noHash => rfl
    | noTag => rfl
    | ready => exact absurd rfl hprepared
  · cases prepared with
    | noAdmin => exact absurd rfl hprepared
    | noHash => exact released_pairs 0
    | noTag => exact released_pairs 0
    | ready =>
      rw [hevents]
      exact released_pairs n

end Windows.Catalog
