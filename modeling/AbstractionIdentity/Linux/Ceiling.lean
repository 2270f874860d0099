import AbstractionIdentity.Identity.Policy
import AbstractionIdentity.Linux.Loopback

/-!
# Ceilings on Linux

The ceiling of a transport is what it reports at best, given whether the kernel can pin a process,
which is probed once. `ofHandle` asks the kernel again for every connection: a probe that fails on
a kernel that has the option keeps the ceiling of the unix transport below what is reported, and
this is the only way in which it fails (`ceiling_sound_iff`).
-/

namespace Linux

open Text Identity

/-- The outcome of the one probe of `SO_PEERPIDFD`: whether a pair of sockets was to be had,
and whether the option answered on it. -/
structure PidfdProbe where
  socketpair : Bool
  getsockopt : Bool
  deriving DecidableEq

def PidfdProbe.support (probe : PidfdProbe) : Bool := probe.socketpair && probe.getsockopt

def ceiling (probe : PidfdProbe) (why : Attribute → Bytes) : Limits :=
  let derived : Proof := if probe.support then .bound else .pid
  { platform := "linux"
    transport := "unix"
    best := ⟨.kernel, .kernel, derived, derived, .none⟩
    bindable := probe.support
    why := why }

def loopbackCeiling (support : Bool) (why : Attribute → Bytes) : Limits :=
  let path : Proof := if support then .bound else .none
  { platform := "linux"
    transport := "tcp-loopback"
    best := ⟨.kernel, path, path, path, .none⟩
    bindable := support
    why := why }

def Reportable (proof : Proof) : Prop :=
  proof = .none ∨ proof = .pid ∨ proof = .bound ∨ proof = .kernel

instance (proof : Proof) : Decidable (Reportable proof) :=
  inferInstanceAs (Decidable (_ ∨ _ ∨ _ ∨ _))

/-- The rungs of a peer: the process is at `process`, what is read out of /proc at `derived`
at most, and the code has none. -/
structure Under (process derived : Proof) (p : Peer) : Prop where
  user : p.user.proof = .kernel
  process : p.process.proof = process
  path : Reportable p.path.proof ∧ p.path.proof ≤ derived
  package : Reportable p.package.proof ∧ p.package.proof ≤ derived
  code : p.code.proof = .none

theorem Under.canEver {process derived limit : Proof} {p : Peer} (h : Under process derived p)
    (hle : derived ≤ limit) {l : Limits} (hbest : l.best = ⟨.kernel, process, limit, limit, .none⟩)
    {n : Need} (hn : p.check n = none) : l.canEver n = none := by
  rw [check_eq_none_iff] at hn
  rw [canEver_eq_none_iff, hbest]
  intro k
  refine UInt8.le_trans (hn k) ?_
  cases k with
  | user => exact UInt8.le_of_eq h.user
  | process => exact UInt8.le_of_eq h.process
  | path => exact UInt8.le_trans h.path.2 hle
  | package => exact UInt8.le_trans h.package.2 hle
  | code => exact UInt8.le_of_eq h.code

def Peer.Reportable (p : Peer) : Prop :=
  Linux.Reportable p.user.proof ∧ Linux.Reportable p.process.proof ∧
    Linux.Reportable p.path.proof ∧ Linux.Reportable p.package.proof ∧ p.code.proof = .none

theorem Under.reportable {process derived : Proof} {p : Peer} (h : Under process derived p)
    (hprocess : Linux.Reportable process) : Peer.Reportable p := by
  refine ⟨?_, ?_, h.path.1, h.package.1, h.code⟩
  · rw [h.user]
    decide
  · rwa [h.process]

theorem under_derived {proof derived : Proof} (hderived : derived = .pid ∨ derived = .bound)
    (h : proof = .none ∨ proof = .pid ∨ proof = derived) :
    Reportable proof ∧ proof ≤ derived := by
  rcases hderived with rfl | rfl <;> rcases h with rfl | rfl | rfl <;> decide

theorem pathAttr_proof (link : Except ReadError Bytes) (derived : Proof) (why : Bytes) :
    (pathAttr link derived why).proof = .none ∨ (pathAttr link derived why).proof = .pid ∨
      (pathAttr link derived why).proof = derived := by
  rw [pathAttr]
  split
  · exact .inl rfl
  · exact .inr (.inl rfl)
  · exact .inr (.inr rfl)

theorem ofHandle_under {k : Sock} {fdinfo link : Except ReadError Bytes} {p : Peer}
    (h : ofHandle k fdinfo link = .ok p) :
    Under .kernel (if k.peerPidfd then .bound else .pid) p := by
  have hlimit : (if k.peerPidfd = true then Proof.bound else .pid) = .pid ∨
      (if k.peerPidfd = true then Proof.bound else .pid) = .bound := by
    cases k.peerPidfd <;> simp
  have hnone := @under_derived .none _ hlimit (.inl rfl)
  rw [ofHandle] at h
  split at h
  · cases h
  · cases h
  next cred _ _ =>
    simp only at h
    split_ifs at h with hpid hgone hbound
    · cases h
      exact ⟨rfl, rfl, hnone, hnone, rfl⟩
    · -- a bound process has a pidfd
      have hfd : k.peerPidfd = true := (Bool.and_eq_true_iff.1 hbound).1
      cases h
      refine ⟨rfl, rfl, ?_, ?_, rfl⟩
      · refine under_derived hlimit ?_
        rw [if_pos hfd]
        exact pathAttr_proof link .bound _
      · refine under_derived hlimit ?_
        rw [if_pos hfd]
        cases k.sandboxPackage with
        | none => exact .inl rfl
        | some name => exact .inr (.inr rfl)
    · cases h
      refine ⟨rfl, rfl, under_derived hlimit ?_, under_derived hlimit ?_, rfl⟩
      · exact (pathAttr_proof link .pid _).imp_right fun hp => .inl (hp.elim id id)
      · cases k.sandboxPackage with
        | none => exact .inl rfl
        | some name => exact .inr (.inl rfl)

theorem bindLoopback_under {little : Bool} {client server : AddrPort} {k : LoopbackSystem}
    {b : LoopbackBinding} {p : Peer} (h : bindLoopback little client server k = .ok (b, p)) :
    k.pidfdSupport = true ∧ Under .bound .bound p := by
  rw [bindLoopback] at h
  split_ifs at h with hsupport
  refine ⟨by simpa using hsupport, ?_⟩
  split at h
  · cases h
  · cases h
  next row _ =>
    split_ifs at h
    split at h
    · cases h
    · cases h
    · rw [bindHolder] at h
      split_ifs at h
      split at h
      · cases h
      · cases h
      next exe deleted started _ _ =>
        simp only at h
        split_ifs at h
        split at h
        · cases h
        · cases h
          have hbound : Proof.bound = .pid ∨ Proof.bound = .bound := .inr rfl
          refine ⟨rfl, rfl, under_derived hbound ?_, under_derived hbound ?_, rfl⟩
          · cases deleted
            · exact .inr (.inr rfl)
            · exact .inr (.inl rfl)
          · simp only [loopbackPeer]
            cases k.sandboxPackage with
            | none => exact .inl rfl
            | some name => exact .inr (.inr rfl)
    · cases h

def pinnedSock : Sock where
  accepted := .ok ()
  pidfdSupport := false
  peerPidfd := true
  ucred := .ok ⟨41, 7, 7⟩
  peersec := none
  started := .ok 0
  connectedAt := 0
  sandboxPackage := none
  why _ := []

theorem ofHandle_pinnedSock : ∃ p, ofHandle pinnedSock (.ok (ascii "Pid:\t41"))
    (.ok (ascii "/bin/a")) = .ok p ∧ p.path.proof = .bound := ⟨_, rfl, by decide⟩

/-- No peer of `ofHandle` meets a policy beyond the ceiling exactly if the probe has not failed on a
kernel that has the option. For `bindLoopback` none ever does, and no peer of either is at a rung
Linux does not report. -/
theorem ceiling_sound_iff (supported : Bool) (probe : PidfdProbe) (limitWhy : Attribute → Bytes) :
    ((∀ (k : Sock) (fdinfo link : Except ReadError Bytes) (p : Peer) (n : Need),
        (k.peerPidfd = true → supported = true) → ofHandle k fdinfo link = .ok p →
        p.check n = none → (ceiling probe limitWhy).canEver n = none) ↔
      (supported = true → probe.support = true)) ∧
    (∀ (little : Bool) (client server : AddrPort) (k : LoopbackSystem) (b : LoopbackBinding)
      (p : Peer) (n : Need), bindLoopback little client server k = .ok (b, p) →
      p.check n = none → (loopbackCeiling k.pidfdSupport limitWhy).canEver n = none) ∧
    (∀ (k : Sock) (fdinfo link : Except ReadError Bytes) (p : Peer),
      ofHandle k fdinfo link = .ok p → Peer.Reportable p) ∧
    (∀ (little : Bool) (client server : AddrPort) (k : LoopbackSystem) (b : LoopbackBinding)
      (p : Peer), bindLoopback little client server k = .ok (b, p) → Peer.Reportable p) := by
  refine ⟨⟨?_, ?_⟩, ?_, ?_, ?_⟩
  · intro hsound hsupported
    by_contra hfail
    -- a policy that asks for a bound path is met, and refused by the ceiling
    obtain ⟨p, hp, hpath⟩ := ofHandle_pinnedSock
    have hmet : p.check ⟨0, 0, .bound, 0, 0⟩ = none := by
      refine check_eq_none_iff.2 fun k => ?_
      cases k with
      | path => exact UInt8.le_of_eq hpath.symm
      | _ => exact Nat.zero_le _
    have hcan := hsound pinnedSock _ _ p _ (fun _ => hsupported) hp hmet
    have hrung := canEver_eq_none_iff.1 hcan .path
    rw [ceiling, Bool.eq_false_iff.2 hfail] at hrung
    exact absurd hrung (show ¬ Proof.bound ≤ .pid by decide)
  · intro hgood k fdinfo link p n hk hp hn
    refine (ofHandle_under hp).canEver ?_ rfl hn
    cases hfd : k.peerPidfd with
    | false => cases probe.support <;> decide
    | true =>
      rw [hgood (hk hfd)]
      exact UInt8.le_refl _
  · intro little client server k b p n hp hn
    obtain ⟨hsupport, hunder⟩ := bindLoopback_under hp
    refine hunder.canEver (UInt8.le_refl _) ?_ hn
    rw [loopbackCeiling, hsupport]
    rfl
  · intro k fdinfo link p hp
    exact (ofHandle_under hp).reportable (by decide)
  · intro little client server k b p hp
    exact (bindLoopback_under hp).2.reportable (by decide)

/-- On a kernel that has the option, with a probe that was made. -/
theorem ceiling_sound_iff_probed : (true = true → (PidfdProbe.mk true true).support = true) ∧
      ∀ p, ofHandle pinnedSock (.ok (ascii "Pid:\t41")) (.ok (ascii "/bin/a")) = .ok p →
        p.check ⟨7, 7, 6, 0, 0⟩ = none →
        (ceiling ⟨true, true⟩ fun _ => []).canEver ⟨7, 7, 6, 0, 0⟩ = none :=
  ⟨fun _ => rfl, fun p hp hn => (ceiling_sound_iff true ⟨true, true⟩
    fun _ => []).1.2 (fun _ => rfl) pinnedSock _ _ p _ (fun _ => rfl) hp hn⟩

/-- The probe found no descriptor: a policy that asks for a bound path is refused at the start, and
then met. -/
theorem ceiling_unsound_failed_probe :
    ∃ p, ofHandle pinnedSock (.ok (ascii "Pid:\t41")) (.ok (ascii "/bin/a")) = .ok p ∧
      p.check ⟨7, 7, 6, 0, 0⟩ = none ∧
      (ceiling ⟨false, false⟩ fun _ => []).canEver ⟨7, 7, 6, 0, 0⟩ ≠ none := by
  refine ⟨_, rfl, ?_, ?_⟩
  · refine check_eq_none_iff.2 fun k => ?_
    cases k <;> decide
  · intro h
    exact absurd (canEver_eq_none_iff.1 h .path) (by decide)

end Linux
