import AbstractionIdentity.Linux.Capture

/-!
# When a capture is coherent and its rechecks are sound

A recheck answers a failed read as if the process had exited, and cuts the mark of an unlinked
file from a name that may carry it; so `Sound` is proved along `recheckReads`. Baseline and
reported path are two reads that nothing compares; so `Coherent` is proved along
`settledBetween`, where neither an exec nor a rename comes between the two.
-/

namespace Linux

open Text List Option
open Identity
open Transition

variable {pid : ℤ}

variable {a : CaptureAct} {f : Fdinfo pid} {fail : Option ReadError} {k : Sock} {p : Proc}
  {pc : CapturePc} {s t : Capture}

theorem pidfdAlive_read_eq_true {want : ℤ}
    (h : pidfdAlive (f.read p fail) want = .ok true) : want = pid ∧ 0 < pid := by
  cases fail with
  | some err => simp [Fdinfo.read, pidfdAlive] at h
  | none =>
    cases hp : p.alive with
    | true =>
      simp only [Fdinfo.read, pidfdAlive, hp, if_true, f.running_pid] at h
      split_ifs at h with hpos hne
      · simp at h
      · exact ⟨(not_not.1 hne).symm, Int.not_le.1 hpos⟩
    | false =>
      obtain ⟨n, hn, hline⟩ := f.reaped_pid
      simp [Fdinfo.read, pidfdAlive, hp, hline, hn] at h

theorem pidfdAlive_read_alive (f : Fdinfo pid) (hp : p.alive = true)
    (hpos : 0 < pid) : pidfdAlive (f.read p none) pid = .ok true := by
  simp only [Fdinfo.read, hp, if_true]
  exact pidfdAlive_of_fieldInt f.running_pid hpos

theorem recheck_alive_iff (f : Fdinfo pid) {b : LinuxBinding}
    (hp : p.alive = true) (hb : b.pid = pid) (hpos : 0 < pid) :
    b.recheck (f.read p none) (p.readlink none) = .ok () ↔ p.image.seen = b.exe := by
  obtain ⟨deleted, hexe⟩ := processExe_link p.image
  have hlink : p.readlink none = .ok p.image.link := by simp [Proc.readlink, hp]
  have hlive : pidfdAlive (f.read p none) b.pid = .ok true := hb ▸ pidfdAlive_read_alive f hp hpos
  unfold LinuxBinding.recheck
  rw [hlive, hlink, hexe]
  by_cases heq : p.image.seen = b.exe
  · simp [heq]
  · simp [heq]

def Sock.Pins (k : Sock) (want : ℤ) : Prop :=
  k.peerPidfd = true ∧ ∃ cred, k.ucred = .ok cred ∧ cred.pid = want

/-- What `bindHandle` has established at each place: past the first check of the
pidfd, the pid it works with is the positive pid of the pinned process. -/
def CapturePc.Pinned (k : Sock) (pid : ℤ) : CapturePc → Prop
  | .start => True
  | .pinned want => k.Pins want
  | .live want => k.Pins want ∧ want = pid ∧ 0 < pid
  | .captured b => k.Pins b.pid ∧ b.pid = pid ∧ 0 < pid
  | .checked b _ => k.Pins b.pid ∧ b.pid = pid ∧ 0 < pid
  | .bound b _ => k.Pins b.pid ∧ b.pid = pid ∧ 0 < pid
  | .failed _ => True

theorem bindNext_pinned {pc' : CapturePc} (hpc : pc.Pinned k pid)
    (h : bindNext k f p fail pc = some pc') : pc'.Pinned k pid := by
  cases pc with
    simp only [bindNext] at h
  | start =>
    split at h
    · cases h
      trivial
    · split_ifs at h with hfd
      · cases h
        trivial
      · split at h
        · cases h
          trivial
        · rename_i cred hcred
          cases h
          simp only [Bool.or_eq_true, Bool.not_eq_true', not_or, Bool.not_eq_false] at hfd
          exact ⟨hfd.2, cred, hcred, rfl⟩
  | pinned want =>
    split at h
    · cases h
      trivial
    · cases h
      trivial
    · rename_i hlive
      cases h
      exact ⟨hpc, pidfdAlive_read_eq_true hlive⟩
  | live want =>
    split at h
    · cases h
      trivial
    · cases h
      exact hpc
  | captured b =>
    cases h
    exact hpc
  | checked b fdinfo =>
    split at h
    · cases h
      trivial
    · cases h
      exact hpc
  | bound b peer => cases h
  | failed err => cases h

theorem bindNext_eq_checked {b : LinuxBinding} {fdinfo : Except ReadError Bytes}
    (h : bindNext k f p fail pc = some (.checked b fdinfo)) :
    pc = .captured b ∧ fdinfo = f.read p fail := by
  cases pc with
  | captured b' =>
    simp only [bindNext, some.injEq, CapturePc.checked.injEq] at h
    exact ⟨by rw [h.1], h.2.symm⟩
  | start | pinned | live | checked | bound | failed =>
    simp only [bindNext] at h
    repeat' split at h
    all_goals cases h

theorem bindNext_eq_captured {b : LinuxBinding} (h : bindNext k f p fail pc = some (.captured b)) :
    ∃ want, pc = .live want ∧ ∃ deleted, processExe (p.readlink fail) = .ok (b.exe, deleted) := by
  cases pc with
  | live want =>
    simp only [bindNext] at h
    split at h
    · cases h
    · rename_i exe deleted hexe
      cases h
      exact ⟨want, rfl, deleted, hexe⟩
  | start | pinned | captured | checked | bound | failed =>
    simp only [bindNext] at h
    repeat' split at h
    all_goals cases h

theorem bindNext_eq_bound {b : LinuxBinding} {peer : Peer}
    (h : bindNext k f p fail pc = some (.bound b peer)) :
    ∃ fdinfo, pc = .checked b fdinfo ∧ ofHandle k fdinfo (p.readlink fail) = .ok peer := by
  cases pc with
  | checked b' fdinfo =>
    simp only [bindNext] at h
    split at h
    · cases h
    · rename_i hof
      cases h
      exact ⟨fdinfo, rfl, hof⟩
  | start | pinned | live | captured | bound | failed =>
    simp only [bindNext] at h
    repeat' split at h
    all_goals cases h

theorem captureStep_pc (h : captureStep k f s a = some t) : t.pc = s.pc ∨ ∃ fail, a = .next fail ∧
      bindNext k f s.proc fail s.pc = some t.pc ∧ t.vouched = s.vouched := by
  cases a with
  | exec image =>
    simp only [captureStep] at h
    split_ifs at h
    cases h
    exact .inl rfl
  | unlink | rename path | exit =>
    cases h
    exact .inl rfl
  | next fail =>
    obtain ⟨pc, hpc, rfl⟩ := map_eq_some_iff.1 h
    exact .inr ⟨fail, rfl, hpc, rfl⟩
  | peer fdFail linkFail =>
    simp only [captureStep] at h
    split at h
    · split at h
      · cases h
        exact .inl rfl
      · split_ifs at h <;> cases h <;> exact .inl rfl
    · cases h

theorem captureStep_pinned (hs : s.pc.Pinned k pid) (h : captureStep k f s a = some t) :
    t.pc.Pinned k pid := by
  rcases captureStep_pc h with hpc | ⟨fail, _, hpc, _⟩
  · exact hpc ▸ hs
  · exact bindNext_pinned hs hpc

/-- A step records a new answer only as a call of `Binding.Peer` on a bound and
live process whose recheck found nothing. -/
theorem captureStep_vouched (h : captureStep k f s a = some t) :
    t.vouched = s.vouched ∨ ∃ b peer fdFail linkFail, s.pc = .bound b peer ∧
      a = .peer fdFail linkFail ∧ s.proc.alive = true ∧
      b.recheck (f.read s.proc fdFail) (s.proc.readlink linkFail) = .ok () ∧
      t.vouched = s.vouched ++ [⟨s.proc.image, peer⟩] := by
  cases a with
  | exec image =>
    simp only [captureStep] at h
    split_ifs at h
    cases h
    exact .inl rfl
  | unlink | rename path | exit =>
    cases h
    exact .inl rfl
  | next fail =>
    obtain ⟨pc, _, rfl⟩ := map_eq_some_iff.1 h
    exact .inl rfl
  | peer fdFail linkFail =>
    simp only [captureStep] at h
    split at h
    · rename_i b peer hpc
      split at h
      · cases h
        exact .inl rfl
      · rename_i hre
        split_ifs at h with halive
        · cases h
          exact .inr ⟨b, peer, fdFail, linkFail, hpc, rfl, halive, hre, rfl⟩
        · cases h
          exact .inl rfl
    · cases h

/-! ## Rechecks -/

/-- `Binding.Peer` has vouched only for images at the path recorded at bind, and
for none before there was a binding. -/
def Capture.Sound (s : Capture) : Prop :=
  match s.pc with
  | .bound b _ => ∀ v ∈ s.vouched, v.image.path = b.exe
  | _ => s.vouched = []

/-- Every recheck of a live process reads the fdinfo and the link, and the image
is not a file still linked whose own name ends in the mark. -/
def recheckReads (s : Capture) : CaptureAct → Prop
  | .peer fdFail linkFail => s.proc.alive = true →
      fdFail = none ∧ linkFail = none ∧
        (s.proc.image.unlinked = true ∨ ¬ deletedMark <:+ s.proc.image.path)
  | _ => True

instance (s : Capture) : DecidablePred (recheckReads s)
  | .peer _ _ => inferInstanceAs (Decidable (_ → _))
  | .exec _ | .unlink | .rename _ | .exit | .next _ => isTrue trivial

theorem vouched_of_not_bound (h : s.Sound) (hpc : ∀ b peer, s.pc ≠ .bound b peer) : s.vouched =
    [] := by
  unfold Capture.Sound at h
  split at h
  · rename_i b peer heq
    exact absurd heq (hpc b peer)
  · exact h

theorem sound_of_vouched_nil (h : s.vouched = []) : s.Sound := by
  unfold Capture.Sound
  split
  · simp [h]
  · exact h

theorem captureStep_sound (hpin : s.pc.Pinned k pid) (hs : s.Sound)
    (ha : recheckReads s a) (h : captureStep k f s a = some t) : t.Sound := by
  rcases captureStep_vouched h with hv | ⟨b, peer, fdFail, linkFail, hpc, rfl, halive, hre, hv⟩
  · rcases captureStep_pc h with hpc | ⟨fail, _, hnext, _⟩
    · unfold Capture.Sound at hs ⊢
      rw [hpc, hv]
      exact hs
    · -- `bindHandle` moved, so there was no binding to vouch with
      have hnb : ∀ b peer, s.pc ≠ .bound b peer := by
        intro b peer heq
        rw [heq] at hnext
        cases hnext
      exact sound_of_vouched_nil (hv ▸ vouched_of_not_bound hs hnb)
  · obtain ⟨rfl, rfl, hname⟩ := ha halive
    have htpc : t.pc = .bound b peer := by
      rcases captureStep_pc h with hpc' | ⟨fail, hcontra, _⟩
      · rw [hpc', hpc]
      · cases hcontra
    rw [hpc] at hpin
    obtain ⟨_, hb, hpos⟩ := hpin
    have hseen := (recheck_alive_iff f halive hb hpos).1 hre
    have hpath : s.proc.image.path = b.exe := by
      rw [← hseen, (Image.seen_eq_path_iff s.proc.image).2 hname]
    unfold Capture.Sound at hs ⊢
    rw [htpc, hv]
    rw [hpc] at hs
    intro v hmem
    rcases mem_append.1 hmem with hold | hnew
    · exact hs v hold
    · rw [mem_singleton.1 hnew]
      exact hpath

/-- In every run in which the rechecks of a live process read both files, whatever the peer execs,
`Binding.Peer` vouches only while the process executes an image at the path recorded at bind. -/
theorem peer_vouches_for_bound_image (k : Sock) (f : Fdinfo pid) (p : Proc)
    (as : List CaptureAct) (t : Capture) (hok : along (captureStep k f) recheckReads (.start p) as)
    (hrun : run (captureStep k f) (.start p) as = some t) : t.Sound := by
  refine (run_invariant (I := fun s => s.pc.Pinned k pid ∧ s.Sound) ?_ ?_ hok hrun).2
  · rintro s a t ⟨hpin, hs⟩ ha h
    exact ⟨captureStep_pinned hpin h, captureStep_sound hpin hs ha h⟩
  · exact ⟨trivial, rfl⟩

def sampleSock : Sock where
  accepted := .ok ()
  pidfdSupport := true
  peerPidfd := true
  ucred := .ok ⟨42, 1000, 1000⟩
  peersec := none
  started := .ok 5
  connectedAt := 9
  sandboxPackage := none
  why _ := []

def sampleFdinfo : Fdinfo 42 where
  running := ascii "pos:\t0\nflags:\t02\nPid:\t42\nNSpid:\t42\n"
  reaped := ascii "pos:\t0\nflags:\t02\nPid:\t-1\nNSpid:\t-1\n"
  running_pid := by decide
  reaped_pid := ⟨-1, by decide⟩

def sampleProc : Proc := ⟨true, ⟨ascii "/opt/app", false⟩⟩

def sampleBind : List CaptureAct := List.replicate 5 (.next none)

theorem peer_vouches_for_bound_image_sample :
    ∃ t, run (captureStep sampleSock sampleFdinfo) (.start sampleProc)
        (sampleBind ++ [.peer none none, .unlink, .peer none none]) = some t ∧
      t.Sound ∧ t.vouched.length = 2 :=
  ⟨_, rfl, peer_vouches_for_bound_image sampleSock sampleFdinfo sampleProc
    (sampleBind ++ [.peer none none, .unlink, .peer none none]) _ (by decide) rfl, rfl⟩

/-- The peer replaces itself by a program whose link may not be read, and
`Binding.Peer` answers with the program that was there before. -/
theorem peer_vouches_after_unreadable_exec :
    ∃ t, run (captureStep sampleSock sampleFdinfo) (.start sampleProc)
        (sampleBind ++ [.exec ⟨ascii "/usr/bin/su", false⟩,
          .peer none (some .permission)]) = some t ∧ ¬ t.Sound := by
  refine ⟨_, rfl, fun h => ?_⟩
  have hpath := h _ (mem_singleton.2 rfl)
  revert hpath
  decide

/-! ## Coherence of the capture -/

/-- The reported path of a binding is the one its rechecks compare with, and so
is the path of every peer `Binding.Peer` has returned. -/
def Capture.Coherent (s : Capture) : Prop :=
  match s.pc with
  | .bound b peer => peer.path.value = b.exe ∧
      ∀ v ∈ s.vouched, v.peer.path.value = b.exe
  | _ => s.vouched = []

/-- The baseline is read, and `ofHandle` has yet to read the link. -/
def CapturePc.between : CapturePc → Bool
  | .captured _ | .checked _ _ => true
  | _ => false

/-- Between the two reads of the link the peer does not exit, neither an exec nor a rename makes
the link show another path, a file whose own name ends in the mark is not unlinked, and no read
fails. -/
def settledBetween (s : Capture) : CaptureAct → Prop
  | .exec image => s.pc.between = true → image.seen = s.proc.image.seen
  | .rename path => s.pc.between = true →
      ({ s.proc.image with path := path } : Image).seen = s.proc.image.seen
  | .unlink => s.pc.between = true →
      s.proc.image.unlinked = true ∨ ¬ deletedMark <:+ s.proc.image.path
  | .exit => s.pc.between = false
  | .next fail => s.pc.between = true → fail = none
  | .peer _ _ => True

instance (s : Capture) : DecidablePred (settledBetween s)
  | .exec _ | .rename _ | .unlink | .next _ => inferInstanceAs (Decidable (_ → _))
  | .exit => inferInstanceAs (Decidable (_ = _))
  | .peer _ _ => isTrue trivial

/-- Between the two reads the link of the live process shows the baseline, and the fdinfo that
`ofHandle` has read is that of a live process. -/
def CapturePc.Settled (p : Proc) : CapturePc → Prop
  | .captured b => p.alive = true ∧ p.image.seen = b.exe
  | .checked b fdinfo =>
      (p.alive = true ∧ p.image.seen = b.exe) ∧ pidfdAlive fdinfo b.pid = .ok true
  | _ => True

theorem CapturePc.Settled.congr {q : Proc} (h : pc.Settled p)
    (hq : pc.between = true → p.alive = true →
      q.alive = true ∧ q.image.seen = p.image.seen) : pc.Settled q := by
  cases pc with
  | captured b =>
    obtain ⟨halive, hseen⟩ := hq rfl h.1
    exact ⟨halive, hseen.trans h.2⟩
  | checked b fdinfo =>
    obtain ⟨halive, hseen⟩ := hq rfl h.1.1
    exact ⟨⟨halive, hseen.trans h.1.2⟩, h.2⟩
  | start | pinned | live | bound | failed => trivial

theorem vouched_of_next (hs : s.Coherent)
    (h : bindNext k f s.proc fail s.pc = some pc) : s.vouched = [] := by
  unfold Capture.Coherent at hs
  split at hs
  · rename_i hpc
    rw [hpc] at h
    cases h
  · exact hs

theorem pathAttr_link_value (i : Image) (derived : Proof) (why : Bytes) :
    (pathAttr (.ok i.link) derived why).value = i.seen := by
  obtain ⟨deleted, hexe⟩ := processExe_link i
  unfold pathAttr
  rw [hexe]
  cases deleted with
  | true => rfl
  | false => rfl

theorem ofHandle_path {want : ℤ} (hk : k.Pins want)
    {fdinfo : Except ReadError Bytes} {i : Image} {peer : Peer}
    (hlive : pidfdAlive fdinfo want = .ok true)
    (h : ofHandle k fdinfo (.ok i.link) = .ok peer) : peer.path.value = i.seen := by
  obtain ⟨hfd, cred, hcred, rfl⟩ := hk
  cases hacc : k.accepted with
  | error err =>
    simp only [ofHandle, hacc] at h
    cases h
  | ok _ =>
    simp only [ofHandle, hacc, hcred, hfd, hlive] at h
    by_cases hzero : cred.pid = 0
    · rw [if_pos hzero] at h
      cases h
    rw [if_neg hzero] at h
    simp only [decide_true, Bool.and_self, Bool.not_true, Bool.false_and,
      Bool.or_false, Bool.false_eq_true, if_false, if_true, Except.ok.injEq] at h
    rw [← h]
    exact pathAttr_link_value i .bound _

theorem processExe_readlink {exe : Bytes} {deleted : Bool}
    (h : processExe (p.readlink fail) = .ok (exe, deleted)) :
    p.alive = true ∧ p.image.seen = exe := by
  cases fail with
  | some err => cases err <;> cases h
  | none =>
    cases hp : p.alive with
    | false => simp [Proc.readlink, hp, processExe] at h
    | true =>
      obtain ⟨mark, hlink⟩ := processExe_link p.image
      simp only [Proc.readlink, hp, if_true, hlink, Except.ok.injEq, Prod.mk.injEq] at h
      exact ⟨rfl, h.1⟩

theorem bindNext_settled {pc' : CapturePc} (hpin : pc.Pinned k pid) (hs : pc.Settled p)
    (hfail : pc.between = true → fail = none) (h : bindNext k f p fail pc = some pc') :
    pc'.Settled p := by
  cases pc' with
  | captured b =>
    obtain ⟨want, rfl, hexe⟩ := bindNext_eq_captured h
    obtain ⟨deleted, hexe⟩ := hexe
    exact processExe_readlink hexe
  | checked b fdinfo =>
    obtain ⟨rfl, rfl⟩ := bindNext_eq_checked h
    obtain ⟨-, hb, hpos⟩ := hpin
    obtain rfl := hfail rfl
    exact ⟨hs, hb ▸ pidfdAlive_read_alive f hs.1 hpos⟩
  | start | pinned | live | bound | failed => trivial

theorem captureStep_settled (hpin : s.pc.Pinned k pid) (hs : s.pc.Settled s.proc)
    (ha : settledBetween s a) (h : captureStep k f s a = some t) : t.pc.Settled t.proc := by
  cases a with
  | exec image =>
    simp only [captureStep] at h
    split_ifs at h
    cases h
    exact hs.congr fun hb _ => ⟨rfl, ha hb⟩
  | unlink =>
    cases h
    refine hs.congr fun hb halive => ⟨halive, ?_⟩
    rw [(Image.seen_eq_path_iff _).2 (.inl rfl), (Image.seen_eq_path_iff _).2 (ha hb)]
  | rename path =>
    cases h
    exact hs.congr fun hb halive => ⟨halive, ha hb⟩
  | exit =>
    cases h
    refine hs.congr fun hb _ => ?_
    rw [show s.pc.between = false from ha] at hb
    cases hb
  | next fail =>
    obtain ⟨pc, hpc, rfl⟩ := map_eq_some_iff.1 h
    exact bindNext_settled hpin hs ha hpc
  | peer fdFail linkFail =>
    have hproc : t.pc = s.pc ∧ t.proc = s.proc := by
      simp only [captureStep] at h
      split at h
      · split at h
        · cases h
          exact ⟨rfl, rfl⟩
        · split_ifs at h <;> cases h <;> exact ⟨rfl, rfl⟩
      · cases h
    rw [hproc.1, hproc.2]
    exact hs

theorem captureStep_coherent (hpin : s.pc.Pinned k pid) (hsettled : s.pc.Settled s.proc)
    (hs : s.Coherent) (ha : settledBetween s a) (h : captureStep k f s a = some t) :
    t.Coherent := by
  rcases captureStep_pc h with hpc | ⟨fail, rfl, hnext, hv⟩
  · -- the binding stands; a new answer hands out the peer that was captured
    rcases captureStep_vouched h with hv | ⟨b, peer, _, _, hbound, _, _, _, hv⟩
    · unfold Capture.Coherent at hs ⊢
      rw [hpc, hv]
      exact hs
    · unfold Capture.Coherent at hs ⊢
      rw [hpc, hbound, hv]
      rw [hbound] at hs
      refine ⟨hs.1, fun v hmem => ?_⟩
      rcases mem_append.1 hmem with hold | hnew
      · exact hs.2 v hold
      · rw [mem_singleton.1 hnew]
        exact hs.1
  · have hnone : t.vouched = [] := hv ▸ vouched_of_next hs hnext
    cases htpc : t.pc with
    | bound b peer =>
      rw [htpc] at hnext
      obtain ⟨fdinfo, hpc, hof⟩ := bindNext_eq_bound hnext
      rw [hpc] at hpin hsettled
      obtain ⟨⟨halive, hseen⟩, hlive⟩ := hsettled
      obtain rfl : fail = none := ha (by rw [hpc]; rfl)
      have hlink : s.proc.readlink none = .ok s.proc.image.link := by
        simp [Proc.readlink, halive]
      rw [hlink] at hof
      simp only [Capture.Coherent, htpc, hnone]
      exact ⟨(ofHandle_path hpin.1 hlive hof).trans hseen, by simp⟩
    | start | pinned | live | captured | checked | failed =>
      simpa only [Capture.Coherent, htpc] using hnone

/-- In every run in which nothing of the peer changes between the two reads of its link, a binding
reports the path its rechecks compare with, and `Binding.Peer` never returns another. -/
theorem capture_coherent (k : Sock) (f : Fdinfo pid) (p : Proc) (as : List CaptureAct) (t : Capture)
    (hok : along (captureStep k f) settledBetween (.start p) as)
    (hrun : run (captureStep k f) (.start p) as = some t) : t.Coherent := by
  refine (run_invariant
    (I := fun s => s.pc.Pinned k pid ∧ s.pc.Settled s.proc ∧ s.Coherent) ?_ ?_ hok hrun).2.2
  · rintro s a t ⟨hpin, hsettled, hs⟩ ha h
    exact ⟨captureStep_pinned hpin h, captureStep_settled hpin hsettled ha h,
      captureStep_coherent hpin hsettled hs ha h⟩
  · exact ⟨trivial, trivial, rfl⟩

/-- The peer execs until the first read and after the second, and its file is unlinked between
them. -/
def execAround : List CaptureAct :=
  [.next none, .exec ⟨ascii "/bin/cat", false⟩, .next none, .next none, .unlink, .next none,
    .next none, .peer none none, .exec sampleProc.image, .peer none none]

theorem capture_coherent_sample :
    ∃ t, run (captureStep sampleSock sampleFdinfo) (.start sampleProc) execAround = some t ∧
      t.vouched.map (fun v => v.peer.path.value) = [ascii "/bin/cat"] ∧ t.Coherent :=
  ⟨_, rfl, rfl, capture_coherent sampleSock sampleFdinfo sampleProc execAround _ (by decide) rfl⟩

/-- The peer execs between the two reads: the binding reports the second program, and its rechecks
compare with the first. -/
theorem capture_incoherent_on_exec :
    ∃ t, run (captureStep sampleSock sampleFdinfo) (.start sampleProc)
        ([.next none, .next none, .next none, .exec ⟨ascii "/bin/cat", false⟩,
          .next none, .next none, .exec sampleProc.image, .peer none none]) = some t ∧
      t.vouched.map (fun v => v.peer.path) = [attr (ascii "path") (ascii "/bin/cat") .bound []] ∧
      ¬ t.Coherent := by
  refine ⟨_, rfl, rfl, fun h => ?_⟩
  have hpath := h.1
  revert hpath
  decide

end Linux
