import AbstractionIdentity.Listen.Client
import AbstractionIdentity.Transition.Run

/-!
# A failed verification of the server

`CallWorld` is one call with its connection. `trail` is what it has done that someone else can see,
and `failed` the trail at the first check that failed with a live context. Such a check ends the
call with its error, except before the first byte of the answer to an opening, in the look for a
refusal after a failed write, and where `frameError` prefers the context's error (`keepsVerdict`).
-/

namespace Listen

open Text Stream Transition

/-- A connection from the side of the call: what the server has sent on it since
the call has it, what of that has not been read, and whether the server has
closed it. -/
structure PeerWire where
  total : Bytes
  inn : Bytes
  ended : Bool
  deriving DecidableEq

def PeerWire.new : PeerWire := ⟨[], [], false⟩

def PeerWire.view (w : PeerWire) : PeerView := ⟨w.inn, w.ended⟩

structure Trail where
  conns : ℕ
  sent : Bytes
  marks : ℕ
  deriving DecidableEq

structure CallWorld where
  call : ClientCall
  wire : PeerWire
  trail : Trail
  failed : Option Trail
  noSession : Option PeerWire
  deriving DecidableEq

def CallWorld.start (q : Req) : CallWorld := ⟨.new q, .new, ⟨0, [], 0⟩, none, none⟩

inductive CallWorldAct where
  | send (bs : Bytes)
  | close
  | call (act : ClientAct)
  deriving DecidableEq

def ClientAct.looks : ClientAct → Bool
  | .take _ | .dial _ | .connect _ => true
  | _ => false

def ClientAct.fails : ClientAct → Bool
  | .writeCheck .untrusted | .readCheck _ .untrusted => true
  | _ => false

def Trail.add (t : Trail) (act : ClientAct) (m : ClientMove) : Trail :=
  ⟨t.conns + (if act.looks then 1 else 0), t.sent ++ m.sent,
    t.marks + (if m.marks then 1 else 0)⟩

def CallWorld.moved (s : CallWorld) (act : ClientAct) (m : ClientMove) : CallWorld :=
  let wire := if act.connects then .new else { s.wire with inn := s.wire.inn.drop m.read }
  let trail := s.trail.add act m
  { call := m.next
    wire := wire
    trail := trail
    failed := if s.failed = none ∧ act.fails ∧ s.call.live then some trail else s.failed
    noSession := if s.call.pc ≠ .fail .noSession ∧ m.next.pc = .fail .noSession then some wire
      else s.noSession }

def callWorldStep (s : CallWorld) : CallWorldAct → Option CallWorld
  | .send bs =>
    if s.wire.ended then none
    else some { s with
      wire := ⟨s.wire.total ++ bs, s.wire.inn ++ bs, false⟩ }
  | .close => some { s with wire := { s.wire with ended := true } }
  | .call act => (s.call.next s.wire.view act).map (s.moved act)

/-- The read is the answer to an opening of which nothing was counted, or the look
for a refusal after a failed write. -/
def ClientPc.losesVerdict : ClientPc → Bool
  | .read .ack _ [] => true
  | .read (.lookup _ _) _ _ => true
  | .read (.lookupTokens _) _ _ => true
  | _ => false

/-- With a live context no check fails in a read that forgets it, no read of the answer to an
opening fails before the first byte, and after a failed check the context does not end before the
call returns. -/
def keepsVerdict (s : CallWorld) : CallWorldAct → Bool
  | .call (.readCheck _ _) => !s.call.live || !s.call.pc.losesVerdict
  | .call (.read n (some .other)) =>
    match s.call.pc with
    | .read .ack _ [] => !s.call.live || n ≠ 0
    | _ => true
  | .call .cancel =>
    match s.call.pc with
    | .done _ => true
    | _ => s.failed = none
  | _ => true

def ClientPc.Reports (pc : ClientPc) : Prop :=
  pc = .fail .untrusted ∨ pc = .ret (.error .untrusted) ∨ pc = .done (.error .untrusted)

section Call

variable {c : ClientCall} {v : PeerView} {act : ClientAct} {m : ClientMove}

theorem readFailed_untrusted {live : Bool} {k : ReadKind} {need : ℕ} {got : Bytes}
    (h : (ClientPc.read k need got).losesVerdict = false) :
    readFailed live k got .untrusted = .fail .untrusted := by
  cases k with
  | ack =>
    cases got with
    | nil => cases h
    | cons b got => simp [readFailed]
  | lookup opening err => cases h
  | lookupTokens err => cases h
  | _ => rfl

theorem next_fails (hm : c.next v act = some m) (hfails : act.fails = true)
    (hkeeps : (∃ n e, act = .readCheck n e) → c.pc.losesVerdict = false) :
    m.next.pc = .fail .untrusted ∧ m.next.live = c.live ∧ act.looks = false ∧
      m.sent = [] ∧ m.marks = false := by
  cases moves_of_next hm with
  | writeCheck k todo e hpc he =>
    obtain rfl : e = .untrusted := by
      cases e <;> first | rfl | cases hfails
    exact ⟨rfl, rfl, rfl, rfl, rfl⟩
  | readCheck k need n got e hpc hn hinn he =>
    obtain rfl : e = .untrusted := by
      cases e <;> first | rfl | cases hfails
    have hloses := hkeeps ⟨n, _, rfl⟩
    rw [hpc] at hloses
    exact ⟨readFailed_untrusted hloses, rfl, rfl, rfl, rfl⟩
  | _ => cases hfails

theorem next_reports (hm : c.next v act = some m) (hreports : c.pc.Reports)
    (hlive : c.live = true ∨ ∃ o, c.pc = .done o) (hcancel : act = .cancel → ∃ o, c.pc = .done o) :
    m.next.pc.Reports ∧ (m.next.live = true ∨ ∃ o, m.next.pc = .done o) ∧
      act.looks = false ∧ m.sent = [] ∧ m.marks = false := by
  cases moves_of_next hm with
  | cancel =>
    obtain ⟨o, ho⟩ := hcancel rfl
    exact ⟨hreports, .inr ⟨o, ho⟩, rfl, rfl, rfl⟩
  | finish kept keep next hpc hkept =>
    obtain ⟨-, rfl⟩ : keep = false ∧ next = .ret (.error .untrusted) := by
      simpa [ClientPc.Reports, hpc, ClientPc.fail] using hreports
    have hlive' : c.live = true := by simpa [hpc] using hlive
    exact ⟨.inr (.inl rfl), .inl hlive', rfl, rfl, rfl⟩
  | ret late o hpc =>
    obtain rfl : o = .error .untrusted := by
      simpa [ClientPc.Reports, hpc, ClientPc.fail] using hreports
    have hlive' : c.live = true := by simpa [hpc] using hlive
    refine ⟨.inr (.inr ?_), .inl hlive', rfl, rfl, rfl⟩
    simp [ClientMove.silent, frameError, hlive']
  | _ => simp_all [ClientPc.Reports, ClientPc.fail]

def ClientPc.opened : ClientPc → Option Bytes
  | .use true => some []
  | .write .opening _ => some []
  | .read .ack _ got => some got
  | _ => none

theorem opened_startWrite (q : Req) {k : WriteKind} (hk : k ≠ .opening) :
    (q.startWrite k).opened = none := by
  have hafter : (q.afterWrite k).opened = none := by
    cases k with
    | opening => exact absurd rfl hk
    | body | pooled => rfl
    | single | plain =>
      rw [Req.afterWrite]
      split_ifs <;> rfl
  rw [Req.startWrite]
  split
  · exact hafter
  · cases k with
    | opening => exact absurd rfl hk
    | _ => rfl

theorem opened_readBody (k : ReadKind) (hk : k ≠ .ack) (n : ℕ) (done : ClientPc)
    (hdone : done.opened = none) : (readBody k n done).opened = none := by
  rw [readBody]
  split_ifs
  · exact hdone
  · cases k with
    | ack => exact absurd rfl hk
    | _ => rfl

theorem opened_received (q : Req) (k : ReadKind) (got : Bytes) :
    (q.received k got).opened = none := by
  cases k <;> simp only [Req.received]
  all_goals (repeat' split)
  all_goals first
    | rfl
    | exact opened_startWrite q (by decide)
    | exact opened_readBody _ (by simp) _ _ rfl

theorem opened_writeFailed (live : Bool) (k : WriteKind) (e : ClientErr) :
    (writeFailed live k e).opened = none := by
  rw [writeFailed]
  repeat' split
  all_goals rfl

theorem opened_readFailed (live : Bool) (k : ReadKind) (got : Bytes) (e : ClientErr) :
    (readFailed live k got e).opened = none := by
  cases k <;> simp only [readFailed] <;> (repeat' split) <;> rfl

theorem next_opened (hm : c.next v act = some m) {got : Bytes} (h : m.next.pc.opened = some got) :
    act.connects = true ∧ got = [] ∨ act.connects = false ∧
      ∃ before, c.pc.opened = some before ∧ got = before ++ v.inn.take m.read := by
  cases moves_of_next hm with
  | cancel => exact .inr ⟨rfl, got, h, by simp [ClientMove.silent]⟩
  | start single hpc | take pooled hpc =>
    simp only [ClientMove.silent] at h
    split_ifs at h <;> cases h
  | dial hpc =>
    cases h
    exact .inl ⟨rfl, rfl⟩
  | use fresh hpc =>
    cases fresh with
    | true =>
      cases h
      exact .inr ⟨rfl, [], by simp [hpc, ClientPc.opened], by simp [ClientMove.silent]⟩
    | false =>
      have hnone : (c.req.startWrite .pooled).opened = some got := h
      rw [opened_startWrite c.req (by decide)] at hnone
      cases hnone
  | write k p todo hpc =>
    cases k with
    | opening =>
      refine .inr ⟨rfl, [], by simp [hpc, ClientPc.opened], ?_⟩
      simp only at h
      split_ifs at h <;> cases h <;> rfl
    | body | pooled =>
      simp only at h
      split_ifs at h <;> cases h
    | single | plain =>
      simp only [Req.afterWrite] at h
      split_ifs at h <;> cases h
  | writeFails k p todo n e hpc he =>
    rw [opened_writeFailed] at h
    cases h
  | writeCheck k todo e hpc he =>
    have hnone : (writeFailed c.live k e).opened = some got := h
    rw [opened_writeFailed] at hnone
    cases hnone
  | read k need n got' err hpc hn hinn hpos hwhole =>
    rw [opened_received] at h
    cases h
  | readMore k need n got' hpc hn hinn hpos hpart =>
    cases k with
    | ack =>
      cases h
      exact .inr ⟨rfl, got', by simp [hpc, ClientPc.opened], rfl⟩
    | _ => cases h
  | readFails k need n got' e hpc hn hinn he hpart =>
    rw [opened_readFailed] at h
    cases h
  | readCheck k need n got' e hpc hn hinn he =>
    rw [opened_readFailed] at h
    cases h
  | finish kept keep next hpc hkept =>
    have hnone : (c.resume next).pc.opened = none := by
      unfold ClientCall.resume
      split
      · split_ifs <;> rfl
      · rfl
      · rfl
    have hsome : (c.resume next).pc.opened = some got := h
    rw [hnone] at hsome
    cases hsome
  | connect hpc =>
    have hnone : (c.req.startWrite .plain).opened = some got := h
    rw [opened_startWrite c.req (by decide)] at hnone
    cases hnone
  | _ => cases h

end Call

structure CallWorld.Honest (s : CallWorld) : Prop where
  failed : ∀ t, s.failed = some t → s.trail = t ∧ s.call.pc.Reports ∧
    (s.call.live = true ∨ ∃ o, s.call.pc = .done o)
  opened : ∀ got, s.call.pc.opened = some got → s.wire.total = got ++ s.wire.inn
  noSession : ∀ w, s.noSession = some w → w.ended = true ∧ w.total = []

theorem honest_start (q : Req) : (CallWorld.start q).Honest where
  failed := fun t ht => by cases ht
  opened := fun got hgot => by cases hgot
  noSession := fun w hw => by cases hw

theorem Trail.add_silent (t : Trail) {act : ClientAct} {m : ClientMove}
    (hlooks : act.looks = false) (hsent : m.sent = []) (hmarks : m.marks = false) :
    t.add act m = t := by
  simp [Trail.add, hlooks, hsent, hmarks]

theorem CallWorld.Honest.call {s : CallWorld} (h : s.Honest) {act : ClientAct}
    {m : ClientMove} (hok : keepsVerdict s (.call act) = true)
    (hm : s.call.next s.wire.view act = some m) : (s.moved act m).Honest where
  failed := fun t ht => by
    simp only [CallWorld.moved] at ht
    split_ifs at ht with hnew
    · obtain ⟨-, hfails, hlive⟩ := hnew
      obtain ⟨hpc, hlive', -⟩ := next_fails hm hfails (by
        rintro ⟨n, e, rfl⟩
        simpa [keepsVerdict, hlive] using hok)
      exact ⟨Option.some.inj ht, .inl hpc, .inl (hlive'.trans hlive)⟩
    · obtain ⟨htrail, hreports, hlive⟩ := h.failed t ht
      obtain ⟨hreports', hlive', hlooks, hsent, hmarks⟩ := next_reports hm hreports hlive (by
        rintro rfl
        cases hpc : s.call.pc <;> simp_all [keepsVerdict])
      exact ⟨(s.trail.add_silent hlooks hsent hmarks).trans htrail, hreports', hlive'⟩
  opened := fun got hgot => by
    rcases next_opened hm hgot with ⟨hconn, rfl⟩ | ⟨hconn, before, hbefore, rfl⟩
    · simp [CallWorld.moved, hconn, PeerWire.new]
    · have htotal := h.opened before hbefore
      simp [CallWorld.moved, hconn, PeerWire.view, htotal]
  noSession := fun w hw => by
    simp only [CallWorld.moved] at hw
    by_cases hnew : s.call.pc ≠ .fail .noSession ∧ m.next.pc = .fail .noSession
    · rw [if_pos hnew] at hw
      obtain ⟨⟨need, hpc⟩, hlive, hread | ⟨n, e, rfl⟩⟩ := next_noSession hm hnew.2 hnew.1
      · obtain ⟨e, rfl, htimeout, hallowed⟩ := hread
        have htotal := h.opened [] (by rw [hpc]; rfl)
        have hclosed : s.wire.ended = true ∧ s.wire.inn = [] := by
          cases e with
          | eof | closedPeer =>
            simp only [transportAllowed, PeerWire.view, Bool.and_eq_true] at hallowed
            exact ⟨hallowed.1, List.length_eq_zero_iff.1 (of_decide_eq_true hallowed.2).symm⟩
          | closed => simp [transportAllowed, hlive] at hallowed
          | timeout => exact absurd rfl htimeout
          | other => simp [keepsVerdict, hpc, hlive] at hok
          | _ => cases hallowed
        have hread : m.read = 0 := by
          cases moves_of_next hm <;> rfl
        cases hw
        simp [ClientAct.connects, hclosed, htotal]
      · simp [keepsVerdict, hlive, hpc, ClientPc.losesVerdict] at hok
    · rw [if_neg hnew] at hw
      exact h.noSession w hw

theorem CallWorld.Honest.step {s t : CallWorld} (h : s.Honest) {act : CallWorldAct}
    (hok : keepsVerdict s act = true) (hstep : callWorldStep s act = some t) : t.Honest := by
  cases act with
  | send bs =>
    simp only [callWorldStep] at hstep
    split_ifs at hstep
    cases hstep
    refine ⟨h.failed, fun got hgot => ?_, h.noSession⟩
    simp only [h.opened got hgot, List.append_assoc]
  | close =>
    cases hstep
    exact ⟨h.failed, h.opened, h.noSession⟩
  | call act =>
    obtain ⟨m, hm, rfl⟩ := Option.map_eq_some_iff.1 hstep
    exact h.call hok hm

theorem CallWorld.reports_returns {s : CallWorld} (hreports : s.call.pc.Reports)
    (hlive : s.call.live = true ∨ ∃ o, s.call.pc = .done o) :
    ∃ rest t, rest.length ≤ 2 ∧ run callWorldStep s rest = some t ∧ t.trail = s.trail ∧
      t.call.pc = .done (.error .untrusted) := by
  obtain ⟨⟨q, attempt, live, pc⟩, wire, trail, failed, noSession⟩ := s
  rcases hreports with rfl | rfl | rfl
  · have hlive' : live = true := by simpa [ClientPc.fail] using hlive
    subst hlive'
    refine ⟨[.call (.finish false), .call (.ret false)], _, le_rfl, rfl, ?_, rfl⟩
    simp [CallWorld.moved, Trail.add, ClientAct.looks, ClientMove.silent]
  · have hlive' : live = true := by simpa using hlive
    subst hlive'
    refine ⟨[.call (.ret false)], _, by decide, rfl, ?_, rfl⟩
    simp [CallWorld.moved, Trail.add, ClientAct.looks, ClientMove.silent]
  · exact ⟨[], _, by decide, rfl, rfl, rfl⟩

/-- In a run none of whose steps loses the verdict: after the first failed check with a live context
the call opens, sends and marks nothing more, and returns `ErrServerUntrusted` within two steps. -/
theorem untrusted_server_reported (q : Req) (acts : List CallWorldAct) (s : CallWorld)
    (hok : along callWorldStep (fun s act => keepsVerdict s act = true)
      (CallWorld.start q) acts) (hrun : run callWorldStep (CallWorld.start q) acts = some s) :
    (∀ t, s.failed = some t → s.trail = t ∧ (∀ o, s.call.pc = .done o → o = .error .untrusted) ∧
      ∃ rest u, rest.length ≤ 2 ∧ run callWorldStep s rest = some u ∧ u.trail = t ∧
        u.call.pc = .done (.error .untrusted)) ∧
      ∀ w, s.noSession = some w → w.ended = true ∧ w.total = [] := by
  have hinv : s.Honest :=
    run_invariant (I := CallWorld.Honest) (fun _ _ _ h hact hstep => h.step hact hstep)
      (honest_start q) hok hrun
  refine ⟨fun t ht => ?_, hinv.noSession⟩
  obtain ⟨rfl, hreports, hlive⟩ := hinv.failed t ht
  refine ⟨rfl, fun o ho => ?_, CallWorld.reports_returns hreports hlive⟩
  simpa [ClientPc.Reports, ho, ClientPc.fail] using hreports

def openingSent : List CallWorldAct :=
  [.call (.start false), .call (.take false), .call (.dial none), .call (.use none),
    .call (.write none)]

/-- The check fails behind the first byte of the answer. -/
theorem untrusted_server_reported_sample : ∃ s t, run callWorldStep (CallWorld.start emptyReq)
        (openingSent ++ [.send [128], .call (.read 1 none),
          .call (.readCheck 0 .untrusted)]) = some s ∧ s.failed = some t ∧
      ((∀ t, s.failed = some t → s.trail = t ∧ (∀ o, s.call.pc = .done o → o = .error .untrusted) ∧
        ∃ rest u, rest.length ≤ 2 ∧ run callWorldStep s rest = some u ∧ u.trail = t ∧
          u.call.pc = .done (.error .untrusted)) ∧
        ∀ w, s.noSession = some w → w.ended = true ∧ w.total = []) := by
  refine ⟨_, _, rfl, rfl, ?_⟩
  exact untrusted_server_reported emptyReq (openingSent ++
    [.send [128], .call (.read 1 none), .call (.readCheck 0 .untrusted)]) _ (by decide) rfl

/-- The check fails before the first byte of the answer: the request is sent on another connection
and its reply returned. -/
theorem failed_check_resends : ∃ s t, run callWorldStep (CallWorld.start emptyReq)
        (openingSent ++ [.call (.readCheck 0 .untrusted), .call (.finish false),
          .call .mark, .call (.connect none), .call (.write none), .send [0, 0, 0, 0],
          .call (.read 4 none), .call (.finish false), .call (.ret false)]) = some s ∧
      s.failed = some t ∧ t = ⟨2, [128, 0, 0, 0], 0⟩ ∧
      s.trail = ⟨3, [128, 0, 0, 0, 0, 0, 0, 0], 1⟩ ∧ s.call.pc = .done (.reply []) ∧
      s.noSession = some ⟨[], [], false⟩ ∧
      ¬ ((∀ t, s.failed = some t → s.trail = t ∧
        (∀ o, s.call.pc = .done o → o = .error .untrusted) ∧
        ∃ rest u, rest.length ≤ 2 ∧ run callWorldStep s rest = some u ∧ u.trail = t ∧
          u.call.pc = .done (.error .untrusted)) ∧
        ∀ w, s.noSession = some w → w.ended = true ∧ w.total = []) := by
  refine ⟨_, _, rfl, rfl, by decide, by decide, rfl, rfl, fun h => ?_⟩
  exact absurd (h.2 ⟨[], [], false⟩ rfl).1 (by decide)

end Listen
