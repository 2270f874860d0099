import AbstractionIdentity.Darwin.XpcListener

/-!
# The accounting of the XPC listener

Every handler step moves the counts of the listener and what its session counts for by the same
amount (`Balanced`), and keeps what is known of the session (`Ok`). So the books hold in
every run, and a state is freed once, when all its connections have ended. But a peer has ended when
its handler has counted it out, and the handler still reads the state then (`freed_while_read`).
-/

namespace Darwin

open Transition List Option XpcListener XpcSession

@[simp] def BootPlace.holds (p : BootPlace) : Bool := p ≠ .done

@[simp] def BootPlace.reserves (p : BootPlace) : Bool :=
  p = .allocate || p = .unreserve || p = .list

@[simp] def AnonPlace.holds : AnonPlace → ℕ
  | .idle => 0
  | _ => 1

@[simp] def RetirePlace.holds : RetirePlace → ℕ
  | .idle => 0
  | _ => 1

@[simp] def PeerPlace.holds (p : PeerPlace) : Bool := p ≠ .serve && p ≠ .done

@[simp] def PeerPlace.counted (p : PeerPlace) : Bool := p = .idle || p = .untrack || p = .endPeer

namespace XpcSession

variable (s : XpcSession)

/-- The connections of the session that are tracked. -/
def tracked : ℕ := s.bootTracked.toNat + s.anonTracked.toNat + s.peers.countP (·.tracked)

/-- The session in the list, or the place reserved for it. -/
def seats : ℕ := s.listed.toNat + s.boot.reserves.toNat

/-- The references to the listener that its handlers hold. -/
def holds : ℕ :=
  s.boot.holds.toNat + s.anonymousActive.toNat + s.anon.holds +
    s.peers.countP (·.place.holds) + s.retire.holds

def Unallocated : Prop :=
  s.allocated = false ∧ s.bootstrapActive = false ∧ s.listed = false ∧ s.anonTracked = false

def Active : Prop := s.allocated = true ∧ s.bootstrapActive = true

def BootOk : Prop :=
  match s.boot with
  | .allocate | .unreserve => s.Unallocated
  | .idle | .untrack => s.Unallocated ∨ s.Active
  | .list => s.Active ∧ s.anonymousActive = false ∧ s.anonTracked = false ∧ s.listed = false
  | .createAnonymous => s.Active ∧ s.anonymousActive = false ∧ s.anonTracked = false
  | .abandon | .serveAnonymous => s.Active ∧ s.anonymousActive = false
  | .endBootstrap => s.Active
  | .maybeRetire => s.allocated = true ∧ s.bootstrapActive = false
  | .done => s.bootstrapActive = false

/-- What every handler keeps: `peerCount` counts the peers that are yet to be counted out, and a
state is scheduled when all is ended, then unlisted, then freed. -/
structure Ok : Prop where
  boot : s.BootOk
  used : s.anonymousActive = true ∨ s.anon ≠ .idle ∨ s.peers ≠ [] ∨ s.retirementScheduled = true →
    s.allocated = true
  count : s.peerCount = s.peers.countP (·.place.counted)
  serving : 0 < s.peers.countP (·.place = .serve) → s.anonymousActive = true
  scheduled : s.retirementScheduled = true →
    s.bootstrapActive = false ∧ s.anonymousActive = false ∧ s.peerCount = 0
  fresh : s.retirementScheduled = false → s.retire = .idle ∧ s.freed = 0
  once : s.retire = .start ∨ s.retire = .unlist ∨ s.retire = .freeState → s.freed = 0
  freed_le : s.freed ≤ 1
  unlisted : s.retire = .freeState ∨ s.freed ≠ 0 → s.listed = false

end XpcSession

/-- The counts of the listener change as what the session counts for. -/
structure Balanced (l : XpcListener) (s : XpcSession) (r : XpcListener × XpcSession) : Prop where
  same : r.1 = { l with
    connectionCount := r.1.connectionCount
    sessionCount := r.1.sessionCount
    refs := r.1.refs }
  connections : r.1.connectionCount + s.tracked = l.connectionCount + r.2.tracked
  connections_le : l.connectionCount ≤ maxConnections → r.1.connectionCount ≤ maxConnections
  sessions : r.1.sessionCount + s.seats = l.sessionCount + r.2.seats
  sessions_le : l.sessionCount ≤ maxSessions → r.1.sessionCount ≤ maxSessions
  refs : r.1.refs + s.holds = l.refs + r.2.holds

/-- The session is among those the listener has counted. -/
structure XpcSession.Within (s : XpcSession) (l : XpcListener) : Prop where
  tracked : s.tracked ≤ l.connectionCount
  seats : s.seats ≤ l.sessionCount
  holds : s.holds ≤ l.refs

variable {l l' : XpcListener} {s : XpcSession} {ok : Bool} {r : XpcListener × XpcSession}

attribute [grind] BootOk Unallocated Active

theorem maybeRetire_ok (h : s.Ok) (halloc : s.allocated = true) : (l.maybeRetire s).2.Ok := by
  rw [maybeRetire]
  split_ifs with hstay
  · exact h
  · simp only [Bool.or_eq_true, decide_eq_true_eq, not_or, Bool.not_eq_true, not_not] at hstay
    obtain ⟨⟨⟨⟨hboot, hanon⟩, hcount⟩, -⟩, hscheduled⟩ := hstay
    obtain ⟨-, hfreed⟩ := h.fresh hscheduled
    exact { h with
      boot := h.boot
      used := fun _ => halloc
      scheduled := fun _ => ⟨hboot, hanon, hcount⟩
      fresh := fun hno => by cases hno
      once := fun _ => hfreed
      unlisted := fun hor => by simp [hfreed] at hor }

theorem bootStep_sound (h : s.Ok) (hl : s.Within l) (hs : l.bootStep s ok = some r) :
    Balanced l s r ∧ r.2.Ok := by
  obtain ⟨htracked, hseats, hholds⟩ := hl
  have hboot := h.boot
  have hfresh := h.fresh
  rw [bootStep, leave, maybeRetire] at hs
  constructor
  · simp only [BootOk, Unallocated] at hboot
    cases hplace : s.boot <;> simp only [hplace, reduceCtorEq] at hs hboot <;>
      (try split_ifs at hs) <;> cases hs <;> refine ⟨rfl, ?_, ?_, ?_, ?_, ?_⟩ <;>
      simp_all [tracked, seats, holds] <;> omega
  · split at hs <;> grind [Ok]

theorem anonStep_sound (h : s.Ok) (hl : s.Within l) (hs : l.anonStep s = some r) :
    Balanced l s r ∧ r.2.Ok := by
  obtain ⟨htracked, hseats, hholds⟩ := hl
  have hfresh := h.fresh
  have halloc (hne : s.anon ≠ .idle) : s.allocated = true := h.used (.inr (.inl hne))
  rw [anonStep] at hs
  constructor
  · rw [leave, maybeRetire] at hs
    cases hplace : s.anon <;> simp only [hplace, reduceCtorEq] at hs <;>
      (try split_ifs at hs) <;> cases hs <;> refine ⟨rfl, ?_, ?_, ?_, ?_, ?_⟩ <;>
      simp_all [tracked, seats, holds] <;> omega
  · split at hs
    case h_3 hplace =>
      cases hs
      refine maybeRetire_ok ?_ (halloc (by simp [hplace]))
      exact { h with boot := h.boot, used := fun _ => halloc (by simp [hplace]) }
    all_goals grind [Ok]

theorem retireStep_sound (h : s.Ok) (hl : s.Within l) (hs : l.retireStep s = some r) :
    Balanced l s r ∧ r.2.Ok := by
  obtain ⟨htracked, hseats, hholds⟩ := hl
  rw [retireStep] at hs
  constructor
  · cases hplace : s.retire <;> simp only [hplace, reduceCtorEq] at hs <;>
      (try split_ifs at hs) <;> cases hs <;> refine ⟨rfl, ?_, ?_, ?_, ?_, ?_⟩ <;>
      simp_all [tracked, seats, holds] <;> omega
  · split at hs <;> grind [Ok]

section Peers

variable {j n : ℕ} {p p' : XpcPeer}

theorem countP_set_toNat {α : Type} {xs : List α} {i : ℕ} {a x : α} (f : α → Bool)
    (hi : xs[i]? = some x) :
    (xs.set i a).countP f + (f x).toNat = xs.countP f + (f a).toNat := by
  have hset := @countP_set_of_lookup _ xs i a x f hi
  cases hx : f x <;> cases ha : f a <;> simp [hx, ha] at hset ⊢ <;> omega

theorem XpcSession.Ok.allocated_of_peer (h : s.Ok) (hj : s.peers[j]? = some p) :
    s.allocated = true := by
  refine h.used (.inr (.inr (.inl ?_)))
  rintro hnil
  simp [hnil] at hj

theorem measures_of_set (hj : s.peers[j]? = some p) :
    { s with peerCount := n, peers := s.peers.set j p' }.tracked + p.tracked.toNat =
        s.tracked + p'.tracked.toNat ∧
      { s with peerCount := n, peers := s.peers.set j p' }.holds + p.place.holds.toNat =
        s.holds + p'.place.holds.toNat := by
  have htracked := @countP_set_toNat _ _ _ p' _ (·.tracked) hj
  have hholds := @countP_set_toNat _ _ _ p' _ (·.place.holds) hj
  simp only [tracked, holds]
  constructor <;> omega

theorem XpcSession.Ok.set_peer (h : s.Ok) (hj : s.peers[j]? = some p) (hserve : p'.place ≠ .serve)
    (hcount : n + p.place.counted.toNat = s.peerCount + p'.place.counted.toNat)
    (hscheduled : s.retirementScheduled = true → n = 0) :
    { s with peerCount := n, peers := s.peers.set j p' }.Ok := by
  have hcounted := @countP_set_toNat _ _ _ p' _ (·.place.counted) hj
  have hserving := @countP_set_toNat _ _ _ p' _ (·.place = .serve) hj
  have hold := h.count
  exact { h with
    boot := h.boot
    used := fun _ => h.allocated_of_peer hj
    count := show n = (s.peers.set j p').countP _ by omega
    serving := fun hpos => h.serving (by
      have hpos : 0 < (s.peers.set j p').countP (·.place = .serve) := hpos
      simp only [hserve, decide_false, Bool.toNat_false] at hserving
      omega)
    scheduled := fun hyes => ⟨(h.scheduled hyes).1, (h.scheduled hyes).2.1, hscheduled hyes⟩ }

theorem peerStep_sound (h : s.Ok) (hl : s.Within l) (hj : s.peers[j]? = some p)
    (hs : l.peerStep s j p = some r) : Balanced l s r ∧ r.2.Ok := by
  obtain ⟨htracked, -, hholds⟩ := hl
  have hfresh := h.fresh
  have hzero (hyes : s.retirementScheduled = true) := (h.scheduled hyes).2.2
  have hset (n : ℕ) (p' : XpcPeer) := @measures_of_set s j n p p' hj
  have hmem := mem_of_getElem? hj
  obtain ⟨place, tracked⟩ := p
  rw [peerStep] at hs
  cases place <;> simp only [reduceCtorEq] at hs
  case serve =>
    cases hs
    have hanon := h.serving (countP_pos_iff.2 ⟨_, hmem, by simp⟩)
    have hno : s.retirementScheduled ≠ true := fun hyes => by simp [(h.scheduled hyes).2.1] at hanon
    have hm := hset (s.peerCount + 1) ⟨.idle, tracked⟩
    refine ⟨⟨rfl, ?_, ?_, rfl, ?_, ?_⟩, h.set_peer hj (by simp) (by simp) (by simp [hno])⟩ <;>
      simp at hm ⊢ <;> omega
  case untrack =>
    cases hs
    have hm := hset s.peerCount ⟨.endPeer, false⟩
    refine ⟨⟨rfl, ?_, ?_, rfl, ?_, ?_⟩, h.set_peer hj (by simp) (by simp) hzero⟩ <;>
      simp at hm ⊢ <;> omega
  case endPeer =>
    cases hs
    have hpos : 0 < s.peerCount := by
      rw [h.count]
      exact countP_pos_iff.2 ⟨_, hmem, by simp⟩
    have hm := hset (s.peerCount - 1) ⟨.maybeRetire, tracked⟩
    refine ⟨⟨rfl, ?_, ?_, rfl, ?_, ?_⟩, h.set_peer hj (by simp) (by simp; omega)
      fun hyes => by rw [hzero hyes]⟩ <;> simp at hm ⊢ <;> omega
  case maybeRetire =>
    cases hs
    have hm := hset s.peerCount ⟨.release, tracked⟩
    constructor
    · rw [maybeRetire]
      split_ifs with hstay
      · refine ⟨rfl, ?_, id, rfl, id, ?_⟩ <;> simp at hm ⊢ <;> omega
      · have hidle : s.retire = .idle := (hfresh (by simp_all)).1
        refine ⟨rfl, ?_, id, rfl, id, ?_⟩ <;> 
          simp [XpcSession.tracked, XpcSession.holds, hidle] at hm ⊢ <;> omega
    · exact maybeRetire_ok (h.set_peer hj (by simp) (by simp) hzero) (h.allocated_of_peer hj)
  case release =>
    cases hs
    have hm := hset s.peerCount ⟨.done, tracked⟩
    refine ⟨⟨rfl, ?_, ?_, rfl, ?_, ?_⟩, h.set_peer hj (by simp) (by simp) hzero⟩ <;>
      simp at hm ⊢ <;> omega

end Peers

theorem XpcListener.queueFree_session (h : l.queueFree = true) (hs : s ∈ l.sessions) :
    s.anon = .idle ∧ s.peers.countP (·.place = .serve) = 0 := by
  simp only [XpcListener.queueFree, XpcSession.queueFree, Bool.and_eq_true, List.all_eq_true,
    decide_eq_true_eq] at h
  obtain ⟨⟨hanon, hpeers⟩, -⟩ := h s hs
  exact ⟨hanon, countP_eq_zero.2 (by simpa using hpeers)⟩

theorem deliver_sound {e : SessionEvent} (hmem : s ∈ l.sessions) (h : s.Ok)
    (hs : l.deliver s e = some r) : Balanced l s r ∧ r.2.Ok := by
  have hboot := h.boot
  cases e with
  | bootstrap =>
    simp only [deliver] at hs
    constructor
    · split_ifs at hs <;> cases hs <;> refine ⟨rfl, ?_, ?_, ?_, ?_, ?_⟩ <;>
        simp_all [tracked, seats, holds]
      all_goals omega
    · grind [Ok]
  | connect ok =>
    simp only [deliver] at hs
    split_ifs at hs with hactive hroom <;> cases hs
    · simp only [Bool.and_eq_true] at hactive
      have halloc := h.used (.inl hactive.1.1)
      constructor
      · refine ⟨rfl, ?_, ?_, ?_, ?_, ?_⟩ <;> simp_all [tracked, seats, holds]
        all_goals omega
      · exact { h with
          boot := hboot
          used := fun _ => halloc
          count := by simpa using h.count
          serving := fun _ => hactive.1.1 }
    · exact ⟨⟨rfl, rfl, id, rfl, id, rfl⟩, h⟩
  | bootstrapEnd =>
    obtain ⟨hidle, hs⟩ := ite_none_right_eq_some.1 hs
    constructor
    · cases hs
      refine ⟨rfl, rfl, id, ?_, id, ?_⟩ <;> simp [seats, holds, hidle]
    · grind [Ok]
  | anonymousEnd =>
    obtain ⟨hactive, hs⟩ := ite_none_right_eq_some.1 hs
    simp only [Bool.and_eq_true] at hactive
    obtain ⟨hidle, hserve⟩ := l.queueFree_session hactive.2 hmem
    constructor
    · cases hs
      refine ⟨rfl, rfl, id, rfl, id, ?_⟩
      cases s.anonymousListener <;> simp [holds, hactive.1, hidle]
    · grind [Ok]
  | peerEnd j =>
    obtain ⟨p, hj, hs⟩ := bind_eq_some_iff.1 hs
    obtain ⟨hidle, hs⟩ := ite_none_right_eq_some.1 hs
    cases hs
    have hm := @measures_of_set s j s.peerCount _ { p with place := .untrack } hj
    refine ⟨⟨rfl, ?_, id, rfl, id, ?_⟩, h.set_peer hj (by simp) (by simp [hidle]) fun hyes =>
      (h.scheduled hyes).2.2⟩ <;> simp [hidle] at hm ⊢ <;> omega

theorem laneStep_sound {lane : Lane} (h : s.Ok) (hl : s.Within l)
    (hs : l.laneStep s ok lane = some r) : Balanced l s r ∧ r.2.Ok := by
  cases lane with
  | boot => exact bootStep_sound h hl hs
  | anon => exact anonStep_sound h hl hs
  | peer j =>
    obtain ⟨p, hj, hs⟩ := bind_eq_some_iff.1 hs
    exact peerStep_sound h hl hj hs
  | retire =>
    simp only [laneStep] at hs
    split_ifs at hs
    exact retireStep_sound h hl hs

/-! ### The handlers that still read a state -/

/-- No handler of the session reads its state any more: that of a peer reads it for its last
`listener_release`. -/
def XpcSession.quiet (s : XpcSession) : Bool :=
  s.boot = .done && !s.anonymousActive && s.anon = .idle && s.peers.all (·.place = .done)

/-- The state is freed, or will be once its retirement goes on. -/
def XpcSession.retired (s : XpcSession) : Bool :=
  s.retire = .unlist || s.retire = .freeState || s.freed ≠ 0

theorem quiet_of_laneStep {lane : Lane} (h : s.retired = true → s.quiet = true)
    (hstart : lane = .retire → s.retire = .start → s.quiet = true)
    (hs : l.laneStep s ok lane = some r) (hr : r.2.retired = true) : r.2.quiet = true := by
  cases lane with
  | peer j =>
    obtain ⟨p, hj, hs⟩ := bind_eq_some_iff.1 hs
    rw [peerStep] at hs
    grind [quiet, retired, maybeRetire]
  | _ =>
    simp only [laneStep, bootStep, anonStep, retireStep, leave] at hs
    grind [quiet, retired, maybeRetire]

theorem quiet_of_deliver {e : SessionEvent} (h : s.retired = true → s.quiet = true)
    (hs : l.deliver s e = some r) (hr : r.2.retired = true) : r.2.quiet = true := by
  cases e <;> grind [deliver, quiet, retired]

/-! ### The listener -/

def total (f : XpcSession → ℕ) (sessions : List XpcSession) : ℕ := (sessions.map f).sum

@[simp] theorem total_cons (f : XpcSession → ℕ) (sessions : List XpcSession) :
    total f (s :: sessions) = f s + total f sessions := rfl

theorem total_set {sessions : List XpcSession} {i : ℕ} (f : XpcSession → ℕ)
    (hi : sessions[i]? = some s) :
    f s ≤ total f sessions ∧ ∀ s', total f (sessions.set i s') + f s = total f sessions + f s' := by
  induction sessions generalizing i with
  | nil => cases hi
  | cons t sessions ih =>
    cases i with
    | zero =>
      cases hi
      simp only [set_cons_zero, total_cons]
      exact ⟨by omega, fun s' => by omega⟩
    | succ i =>
      obtain ⟨hle, hset⟩ := ih hi
      simp only [set_cons_succ, total_cons]
      exact ⟨by omega, fun s' => by have := hset s'; omega⟩

@[simp] def Handle.holds : Handle → ℕ
  | .gone => 0
  | _ => 1

@[simp] def Handle.rest : Handle → List ℕ
  | .draining rest => rest
  | _ => []

theorem XpcSession.Ok.new : XpcSession.new.Ok := by
  constructor <;> simp [XpcSession.new, BootOk, Unallocated]

theorem XpcSession.Ok.still (h : s.Ok) (hholds : s.holds = 0) :
    s.retire = .idle ∧ s.quiet = true := by
  simp only [holds, Nat.add_eq_zero_iff, countP_eq_zero, BootPlace.holds] at hholds
  obtain ⟨⟨⟨⟨hb, ha⟩, hn⟩, hp⟩, hr⟩ := hholds
  have hactive : s.anonymousActive = false := by simpa using ha
  have hdone : s.boot = .done := by simpa using hb
  have hserve := h.serving
  simp only [hactive, Bool.false_eq_true, imp_false, Nat.not_lt, Nat.le_zero, countP_eq_zero]
    at hserve
  have hanon : s.anon = .idle := by cases hplace : s.anon <;> simp_all
  have hpeers : ∀ p ∈ s.peers, p.place = .done := fun p hmem => by
    have h1 := hp p hmem
    have h2 := hserve p hmem
    simp_all
  refine ⟨by cases hplace : s.retire <;> simp_all, ?_⟩
  simpa [quiet, hdone, hactive, hanon] using hpeers

namespace XpcListener

structure Books (l : XpcListener) : Prop where
  connections : l.connectionCount = total tracked l.sessions
  connections_le : l.connectionCount ≤ maxConnections
  sessions : l.sessionCount = total seats l.sessions
  sessions_le : l.sessionCount ≤ maxSessions
  active : l.activeRequestCount = l.active.length
  active_le : l.activeRequestCount ≤ maxActiveRequests
  requests : ∀ n, l.queue.count n + l.returned.count n + l.dropped.count n =
    if n < l.enqueued then 1 else 0

/-- The listener before it is destroyed: `refs` counts what can still take a step. Under `strict` no
state is retired while a handler reads it. -/
structure Live (strict : Prop) (l : XpcListener) : Prop extends l.Books where
  live : l.destroyed = false
  owned : ∀ n, l.active.count n = l.queue.count n + l.owned.count n + l.handle.rest.count n
  refs : l.refs = l.handle.holds + l.listening.toNat + l.active.length +
    total XpcSession.holds l.sessions
  ok : ∀ s ∈ l.sessions, s.Ok
  last : strict → ∀ s ∈ l.sessions, s.retired = true → s.quiet = true

/-- Nothing is left that could take a step. -/
structure Dead (l : XpcListener) : Prop extends l.Books where
  destroyed : l.destroyed = true
  still : l.handle = .gone ∧ l.listening = false ∧ l.owned = []
  sessions_still : ∀ s ∈ l.sessions, s.freed ≤ 1 ∧ s.retire = .idle ∧ s.quiet = true

variable {strict : Prop}

theorem Dead.step (h : l.Dead) (act : XpcAct) : l.step act = none := by
  obtain ⟨hgone, hlistening, howned⟩ := h.still
  have hdead := h.destroyed
  have hstill := h.sessions_still
  simp only [quiet, Bool.and_eq_true, decide_eq_true_eq, Bool.not_eq_true', List.all_eq_true]
    at hstill
  cases act with
  | event i e => cases e <;> grind [XpcListener.step, deliver]
  | frame i j => grind [XpcListener.step]
  | lane i lane ok =>
    cases hi : l.sessions[i]? with
    | none => simp [XpcListener.step, hi]
    | some s =>
      obtain ⟨-, hretire, ⟨⟨hboot, -⟩, hanon⟩, hpeers⟩ := hstill s (mem_of_getElem? hi)
      rw [XpcListener.step, hi, bind_some, map_eq_none_iff]
      cases lane with
      | peer j =>
        refine bind_eq_none_iff.2 fun p hp => ?_
        rw [peerStep, hpeers p (mem_of_getElem? hp)]
      | _ => simp [laneStep, bootStep, anonStep, retireStep, hboot, hanon, hretire]
  | _ => simp [XpcListener.step, advanceFree, *]

theorem Live.within {i : ℕ} (h : l.Live strict) (hi : l.sessions[i]? = some s) : s.Within l where
  tracked := h.connections ▸ (total_set tracked hi).1
  seats := h.sessions ▸ (total_set seats hi).1
  holds := by
    have := (total_set holds hi).1
    have := h.refs
    omega

theorem Live.put {i : ℕ} (h : l.Live strict) (hi : l.sessions[i]? = some s)
    (hr : Balanced l s r ∧ r.2.Ok) (hlast : strict → r.2.retired = true → r.2.quiet = true) :
    (put i r).Live strict := by
  obtain ⟨l', s'⟩ := r
  obtain ⟨⟨hsame, hc, hcle, hn, hnle, hf⟩, hok⟩ := hr
  have htracked := (total_set tracked hi).2 s'
  have hseats := (total_set seats hi).2 s'
  have hholds := (total_set holds hi).2 s'
  have h1 := h.connections
  have h2 := h.sessions
  have h3 := h.refs
  simp only at hsame hc hn hf
  rw [hsame]
  have hset {P : XpcSession → Prop} (hold : ∀ t ∈ l.sessions, P t) (hnew : P s') :
      ∀ t ∈ l.sessions.set i s', P t := fun t ht => by
    rcases mem_or_eq_of_mem_set ht with ht | rfl
    · exact hold t ht
    · exact hnew
  exact { h with
    connections := by simp only [put]; omega
    connections_le := hcle h.connections_le
    sessions := by simp only [put]; omega
    sessions_le := hnle h.sessions_le
    refs := by simp only [put]; omega
    ok := hset h.ok hok
    last := fun hstrict => hset (h.last hstrict) (hlast hstrict) }

theorem Live.requestFree {request : ℕ} (h : l.Live strict) (hmem : request ∈ l.active) :
    (l.requestFree request).active.length + 1 = l.active.length ∧
      (l.requestFree request).activeRequestCount = (l.requestFree request).active.length := by
  have hlen := length_erase_of_mem hmem
  have hpos := length_pos_of_mem hmem
  have hcount := h.active
  simp only [XpcListener.requestFree, if_pos hmem]
  omega

theorem Live.free (h : l.Live strict) (hs : l.advanceFree = some l') : l'.Live strict := by
  have hrefs := h.refs
  have howned := h.owned
  have hreq := h.requests
  have hfull := h.active_le
  have hactive := h.active
  unfold advanceFree at hs
  split at hs <;> cases hs
  next hh =>
    exact { h with owned := by simpa [hh] using howned, refs := by simpa [hh] using hrefs }
  next hh =>
    exact { h with
      owned := fun n => by have := howned n; simp [hh] at this ⊢; omega
      requests := fun n => by have := hreq n; simp at this ⊢; omega
      refs := by simpa [hh] using hrefs }
  next request rest hh =>
    simp only [hh, Handle.holds, Handle.rest] at hrefs howned
    have hmem : request ∈ l.active := by
      refine count_pos_iff.1 ?_
      rw [howned, count_cons_self]
      omega
    obtain ⟨hlen, hcount⟩ := h.requestFree hmem
    refine { h with
      active := hcount
      active_le := by simp only; omega
      owned := fun n => ?_
      refs := ?_ }
    · have := howned n
      simp [XpcListener.requestFree, count_erase, count_cons] at *
      split_ifs at * <;> omega
    · simp [XpcListener.requestFree] at *
      omega
  next hh =>
    exact { h with owned := by simpa [hh] using howned, refs := by simp [hh] at hrefs ⊢; omega }

theorem Live.destroy (h : l.Live strict) (hzero : l.refs = 0) :
    { l with destroyed := true, sessions := l.sessions.map destroy : XpcListener }.Dead := by
  have hrefs := h.refs
  have hsame (f : XpcSession → ℕ) (hf : ∀ s n, f { s with freed := n } = f s) :
      total f (l.sessions.map XpcSession.destroy) = total f l.sessions := by
    rw [total, List.map_map, total]
    congr 2
    funext s
    simp only [Function.comp_apply, XpcSession.destroy]
    split_ifs
    · exact hf s _
    · rfl
  have hactive : l.active = [] := length_eq_zero_iff.1 (by omega)
  refine { h with
    connections := by rw [hsame _ fun _ _ => rfl]; exact h.connections
    sessions := by rw [hsame _ fun _ _ => rfl]; exact h.sessions
    destroyed := rfl
    still := ⟨?_, ?_, ?_⟩
    sessions_still := fun t ht => ?_ }
  · cases hh : l.handle <;> simp [hh] at hrefs ⊢ <;> omega
  · cases hh : l.listening <;> simp [hh] at hrefs ⊢
    omega
  · refine eq_nil_iff_forall_not_mem.2 fun n hn => ?_
    have hcount := h.owned n
    have hpos : 0 < l.owned.count n := count_pos_iff.2 hn
    rw [hactive, count_nil] at hcount
    omega
  · obtain ⟨s, hmem, rfl⟩ := mem_map.1 ht
    obtain ⟨i, hi⟩ := mem_iff_getElem?.1 hmem
    have hle := (total_set holds hi).1
    have hstill := (h.ok s hmem).still (by omega)
    rw [XpcSession.destroy]
    split_ifs with hlisted
    · have hnone : s.freed = 0 := by
        by_contra hne
        simp [(h.ok s hmem).unlisted (.inr hne)] at hlisted
      exact ⟨by simp [hnone], hstill⟩
    · exact ⟨(h.ok s hmem).freed_le, hstill⟩

/-- The block of a retirement starts only when no handler reads the session's state any more. -/
def retiresLast (l : XpcListener) : XpcAct → Bool
  | .lane i .retire _ => (l.sessions[i]?).all fun s => s.retire ≠ .start || s.quiet
  | _ => true

theorem Live.step {act : XpcAct} (h : l.Live strict)
    (hact : strict → l.retiresLast act = true) (hs : l.step act = some l') :
    l'.Live strict ∨ l'.Dead := by
  have hrefs := h.refs
  cases act with
  | destroy =>
    obtain ⟨hzero, hs⟩ := ite_none_right_eq_some.1 hs
    cases hs
    exact .inr (h.destroy (by simp_all))
  | connect ok =>
    refine .inl ?_
    obtain ⟨hready, hs⟩ := ite_none_right_eq_some.1 hs
    simp only [Bool.and_eq_true] at hready
    split_ifs at hs with hroom <;> cases hs
    · have h1 := h.connections
      have h2 := h.sessions
      simp only [tracks, Bool.and_eq_true, Bool.not_eq_true', Bool.or_eq_false_iff,
        decide_eq_false_iff_not, not_le] at hroom
      refine { h with
        connections := ?_
        connections_le := hroom.2.2
        sessions := ?_
        refs := ?_
        ok := forall_mem_append.2 ⟨h.ok, by simpa using .new⟩
        last := fun hstrict => forall_mem_append.2 ⟨h.last hstrict, by simp [retired, new]⟩ }
      · simp_all [total, new, tracked]
      · simp_all [total, new, seats]
      · simp [total, new, holds] at hrefs ⊢
        omega
    · exact h
  | listenerEnd =>
    obtain ⟨hready, hs⟩ := ite_none_right_eq_some.1 hs
    simp only [Bool.and_eq_true] at hready
    cases hs
    exact .inl { h with
      refs := by simp [hready.1] at *; omega }
  | event i e =>
    obtain ⟨s, hi, hs⟩ := bind_eq_some_iff.1 hs
    obtain ⟨r, hr, rfl⟩ := map_eq_some_iff.1 hs
    have hmem := mem_of_getElem? hi
    exact .inl (h.put hi (deliver_sound hmem (h.ok s hmem) hr) fun hstrict =>
      quiet_of_deliver (h.last hstrict s hmem) hr)
  | lane i lane ok =>
    obtain ⟨s, hi, hs⟩ := bind_eq_some_iff.1 hs
    obtain ⟨r, hr, rfl⟩ := map_eq_some_iff.1 hs
    have hmem := mem_of_getElem? hi
    refine .inl (h.put hi (laneStep_sound (h.ok s hmem) (h.within hi) hr) fun hstrict =>
      quiet_of_laneStep (h.last hstrict s hmem) ?_ hr)
    rintro rfl hstart
    simpa [retiresLast, hi, hstart] using hact hstrict
  | frame i j =>
    obtain ⟨-, hs⟩ := ite_none_right_eq_some.1 hs
    cases hs
    refine .inl ?_
    rw [enqueue]
    split_ifs with hfull
    · exact h
    · simp only [Bool.or_eq_true, decide_eq_true_eq, not_or, not_le] at hfull
      exact { h with
        active := by simp [h.active]
        active_le := hfull.2
        owned := fun n => by have := h.owned n; simp [count_cons] at *; omega
        requests := fun n => by
          have := h.requests n
          simp [count_singleton] at *
          split_ifs at * <;> omega
        refs := by simp at *; omega }
  | next =>
    simp only [XpcListener.step] at hs
    split at hs <;> cases hs
    next request rest hh hq =>
      exact .inl { h with
        owned := fun n => by have := h.owned n; simp only [hq, count_cons] at this ⊢; omega
        requests := fun n => by
          have := h.requests n
          simp only [hq, count_cons] at this ⊢
          omega }
  | close =>
    obtain ⟨hheld, hs⟩ := ite_none_right_eq_some.1 hs
    cases hs
    exact .inl { h with }
  | free => exact .inl (h.free hs)
  | requestFree request =>
    obtain ⟨howns, hs⟩ := ite_none_right_eq_some.1 hs
    cases hs
    have hpos := count_pos_iff.2 howns
    have hmem : request ∈ l.active := by
      have := h.owned request
      exact count_pos_iff.1 (by omega)
    obtain ⟨hlen, hcount⟩ := h.requestFree hmem
    have hactive := h.active
    have hfull := h.active_le
    exact .inl { h with
      active := hcount
      active_le := by simp only; omega
      owned := fun n => by
        have hn := h.owned n
        simp only [XpcListener.requestFree, release, count_erase, beq_iff_eq]
        split_ifs with heq
        · subst heq
          omega
        · omega
      refs := by simp [XpcListener.requestFree] at *; omega }

theorem Live.start : XpcListener.start.Live strict := by
  constructor <;> simp [XpcListener.start, total]
  constructor <;> simp [total]

end XpcListener

/-- Opens the session `i`: its bootstrap peer, its state and its anonymous listener. -/
def opened (i : ℕ) : List XpcAct :=
  [.connect true, .event i .bootstrap, .lane i .boot true, .lane i .boot true, .lane i .boot true,
    .lane i .boot true]

/-- Both the anonymous listener and the bootstrap peer of the session `i` end, which schedules its
retirement, and the block of the retirement frees the state. -/
def closing (i : ℕ) : List XpcAct :=
  [.event i .anonymousEnd, .lane i .anon true, .lane i .anon true,
    .event i .bootstrapEnd, .lane i .boot true, .lane i .boot true, .lane i .boot true,
    .lane i .retire true, .lane i .retire true, .lane i .retire true]

end Darwin
