import AbstractionIdentity.Listen.ListenerMoves
import Mathlib.Data.List.Forall2
import Mathlib.Logic.Relation

/-!
# Who owns a connection

`Listener.Owned` relates the connections to the accept loop, the shutdown and the
counter of waiting connections: a connection whose goroutine has not begun is with the
accept loop, one that was interrupted is closed or about to be, and the counter is the
number of connections that count as waiting.
-/

namespace Listen

open Transition List Option Accepted

/-- The accept loop has connection `i`. -/
def AcceptLoopPc.holds (i : ℕ) : AcceptLoopPc → Prop
  | .got j | .refuse j _ => j = i
  | _ => False

/-- The shutdown is about to close connection `i`. -/
def ShutdownPc.closes (i : ℕ) : ShutdownPc → Prop
  | .interrupting p _ => p = i
  | _ => False

/-- The invariant of a listener: each connection is sound by itself, `waiting` is the number of
those counted and within the cap, and a connection has one owner: one that was just accepted is with
the accept loop, an interrupted one is closed or with the shutdown. -/
structure Listener.Owned (s : Listener) : Prop where
  sound : ∀ (i : ℕ) (x : Accepted), s.conns[i]? = some x → x.Sound
  waiting : s.waiting = s.conns.countP fun x => x.pc.counted
  cap : s.waiting ≤ 2 * s.maxSessions
  begun : s.done = false ↔ s.shut = .idle
  accepted : ∀ (i : ℕ) (x : Accepted), s.conns[i]? = some x → x.pc = .accepted →
    s.loop.holds i
  loop : ∀ i, s.loop.holds i → ∃ x, s.conns[i]? = some x ∧ x.pc = .accepted
  interrupted : ∀ (i : ℕ) (x : Accepted), s.conns[i]? = some x → x.interrupted = true →
    x.closed = true ∨ s.shut.closes i
  closing : ∀ i, s.shut.closes i → ∃ x, s.conns[i]? = some x ∧ x.interrupted = true

theorem Listener.owned_start (maxSessions : ℕ) : (Listener.start maxSessions).Owned := by
  constructor <;> simp [start, AcceptLoopPc.holds, ShutdownPc.closes]

def Accepted.weight (x : Accepted) : ℤ := if x.pc.counted then 1 else 0

section

variable {s t : Listener} {i : ℕ} {x y : Accepted}

/-- A step on one connection that its goroutine has, and of the shutdown. -/
theorem Listener.Owned.replace (h : s.Owned) (hi : s.conns[i]? = some x)
    (hpc : x.pc ≠ .accepted) (hm : AcceptedMoved s.done x y) (hweight : y.weight ≤ x.weight)
    {shut : ShutdownPc} (hbegun : shut = .idle ↔ s.shut = .idle)
    (hy : y.interrupted = true → y.closed = true ∨ shut.closes i)
    (hi' : shut.closes i → y.interrupted = true)
    (hother : ∀ j, j ≠ i → (shut.closes j ↔ s.shut.closes j)) :
    ({ s with
        waiting := s.waiting - x.weight + y.weight
        conns := s.conns.set i y
        shut := shut } : Listener).Owned := by
  have hforward := hm.forward
  constructor
  · intro j z hz
    rcases lookup_set hz with ⟨rfl, rfl⟩ | ⟨-, hz⟩
    · exact (h.sound _ x hi).moved hm
    · exact h.sound j z hz
  · change s.waiting - x.weight + y.weight = _
    rw [countP_set_of_lookup hi, h.waiting]
    rfl
  · have hcap := h.cap
    change s.waiting - x.weight + y.weight ≤ _
    dsimp only
    omega
  · exact h.begun.trans hbegun.symm
  · intro j z hz haccepted
    rcases lookup_set hz with ⟨rfl, rfl⟩ | ⟨-, hz⟩
    · exact absurd (hforward.place haccepted) hpc
    · exact h.accepted j z hz haccepted
  · intro j hj
    obtain ⟨z, hz, haccepted⟩ := h.loop j hj
    refine ⟨z, ?_, haccepted⟩
    refine (lookup_set_iff hi).2 (.inr ⟨?_, hz⟩)
    rintro rfl
    rw [hi] at hz
    exact hpc (some.inj hz ▸ haccepted)
  · intro j z hz hz'
    rcases lookup_set hz with ⟨rfl, rfl⟩ | ⟨hj, hz⟩
    · exact hy hz'
    · exact (h.interrupted j z hz hz').imp_right (hother j hj).2
  · intro j hj
    by_cases hji : j = i
    · exact ⟨y, (lookup_set_iff hi).2 (.inl ⟨hji, rfl⟩), hi' (hji ▸ hj)⟩
    · obtain ⟨z, hz, hz'⟩ := h.closing j ((hother j hji).1 hj)
      exact ⟨z, (lookup_set_iff hi).2 (.inr ⟨hji, hz⟩), hz'⟩

theorem Listener.Owned.move (h : s.Owned) (hi : s.conns[i]? = some x)
    (hpc : x.pc ≠ .accepted) (hm : AcceptedMoved s.done x y) (hweight : y.weight ≤ x.weight)
    (hint : y.interrupted = x.interrupted) :
    ({ s with
        waiting := s.waiting - x.weight + y.weight
        conns := s.conns.set i y } : Listener).Owned := by
  refine h.replace hi hpc hm hweight Iff.rfl (fun hy => ?_) (fun hc => ?_) fun _ _ => Iff.rfl
  · exact (h.interrupted i x hi (hint ▸ hy)).imp_left hm.forward.closed
  · obtain ⟨z, hz, hz'⟩ := h.closing i hc
    rw [hi] at hz
    rw [hint, some.inj hz]
    exact hz'

theorem Listener.Owned.move_same (h : s.Owned) (hi : s.conns[i]? = some x)
    (hpc : x.pc ≠ .accepted) (hm : AcceptedMoved s.done x y)
    (hcounted : y.pc.counted = x.pc.counted) (hint : y.interrupted = x.interrupted) :
    ({ s with conns := s.conns.set i y } : Listener).Owned := by
  have hweight : y.weight = x.weight := by rw [weight, weight, hcounted]
  have howned := h.move hi hpc hm hweight.le hint
  rw [hweight, Int.sub_add_cancel] at howned
  exact howned

/-- The accept loop parts with its connection. -/
theorem Listener.Owned.part (h : s.Owned) (hi : s.conns[i]? = some x)
    (hheld : s.loop.holds i) (hm : AcceptedMoved s.done x y) (hpc : y.pc ≠ .accepted)
    (hint : y.interrupted = false) {loop : AcceptLoopPc} (hloop : ∀ j, ¬ loop.holds j)
    (hcap : s.waiting + y.weight ≤ 2 * s.maxSessions) :
    ({ s with
        waiting := s.waiting + y.weight
        conns := s.conns.set i y
        loop := loop } : Listener).Owned := by
  obtain ⟨z, hz, haccepted⟩ := h.loop i hheld
  obtain rfl : x = z := some.inj (hi.symm.trans hz)
  have hx : x = .new x.transport := by
    have hsound := h.sound i x hi
    simp only [Accepted.Sound, haccepted] at hsound
    exact hsound
  have hweight : x.weight = 0 := by rw [weight, haccepted]; rfl
  constructor
  · intro j z hz
    rcases lookup_set hz with ⟨rfl, rfl⟩ | ⟨-, hz⟩
    · exact (h.sound _ x hi).moved hm
    · exact h.sound j z hz
  · change s.waiting + y.weight = _
    rw [countP_set_of_lookup hi, h.waiting]
    change _ = _ - x.weight + y.weight
    rw [hweight]
    omega
  · exact hcap
  · exact h.begun
  · intro j z hz hz'
    rcases lookup_set hz with ⟨rfl, rfl⟩ | ⟨hj, hz⟩
    · exact absurd hz' hpc
    · have hboth := h.accepted j z hz hz'
      cases hl : s.loop <;> simp only [hl, AcceptLoopPc.holds] at hheld hboth
      · exact absurd (hboth.symm.trans hheld) hj
      · exact absurd (hboth.symm.trans hheld) hj
  · exact fun j hj => absurd hj (hloop j)
  · intro j z hz hz'
    rcases lookup_set hz with ⟨rfl, rfl⟩ | ⟨-, hz⟩
    · rw [hint] at hz'
      cases hz'
    · exact h.interrupted j z hz hz'
  · intro j hj
    obtain ⟨z, hzj, hz'⟩ := h.closing j hj
    refine ⟨z, (lookup_set_iff hi).2 (.inr ⟨?_, hzj⟩), hz'⟩
    rintro rfl
    rw [← some.inj (hi.symm.trans hzj), hx] at hz'
    cases hz'

/-- The accept loop gets a connection, which nothing else has. -/
theorem Listener.Owned.accept (h : s.Owned) (hloop : s.loop = .accepting) (transport : Transport) :
    ({ s with
        conns := s.conns ++ [.new transport]
        loop := .got s.conns.length } : Listener).Owned := by
  constructor
  · exact forall_concat h.sound (sound_new transport)
  · simp [countP_append, h.waiting, new, AcceptedPc.counted]
  · exact h.cap
  · exact h.begun
  · intro j z hz hz'
    rcases lookup_concat_iff.1 hz with ⟨rfl, -⟩ | ⟨-, hz⟩
    · exact rfl
    · have hheld := h.accepted j z hz hz'
      rw [hloop] at hheld
      cases hheld
  · rintro j ⟨rfl⟩
    exact ⟨.new transport, lookup_concat_iff.2 (.inl ⟨rfl, rfl⟩), rfl⟩
  · intro j z hz hz'
    rcases lookup_concat_iff.1 hz with ⟨-, rfl⟩ | ⟨-, hz⟩
    · cases hz'
    · exact h.interrupted j z hz hz'
  · intro j hj
    obtain ⟨z, hz, hz'⟩ := h.closing j hj
    refine ⟨z, lookup_concat_iff.2 (.inr ⟨?_, hz⟩), hz'⟩
    have := (List.getElem?_eq_some_iff.1 hz).1
    omega

theorem Listener.Owned.goto_loop (h : s.Owned) {loop : AcceptLoopPc}
    (hloop : ∀ j, loop.holds j ↔ s.loop.holds j) :
    ({ s with loop := loop } : Listener).Owned :=
  { h with
    accepted := fun i x hx hpc => (hloop i).2 (h.accepted i x hx hpc)
    loop := fun i hi => h.loop i ((hloop i).1 hi) }

theorem Listener.Owned.goto_shut (h : s.Owned) {shut : ShutdownPc}
    (hshut : ∀ j, shut.closes j ↔ s.shut.closes j) {done : Bool}
    (hdone : done = false ↔ shut = .idle) :
    ({ s with done := done, shut := shut } : Listener).Owned :=
  { h with
    begun := hdone
    interrupted := fun i x hx hi => (h.interrupted i x hx hi).imp_right (hshut i).2
    closing := fun i hi => h.closing i ((hshut i).1 hi) }

end

/-- The connections of the second list are those of the first, some of them asked to retire. -/
def Retired : List Accepted → List Accepted → Prop :=
  List.Forall₂ fun x y => y = x ∨ x.registered = true ∧ y = x.retire

theorem Retired.refl (l : List Accepted) : Retired l l := forall₂_same.2 fun _ _ => .inl rfl

variable {i : ℕ} {l l' : List Accepted}

theorem Retired.trans {l'' : List Accepted} (h : Retired l l') (h' : Retired l' l'') :
    Retired l l'' := by
  induction h generalizing l'' with
  | nil => exact h'
  | cons hx _ ih =>
    obtain ⟨z, l'', hz, hl, rfl⟩ := forall₂_cons_left_iff.1 h'
    refine .cons ?_ (ih hl)
    rcases hx with rfl | ⟨hregistered, rfl⟩
    · exact hz
    · refine .inr ⟨hregistered, ?_⟩
      rcases hz with rfl | ⟨-, rfl⟩ <;> rfl

theorem Retired.set {x : Accepted} (hi : l[i]? = some x)
    (hregistered : x.registered = true) : Retired l (l.set i x.retire) := by
  induction l generalizing i with
  | nil => simp at hi
  | cons z l ih =>
    cases i with
    | zero =>
      obtain rfl : z = x := by simpa using hi
      exact .cons (.inr ⟨hregistered, rfl⟩) (Retired.refl l)
    | succ i => exact .cons (.inl rfl) (ih (by simpa using hi))

theorem Retired.lookup (h : Retired l l') {y : Accepted} (hy : l'[i]? = some y) :
    ∃ x, l[i]? = some x ∧ (y = x ∨ x.registered = true ∧ y = x.retire) := by
  induction h generalizing i with
  | nil => simp at hy
  | cons hx _ ih =>
    cases i with
    | zero =>
      cases hy
      exact ⟨_, rfl, hx⟩
    | succ i => exact ih (by simpa using hy)

theorem Retired.lookup_left (h : Retired l l') {x : Accepted} (hx : l[i]? = some x) :
    ∃ y, l'[i]? = some y ∧ (y = x ∨ x.registered = true ∧ y = x.retire) := by
  induction h generalizing i with
  | nil => simp at hx
  | cons hy _ ih =>
    cases i with
    | zero =>
      cases hx
      exact ⟨_, rfl, hy⟩
    | succ i => exact ih (by simpa using hx)

theorem Retired.countP (h : Retired l l') :
    (l'.countP fun x => x.pc.counted) = l.countP fun x => x.pc.counted := by
  induction h with
  | nil => rfl
  | cons hx _ ih =>
    rw [countP_cons, countP_cons, ih]
    rcases hx with rfl | ⟨-, rfl⟩ <;> rfl

theorem retired_retireIdle (order : List ℕ) (l : List Accepted) :
    Retired l (retireIdle l order).1 := by
  induction order generalizing l with
  | nil => exact Retired.refl l
  | cons j order ih =>
    rw [retireIdle]
    cases hj : l[j]? with
    | none => exact ih l
    | some x =>
      dsimp only
      split_ifs with hregistered hresting
      · exact Retired.set hj hregistered
      · exact (Retired.set hj hregistered).trans (ih _)
      · exact ih l

theorem retired_map (l : List Accepted) :
    Retired l (l.map fun x => if x.registered then x.retire else x) := by
  refine forall₂_map_right_iff.2 (forall₂_same.2 fun x _ => ?_)
  split_ifs with hregistered
  · exact .inr ⟨hregistered, rfl⟩
  · exact .inl rfl

theorem Listener.Owned.retired {s : Listener} (h : s.Owned)
    (hr : Retired s.conns l) : ({ s with conns := l } : Listener).Owned := by
  constructor
  · intro i y hy
    obtain ⟨x, hx, rfl | ⟨hregistered, rfl⟩⟩ := hr.lookup hy
    · exact h.sound i _ hx
    · have hm : AcceptedMoved s.done x x.retire := .retire hregistered
      exact (h.sound i x hx).moved hm
  · exact h.waiting.trans (congrArg _ hr.countP.symm)
  · exact h.cap
  · exact h.begun
  · intro i y hy hpc
    obtain ⟨x, hx, rfl | ⟨-, rfl⟩⟩ := hr.lookup hy
    · exact h.accepted i _ hx hpc
    · exact h.accepted i x hx hpc
  · intro i hi
    obtain ⟨x, hx, hpc⟩ := h.loop i hi
    obtain ⟨y, hy, rfl | ⟨-, rfl⟩⟩ := hr.lookup_left hx
    · exact ⟨_, hy, hpc⟩
    · exact ⟨_, hy, hpc⟩
  · intro i y hy hint
    obtain ⟨x, hx, rfl | ⟨-, rfl⟩⟩ := hr.lookup hy
    · exact h.interrupted i _ hx hint
    · exact h.interrupted i x hx hint
  · intro i hi
    obtain ⟨x, hx, hint⟩ := h.closing i hi
    obtain ⟨y, hy, rfl | ⟨-, rfl⟩⟩ := hr.lookup_left hx
    · exact ⟨_, hy, hint⟩
    · exact ⟨_, hy, hint⟩

/-- Each connection of `l'` comes from the one of `l` by steps that concern it. -/
def Evolved (done : Bool) (l l' : List Accepted) : Prop :=
  ∀ (i : ℕ) (y : Accepted), l'[i]? = some y →
    ∃ x, l[i]? = some x ∧ Relation.ReflTransGen (AcceptedMoved done) x y

theorem Evolved.refl (done : Bool) (l : List Accepted) : Evolved done l l :=
  fun _ y hy => ⟨y, hy, .refl⟩

section

variable {done : Bool} {l l' l'' : List Accepted} {i : ℕ} {x y : Accepted}

theorem Evolved.trans (h : Evolved done l l') (h' : Evolved done l' l'') : Evolved done l l'' := by
  intro i z hz
  obtain ⟨y, hy, hyz⟩ := h' i z hz
  obtain ⟨x, hx, hxy⟩ := h i y hy
  exact ⟨x, hx, hxy.trans hyz⟩

theorem Evolved.set (hi : l[i]? = some x) (hm : AcceptedMoved done x y) :
    Evolved done l (l.set i y) := by
  intro j z hz
  rcases lookup_set hz with ⟨rfl, rfl⟩ | ⟨-, hz⟩
  · exact ⟨x, hi, .single hm⟩
  · exact ⟨z, hz, .refl⟩

theorem Retired.evolved (h : Retired l l') : Evolved done l l' := by
  intro i y hy
  obtain ⟨x, hx, rfl | ⟨hregistered, rfl⟩⟩ := h.lookup hy
  · exact ⟨_, hx, .refl⟩
  · exact ⟨x, hx, .single (.retire hregistered)⟩

end

/-- Each `Close` after a step has just begun, made the step, or is where it was. -/
def Listener.Closers (s t : Listener) : Prop :=
  ∀ (k : ℕ) (pc : DrainPc), t.closers[k]? = some pc → pc = .shutdown ∨
    ∃ pc', s.closers[k]? = some pc' ∧ (pc = pc' ∨ ∃ i, s.drainStep i pc' = some pc)

theorem Listener.closers_of_eq {s t : Listener} (h : t.closers = s.closers) : s.Closers t :=
  fun _ pc hk => .inr ⟨pc, h ▸ hk, .inl rfl⟩

/-- What the goroutines can rely on: a closed listener, a finished shutdown and an accept
loop that returned stay so, and only the accept loop brings new connections. -/
structure Listener.Evolves (s t : Listener) : Prop where
  maxSessions : t.maxSessions = s.maxSessions
  closers : s.Closers t
  done : s.done = true → t.done = true
  shut : s.shut = .finished → t.shut = .finished
  loop : s.loop = .ended → t.loop = .ended
  conns : s.loop ≠ .accepting → Evolved s.done s.conns t.conns

section

variable {s t : Listener} {i : ℕ} {x y : Accepted}

theorem Listener.Owned.not_accepted (h : s.Owned) (hi : s.conns[i]? = some x)
    (hx : x ≠ .new x.transport) : x.pc ≠ .accepted := by
  intro hpc
  have hsound := h.sound i x hi
  simp only [Accepted.Sound, hpc] at hsound
  exact hx hsound

theorem Accepted.Effect.weight {done : Bool} (h : x.Effect done y) :
    (if x.pc.uncounts then 1 else 0 : ℤ) = x.weight - y.weight := by
  rw [Accepted.weight, Accepted.weight, h.counted]
  cases x.pc with
  | release counted | deliver counted | offer counted | discard counted =>
    cases counted <;> rfl
  | _ => rfl

theorem Listener.Owned.serve (h : s.Owned) {f : Finding}
    (hstep : listenerStep s (.serve i f) = some t) : t.Owned ∧ s.Evolves t := by
  obtain ⟨x, hi, hstep⟩ := bind_eq_some_iff.1 hstep
  obtain ⟨y, hm, rfl⟩ := map_eq_some_iff.1 hstep
  have heffect := effect_of_next hm
  have hpc : x.pc ≠ .accepted := by
    intro hpc
    simp [Accepted.next, hpc] at hm
  have hle : y.weight ≤ x.weight := by
    have hpos : (0 : ℤ) ≤ if x.pc.uncounts then 1 else 0 := by split_ifs <;> simp
    rw [heffect.weight] at hpos
    omega
  have howned := h.move hi hpc (.serve f hm) hle heffect.interrupted
  rw [heffect.weight, ← sub_add]
  exact ⟨howned, rfl, closers_of_eq rfl, id, id, id, fun _ => .set hi (.serve f hm)⟩

theorem Accepted.take_same (hm : x.take = some y) :
    x.pc ≠ .accepted ∧ y.pc.counted = x.pc.counted ∧ y.interrupted = x.interrupted := by
  cases hpc : x.pc with
  | offer counted =>
    simp only [take, hpc, some.injEq] at hm
    rw [← hm]
    cases counted <;> exact ⟨by simp, rfl, rfl⟩
  | callOffer =>
    simp only [take, hpc, some.injEq] at hm
    rw [← hm]
    exact ⟨by simp, rfl, rfl⟩
  | _ => simp [take, hpc] at hm

theorem Listener.Owned.take (h : s.Owned) (hstep : listenerStep s (.take i) = some t) :
    t.Owned ∧ s.Evolves t := by
  obtain ⟨x, hi, hstep⟩ := bind_eq_some_iff.1 hstep
  obtain ⟨y, hm, rfl⟩ := map_eq_some_iff.1 hstep
  obtain ⟨hpc, hcounted, hint⟩ := take_same hm
  exact ⟨h.move_same hi hpc (.take hm) hcounted hint, rfl, closers_of_eq rfl, id, id, id,
    fun _ => .set hi (.take hm)⟩

theorem Listener.Owned.caller (h : s.Owned) (hstep : listenerStep s (.caller i) = some t) :
    t.Owned ∧ s.Evolves t := by
  obtain ⟨x, hi, hstep⟩ := bind_eq_some_iff.1 hstep
  obtain ⟨y, hm, rfl⟩ := map_eq_some_iff.1 hstep
  obtain ⟨hf, hcall, hint⟩ := foreign_of_callClose hm
  have hpc : x.pc ≠ .accepted := by
    refine h.not_accepted hi fun hx => hcall ?_
    rw [hx]
    rfl
  exact ⟨h.move_same hi hpc (.caller hm) (by rw [hf.pc]) hint, rfl, closers_of_eq rfl, id, id, id,
    fun _ => .set hi (.caller hm)⟩

theorem Listener.Owned.admission (h : s.Owned) {order : List ℕ}
    (hstep : listenerStep s (.admission i order) = some t) : t.Owned ∧ s.Evolves t := by
  -- what the walk over the sessions did before the place of the connection changes
  obtain ⟨l, ok, hl, hr⟩ : ∃ l ok, (if (s.indices registered).length < s.maxSessions
      then (s.conns, true) else retireIdle s.conns order) = (l, ok) ∧ Retired s.conns l := by
    split_ifs
    · exact ⟨_, _, rfl, Retired.refl _⟩
    · exact ⟨_, _, rfl, retired_retireIdle order s.conns⟩
  simp only [listenerStep, admitSession, hl] at hstep
  obtain ⟨x, hi, hstep⟩ := bind_eq_some_iff.1 hstep
  have howned := h.retired hr
  split_ifs at hstep with hpc hadmitted
  · cases hstep
    have hopen : s.done = false := by simpa using (Bool.and_eq_true_iff.1 hadmitted).2
    have hm : AcceptedMoved s.done x { x with registered := true, pc := .adopt } :=
      .admitted hpc hopen
    exact ⟨howned.move_same hi (by simp [hpc]) hm (by rw [hpc]; rfl) rfl, rfl, closers_of_eq rfl,
      id, id, id, fun _ => hr.evolved.trans (.set hi hm)⟩
  · cases hstep
    have hm : AcceptedMoved s.done x { x with pc := .decline } := .declined hpc
    exact ⟨howned.move_same hi (by simp [hpc]) hm (by rw [hpc]; rfl) rfl, rfl, closers_of_eq rfl,
      id, id, id, fun _ => hr.evolved.trans (.set hi hm)⟩

theorem Listener.Owned.held (h : s.Owned) (hheld : s.loop.holds i)
    (hi : s.conns[i]? = some x) : x.pc = .accepted ∧ x = .new x.transport := by
  obtain ⟨z, hz, hpc⟩ := h.loop i hheld
  obtain rfl : x = z := some.inj (hi.symm.trans hz)
  have hsound := h.sound i x hi
  simp only [Accepted.Sound, hpc] at hsound
  exact ⟨hpc, hsound⟩

theorem Listener.Owned.loopStep (h : s.Owned) (hstep : s.loopStep = some t) :
    t.Owned ∧ s.Evolves t := by
  have hgoto : ∀ loop : AcceptLoopPc, s.loop ≠ .ended → (∀ j, loop.holds j ↔ s.loop.holds j) →
      ({ s with loop := loop } : Listener).Owned ∧ s.Evolves { s with loop := loop } :=
    fun loop hne hloop => ⟨h.goto_loop hloop, rfl, closers_of_eq rfl, id, id, fun h => absurd h hne,
      fun _ => .refl _ _⟩
  cases hl : s.loop with
    simp only [Listener.loopStep, hl, reduceCtorEq] at hstep
  | got i =>
    obtain ⟨x, hi, hstep⟩ := bind_eq_some_iff.1 hstep
    split_ifs at hstep with hdone hfull
    · cases hstep
      exact hgoto _ (by simp [hl]) fun j => by rw [hl]; exact Iff.rfl
    · cases hstep
      exact hgoto _ (by simp [hl]) fun j => by rw [hl]; exact Iff.rfl
    · cases hstep
      have hheld : s.loop.holds i := by rw [hl]; rfl
      obtain ⟨hpc, hnew⟩ := h.held hheld hi
      have hm : AcceptedMoved s.done x { x with owned := true, listed := true, pc := .start } :=
        .begin hpc (by simpa using hdone)
      refine ⟨h.part hi hheld hm (by simp) (by rw [hnew]; rfl) (fun _ => id) ?_, rfl,
        closers_of_eq rfl, id, id, fun h => ?_, fun _ => .set hi hm⟩
      · change s.waiting + 1 ≤ _
        omega
      · rw [hl] at h
        cases h
  | refuse i stop =>
    obtain ⟨x, hi, hstep⟩ := bind_eq_some_iff.1 hstep
    cases hstep
    have hheld : s.loop.holds i := by rw [hl]; rfl
    obtain ⟨hpc, hnew⟩ := h.held hheld hi
    have hm : AcceptedMoved s.done x { x with closed := true, pc := .ended } := .refuse hpc
    have hweight : ({ x with closed := true, pc := .ended } : Accepted).weight = 0 := rfl
    have hloop : ∀ j, ¬ (if stop then AcceptLoopPc.ended else .accepting).holds j := by
      cases stop <;> exact fun _ => id
    have howned := h.part hi hheld hm (by simp) (by rw [hnew]; rfl) hloop
      (by rw [hweight, add_zero]; exact h.cap)
    rw [hweight, add_zero] at howned
    refine ⟨howned, rfl, closers_of_eq rfl, id, id, fun h => ?_, fun _ => .set hi hm⟩
    rw [hl] at h
    cases h
  | failed =>
    cases hstep
    exact hgoto _ (by simp [hl]) fun j => by rw [hl]; exact Iff.rfl
  | stopping =>
    split_ifs at hstep
    cases hstep
    exact hgoto _ (by simp [hl]) fun j => by rw [hl]; exact Iff.rfl

theorem Listener.Owned.shut_conn (h : s.Owned) (hi : s.conns[i]? = some x)
    (hpc : x.pc ≠ .accepted) (hm : AcceptedMoved s.done x y) (hplace : y.pc = x.pc)
    {shut : ShutdownPc} (hidle : s.shut ≠ .idle) (hidle' : shut ≠ .idle)
    (hint : y.interrupted = true) (hy : y.closed = true ∨ shut.closes i)
    (hother : ∀ j, j ≠ i → ¬ shut.closes j ∧ ¬ s.shut.closes j) :
    ({ s with conns := s.conns.set i y, shut := shut } : Listener).Owned := by
  have hweight : y.weight = x.weight := by rw [weight, weight, hplace]
  have howned := h.replace hi hpc hm hweight.le (iff_of_false hidle' hidle) (fun _ => hy)
    (fun _ => hint) fun j hj => iff_of_false (hother j hj).1 (hother j hj).2
  rw [hweight, Int.sub_add_cancel] at howned
  exact howned

theorem Listener.Owned.shutdownStep (h : s.Owned) {p : ℕ}
    (hstep : s.shutdownStep p = some t) : t.Owned ∧ s.Evolves t := by
  have hdone : s.shut ≠ .idle → s.done = true := by
    intro hne
    by_contra hopen
    exact hne (h.begun.1 (by simpa using hopen))
  -- a step that interrupts and closes nothing
  have hgoto : ∀ {l : List Accepted} {shut : ShutdownPc}, Retired s.conns l → s.shut ≠ .idle →
      s.shut ≠ .finished → shut ≠ .idle → (∀ j, shut.closes j ↔ s.shut.closes j) →
      ({ s with conns := l, shut := shut } : Listener).Owned ∧
        s.Evolves { s with conns := l, shut := shut } := by
    intro l shut hr hidle hfinished hidle' hshut
    refine ⟨(h.retired hr).goto_shut hshut ?_, rfl, closers_of_eq rfl, id,
      fun h => absurd h hfinished, id,
      fun _ => hr.evolved⟩
    simp [hdone hidle, hidle']
  cases hs : s.shut with
    simp only [Listener.shutdownStep, hs, reduceCtorEq] at hstep
  | idle =>
    split_ifs at hstep
    cases hstep
    refine ⟨h.goto_shut (fun j => ?_) (by simp), rfl, closers_of_eq rfl, fun _ => rfl,
      fun h => ?_, id,
      fun _ => .refl _ _⟩
    · rw [hs]
      exact Iff.rfl
    · rw [hs] at h
      cases h
  | inner =>
    cases hstep
    refine hgoto (.refl _) (by simp [hs]) (by simp [hs]) (by simp) fun j => ?_
    rw [hs]
    exact Iff.rfl
  | snapshot =>
    cases hstep
    refine hgoto (retired_map _) (by simp [hs]) (by simp [hs]) (by simp) fun j => ?_
    rw [hs]
    exact Iff.rfl
  | interrupts ps =>
    cases ps with
    | nil =>
      simp only at hstep
      cases hstep
      refine hgoto (.refl _) (by simp [hs]) (by simp [hs]) (by simp) fun j => ?_
      rw [hs]
      exact Iff.rfl
    | cons q ps =>
      simp only at hstep
      split_ifs at hstep
      obtain ⟨x, hi, hstep⟩ := bind_eq_some_iff.1 hstep
      split_ifs at hstep with hskip
      · cases hstep
        refine hgoto (.refl _) (by simp [hs]) (by simp [hs]) (by simp) fun j => ?_
        rw [hs]
        exact Iff.rfl
      · cases hstep
        obtain ⟨howned, hnot⟩ : x.owned = true ∧ x.interrupted = false := by
          simpa using hskip
        have hm : AcceptedMoved s.done x { x with interrupted := true } := .interrupt howned hnot
        have hpc : x.pc ≠ .accepted := by
          refine h.not_accepted hi fun hx => ?_
          rw [hx] at howned
          cases howned
        refine ⟨h.shut_conn hi hpc hm rfl (by simp [hs]) (by simp) rfl (.inr rfl) ?_, rfl,
          closers_of_eq rfl, id, fun h => ?_, id, fun _ => .set hi hm⟩
        · intro j hj
          rw [hs]
          exact ⟨Ne.symm hj, id⟩
        · rw [hs] at h
          cases h
  | interrupting p ps =>
    obtain ⟨x, hi, hstep⟩ := bind_eq_some_iff.1 hstep
    cases hstep
    obtain ⟨z, hz, hint⟩ := h.closing p (by rw [hs]; rfl)
    obtain rfl : x = z := some.inj (hi.symm.trans hz)
    have hm : AcceptedMoved s.done x { x with closed := true } := .close hint
    have hpc : x.pc ≠ .accepted := by
      refine h.not_accepted hi fun hx => ?_
      rw [hx] at hint
      cases hint
    refine ⟨h.shut_conn hi hpc hm rfl (by simp [hs]) (by simp) hint (.inl rfl) ?_, rfl,
      closers_of_eq rfl, id, fun h => ?_, id, fun _ => .set hi hm⟩
    · intro j hj
      rw [hs]
      exact ⟨id, Ne.symm hj⟩
    · rw [hs] at h
      cases h

/-- Every step keeps the owners and brings nothing the goroutines cannot rely on. -/
theorem Listener.Owned.step (h : s.Owned) {act : ListenerAct}
    (hstep : listenerStep s act = some t) : t.Owned ∧ s.Evolves t := by
  cases act with
  | accept transport =>
    simp only [listenerStep] at hstep
    split_ifs at hstep with hloop
    cases hstep
    refine ⟨h.accept hloop transport, rfl, closers_of_eq rfl, id, id, fun h => ?_,
      fun h => absurd hloop h⟩
    rw [hloop] at h
    cases h
  | acceptFails =>
    simp only [listenerStep] at hstep
    split_ifs at hstep with hloop
    cases hstep
    refine ⟨h.goto_loop fun j => ?_, rfl, closers_of_eq rfl, id, id, fun h => ?_,
      fun h => absurd hloop h⟩
    · rw [hloop]
      exact Iff.rfl
    · rw [hloop] at h
      cases h
  | loop => exact h.loopStep hstep
  | shutdown p => exact h.shutdownStep hstep
  | serve i f => exact h.serve hstep
  | admission i order => exact h.admission hstep
  | take i => exact h.take hstep
  | caller i => exact h.caller hstep
  | close =>
    cases hstep
    refine ⟨{ h with }, rfl, fun k pc hk => ?_, id, id, id, fun _ => .refl _ _⟩
    rcases lookup_concat_iff.1 hk with ⟨-, rfl⟩ | ⟨-, hk⟩
    · exact .inl rfl
    · exact .inr ⟨pc, hk, .inl rfl⟩
  | closer k i =>
    obtain ⟨pc, hpc, hstep⟩ := bind_eq_some_iff.1 hstep
    obtain ⟨pc', hpc', rfl⟩ := map_eq_some_iff.1 hstep
    refine ⟨{ h with }, rfl, fun j pc hj => ?_, id, id, id, fun _ => .refl _ _⟩
    rcases lookup_set hj with ⟨rfl, rfl⟩ | ⟨-, hj⟩
    · exact .inr ⟨_, hpc, .inr ⟨i, hpc'⟩⟩
    · exact .inr ⟨pc, hj, .inl rfl⟩

end

end Listen
