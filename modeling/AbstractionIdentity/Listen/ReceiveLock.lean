import AbstractionIdentity.Listen.ReceiveMoves
import AbstractionIdentity.Transition.Latch

/-!
# The lock of a call

`Receive.Closes`: once `ReceiveFramed` or the callback has closed the call and given the lock back,
the connection is closed and so is the binding the call has.
-/

namespace Listen

open Text Stream Transition Latch

def ClosePc.role : ClosePc → Role
  | .lock => .out
  | .conn | .drain | .binding => .closing
  | .done => .gone

def ReceivePc.role : ReceivePc → Role
  | .binding _ | .checking _ => .inside
  | .closing c _ => c.role
  | .release _ | .returned none _ => .gone
  | _ => .out

def Receive.role (s : Receive) : Party → Role
  | .receiver => s.pc.role
  | .callback => s.callback.elim .out ClosePc.role

def Receive.Shut (s : Receive) : Prop := s.connClosed = true ∧ (s.owned = true → s.released = true)

structure Receive.Closes (s : Receive) : Prop where
  latch : Latched s.mu (s.closed = true) s.Shut s.role
  conn : (∃ result, s.pc = .closing .binding result) ∨ s.callback = some .binding →
    s.connClosed = true

theorem Receive.closes_start (kind : ConnKind) (limit : ℕ) (now : ℤ) (ctxDone : Bool) :
    (Receive.start kind limit now ctxDone).Closes := by
  have hrole : ∀ p, (Receive.start kind limit now ctxDone).role p = .out := by
    intro p
    cases p <;> rfl
  constructor
  · constructor
    · intro p
      rw [hrole]
      simp [start, Role.holds]
    · intro p hp
      cases (hrole p).symm.trans hp
    · intro p hp
      cases (hrole p).symm.trans hp
    · intro hclosed
      cases hclosed
    · intro p hp
      cases (hrole p).symm.trans hp
  · simp [start]

section

variable {s t u : Receive}

theorem Receive.role_of_callback (p : Party) (hp : p ≠ .receiver)
    (h : t.callback = s.callback) : t.role p = s.role p := by
  cases p with
  | receiver => exact absurd rfl hp
  | callback => simp only [role, h]

theorem Receive.role_of_pc (p : Party) (hp : p ≠ .callback) (h : t.pc = s.pc) :
    t.role p = s.role p := by
  cases p with
  | receiver => simp only [role, h]
  | callback => exact absurd rfl hp

theorem Receive.Closes.out (h : s.Closes) (hs : s.pc.role = .out) (ht : t.pc.role = .out)
    (hsame : s.Steady t) : t.Closes := by
  have hrole : ∀ p, t.role p = s.role p := by
    intro p
    cases p with
    | receiver => exact ht.trans hs.symm
    | callback => simp only [role, hsame.callback]
  constructor
  · rw [hsame.mu, hsame.closed]
    refine h.latch.stay hrole fun _ _ hshut => ?_
    simpa only [Shut, hsame.connClosed, hsame.owned, hsame.released] using hshut
  · rintro (⟨result, hpc⟩ | hcallback)
    · rw [hpc] at ht
      cases ht
    · rw [hsame.connClosed]
      exact h.conn (.inr (hsame.callback ▸ hcallback))

variable {c d : ClosePc} {p : Party}

theorem Receive.Closes.latch_close (h : s.Closes)
    (hm : s.CloseMoved p c u d) (hc : s.role p = c.role)
    (hconn : c = .binding → s.connClosed = true)
    (hmu : t.mu = u.mu) (hclosed : t.closed = u.closed) (hshut : u.Shut → t.Shut)
    (hother : ∀ q, q ≠ p → t.role q = s.role q) (hp : t.role p = d.role) :
    Latched t.mu (t.closed = true) t.Shut t.role := by
  rw [hmu, hclosed]
  have hstay : c.role = .closing → d.role = .closing → ∀ q, t.role q = s.role q := by
    intro hc' hd q
    by_cases hq : q = p
    · rw [hq, hp, hc, hc', hd]
    · exact hother q hq
  cases hm with
  | already hfree hdone =>
    have hlatch := h.latch.already hother hfree hdone hp
    exact hlatch.stay (fun _ => rfl) fun _ _ => hshut
  | lock hfree hopen => exact h.latch.close hother hfree (by simp [hopen]) rfl hp
  | conn => exact h.latch.stay (hstay rfl rfl) fun _ _ => hshut
  | drain hidle =>
    exact h.latch.stay (hstay rfl rfl) fun _ _ hs => hshut ⟨rfl, hs.2⟩
  | binding =>
    refine h.latch.finish hother hc (hshut ⟨hconn rfl, fun howned => ?_⟩) hp
    have howned : s.owned = true := howned
    simp [howned]

theorem Receive.CloseMoved.connClosed (hm : s.CloseMoved p c u d)
    (h : s.connClosed = true ∨ d = .binding) : u.connClosed = true := by
  cases hm with
  | drain => rfl
  | _ => simpa using h

theorem Receive.CloseMoved.same_pc (hm : s.CloseMoved p c u d) : u.pc = s.pc := by
  cases hm <;> rfl

theorem Receive.CloseMoved.same_callback (hm : s.CloseMoved p c u d) : u.callback = s.callback := by
  cases hm <;> rfl

theorem Receive.Closes.callback_close (h : s.Closes)
    (hc : s.callback = some c) (hm : s.CloseMoved .callback c u d) :
    ({ u with callback := some d } : Receive).Closes where
  latch := h.latch_close hm (by simp [role, hc])
    (fun hbinding => h.conn (.inr (hbinding ▸ hc))) rfl rfl id
    (fun q hq => role_of_pc q hq hm.same_pc) rfl
  conn := by
    rintro (⟨result, hpc⟩ | hd)
    · have hpc : u.pc = .closing .binding result := hpc
      exact hm.connClosed (.inl (h.conn (.inl ⟨result, hm.same_pc ▸ hpc⟩)))
    · exact hm.connClosed (.inr (Option.some.inj hd))

theorem Receive.Closes.receiver_close (h : s.Closes) {result : RecvErr}
    (hpc : s.pc = .closing c result) (hm : s.CloseMoved .receiver c u d) :
    ({ u with pc := .closing d result } : Receive).Closes where
  latch := h.latch_close hm (by simp [role, hpc, ReceivePc.role])
    (fun hbinding => h.conn (.inl ⟨result, hbinding ▸ hpc⟩)) rfl rfl id
    (fun q hq => role_of_callback q hq hm.same_callback) rfl
  conn := by
    rintro (⟨_, hd⟩ | hcallback)
    · simp only [ReceivePc.closing.injEq] at hd
      exact hm.connClosed (.inr hd.1)
    · have hcallback : u.callback = some .binding := hcallback
      exact hm.connClosed (.inl (h.conn (.inr (hm.same_callback ▸ hcallback))))

theorem Receive.Closes.conn_of (h : s.Closes) (hcallback : t.callback = s.callback)
    (hconn : t.connClosed = s.connClosed) (hpc : ∀ result, t.pc ≠ .closing .binding result) :
    (∃ result, t.pc = .closing .binding result) ∨ t.callback = some .binding →
      t.connClosed = true := by
  rintro (⟨result, hclosing⟩ | hbinding)
  · exact absurd hclosing (hpc result)
  · rw [hconn]
    exact h.conn (.inr (hcallback ▸ hbinding))

theorem ReceivePc.role_of_quiet {pc : ReceivePc} (h : pc.quiet = true) : pc.role = .out := by
  cases pc with
  | binding | checking | closing | release => cases h
  | returned call err => cases h
  | _ => rfl

theorem Receive.Closes.moved (h : s.Closes) {b : Bool} (hm : ReceiveMoved s b t) : t.Closes := by
  cases hm with
  | tick d => exact ⟨h.latch, h.conn⟩
  | cancel => exact ⟨h.latch, h.conn⟩
  | startCallback hdone hidle =>
    refine ⟨h.latch.stay (fun p => ?_) fun _ _ => id, ?_⟩
    · cases p with
      | receiver => rfl
      | callback => simp [role, hidle, ClosePc.role]
    · rintro (hpc | hcallback)
      · exact h.conn (.inl hpc)
      · cases hcallback
  | callback hc hclose => exact h.callback_close hc hclose
  | quiet hq hquiet =>
    refine h.out (ReceivePc.role_of_quiet hq) ?_ hquiet.toSteady
    rcases hquiet.place with hq | ⟨err, hpc⟩
    · exact ReceivePc.role_of_quiet hq
    · rw [hpc]
      rfl
  | @keep frame hpc hmu hopen =>
    refine ⟨h.latch.stay (fun p => ?_) fun hclosed => ?_, h.conn_of rfl rfl (by simp)⟩
    · cases p with
      | receiver => simp [role, hpc, ReceivePc.role]
      | callback => rfl
    · rw [hopen] at hclosed
      cases hclosed
  | @lock n hpc hmu hopen =>
    refine ⟨Latched.enter ?_ h.latch hmu (by simp [hopen]) rfl, h.conn_of rfl rfl (by simp)⟩
    exact fun q hq => role_of_callback q hq rfl
  | @bound n hpc =>
    have hopen := h.latch.inside .receiver (by simp [role, hpc, ReceivePc.role])
    refine ⟨h.latch.stay (fun p => ?_) fun hclosed => absurd hclosed hopen,
      h.conn_of rfl rfl (by simp)⟩
    cases p with
    | receiver => simp [role, hpc, ReceivePc.role]
    | callback => rfl
  | @unbound n hpc err =>
    refine ⟨Latched.leave ?_ h.latch (p := .receiver) ?_ rfl, h.conn_of rfl rfl ?_⟩
    · exact fun q hq => role_of_callback q hq rfl
    · simp [role, hpc, ReceivePc.role]
    · simp [failAt]
  | @checked n hpc =>
    refine ⟨Latched.leave ?_ h.latch (p := .receiver) ?_ rfl, h.conn_of rfl rfl (by simp)⟩
    · exact fun q hq => role_of_callback q hq rfl
    · simp [role, hpc, ReceivePc.role]
  | @unchecked n hpc err =>
    refine ⟨Latched.leave ?_ h.latch (p := .receiver) ?_ rfl, h.conn_of rfl rfl ?_⟩
    · exact fun q hq => role_of_callback q hq rfl
    · simp [role, hpc, ReceivePc.role]
    · simp [failAt]
  | returned hpc =>
    refine h.out ?_ rfl { Same.refl s with }
    rcases hpc with hpc | hpc <;> rw [hpc] <;> rfl
  | fail hpc late => exact h.out (by rw [hpc]; rfl) rfl { Same.refl s with }
  | refuse hpc => exact h.out (by rw [hpc]; rfl) rfl { Same.refl s with }
  | refused hpc => exact h.out (by rw [hpc]; rfl) rfl { Same.refl s with }
  | closing hpc hclose => exact h.receiver_close hpc hclose
  | @closed result hpc =>
    refine ⟨h.latch.stay (fun p => ?_) fun _ _ => id, h.conn_of rfl rfl ?_⟩
    · cases p with
      | receiver =>
        simp only [role, hpc]
        split_ifs <;> rfl
      | callback => rfl
    · intro r
      dsimp only
      split_ifs <;> simp
  | @release result hpc =>
    refine ⟨h.latch.stay (fun p => ?_) fun _ _ hshut => ?_, h.conn_of rfl rfl (by simp)⟩
    · cases p with
      | receiver => simp [role, hpc, ReceivePc.role]
      | callback => rfl
    · exact ⟨hshut.1, fun howned => by simp [hshut.2 howned]⟩

theorem Receive.Closes.shut_of_returned (h : s.Closes) {err : Option RecvErr}
    (hpc : s.pc = .returned none err) : s.Shut := by
  obtain ⟨hclosed, hmu⟩ := h.latch.gone .receiver (by simp only [role, hpc]; rfl)
  exact h.latch.rest hclosed hmu

end

end Listen
