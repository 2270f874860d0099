import AbstractionIdentity.Listen.ConnLedger
import AbstractionIdentity.Transition.Table
import Mathlib.Data.List.Nodup
import Mathlib.Data.List.Perm.Subperm

/-!
# At most one dispatch for a call

`System.Ledger` says that of the requests of a call all but one are dead, and that a call which
looks for a connection has none left that could be dispatched (`Settled`). Every step that meets
`resendSafe` keeps this. The condition concerns the empty frame, whose request is complete with its
header: a client that cannot read the answer to the opening sends it again
(`failed_check_dispatches_twice`).
-/

namespace Listen

open Text Stream Transition List

def System.Has (s : System) (k : ℕ) (y : CallSlot) : Prop :=
  match y.conn with
  | some c => ∃ x, s.conns[c]? = some x ∧ x.holder = .call k ∧ x.Held k y.call
  | none => y.call.pc.free = true

/-- All requests of the call but the last one are dead, and that one is too if the
call looks for another connection. -/
def System.Settled (s : System) (k : ℕ) (y : CallSlot) : Prop :=
  ∃ e : ℕ × ℕ,
    (∀ (c : ℕ) (x : Conn) (i : ℕ) (r : Request), s.conns[c]? = some x →
      x.uses[i]? = some (k, r) → x.Dead i ∨ (c, i) = e ∧ y.call.pc.between = false) ∧
    ∀ (c : ℕ) (x : Conn), y.conn = some c → s.conns[c]? = some x →
      e = (c, x.uses.length - 1)

structure System.Ledger (s : System) : Prop where
  conns : ∀ (c : ℕ) (x : Conn), s.conns[c]? = some x → x.Ledger
  calls : ∀ (k : ℕ) (y : CallSlot), s.calls[k]? = some y → s.Has k y
  uses : ∀ (c : ℕ) (x : Conn) (i k : ℕ) (r : Request), s.conns[c]? = some x →
    x.uses[i]? = some (k, r) → ∃ y : CallSlot, s.calls[k]? = some y ∧
      r.body = y.call.req.frame
  settled : ∀ (k : ℕ) (y : CallSlot), s.calls[k]? = some y → s.Settled k y

theorem system_ledger_start : System.start.Ledger where
  conns := fun c x hx => by cases hx
  calls := fun k y hy => by cases hy
  uses := fun c x i k r hx => by cases hx
  settled := fun k y hy => by cases hy

section Step

variable {s t : System} {k c : ℕ} {y y' : CallSlot} {x x' : Conn}

theorem System.Ledger.begins (h : s.Ledger) (q : Req) :
    System.Ledger { s with calls := s.calls ++ [⟨.new q, none⟩] } where
  conns := h.conns
  calls := fun k y hy => by
    rcases lookup_concat_iff.1 hy with ⟨-, rfl⟩ | ⟨-, hy⟩
    · rfl
    · exact h.calls k y hy
  uses := fun c x i k r hx hr => by
    obtain ⟨y, hy, hbody⟩ := h.uses c x i k r hx hr
    have hlt := (List.getElem?_eq_some_iff.1 hy).1
    exact ⟨y, lookup_concat_iff.2 (.inr ⟨hlt.ne, hy⟩), hbody⟩
  settled := fun k y hy => by
    rcases lookup_concat_iff.1 hy with ⟨rfl, rfl⟩ | ⟨-, hy⟩
    · refine ⟨(0, 0), fun c x i r hx hr => ?_, fun c x hc => by cases hc⟩
      obtain ⟨y, hy, -⟩ := h.uses c x i _ r hx hr
      exact absurd (List.getElem?_eq_some_iff.1 hy).1 (lt_irrefl _)
    · exact h.settled k y hy

variable {act : ClientAct} {m : ClientMove} {v : PeerView}

theorem System.Ledger.moves_free (h : s.Ledger) (hy : s.calls[k]? = some y) (hnone : y.conn = none)
    (hm : y.call.next v act = some m) (hact : act.connects = false) :
    System.Ledger { s with calls := s.calls.set k ⟨m.next, none⟩ } := by
  have hfree : y.call.pc.free = true := by
    have hhas := h.calls k y hy
    rwa [System.Has, hnone] at hhas
  obtain ⟨hfree', hbetween⟩ := next_free hm hfree hact
  refine ⟨h.conns, fun k' z hz => ?_, fun c x i k' r hx hr => ?_, fun k' z hz => ?_⟩
  · rcases lookup_set hz with ⟨-, rfl⟩ | ⟨-, hz⟩
    · exact hfree'
    · exact h.calls k' z hz
  · obtain ⟨z, hz, hbody⟩ := h.uses c x i k' r hx hr
    by_cases hk : k' = k
    · subst hk
      rw [hy, Option.some.injEq] at hz
      subst hz
      exact ⟨_, (lookup_set_iff hy).2 (.inl ⟨rfl, rfl⟩), by rw [next_req hm]; exact hbody⟩
    · exact ⟨z, (lookup_set_iff hy).2 (.inr ⟨hk, hz⟩), hbody⟩
  · rcases lookup_set hz with ⟨rfl, rfl⟩ | ⟨-, hz⟩
    · obtain ⟨e, hdead, -⟩ := h.settled k' y hy
      refine ⟨e, fun c x i r hx hr => ?_, fun c x hc => by cases hc⟩
      refine (hdead c x i r hx hr).imp_right fun ⟨heq, hno⟩ => ⟨heq, ?_⟩
      by_contra hyes
      rw [hbetween (by simpa using hyes)] at hno
      cases hno
    · exact h.settled k' z hz

theorem System.Ledger.serves (h : s.Ledger) (hx : s.conns[c]? = some x) (hx' : x'.Ledger)
    (huses : x'.uses = x.uses) (hdead : ∀ i, x.Dead i → x'.Dead i)
    (hheld : ∀ k call, x.holder = .call k → x.Held k call → x'.holder = .call k ∧ x'.Held k call) :
    System.Ledger { s with conns := s.conns.set c x' } := by
  have hlook : ∀ (c' : ℕ) (z : Conn), (s.conns.set c x')[c']? = some z →
      ∃ z' : Conn, s.conns[c']? = some z' ∧ z.uses = z'.uses ∧ ∀ i, z'.Dead i → z.Dead i := by
    intro c' z hz
    rcases lookup_set hz with ⟨rfl, rfl⟩ | ⟨-, hz⟩
    · exact ⟨x, hx, huses, hdead⟩
    · exact ⟨z, hz, rfl, fun _ => id⟩
  refine ⟨fun c' z hz => ?_, fun k y hy => ?_, fun c' z i k r hz hr => ?_, fun k y hy => ?_⟩
  · rcases lookup_set hz with ⟨-, rfl⟩ | ⟨-, hz⟩
    · exact hx'
    · exact h.conns c' z hz
  · have hhas := h.calls k y hy
    unfold System.Has at hhas ⊢
    split at hhas
    next c' hc' =>
      obtain ⟨z, hz, hholder, hz'⟩ := hhas
      by_cases hc : c' = c
      · subst hc
        rw [hx, Option.some.injEq] at hz
        subst hz
        exact ⟨x', (lookup_set_iff hx).2 (.inl ⟨rfl, rfl⟩), hheld k y.call hholder hz'⟩
      · exact ⟨z, (lookup_set_iff hx).2 (.inr ⟨hc, hz⟩), hholder, hz'⟩
    next => exact hhas
  · obtain ⟨z', hz', hsame, -⟩ := hlook c' z hz
    exact h.uses c' z' i k r hz' (hsame ▸ hr)
  · obtain ⟨e, hall, hlast⟩ := h.settled k y hy
    refine ⟨e, fun c' z i r hz hr => ?_, fun c' z hc hz => ?_⟩
    · obtain ⟨z', hz', hsame, hmono⟩ := hlook c' z hz
      exact (hall c' z' i r hz' (hsame ▸ hr)).imp_left (hmono i)
    · obtain ⟨z', hz', hsame, -⟩ := hlook c' z hz
      rw [hsame]
      exact hlast c' z' hc hz'

theorem System.Ledger.changes (h : s.Ledger) (hy : s.calls[k]? = some y)
    (hcalls : t.calls = s.calls.set k y') (hconns : ∀ (c' : ℕ) (z : Conn), t.conns[c']? = some z ↔
      c' = c ∧ z = x' ∨ c' ≠ c ∧ s.conns[c']? = some z)
    (hreq : y'.call.req = y.call.req) (hx : x'.Ledger) (hhas : t.Has k y')
    (hsettled : t.Settled k y')
    (hother : ∀ (x : Conn) (k' : ℕ), s.conns[c]? = some x → x.holder = .call k' → k' = k)
    (huses : ∀ (i k' : ℕ) (r : Request), x'.uses[i]? = some (k', r) →
      k' = k ∧ r.body = y.call.req.frame ∨ ∃ x : Conn, s.conns[c]? = some x ∧
        x.uses[i]? = some (k', r) ∧ (x.Dead i → x'.Dead i)) :
    t.Ledger := by
  have hkept : ∀ (k' : ℕ) (z : CallSlot), k' ≠ k → s.calls[k']? = some z →
      ∀ c', z.conn = some c' → c' ≠ c ∧ ∃ x : Conn, s.conns[c']? = some x ∧
        x.holder = .call k' ∧ x.Held k' z.call := by
    intro k' z hk hz c' hc'
    have hz' := h.calls k' z hz
    rw [System.Has, hc'] at hz'
    obtain ⟨x, hx, hholder, hheld⟩ := hz'
    refine ⟨?_, x, hx, hholder, hheld⟩
    rintro rfl
    exact hk (hother x k' hx hholder)
  refine ⟨fun c' z hz => ?_, fun k' z hz => ?_, fun c' z i k' r hz hr => ?_, fun k' z hz => ?_⟩
  · rcases (hconns c' z).1 hz with ⟨-, rfl⟩ | ⟨-, hz⟩
    · exact hx
    · exact h.conns c' z hz
  · rw [hcalls] at hz
    rcases lookup_set hz with ⟨rfl, rfl⟩ | ⟨hk, hz⟩
    · exact hhas
    · unfold System.Has
      split
      next c' hc' =>
        obtain ⟨hne, x, hx, hheld⟩ := hkept k' z hk hz c' hc'
        exact ⟨x, (hconns c' x).2 (.inr ⟨hne, hx⟩), hheld⟩
      next hnone =>
        have hz' := h.calls k' z hz
        rwa [System.Has, hnone] at hz'
  · have hframe : ∀ z : CallSlot, s.calls[k']? = some z → r.body = z.call.req.frame →
        ∃ z : CallSlot, t.calls[k']? = some z ∧ r.body = z.call.req.frame := by
      intro z hz hbody
      rw [hcalls]
      by_cases hk : k' = k
      · subst hk
        rw [hy, Option.some.injEq] at hz
        subst hz
        exact ⟨y', (lookup_set_iff hy).2 (.inl ⟨rfl, rfl⟩), by rw [hreq]; exact hbody⟩
      · exact ⟨z, (lookup_set_iff hy).2 (.inr ⟨hk, hz⟩), hbody⟩
    rcases (hconns c' z).1 hz with ⟨rfl, rfl⟩ | ⟨-, hz⟩
    · rcases huses i k' r hr with ⟨rfl, hbody⟩ | ⟨x, hx, hr, -⟩
      · exact hframe y hy hbody
      · obtain ⟨z, hz, hbody⟩ := h.uses c' x i k' r hx hr
        exact hframe z hz hbody
    · obtain ⟨z, hz, hbody⟩ := h.uses c' z i k' r hz hr
      exact hframe z hz hbody
  · rw [hcalls] at hz
    rcases lookup_set hz with ⟨rfl, rfl⟩ | ⟨hk, hz⟩
    · exact hsettled
    · obtain ⟨e, hall, hlast⟩ := h.settled k' z hz
      refine ⟨e, fun c' x i r hx hr => ?_, fun c' x hc' hx => ?_⟩
      · rcases (hconns c' x).1 hx with ⟨rfl, rfl⟩ | ⟨-, hx⟩
        · rcases huses i k' r hr with ⟨rfl, -⟩ | ⟨x, hx, hr, hmono⟩
          · exact absurd rfl hk
          · exact (hall c' x i r hx hr).imp_left hmono
        · exact hall c' x i r hx hr
      · obtain ⟨hne, -⟩ := hkept k' z hk hz c' hc'
        rcases (hconns c' x).1 hx with ⟨heq, -⟩ | ⟨-, hx⟩
        · exact absurd heq hne
        · exact hlast c' x hc' hx

theorem System.Ledger.held (h : s.Ledger) (hy : s.calls[k]? = some y)
    (hc : y.conn = some c) (hx : s.conns[c]? = some x) :
    x.holder = .call k ∧ x.Held k y.call := by
  have hhas := h.calls k y hy
  rw [System.Has, hc] at hhas
  obtain ⟨x', hx', hheld⟩ := hhas
  rw [hx, Option.some.injEq] at hx'
  exact hx' ▸ hheld

theorem System.Ledger.held_alone (h : s.Ledger) (hy : s.calls[k]? = some y)
    (hc : y.conn = some c) (hx : s.conns[c]? = some x) {z : Conn} {k' : ℕ}
    (hz : s.conns[c]? = some z) (hk' : z.holder = .call k') : k' = k := by
  rw [hx, Option.some.injEq] at hz
  rw [← hz, (h.held hy hc hx).1, Holder.call.injEq] at hk'
  exact hk'.symm

theorem System.Ledger.attaches (h : s.Ledger) (hy : s.calls[k]? = some y) {o : Origin}
    (hm : y.call.next v o.act = some m) (hcalls : t.calls = s.calls.set k ⟨m.next, some c⟩)
    (hconns : ∀ (c' : ℕ) (z : Conn), t.conns[c']? = some z ↔
      c' = c ∧ z = x.attach k y o ∨ c' ≠ c ∧ s.conns[c']? = some z)
    (hx : x.Ledger) (hsent : x.sent = flat (x.uses.map Prod.snd))
    (hfound : o.Found x.uses (x.serve.out.take x.seen))
    (hfree : ∀ (z : Conn) (k' : ℕ), s.conns[c]? = some z → z.holder ≠ .call k')
    (huses : x.uses ≠ [] → s.conns[c]? = some x) : t.Ledger := by
  obtain ⟨hledger, hbetween⟩ := ledger_act hm
  have hbody : (y.call.req.request o).body = y.call.req.frame := y.call.req.body_request o
  have hold : ∀ (i k' : ℕ) (r : Request), (x.attach k y o).uses[i]? = some (k', r) →
      i = x.uses.length ∧ (k', r) = (k, y.call.req.request o) ∨
        s.conns[c]? = some x ∧ x.uses[i]? = some (k', r) := by
    intro i k' r hr
    rcases lookup_concat_iff.1 hr with hnew | ⟨-, hr⟩
    · exact .inl hnew
    · refine .inr ⟨huses fun hnil => ?_, hr⟩
      rw [hnil] at hr
      cases hr
  refine h.changes hy hcalls hconns (next_req hm) (hx.attach k y o)
    ⟨_, (hconns _ _).2 (.inl ⟨rfl, rfl⟩), rfl, held_attach hsent hfound (next_req hm) hledger⟩
    ?_ (fun z k' hz hk' => absurd hk' (hfree z k' hz)) ?_
  · -- the earlier requests are dead, so the new one is the only one that counts
    refine ⟨(c, x.uses.length), fun c' z i r hz hr => ?_, fun c' z hc' hz => ?_⟩
    · have hdead : ∀ (c' : ℕ) (z : Conn), s.conns[c']? = some z → z.uses[i]? = some (k, r) →
          z.Dead i := by
        intro c' z hz hr
        obtain ⟨e, hall, -⟩ := h.settled k y hy
        rcases hall c' z i r hz hr with hdead | ⟨-, hno⟩
        · exact hdead
        · rw [hbetween] at hno
          cases hno
      rcases (hconns c' z).1 hz with ⟨rfl, rfl⟩ | ⟨-, hz⟩
      · rcases hold i k r hr with ⟨rfl, -⟩ | ⟨hx', hr⟩
        · exact .inr ⟨rfl, hledger.not_between⟩
        · exact .inl (hdead c' x hx' hr)
      · exact .inl (hdead c' z hz hr)
    · cases hc'
      rcases (hconns c z).1 hz with ⟨-, rfl⟩ | ⟨hne, -⟩
      · simp [Conn.attach]
      · exact absurd rfl hne
  · intro i k' r hr
    rcases hold i k' r hr with ⟨-, heq⟩ | ⟨hx', hr⟩
    · obtain ⟨rfl, rfl⟩ := Prod.mk.injEq _ _ _ _ ▸ heq
      exact .inl ⟨rfl, hbody⟩
    · exact .inr ⟨x, hx', hr, id⟩

theorem System.Ledger.uses_conn (h : s.Ledger) (hy : s.calls[k]? = some y)
    (hc : y.conn = some c) (hx : s.conns[c]? = some x)
    (hm : y.call.next x.view act = some m) (hact : ∀ kept, act ≠ .finish kept)
    (hsafe : y.call.opensSafely act = true) :
    System.Ledger ⟨s.conns.set c { x with
      serve := x.serve.deliver m.sent, sent := x.sent ++ m.sent, seen := x.seen + m.read },
      s.calls.set k ⟨m.next, some c⟩⟩ := by
  obtain ⟨hholder, o, prev, base, sent, seen, huse⟩ := h.held hy hc hx
  have hxl := h.conns c x hx
  have hnext := huse.next hxl hm hact hsafe
  have hmono : ∀ i, x.Dead i → Conn.Dead { x with
      serve := x.serve.deliver m.sent, sent := x.sent ++ m.sent, seen := x.seen + m.read } i :=
    fun i hdead => hdead.deliver m.sent
  refine h.changes hy rfl (fun c' z => lookup_set_iff hx) (next_req hm) ?_
    ⟨_, (lookup_set_iff hx).2 (.inl ⟨rfl, rfl⟩), hholder, o, prev, base, _, _, hnext⟩ ?_
    (fun z k' hz hk' => ?_) fun i k' r hr => .inr ⟨x, hx, hr, hmono i⟩
  · refine hxl.client ?_ ?_ ?_
    · rw [huse.wrote, huse.uses, append_assoc, map_append, flat_append]
      rw [prefix_append_right_inj]
      simpa [next_req hm] using hnext.ledger.part
    · have hle := next_read_le hm
      have hseen := hxl.seen
      rw [Conn.view, length_drop] at hle
      omega
    · rw [hholder]
      simp
  · obtain ⟨e, hall, hlast⟩ := h.settled k y hy
    refine ⟨e, fun c' z i r hz hr => ?_, fun c' z hc' hz => ?_⟩
    · rcases lookup_set hz with ⟨rfl, rfl⟩ | ⟨-, hz⟩
      · exact (hall c' x i r hx hr).imp (hmono i) fun hno =>
          ⟨hno.1, hnext.ledger.not_between⟩
      · exact (hall c' z i r hz hr).imp_right fun hno => ⟨hno.1, hnext.ledger.not_between⟩
    · cases hc'
      rcases lookup_set hz with ⟨-, rfl⟩ | ⟨hne, -⟩
      · exact hlast c x hc hx
      · exact absurd rfl hne
  · exact h.held_alone hy hc hx hz hk'

theorem System.Ledger.gives_back (h : s.Ledger) (hy : s.calls[k]? = some y)
    (hc : y.conn = some c) (hx : s.conns[c]? = some x) {kept keep : Bool} {next : Next}
    (hpc : y.call.pc = .finish keep next) (hkept : kept = true → keep = true) :
    System.Ledger ⟨s.conns.set c (if kept then { x with holder := .pool } else x.close),
      s.calls.set k ⟨y.call.resume next, none⟩⟩ := by
  obtain ⟨hholder, o, prev, base, sent, seen, huse⟩ := h.held hy hc hx
  have hxl := h.conns c x hx
  have hmono : ∀ i, x.Dead i →
      Conn.Dead (if kept then { x with holder := .pool } else x.close) i := by
    intro i hdead
    split_ifs
    · exact hdead
    · exact hdead.close
  have huses : (if kept then { x with holder := .pool } else x.close).uses = x.uses := by
    split_ifs <;> rfl
  obtain ⟨hfree, hbetween⟩ := resume_free y.call next
  refine h.changes hy rfl (fun c' z => lookup_set_iff hx) ?_ ?_ hfree ?_
    (fun z k' hz hk' => ?_) fun i k' r hr => .inr ⟨x, hx, huses ▸ hr, hmono i⟩
  · unfold ClientCall.resume
    repeat' split
    all_goals rfl
  · split_ifs with hk
    · rw [hkept hk] at hpc
      exact huse.keeps hxl hpc
    · exact hxl.close
  · obtain ⟨e, hall, hlast⟩ := h.settled k y hy
    refine ⟨e, fun c' z i r hz hr => ?_, fun c' z hc' => by cases hc'⟩
    have hlater : ∀ z : Conn, s.conns[c']? = some z → z.uses[i]? = some (k, r) →
        z.Dead i ∨ (c', i) = e ∧ (y.call.resume next).pc.between = false ∨
          (c', i) = (c, prev.length) ∧ kept = false ∧ x.close.Dead prev.length := by
      intro z hz hr
      rcases hall c' z i r hz hr with hdead | ⟨rfl, -⟩
      · exact .inl hdead
      -- the last request is the one on this connection; who sends again knows it dead
      by_cases hyes : (y.call.resume next).pc.between = true
      · obtain ⟨hkeep, hdead⟩ := huse.resend_dead hxl hpc (hbetween hyes)
        have he := hlast c x hc hx
        rw [huse.uses, length_append, length_singleton, Nat.add_sub_cancel] at he
        refine .inr (.inr ⟨he, ?_, hdead⟩)
        by_contra hk
        rw [hkept (by simpa using hk)] at hkeep
        cases hkeep
      · exact .inr (.inl ⟨rfl, by simpa using hyes⟩)
    rcases lookup_set hz with ⟨rfl, rfl⟩ | ⟨hne, hz⟩
    · rcases hlater x hx (huses ▸ hr) with hdead | hlast | ⟨heq, hk, hdead⟩
      · exact .inl (hmono i hdead)
      · exact .inr hlast
      · rw [Prod.mk.injEq] at heq
        rw [hk, heq.2]
        exact .inl hdead
    · rcases hlater z hz hr with hdead | hlast | ⟨heq, -⟩
      · exact .inl hdead
      · exact .inr hlast
      · exact absurd (Prod.mk.injEq _ _ _ _ ▸ heq).1 hne
  · exact h.held_alone hy hc hx hz hk'

def resendSafe (s : System) : SystemAct → Bool
  | .move k act =>
    match s.calls[k]? with
    | some y => y.call.opensSafely act
    | none => true
  | _ => true

theorem conn_ledger_new (sessions : Bool) (maxFrame : UInt32) :
    (Conn.new sessions maxFrame).Ledger where
  serve := ledger_start sessions
  arrived := prefix_refl _
  complete := fun _ _ => rfl
  seen := Nat.zero_le _
  part := prefix_refl _
  idle := fun hpool => by cases hpool

theorem System.Ledger.opens (h : s.Ledger) (hy : s.calls[k]? = some y) {o : Origin}
    (hm : y.call.next v o.act = some m) (ho : o ≠ .pooled)
    (sessions : Bool) (maxFrame : UInt32) : (s.opens k y (.new sessions maxFrame) o m).Ledger := by
  refine h.attaches hy hm rfl (fun c' z => lookup_concat_iff) (conn_ledger_new sessions maxFrame)
    rfl ?_ (fun z k' hz => ?_) fun hne => absurd rfl hne
  · cases o with
    | pooled => exact absurd rfl ho
    | fresh | plain => exact ⟨rfl, rfl⟩
  · exact absurd (List.getElem?_eq_some_iff.1 hz).1 (lt_irrefl _)

theorem System.Ledger.move (h : s.Ledger) (hy : s.calls[k]? = some y)
    (hact : act.connects = false) (hsafe : y.call.opensSafely act = true)
    (hstep : s.move k y act = some t) : t.Ledger := by
  rw [System.move] at hstep
  split at hstep
  next hnone =>
    obtain ⟨m, hm, rfl⟩ := Option.map_eq_some_iff.1 hstep
    exact h.moves_free hy hnone hm hact
  next c hc =>
    obtain ⟨x, hx, hstep⟩ := Option.bind_eq_some_iff.1 hstep
    obtain ⟨m, hm, rfl⟩ := Option.map_eq_some_iff.1 hstep
    cases act with
    | finish kept =>
      cases moves_of_next hm with
      | finish _ keep next hpc hkept =>
        have hback := h.gives_back hy hc hx hpc fun hk => (hkept hk).1
        cases kept <;> exact hback
    | _ => exact h.uses_conn hy hc hx hm (by simp) hsafe

theorem System.Ledger.step (h : s.Ledger) {act : SystemAct} (hok : resendSafe s act = true)
    (hstep : systemStep s act = some t) : t.Ledger := by
  cases act with
  | call q =>
    cases hstep
    exact h.begins q
  | take k c =>
    obtain ⟨y, hy, hstep⟩ := Option.bind_eq_some_iff.1 hstep
    obtain ⟨x, hx, hstep⟩ := Option.bind_eq_some_iff.1 hstep
    split_ifs at hstep with hpool
    obtain ⟨m, hm, rfl⟩ := Option.map_eq_some_iff.1 hstep
    obtain ⟨hsent, ts, hts, hread⟩ := (h.conns c x hx).idle hpool
    refine h.attaches (o := .pooled) hy hm rfl (fun c' z => lookup_set_iff hx) (h.conns c x hx)
      hsent ⟨ts, hts, hread⟩ (fun z k' hz hk' => ?_) fun _ => hx
    rw [hx, Option.some.injEq] at hz
    subst hz
    rw [hpool] at hk'
    cases hk'
  | dial k sessions maxFrame =>
    obtain ⟨y, hy, hstep⟩ := Option.bind_eq_some_iff.1 hstep
    obtain ⟨m, hm, rfl⟩ := Option.map_eq_some_iff.1 hstep
    exact h.opens (o := .fresh) hy hm (by decide) sessions maxFrame
  | connect k sessions maxFrame =>
    obtain ⟨y, hy, hstep⟩ := Option.bind_eq_some_iff.1 hstep
    obtain ⟨m, hm, rfl⟩ := Option.map_eq_some_iff.1 hstep
    exact h.opens (o := .plain) hy hm (by decide) sessions maxFrame
  | move k act =>
    obtain ⟨y, hy, hstep⟩ := Option.bind_eq_some_iff.1 hstep
    split_ifs at hstep with hact
    refine h.move hy (by simpa using hact) ?_ hstep
    simpa [resendSafe, hy] using hok
  | serve c act =>
    obtain ⟨x, hx, hstep⟩ := Option.bind_eq_some_iff.1 hstep
    split_ifs at hstep with hserver
    obtain ⟨u, hu, rfl⟩ := Option.map_eq_some_iff.1 hstep
    have hxl := h.conns c x hx
    have hdead : ∀ i, x.Dead i → Conn.Dead { x with serve := u } i := fun i hi =>
      Listen.Dead.step hi hu
    rcases step_io hu with ⟨bs, rfl, -⟩ | ⟨n, r, hpass⟩
    · cases hserver
    · exact h.serves hx (hxl.passes hpass (hxl.serve.step (frameLimit_lt _) hu)) rfl hdead
        fun k call hholder hheld => ⟨hholder, hheld.passes hxl hpass hdead⟩
  | evict c =>
    obtain ⟨x, hx, hstep⟩ := Option.bind_eq_some_iff.1 hstep
    split_ifs at hstep with hpool
    cases hstep
    refine h.serves hx (h.conns c x hx).close rfl (fun i hi => hi.close) ?_
    intro k call hholder
    rw [hpool] at hholder
    cases hholder

end Step

section Dispatched

variable {s : System}

theorem mem_dispatchedOn {c : ℕ} {d : (ℕ × ℕ) × Bytes} : d ∈ s.dispatchedOn c ↔
    d.1.1 = c ∧ ∃ x, s.conns[c]? = some x ∧ (d.1.2, d.2) ∈ x.serve.dispatched := by
  rw [System.dispatchedOn]
  split
  next x hx =>
    rw [hx, mem_map]
    constructor
    · rintro ⟨p, hp, rfl⟩
      exact ⟨rfl, x, rfl, hp⟩
    · rintro ⟨rfl, x', heq, hd⟩
      cases heq
      exact ⟨_, hd, rfl⟩
  next hnone => simp [hnone]

theorem mem_dispatched {d : (ℕ × ℕ) × Bytes} (hd : d ∈ s.dispatched) :
    ∃ x, s.conns[d.1.1]? = some x ∧ (d.1.2, d.2) ∈ x.serve.dispatched := by
  obtain ⟨c, -, hd⟩ := mem_flatMap.1 hd
  obtain ⟨rfl, hx⟩ := mem_dispatchedOn.1 hd
  exact hx

theorem System.Ledger.nodup_dispatched (h : s.Ledger) : (s.dispatched.map Prod.fst).Nodup := by
  rw [System.dispatched, map_flatMap, nodup_flatMap]
  refine ⟨fun c _ => ?_, nodup_range.imp fun {c c'} hne => ?_⟩
  · rw [System.dispatchedOn]
    split
    next x hx =>
      have hnodup := (h.conns c x hx).serve.nodup.map (Prod.mk_right_injective c)
      rw [map_map] at hnodup ⊢
      exact hnodup
    next => exact nodup_nil
  · intro e he he'
    obtain ⟨d, hd, rfl⟩ := mem_map.1 he
    obtain ⟨d', hd', heq⟩ := mem_map.1 he'
    apply hne
    rw [← (mem_dispatchedOn.1 hd).1, ← (mem_dispatchedOn.1 hd').1, heq]

theorem System.Ledger.owned (h : s.Ledger) {c i : ℕ} {x : Conn} {frame : Bytes}
    (hx : s.conns[c]? = some x) (hd : (i, frame) ∈ x.serve.dispatched) :
    ∃ k r, x.uses[i]? = some (k, r) ∧ r.body = frame := by
  have hxl := h.conns c x hx
  obtain ⟨rs, r, rfl, rfl, hread⟩ := hxl.serve.requested _ hd
  have hsent : flat (rs ++ [r]) <+: flat (x.uses.map Prod.snd) ++ [] := by
    rw [append_nil]
    exact ((hread.trans (prefix_append _ _)).trans hxl.arrived).trans hxl.part
  obtain ⟨rest, hrest⟩ := frames_of_flat incomplete_nil hsent
  have hget : (x.uses.map Prod.snd)[rs.length]? = some r := by
    rw [← hrest]
    simp
  rw [List.getElem?_map, Option.map_eq_some_iff] at hget
  obtain ⟨⟨k, r'⟩, hk, rfl⟩ := hget
  exact ⟨k, r', hk, rfl⟩

theorem System.Ledger.one_request (h : s.Ledger) (k : ℕ) : ∃ e, ∀ d ∈ s.dispatches k, d.1 = e := by
  have hused : ∀ d ∈ s.dispatches k, ∃ (x : Conn) (r : Request), s.conns[d.1.1]? = some x ∧
      x.uses[d.1.2]? = some (k, r) ∧ ¬ x.Dead d.1.2 := by
    intro d hd
    obtain ⟨hd, howner⟩ := mem_filter.1 hd
    obtain ⟨x, hx, hmem⟩ := mem_dispatched hd
    have huse := of_decide_eq_true howner
    rw [System.owner, hx, Option.bind_some, Option.map_eq_some_iff] at huse
    obtain ⟨⟨k', r⟩, hr, rfl⟩ := huse
    exact ⟨x, r, hx, hr, fun hdead => hdead.now _ hmem⟩
  cases hy : s.calls[k]? with
  | none =>
    refine ⟨(0, 0), fun d hd => ?_⟩
    obtain ⟨x, r, hx, hr, -⟩ := hused d hd
    obtain ⟨y, hy', -⟩ := h.uses _ x _ k r hx hr
    rw [hy] at hy'
    cases hy'
  | some y =>
    obtain ⟨e, hall, -⟩ := h.settled k y hy
    refine ⟨e, fun d hd => ?_⟩
    obtain ⟨x, r, hx, hr, hlive⟩ := hused d hd
    exact ((hall _ x _ r hx hr).resolve_left hlive).1

theorem System.Ledger.length_dispatches_le (h : s.Ledger) (k : ℕ) :
    (s.dispatches k).length ≤ 1 := by
  obtain ⟨e, he⟩ := h.one_request k
  have hnodup : ((s.dispatches k).map Prod.fst).Nodup :=
    h.nodup_dispatched.sublist (filter_sublist.map _)
  have hsub : (s.dispatches k).map Prod.fst ⊆ [e] := by
    intro e' he'
    obtain ⟨d, hd, rfl⟩ := mem_map.1 he'
    exact mem_singleton.2 (he d hd)
  simpa using (List.Nodup.subperm hnodup hsub).length_le

end Dispatched

/-- In every run whose steps are safe to send again after, a call causes at most one dispatch, of
its own frame, over all connections. -/
theorem dispatched_at_most_once (acts : List SystemAct) (s : System)
    (hok : along systemStep (fun s act => resendSafe s act = true) System.start acts)
    (hrun : run systemStep System.start acts = some s) :
    (∀ k, (s.dispatches k).length ≤ 1) ∧
      ∀ d ∈ s.dispatched, ∃ k y, s.owner d.1.1 d.1.2 = some k ∧ s.calls[k]? = some y ∧
        d.2 = y.call.req.frame := by
  have hledger : s.Ledger :=
    run_invariant (I := System.Ledger) (fun _ _ _ h hact hstep => h.step hact hstep)
      system_ledger_start hok hrun
  refine ⟨hledger.length_dispatches_le, fun d hd => ?_⟩
  obtain ⟨x, hx, hmem⟩ := mem_dispatched hd
  obtain ⟨k, r, hr, hbody⟩ := hledger.owned hx hmem
  obtain ⟨y, hy, hframe⟩ := hledger.uses _ x _ k r hx hr
  refine ⟨k, y, ?_, hy, hbody.symm.trans hframe⟩
  rw [System.owner, hx]
  simp [hr]

/-- The request of a call for an empty frame on a new connection is served, up to the
dispatch of the frame. -/
def servedOpening : List SystemAct :=
  [.call emptyReq, .move 0 (.start false), .move 0 (.take false), .dial 0 true 0,
    .move 0 (.use none), .move 0 (.write none)] ++
  ([.read 1, .read 3, .go true, .write none, .go true, .go true, .go true,
    .call (.receive false), .call (.bind .ok), .call .readBegin, .call .validate,
    .call .checkCtx] : List ServeAct).map (.serve 0)

/-- The client finds the answer to its opening. -/
theorem dispatched_at_most_once_sample :
    ∃ s, run systemStep System.start (servedOpening ++ [.move 0 (.read 4 none)]) = some s ∧
      s.dispatches 0 = [((0, 0), [])] ∧
      (∀ k, (s.dispatches k).length ≤ 1) ∧
      ∀ d ∈ s.dispatched, ∃ k y, s.owner d.1.1 d.1.2 = some k ∧ s.calls[k]? = some y ∧
        d.2 = y.call.req.frame := by
  refine ⟨_, rfl, by decide, ?_⟩
  exact dispatched_at_most_once (servedOpening ++ [.move 0 (.read 4 none)]) _ (by decide) rfl

/-- The check of the server fails while the client waits for the answer to its
opening: it sends the frame again, and the server dispatches it again. -/
theorem failed_check_dispatches_twice : ∃ s, run systemStep System.start (servedOpening ++
        [.move 0 (.readCheck 0 .untrusted), .move 0 (.finish false), .move 0 .mark,
          .connect 0 true 0, .move 0 (.write none)] ++
        ([.read 1, .read 3, .go true, .go true] : List ServeAct).map (.serve 1)) = some s ∧
      s.dispatches 0 = [((0, 0), []), ((1, 0), [])] ∧
      ¬ ∀ k, (s.dispatches k).length ≤ 1 := by
  refine ⟨_, rfl, by decide, fun h => ?_⟩
  exact absurd (h 0) (by decide)

end Listen
