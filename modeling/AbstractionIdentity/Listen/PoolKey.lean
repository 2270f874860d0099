import AbstractionIdentity.Listen.PoolOwnership
import AbstractionIdentity.Text.Record

/-!
# The key of the pool

The key of a client is its endpoint and what it expects of the server, with a zero byte before each
part. A connection never leaves the key of the call that opened it (`PoolSystem.Kin`). Zero bytes
are not escaped: clients with equal keys are alike except when the parts are cut differently
(`Ambiguous`) or start times print alike (`AlikeTimes`). Neither can happen among accepted clients
without zero bytes in their parts whose start times print apart (`pool_isolation`).
-/

namespace Listen

open Transition Text Ownership List PoolSystem

section Kin

variable {κ : Type} {s t : PoolSystem κ} {lang : Lang} {k : ℕ} {y y' : PoolCall κ}

def PoolSystem.keyAt (s : PoolSystem κ) : PoolPlace κ → Option κ
  | .slot key => some key
  | .call k => s.calls[k]?.map PoolCall.key

structure PoolSystem.Kin (s : PoolSystem κ) : Prop where
  length : s.opener.length = s.closed.length
  same : ∀ p c, c ∈ s.held p → ∃ j, s.opener[c]? = some j ∧ s.keyAt (.call j) = s.keyAt p

theorem kin_start : (PoolSystem.start : PoolSystem κ).Kin :=
  ⟨rfl, fun p c hc => by cases p <;> cases hc⟩

theorem keyAt_of_mem_held {p : PoolPlace κ} {c : ℕ} (hc : c ∈ s.held p) :
    ∃ x, s.keyAt p = some x := by
  cases p with
  | slot key => exact ⟨key, rfl⟩
  | call k =>
    cases hk : s.calls[k]? with
    | none =>
      rw [held, hk] at hc
      cases hc
    | some y => exact ⟨y.key, by rw [keyAt, hk]; rfl⟩

theorem keyAt_call (key : κ) {p : PoolPlace κ} {x : κ} (hx : s.keyAt p = some x) :
    keyAt { s with calls := s.calls ++ [⟨key, false, .start⟩] } p = some x := by
  cases p with
  | slot key => exact hx
  | call k =>
    obtain ⟨y, hk, rfl⟩ := Option.map_eq_some_iff.1 hx
    obtain ⟨hlt, -⟩ := List.getElem?_eq_some_iff.1 hk
    rw [keyAt, List.getElem?_append_left hlt, hk]
    rfl

variable [DecidableEq κ]

theorem keyAt_update (hk : s.calls[k]? = some y) (hkey : y'.key = y.key) {list : List Pooled} :
    (s.update k y' list).keyAt = s.keyAt := by
  obtain ⟨hlt, -⟩ := List.getElem?_eq_some_iff.1 hk
  funext p
  cases p with
  | slot key => rfl
  | call j =>
    simp only [keyAt, update]
    by_cases hj : j = k
    · rw [hj, List.getElem?_set_self hlt, hk, Option.map_some, Option.map_some, hkey]
    · rw [List.getElem?_set_ne (Ne.symm hj)]

theorem PoolSystem.Kin.update (h : s.Kin) (hk : s.calls[k]? = some y) (hkey : y'.key = y.key)
    {list : List Pooled} (hsub : list.map Pooled.conn ++ y'.pc.conns ⊆
      (s.idle y.key).map Pooled.conn ++ y.pc.conns) : (s.update k y' list).Kin := by
  refine ⟨h.length, fun p c hc => ?_⟩
  rw [keyAt_update hk hkey]
  have hslot : s.keyAt (.slot y.key) = some y.key := rfl
  have hcall : s.keyAt (.call k) = some y.key := by
    rw [keyAt, hk]
    rfl
  -- a connection of the call or of its slot
  have hown : c ∈ list.map Pooled.conn ++ y'.pc.conns →
      ∃ j, s.opener[c]? = some j ∧ s.keyAt (.call j) = some y.key := by
    intro hmem
    rcases mem_append.1 (hsub hmem) with hmem | hmem
    · exact h.same (.slot y.key) c hmem
    · rw [← hcall]
      exact h.same (.call k) c (by rw [held_call hk]; exact hmem)
  cases p with
  | slot key =>
    rw [held_update_slot, hkey] at hc
    split_ifs at hc with heq
    · rw [heq]
      exact hown (mem_append_left _ hc)
    · exact h.same (.slot key) c hc
  | call j =>
    rw [held_update_call hk] at hc
    split_ifs at hc with heq
    · rw [heq, hcall]
      exact hown (mem_append_right _ hc)
    · exact h.same (.call j) c hc

theorem PoolSystem.Kin.goto (h : s.Kin) (hk : s.calls[k]? = some y) {pc : PoolPc}
    (hconns : pc.conns ⊆ y.pc.conns) : (s.goto k y pc).Kin := by
  apply h.update hk
  · rfl
  · intro c hc
    rcases mem_append.1 hc with hc | hc
    · exact mem_append_left _ hc
    · exact mem_append_right _ (hconns hc)

theorem PoolSystem.Kin.dial (h : s.Kin) (ho : s.Owned) (hk : s.calls[k]? = some y) :
    PoolSystem.Kin { s.goto k y (.taken s.closed.length) with
      closed := s.closed ++ [false], opener := s.opener ++ [k] } := by
  have hkeys : (s.goto k y (.taken s.closed.length)).keyAt = s.keyAt := by
    apply keyAt_update hk
    rfl
  refine ⟨by simp [h.length], fun p c hc => ?_⟩
  have hold : c ∈ s.held p → ∃ j, (s.opener ++ [k])[c]? = some j ∧
      s.keyAt (.call j) = s.keyAt p := by
    intro hmem
    obtain ⟨j, hj, hkey⟩ := h.same p c hmem
    refine ⟨j, ?_, hkey⟩
    rw [List.getElem?_append_left (h.length ▸ ho.known p c hmem), hj]
  have hnew : c ∈ s.held p ∨ p = .call k ∧ c = s.closed.length := by
    cases p with
    | slot key =>
      have hslot : c ∈ (s.goto k y (.taken s.closed.length)).held (.slot key) := hc
      rw [PoolSystem.goto, held_update_slot] at hslot
      split_ifs at hslot with heq
      · exact .inl (heq ▸ hslot)
      · exact .inl hslot
    | call j =>
      have hcall : c ∈ (s.goto k y (.taken s.closed.length)).held (.call j) := hc
      rw [PoolSystem.goto, held_update_call hk] at hcall
      split_ifs at hcall with heq
      · exact .inr ⟨by rw [heq], mem_singleton.1 hcall⟩
      · exact .inl hcall
  change ∃ j, (s.opener ++ [k])[c]? = some j ∧
    (s.goto k y (.taken s.closed.length)).keyAt (.call j) =
      (s.goto k y (.taken s.closed.length)).keyAt p
  rw [hkeys]
  rcases hnew with hmem | ⟨rfl, rfl⟩
  · exact hold hmem
  · refine ⟨k, ?_, rfl⟩
    rw [← h.length, List.getElem?_append_right le_rfl]
    simp

theorem PoolSystem.Kin.move (h : s.Kin) (ho : s.Owned) (hk : s.calls[k]? = some y)
    (hm : PoolMoved lang s k y t) : t.Kin := by
  cases hm with
  | stays hconns _ _ =>
    apply h.goto hk
    rw [hconns]
    exact List.Subset.refl _
  | cancel =>
    apply h.update hk
    · rfl
    · exact List.Subset.refl _
  | @pop now e hpc hlast =>
    apply h.update hk
    · rfl
    · intro c hc
      apply mem_append_left
      rw [← dropLast_append_getLast? e hlast, map_append]
      exact hc
  | @returns now _ e hpc _ =>
    have hgoto : (s.goto k y (.taken e.conn)).Kin := by
      apply h.goto hk
      rw [hpc]
      exact List.Subset.refl _
    exact ⟨hgoto.length, hgoto.same⟩
  | @closes c pc hconns _ _ _ =>
    have hclose : (s.close c).Kin := by
      refine ⟨?_, h.same⟩
      simp only [close, length_set]
      exact h.length
    apply hclose.goto hk
    rw [hconns]
    exact subset_cons_self _ _
  | dial _ => exact h.dial ho hk
  | @fire c hpc =>
    have hgoto : (s.goto k y (.busy c true)).Kin := by
      apply h.goto hk
      rw [hpc]
      exact List.Subset.refl _
    exact ⟨hgoto.length, hgoto.same⟩
  | @put c now hpc =>
    apply h.update hk
    · rfl
    · rw [hpc]
      exact (putIdle_perm lang (s.idle y.key) c now).subset

theorem PoolSystem.Kin.step (h : s.Kin) (ho : s.Owned) {act : PoolAct κ}
    (hact : poolStep lang s act = some t) : t.Kin := by
  cases act with
  | call key =>
    cases hact
    refine ⟨h.length, fun p c hc => ?_⟩
    have hmem : c ∈ s.held p := held_concat_call (s := s) key ▸ hc
    obtain ⟨j, hj, hkey⟩ := h.same p c hmem
    obtain ⟨x, hx⟩ := keyAt_of_mem_held hmem
    refine ⟨j, hj, ?_⟩
    rw [keyAt_call key hx, keyAt_call key (hkey.trans hx)]
  | move k m =>
    obtain ⟨y, hk, hm⟩ := Option.bind_eq_some_iff.1 hact
    exact h.move ho hk (moved_of_move hm)
  | callback c =>
    simp only [poolStep] at hact
    split_ifs at hact with hc
    cases hact
    exact ⟨by simp [close, h.length], h.same⟩

theorem kin_run {acts : List (PoolAct κ)} (hrun : run (poolStep lang) .start acts = some s) :
    s.Kin := by
  have hboth : s.Owned ∧ s.Kin := by
    apply run_invariant_of_forall _ ⟨owned_start, kin_start⟩ hrun
    intro s act t h hact
    exact ⟨h.1.step hact, h.2.step h.1 hact⟩
  exact hboth.2

end Kin

structure Principal where
  kind : Bytes
  sid : Bytes
  uid : ℤ
  deriving DecidableEq

structure ProcessPin (τ : Type) where
  pid : ℤ
  startTime : τ

structure ServerExpectation (τ : Type) where
  principal : Principal
  program : Bytes
  process : Option (ProcessPin τ)

structure FrameClient (τ : Type) where
  endpoint : Bytes
  server : Option (ServerExpectation τ)

structure Platform (τ : Type) where
  string : τ → Bytes
  equal : τ → τ → Bool
  isZero : τ → Bool
  isAbs : Bytes → Bool

section Key

variable {τ : Type} (p : Platform τ)

def ServerExpectation.validate (e : ServerExpectation τ) : Bool :=
  let validUser := e.principal.kind = ascii "windows" && e.principal.sid ≠ [] ||
    e.principal.kind = ascii "posix" && 0 ≤ e.principal.uid
  validUser && p.isAbs e.program && !e.program.contains 0 &&
    match e.process with
    | none => true
    | some q => 0 < q.pid && !p.isZero q.startTime

def FrameClient.accepted (c : FrameClient τ) : Bool :=
  match c.server with
  | none => true
  | some e => e.validate p

def FrameClient.poolKey (c : FrameClient τ) : Bytes :=
  match c.server with
  | none => c.endpoint
  | some s =>
    let key := c.endpoint ++ 0 :: s.principal.kind ++ 0 :: s.principal.sid ++
      0 :: itoa s.principal.uid ++ 0 :: s.program
    match s.process with
    | none => key
    | some q => key ++ 0 :: itoa q.pid ++ 0 :: p.string q.startTime

def SameProcess : Option (ProcessPin τ) → Option (ProcessPin τ) → Prop
  | none, none => True
  | some q, some r => q.pid = r.pid ∧ p.equal q.startTime r.startTime = true
  | _, _ => False

def SameServer : Option (ServerExpectation τ) → Option (ServerExpectation τ) → Prop
  | none, none => True
  | some e, some f =>
    e.principal = f.principal ∧ e.program = f.program ∧ SameProcess p e.process f.process
  | _, _ => False

def FrameClient.Same (c d : FrameClient τ) : Prop :=
  c.endpoint = d.endpoint ∧ SameServer p c.server d.server

def FrameClient.parts (c : FrameClient τ) : List Bytes :=
  c.endpoint :: match c.server with
    | none => []
    | some s => [s.principal.kind, s.principal.sid, itoa s.principal.uid, s.program] ++
        match s.process with
        | none => []
        | some q => [itoa q.pid, p.string q.startTime]

/-- The parts have the same pieces between their zero bytes, and not equally many of
them in each part. -/
def Ambiguous (c d : FrameClient τ) : Prop :=
  pieces 0 (c.parts p) = pieces 0 (d.parts p) ∧ cuts 0 (c.parts p) ≠ cuts 0 (d.parts p)

def FrameClient.process (c : FrameClient τ) : Option (ProcessPin τ) :=
  c.server.bind ServerExpectation.process

def AlikeTimes (c d : FrameClient τ) : Prop :=
  c.parts p = d.parts p ∧ ∃ q r, c.process = some q ∧ d.process = some r ∧
    p.equal q.startTime r.startTime = false

theorem poolKey_eq_join (c : FrameClient τ) : c.poolKey p = join 0 (c.parts p) := by
  rw [FrameClient.poolKey, FrameClient.parts]
  cases c.server with
  | none => rfl
  | some s => cases hq : s.process <;> simp [join, hq]

theorem poolKey_eq_iff (c d : FrameClient τ) :
    c.poolKey p = d.poolKey p ↔ pieces 0 (c.parts p) = pieces 0 (d.parts p) := by
  rw [poolKey_eq_join, poolKey_eq_join]
  apply join_eq_join_iff <;> simp [FrameClient.parts]

variable {p} {c d : FrameClient τ}

theorem same_of_parts_eq (h : c.parts p = d.parts p) (htimes : ¬ AlikeTimes p c d) :
    c.Same p d := by
  have hparts := id h
  rw [FrameClient.parts, FrameClient.parts, List.cons.injEq] at hparts
  refine ⟨hparts.1, ?_⟩
  cases hc : c.server with
  | none =>
    cases hd : d.server with
    | none => trivial
    | some f => simp [hc, hd] at hparts
  | some e =>
    cases hd : d.server with
    | none => simp [hc, hd] at hparts
    | some f =>
      simp only [hc, hd, cons_append, nil_append, List.cons.injEq] at hparts
      obtain ⟨-, hkind, hsid, huid, hprogram, hprocess⟩ := hparts
      have hprincipal : e.principal = f.principal := by
        rw [Principal.mk.injEq]
        exact ⟨hkind, hsid, itoa_injective huid⟩
      refine ⟨hprincipal, hprogram, ?_⟩
      cases hq : e.process with
      | none =>
        cases hr : f.process with
        | none => trivial
        | some r => simp [hq, hr] at hprocess
      | some q =>
        cases hr : f.process with
        | none => simp [hq, hr] at hprocess
        | some r =>
          simp only [hq, hr, List.cons.injEq] at hprocess
          refine ⟨itoa_injective hprocess.1, ?_⟩
          by_contra hne
          exact htimes ⟨h, q, r, by simp [FrameClient.process, hc, hq],
            by simp [FrameClient.process, hd, hr], by simpa using hne⟩

theorem parts_eq_of_same (h : c.Same p d) (hkey : c.poolKey p = d.poolKey p) :
    c.parts p = d.parts p := by
  obtain ⟨hendpoint, hserver⟩ := h
  rw [FrameClient.parts, FrameClient.parts, hendpoint]
  rw [FrameClient.poolKey, FrameClient.poolKey, hendpoint] at hkey
  cases hc : c.server with
  | none =>
    cases hd : d.server with
    | none => rfl
    | some f =>
      rw [hc, hd] at hserver
      exact hserver.elim
  | some e =>
    cases hd : d.server with
    | none =>
      rw [hc, hd] at hserver
      exact hserver.elim
    | some f =>
      rw [hc, hd] at hserver hkey
      obtain ⟨hprincipal, hprogram, hprocess⟩ := hserver
      simp only [hprincipal, hprogram] at hkey ⊢
      cases hq : e.process with
      | none =>
        cases hr : f.process with
        | none => rfl
        | some r =>
          rw [hq, hr] at hprocess
          exact hprocess.elim
      | some q =>
        cases hr : f.process with
        | none =>
          rw [hq, hr] at hprocess
          exact hprocess.elim
        | some r =>
          rw [hq, hr] at hprocess
          simp only [hq, hr, hprocess.1, append_cancel_left_eq, List.cons.injEq, true_and] at hkey
          simp only [hprocess.1, hkey]

theorem equal_of_same (h : c.Same p d) {q r : ProcessPin τ} (hq : c.process = some q)
    (hr : d.process = some r) : p.equal q.startTime r.startTime = true := by
  obtain ⟨e, hc, he⟩ := Option.bind_eq_some_iff.1 hq
  obtain ⟨f, hd, hf⟩ := Option.bind_eq_some_iff.1 hr
  have hserver := h.2
  rw [hc, hd] at hserver
  have hprocess := hserver.2.2
  rw [he, hf] at hprocess
  exact hprocess.2

theorem poolKey_isolates_iff (c d : FrameClient τ) :
    (c.poolKey p = d.poolKey p → c.Same p d) ↔ ¬ Ambiguous p c d ∧ ¬ AlikeTimes p c d := by
  constructor
  · intro h
    refine ⟨?_, ?_⟩
    · rintro ⟨hpieces, hcuts⟩
      have hkey := (poolKey_eq_iff p c d).2 hpieces
      exact hcuts (by rw [parts_eq_of_same (h hkey) hkey])
    · rintro ⟨hparts, q, r, hq, hr, hne⟩
      have hkey : c.poolKey p = d.poolKey p := by
        rw [poolKey_eq_join, poolKey_eq_join, hparts]
      have hequal := equal_of_same (h hkey) hq hr
      rw [hequal] at hne
      cases hne
  · rintro ⟨hcuts, htimes⟩ hkey
    have hpieces := (poolKey_eq_iff p c d).1 hkey
    apply same_of_parts_eq _ htimes
    apply eq_of_pieces_eq hpieces
    by_contra hne
    exact hcuts ⟨hpieces, hne⟩

/-- The parts that `validate` does not check hold no zero byte. -/
def FrameClient.ZeroFree (p : Platform τ) (c : FrameClient τ) : Prop :=
  0 ∉ c.endpoint ∧ ∀ e, c.server = some e → 0 ∉ e.principal.sid ∧
    ∀ q, e.process = some q → 0 ∉ p.string q.startTime

theorem zero_not_mem_parts (hc : c.accepted p = true) (hzero : c.ZeroFree p) :
    ∀ part ∈ c.parts p, 0 ∉ part := by
  obtain ⟨hendpoint, hserver⟩ := hzero
  rw [FrameClient.parts]
  cases hs : c.server with
  | none => simpa using hendpoint
  | some e =>
    rw [FrameClient.accepted, hs] at hc
    simp only [ServerExpectation.validate, Bool.and_eq_true, Bool.or_eq_true, decide_eq_true_iff,
      Bool.not_eq_true', contains_eq_mem, decide_eq_false_iff_not] at hc
    obtain ⟨⟨⟨hkind, -⟩, hprogram⟩, -⟩ := hc
    have hkind' : 0 ∉ e.principal.kind := by
      rcases hkind with ⟨hkind, -⟩ | ⟨hkind, -⟩ <;> rw [hkind] <;> decide
    obtain ⟨hsid, hprocess⟩ := hserver e hs
    cases hq : e.process with
    | none => simp [hq, hendpoint, hkind', hsid, zero_not_mem_itoa, hprogram]
    | some q =>
      simp [hq, hendpoint, hkind', hsid, zero_not_mem_itoa, hprogram, hprocess q hq]

theorem not_ambiguous_of_zeroFree (hc : c.accepted p = true) (hd : d.accepted p = true)
    (hzero : c.ZeroFree p) (hzero' : d.ZeroFree p) : ¬ Ambiguous p c d := by
  rintro ⟨hpieces, hcuts⟩
  rw [pieces_eq_self (zero_not_mem_parts hc hzero),
    pieces_eq_self (zero_not_mem_parts hd hzero')] at hpieces
  exact hcuts (by rw [hpieces])

theorem opener_of_held {lang : Lang} {clients : List (FrameClient τ)}
    {acts : List (PoolAct Bytes)} {s : PoolSystem Bytes}
    (hrun : run (poolStep lang) .start acts = some s)
    (hkeys : s.calls.map PoolCall.key = clients.map fun c => c.poolKey p) {k x : ℕ}
    (hk : clients[k]? = some c) (hx : x ∈ s.held (.call k)) :
    ∃ j d, s.opener[x]? = some j ∧ clients[j]? = some d ∧ c.poolKey p = d.poolKey p := by
  have hkeyAt : ∀ i : ℕ, s.keyAt (.call i) = clients[i]?.map fun c => c.poolKey p := by
    intro i
    rw [keyAt, ← List.getElem?_map, hkeys, List.getElem?_map]
  obtain ⟨j, hj, hkey⟩ := (kin_run hrun).same (.call k) x hx
  rw [hkeyAt, hkeyAt, hk] at hkey
  obtain ⟨d, hd, heq⟩ := Option.map_eq_some_iff.1 hkey
  exact ⟨j, d, hj, hd, heq.symm⟩

/-- Start times of the two clients that print alike are equal. -/
def TimesApart (p : Platform τ) (c d : FrameClient τ) : Prop :=
  ∀ q r, c.process = some q → d.process = some r →
    p.string q.startTime = p.string r.startTime → p.equal q.startTime r.startTime = true

theorem startTime_mem_parts {q : ProcessPin τ} (hq : c.process = some q) :
    (c.parts p)[6]? = some (p.string q.startTime) := by
  obtain ⟨e, hc, he⟩ := Option.bind_eq_some_iff.1 hq
  simp [FrameClient.parts, hc, he]

theorem TimesApart.not_alikeTimes (h : TimesApart p c d) : ¬ AlikeTimes p c d := by
  rintro ⟨hparts, q, r, hq, hr, hne⟩
  have hstring : some (p.string q.startTime) = some (p.string r.startTime) := by
    rw [← startTime_mem_parts hq, ← startTime_mem_parts hr, hparts]
  rw [h q r hq hr (Option.some.inj hstring)] at hne
  cases hne

theorem same_of_poolKey_eq (hc : c.accepted p = true ∧ c.ZeroFree p)
    (hd : d.accepted p = true ∧ d.ZeroFree p) (htimes : TimesApart p c d)
    (hkey : c.poolKey p = d.poolKey p) : c.Same p d :=
  (poolKey_isolates_iff c d).2
    ⟨not_ambiguous_of_zeroFree hc.1 hd.1 hc.2 hd.2, htimes.not_alikeTimes⟩ hkey

/-- Accepted clients without zero bytes, whose start times print apart, share a key only if they are
alike; and in every run of the Go pool for such clients a call has no connection that was opened for
another endpoint or expectation. -/
theorem pool_isolation (p : Platform τ) :
    (∀ c d : FrameClient τ, c.accepted p = true ∧ c.ZeroFree p →
      d.accepted p = true ∧ d.ZeroFree p → TimesApart p c d →
      c.poolKey p = d.poolKey p → c.Same p d) ∧
    ∀ (clients : List (FrameClient τ)) (acts : List (PoolAct Bytes)) (s : PoolSystem Bytes),
      (∀ c ∈ clients, c.accepted p = true ∧ c.ZeroFree p) →
      (∀ c ∈ clients, ∀ d ∈ clients, TimesApart p c d) →
      run (poolStep .go) .start acts = some s →
      s.calls.map PoolCall.key = clients.map (fun c => c.poolKey p) →
      ∀ k c x, clients[k]? = some c → x ∈ s.held (.call k) →
        ∃ j d, s.opener[x]? = some j ∧ clients[j]? = some d ∧ c.Same p d := by
  refine ⟨fun c d => same_of_poolKey_eq, ?_⟩
  intro clients acts s hclients htimes hrun hkeys k c x hk hx
  obtain ⟨j, d, hj, hd, hkey⟩ := opener_of_held hrun hkeys hk hx
  have hmem := mem_of_getElem? hk
  have hmem' := mem_of_getElem? hd
  exact ⟨j, d, hj, hd, same_of_poolKey_eq (hclients c hmem) (hclients d hmem')
    (htimes c hmem d hmem') hkey⟩

end Key

def unixPlatform : Platform ℤ where
  string := itoa
  equal := (· == ·)
  isZero := (· == 0)
  isAbs := fun s => s.head? == some 47

def verifiedClient : FrameClient ℤ := ⟨ascii "/s", some ⟨⟨ascii "posix", [], 7⟩, ascii "/p", none⟩⟩

def unverifiedClient : FrameClient ℤ :=
  ⟨ascii "/s" ++ 0 :: ascii "posix" ++ 0 :: 0 :: ascii "7" ++ 0 :: ascii "/p", none⟩

def takeOver (key key' : Bytes) : List (PoolAct Bytes) :=
  [.call key, .move 0 (.begin 0), .move 0 .pop, .move 0 (.dial true), .move 0 (.use true),
    .move 0 (.finish true), .move 0 (.put 1), .move 0 .ret,
    .call key', .move 1 (.begin 2), .move 1 .pop, .move 1 (.judge 2 true)]

def pinnedClient : FrameClient ℤ :=
  ⟨ascii "/s", some ⟨⟨ascii "posix", [], 7⟩, ascii "/p", some ⟨12, 5⟩⟩⟩

theorem pinnedClient_zeroFree : pinnedClient.ZeroFree unixPlatform := by
  refine ⟨by decide, fun e he => ?_⟩
  cases he
  exact ⟨not_mem_nil, fun q _ => zero_not_mem_itoa _⟩

/-- The second call of a pinned client takes the connection of the first. -/
theorem pool_isolation_sample :
    ∃ s, run (poolStep .go) .start (takeOver (pinnedClient.poolKey unixPlatform)
        (pinnedClient.poolKey unixPlatform)) = some s ∧ s.held (.call 1) = [0] ∧
      ∃ j d, s.opener[0]? = some j ∧ [pinnedClient, pinnedClient][j]? = some d ∧
        pinnedClient.Same unixPlatform d := by
  refine ⟨_, rfl, by decide, (pool_isolation unixPlatform).2 [pinnedClient, pinnedClient]
    (takeOver (pinnedClient.poolKey unixPlatform) (pinnedClient.poolKey unixPlatform)) _
    ?_ ?_ rfl rfl 1 pinnedClient 0 rfl (by decide)⟩
  · intro c hc
    obtain rfl : c = pinnedClient := by simpa using hc
    exact ⟨by decide, pinnedClient_zeroFree⟩
  · intro c _ d _ q r _ _ hstring
    exact beq_iff_eq.2 (itoa_injective hstring)

theorem verified_call_on_unverified : verifiedClient.accepted unixPlatform = true ∧
    unverifiedClient.accepted unixPlatform = true ∧
    unverifiedClient.poolKey unixPlatform = verifiedClient.poolKey unixPlatform ∧
    ¬ unverifiedClient.Same unixPlatform verifiedClient ∧
    ∃ s, run (poolStep .go) .start (takeOver (unverifiedClient.poolKey unixPlatform)
        (verifiedClient.poolKey unixPlatform)) = some s ∧
      s.opener = [0] ∧ s.held (.call 1) = [0] := by
  refine ⟨by decide, by decide, by decide, ?_, _, rfl, rfl, ?_⟩
  · rintro ⟨hendpoint, -⟩
    exact absurd hendpoint (by decide)
  · decide

end Listen
