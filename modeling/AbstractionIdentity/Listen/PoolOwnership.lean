import AbstractionIdentity.Listen.Pool

/-!
# Who has a connection

Every connection is idle under one key, or one call has it, or it is closed (`PoolSystem.Owned`).
A step moves connections between a call and the idle ones of its key (`Owned.update`); closing
needs only that nobody counts on the connection (`Owned.close`).
-/

namespace Listen

open Transition Ownership List PoolPc Pooled

variable {κ : Type} {s t : PoolSystem κ} {lang : Lang} {k : ℕ} {y y' : PoolCall κ}

structure PoolSystem.Owned (s : PoolSystem κ) : Prop where
  exclusive : Exclusive s.held
  known : ∀ p c, c ∈ s.held p → c < s.closed.length
  opened : ∀ p c, c ∈ s.intact p → s.closed[c]? = some false
  fired : ∀ c ∈ s.fired, c < s.closed.length ∧ ∀ p, c ∉ s.intact p
  kept : ∀ c, s.closed[c]? = some false → ∃ p, c ∈ s.held p
  bounded : ∀ key, (s.idle key).length ≤ poolPerEndpoint
  judged : ∀ x ∈ s.taken, x.now - x.since < poolIdle ∧ x.closed = false

theorem PoolPc.intact_subset (pc : PoolPc) : pc.intact ⊆ pc.conns := by
  cases pc with
  | busy c interrupted => cases interrupted <;> simp [intact, conns]
  | _ => simp [intact, conns]

theorem intact_subset_held (s : PoolSystem κ) (p : PoolPlace κ) : s.intact p ⊆ s.held p := by
  cases p with
  | slot key => exact List.Subset.refl _
  | call k =>
    simp only [PoolSystem.intact, PoolSystem.held]
    cases s.calls[k]? with
    | none => exact List.Subset.refl _
    | some y => exact y.pc.intact_subset

def PoolPc.removed : PoolPc → List ℕ
  | .judging _ e => [e.conn]
  | .evicting _ c => [c]
  | .leaving cs => cs
  | _ => []

inductive PoolMoved [DecidableEq κ] (lang : Lang) (s : PoolSystem κ) (k : ℕ) (y : PoolCall κ) :
    PoolSystem κ → Prop where
  | stays {pc : PoolPc} (hconns : pc.conns = y.pc.conns) (hintact : pc.intact ⊆ y.pc.intact)
      (hremoved : y.pc.removed ⊆ pc.removed) : PoolMoved lang s k y (s.goto k y pc)
  | cancel : PoolMoved lang s k y (s.update k { y with ended := true } (s.idle y.key))
  | pop {now : ℤ} {e : Pooled} (hpc : y.pc = .taking now)
      (hlast : (s.idle y.key).getLast? = some e) :
      PoolMoved lang s k y
        (s.update k { y with pc := .judging now e } (s.idle y.key).dropLast)
  | returns {now t : ℤ} {e : Pooled} (hpc : y.pc = .judging now e)
      (hage : t - e.since < poolIdle) :
      PoolMoved lang s k y { s.goto k y (.taken e.conn) with
        taken := s.taken ++ [⟨e.conn, e.since, t, s.isClosed e.conn⟩] }
  | closes {c : ℕ} {pc : PoolPc} (hconns : y.pc.conns = c :: pc.conns)
      (hintact : y.pc.intact = []) (hintact' : pc.intact = [])
      (hremoved : y.pc.removed = c :: pc.removed) :
      PoolMoved lang s k y ((s.close c).goto k y pc)
  | dial (hpc : y.pc = .dialing) :
      PoolMoved lang s k y { s.goto k y (.taken s.closed.length) with
        closed := s.closed ++ [false], opener := s.opener ++ [k] }
  | fire {c : ℕ} (hpc : y.pc = .busy c false) :
      PoolMoved lang s k y { s.goto k y (.busy c true) with fired := s.fired ++ [c] }
  | put {c : ℕ} {now : ℤ} (hpc : y.pc = .putting c) :
      PoolMoved lang s k y
        (s.update k { y with pc := .leaving (putCloses lang (s.idle y.key) c now) }
          (putIdle (s.idle y.key) c now).1)

open PoolMoved

theorem moved_of_move [DecidableEq κ] {m : PoolMove} (hm : s.move lang k y m = some t) :
    PoolMoved lang s k y t := by
  cases m with
    simp only [PoolSystem.move] at hm
  | begin now =>
    split_ifs at hm with hpc
    cases hm
    apply stays <;> simp [hpc, conns, intact, removed]
  | pop =>
    cases hpc : y.pc with
    | taking now =>
      simp only [hpc] at hm
      cases hlast : (s.idle y.key).getLast? with
      | none =>
        rw [hlast] at hm
        cases hm
        apply stays <;> simp [hpc, conns, intact, removed]
      | some e =>
        rw [hlast] at hm
        cases hm
        exact .pop hpc hlast
    | _ => simp [hpc] at hm
  | judge t fit =>
    cases hpc : y.pc with
    | judging now e =>
      simp only [hpc] at hm
      split_ifs at hm with hclock hfit
      · cases hm
        exact .returns hpc hfit.1
      · cases hm
        apply stays <;> simp [hpc, conns, intact, removed]
    | _ => simp [hpc] at hm
  | evict =>
    cases hpc : y.pc with
    | evicting now c =>
      simp only [hpc] at hm
      cases hm
      apply closes <;> simp [hpc, conns, intact, removed]
    | _ => simp [hpc] at hm
  | dial ok =>
    split_ifs at hm with hpc hok
    · cases hm
      exact .dial hpc
    · cases hm
      apply stays <;> simp [hpc, conns, intact, removed]
  | use ok =>
    cases hpc : y.pc with
    | taken c =>
      simp only [hpc] at hm
      split_ifs at hm
      all_goals
        cases hm
        apply stays <;> simp [hpc, conns, intact, removed]
    | _ => simp [hpc] at hm
  | cancel =>
    cases hm
    exact .cancel
  | fire =>
    cases hpc : y.pc with
    | busy c interrupted =>
      cases interrupted with
      | false =>
        simp only [hpc] at hm
        split_ifs at hm with hgo
        cases hm
        exact .fire hpc
      | true => simp [hpc] at hm
    | _ => simp [hpc] at hm
  | finish keep =>
    cases hpc : y.pc with
    | busy c interrupted =>
      simp only [hpc] at hm
      split_ifs at hm with hkeep
      · cases hm
        have hno : interrupted = false := by
          cases interrupted with
          | false => rfl
          | true => simp at hkeep
        subst hno
        apply stays <;> simp [hpc, conns, intact, removed]
      · cases hm
        apply stays <;> simp [hpc, conns, intact, removed]
    | _ => simp [hpc] at hm
  | put now =>
    cases hpc : y.pc with
    | putting c =>
      simp only [hpc] at hm
      cases hm
      exact .put hpc
    | _ => simp [hpc] at hm
  | drop =>
    cases hpc : y.pc with
    | leaving cs =>
      cases cs with
      | nil => simp [hpc] at hm
      | cons c cs =>
        simp only [hpc] at hm
        cases hm
        apply closes <;> simp [hpc, conns, intact, removed]
    | _ => simp [hpc] at hm
  | again now =>
    split_ifs at hm with hpc
    cases hm
    apply stays <;> simp [hpc, conns, intact, removed]
  | ret =>
    split_ifs at hm with hpc
    cases hm
    apply stays <;> simp [hpc, conns, intact, removed]

theorem held_call (hk : s.calls[k]? = some y) : s.held (.call k) = y.pc.conns := by
  simp [PoolSystem.held, hk]

theorem intact_call (hk : s.calls[k]? = some y) : s.intact (.call k) = y.pc.intact := by
  simp [PoolSystem.intact, hk]

theorem owned_start : (PoolSystem.start : PoolSystem κ).Owned where
  exclusive := by
    have hheld : (PoolSystem.start : PoolSystem κ).held = fun _ => [] := by
      funext p
      cases p <;> rfl
    rw [hheld]
    exact exclusive_nil
  known := fun p c hc => by cases p <;> cases hc
  opened := fun p c hc => by cases p <;> cases hc
  fired := fun c hc => by cases hc
  kept := fun c hc => by cases hc
  bounded := fun key => Nat.zero_le _
  judged := fun x hx => by cases hx

section Update

variable [DecidableEq κ] {list : List Pooled}

theorem held_update_slot (key : κ) : (s.update k y' list).held (.slot key) =
    if key = y'.key then list.map conn else s.held (.slot key) := by
  simp only [PoolSystem.held, PoolSystem.update]
  split_ifs <;> rfl

theorem map_update_call (f : PoolCall κ → List ℕ) (hk : s.calls[k]? = some y) (j : ℕ) :
    ((s.update k y' list).calls[j]?.map f).getD [] =
      if j = k then f y' else (s.calls[j]?.map f).getD [] := by
  obtain ⟨hlt, -⟩ := List.getElem?_eq_some_iff.1 hk
  simp only [PoolSystem.update]
  split_ifs with hj
  · rw [hj, List.getElem?_set_self hlt]
    rfl
  · rw [List.getElem?_set_ne (Ne.symm hj)]

theorem held_update_call (hk : s.calls[k]? = some y) (j : ℕ) : (s.update k y' list).held (.call j) =
      if j = k then y'.pc.conns else s.held (.call j) :=
  map_update_call (fun y => y.pc.conns) hk j

theorem intact_update_call (hk : s.calls[k]? = some y) (j : ℕ) :
    (s.update k y' list).intact (.call j) =
      if j = k then y'.pc.intact else s.intact (.call j) :=
  map_update_call (fun y => y.pc.intact) hk j

theorem mem_update {c : ℕ} {p : PoolPlace κ} (hk : s.calls[k]? = some y)
    (hkey : y'.key = y.key) (hc : c ∈ (s.update k y' list).held p) :
    (c ∈ list.map conn ++ y'.pc.conns) ∨ p ≠ .slot y.key ∧ p ≠ .call k ∧ c ∈ s.held p := by
  cases p with
  | slot key =>
    rw [held_update_slot, hkey] at hc
    split_ifs at hc with heq
    · exact .inl (mem_append_left _ hc)
    · exact .inr ⟨by simpa using heq, by simp, hc⟩
  | call j =>
    rw [held_update_call hk] at hc
    split_ifs at hc with heq
    · exact .inl (mem_append_right _ hc)
    · exact .inr ⟨by simp, by simpa using heq, hc⟩

theorem mem_intact_update {c : ℕ} {p : PoolPlace κ} (hk : s.calls[k]? = some y)
    (hc : c ∈ (s.update k y' list).intact p) :
    (c ∈ list.map conn ++ y'.pc.intact) ∨ c ∈ s.intact p := by
  cases p with
  | slot key =>
    have hslot : c ∈ (s.update k y' list).held (.slot key) := hc
    rw [held_update_slot] at hslot
    split_ifs at hslot
    · exact .inl (mem_append_left _ hslot)
    · exact .inr hslot
  | call j =>
    rw [intact_update_call hk] at hc
    split_ifs at hc
    · exact .inl (mem_append_right _ hc)
    · exact .inr hc

/-- A call passes connections to and from the idle ones of its key. What it gives up
altogether is closed. -/
theorem PoolSystem.Owned.update (h : s.Owned) (hk : s.calls[k]? = some y) (hkey : y'.key = y.key)
    (hsub : (list.map conn ++ y'.pc.conns).Subperm
      ((s.idle y.key).map conn ++ y.pc.conns))
    (hkept : ∀ c ∈ (s.idle y.key).map conn ++ y.pc.conns, s.closed[c]? = some false →
      c ∈ list.map conn ++ y'.pc.conns)
    (hintact : ∀ c ∈ list.map conn ++ y'.pc.intact,
      c ∈ (s.idle y.key).map conn ++ y.pc.intact)
    (hlen : list.length ≤ poolPerEndpoint) : (s.update k y' list).Owned := by
  have hslot : (s.update k y' list).held (.slot y.key) = list.map conn := by
    rw [held_update_slot, if_pos hkey.symm]
  have hcall : (s.update k y' list).held (.call k) = y'.pc.conns := by
    rw [held_update_call hk, if_pos rfl]
  have hold : ∀ c, c ∈ (s.idle y.key).map conn ++ y.pc.conns → ∃ p, c ∈ s.held p := by
    intro c hc
    rcases mem_append.1 hc with hc | hc
    · exact ⟨.slot y.key, hc⟩
    · exact ⟨.call k, by rw [held_call hk]; exact hc⟩
  have hold' : ∀ c, c ∈ (s.idle y.key).map conn ++ y.pc.intact → ∃ p, c ∈ s.intact p := by
    intro c hc
    rcases mem_append.1 hc with hc | hc
    · exact ⟨.slot y.key, hc⟩
    · exact ⟨.call k, by rw [intact_call hk]; exact hc⟩
  have hfrom : ∀ p c, c ∈ (s.update k y' list).intact p → ∃ q, c ∈ s.intact q := by
    intro p c hc
    rcases mem_intact_update hk hc with hc | hc
    · exact hold' c (hintact c hc)
    · exact ⟨p, hc⟩
  refine ⟨?_, ?_, ?_, ?_, ?_, ?_, h.judged⟩
  · apply h.exclusive.transfer (p := .slot y.key) (q := .call k) (by simp)
    · intro r hr hr'
      cases r with
      | slot key =>
        rw [held_update_slot, if_neg]
        intro heq
        exact hr (by rw [heq, hkey])
      | call j =>
        rw [held_update_call hk, if_neg]
        intro heq
        exact hr' (by rw [heq])
    · rw [hslot, hcall, held_call hk]
      exact hsub
  · intro p c hc
    rcases mem_update hk hkey hc with hc | ⟨-, -, hc⟩
    · obtain ⟨q, hq⟩ := hold c (hsub.subset hc)
      exact h.known q c hq
    · exact h.known p c hc
  · intro p c hc
    obtain ⟨q, hq⟩ := hfrom p c hc
    exact h.opened q c hq
  · intro c hfired
    refine ⟨(h.fired c hfired).1, fun p hc => ?_⟩
    obtain ⟨q, hq⟩ := hfrom p c hc
    exact (h.fired c hfired).2 q hq
  · intro c hc
    obtain ⟨p, hp⟩ := h.kept c hc
    have hnew : c ∈ (s.idle y.key).map conn ++ y.pc.conns →
        ∃ p, c ∈ (s.update k y' list).held p := by
      intro hmem
      rcases mem_append.1 (hkept c hmem hc) with hmem | hmem
      · exact ⟨.slot y.key, by rw [hslot]; exact hmem⟩
      · exact ⟨.call k, by rw [hcall]; exact hmem⟩
    cases p with
    | slot key =>
      by_cases heq : key = y.key
      · subst heq
        exact hnew (mem_append_left _ hp)
      · refine ⟨.slot key, ?_⟩
        rw [held_update_slot, if_neg (by rw [hkey]; exact heq)]
        exact hp
    | call j =>
      by_cases heq : j = k
      · subst heq
        rw [held_call hk] at hp
        exact hnew (mem_append_right _ hp)
      · refine ⟨.call j, ?_⟩
        rw [held_update_call hk, if_neg heq]
        exact hp
  · intro key
    simp only [PoolSystem.update]
    split_ifs
    · exact hlen
    · exact h.bounded key

theorem PoolSystem.Owned.goto (h : s.Owned) (hk : s.calls[k]? = some y) {pc : PoolPc}
    (hconns : pc.conns = y.pc.conns) (hintact : pc.intact ⊆ y.pc.intact) :
    (s.goto k y pc).Owned := by
  apply PoolSystem.Owned.update h hk
  · rfl
  · rw [hconns]
  · intro c hc _
    rw [hconns]
    exact hc
  · intro c hc
    rcases mem_append.1 hc with hc | hc
    · exact mem_append_left _ hc
    · exact mem_append_right _ (hintact hc)
  · exact h.bounded y.key

theorem PoolSystem.Owned.release (h : s.Owned) (hk : s.calls[k]? = some y) {pc : PoolPc}
    {c : ℕ} (hconns : y.pc.conns = c :: pc.conns) (hclosed : s.closed[c]? ≠ some false)
    (hintact : pc.intact ⊆ y.pc.intact) : (s.goto k y pc).Owned := by
  apply PoolSystem.Owned.update h hk
  · rfl
  · rw [hconns]
    exact List.Sublist.subperm ((sublist_cons_self _ _).append_left _)
  · intro x hx hopen
    rw [hconns] at hx
    rcases mem_append.1 hx with hx | hx
    · exact mem_append_left _ hx
    · rcases mem_cons.1 hx with rfl | hx
      · exact absurd hopen hclosed
      · exact mem_append_right _ hx
  · intro x hx
    rcases mem_append.1 hx with hx | hx
    · exact mem_append_left _ hx
    · exact mem_append_right _ (hintact hx)
  · exact h.bounded y.key

end Update

theorem close_closed (s : PoolSystem κ) (c : ℕ) : (s.close c).closed[c]? ≠ some false := by
  simp only [PoolSystem.close, List.getElem?_set, ↓reduceIte]
  split_ifs <;> simp

theorem PoolSystem.Owned.close (h : s.Owned) {c : ℕ} (hc : ∀ p, c ∉ s.intact p) :
    (s.close c).Owned where
  exclusive := h.exclusive
  known := fun p x hx => by
    simp only [PoolSystem.close, length_set]
    exact h.known p x hx
  opened := fun p x hx => by
    have hne : c ≠ x := by
      rintro rfl
      exact hc p hx
    simp only [PoolSystem.close]
    rw [List.getElem?_set_ne hne]
    exact h.opened p x hx
  fired := fun x hx => by
    simp only [PoolSystem.close, length_set]
    exact h.fired x hx
  kept := fun x hx => by
    have hne : c ≠ x := by
      rintro rfl
      exact close_closed s c hx
    simp only [PoolSystem.close] at hx
    rw [List.getElem?_set_ne hne] at hx
    exact h.kept x hx
  bounded := h.bounded
  judged := h.judged

theorem PoolSystem.Owned.not_intact (h : s.Owned) (hk : s.calls[k]? = some y) {c : ℕ}
    (hc : c ∈ y.pc.conns) (hno : c ∉ y.pc.intact) (p : PoolPlace κ) : c ∉ s.intact p := by
  intro hp
  have heq := h.exclusive.apart p (.call k) c (intact_subset_held s p hp)
    (by rw [held_call hk]; exact hc)
  subst heq
  rw [intact_call hk] at hp
  exact hno hp

theorem PoolSystem.Owned.fire (h : s.Owned) {c : ℕ} (hlt : c < s.closed.length)
    (hc : ∀ p, c ∉ s.intact p) :
    PoolSystem.Owned { s with fired := s.fired ++ [c] } where
  exclusive := h.exclusive
  known := h.known
  opened := h.opened
  fired := fun x hx => by
    rcases mem_append.1 hx with hx | hx
    · exact h.fired x hx
    · rw [mem_singleton.1 hx]
      exact ⟨hlt, hc⟩
  kept := h.kept
  bounded := h.bounded
  judged := h.judged

theorem PoolSystem.Owned.callback (h : s.Owned) {c : ℕ} (hc : c ∈ s.fired) :
    PoolSystem.Owned { s.close c with fired := s.fired.erase c } := by
  have hclose := h.close (h.fired c hc).2
  exact ⟨hclose.exclusive, hclose.known, hclose.opened,
    fun x hx => hclose.fired x (mem_of_mem_erase hx), hclose.kept, hclose.bounded,
    hclose.judged⟩

theorem PoolSystem.Owned.log (h : s.Owned) {x : Taken}
    (hx : x.now - x.since < poolIdle ∧ x.closed = false) :
    PoolSystem.Owned { s with taken := s.taken ++ [x] } where
  exclusive := h.exclusive
  known := h.known
  opened := h.opened
  fired := h.fired
  kept := h.kept
  bounded := h.bounded
  judged := fun z hz => by
    rcases mem_append.1 hz with hz | hz
    · exact h.judged z hz
    · rw [mem_singleton.1 hz]
      exact hx

theorem map_concat_call (f : PoolCall κ → List ℕ) (hf : f y = []) (j : ℕ) :
    ((s.calls ++ [y])[j]?.map f).getD [] = (s.calls[j]?.map f).getD [] := by
  rcases Nat.lt_trichotomy j s.calls.length with hj | rfl | hj
  · rw [List.getElem?_append_left hj]
  · rw [List.getElem?_append_right le_rfl, List.getElem?_eq_none le_rfl]
    simpa using hf
  · rw [List.getElem?_eq_none (by simp; omega), List.getElem?_eq_none hj.le]

theorem held_concat_call (key : κ) :
    PoolSystem.held { s with calls := s.calls ++ [⟨key, false, .start⟩] } = s.held := by
  funext p
  cases p with
  | slot key => rfl
  | call j => exact map_concat_call (fun y => y.pc.conns) rfl j

theorem PoolSystem.Owned.call (h : s.Owned) (key : κ) :
    PoolSystem.Owned { s with calls := s.calls ++ [⟨key, false, .start⟩] } := by
  have hheld := held_concat_call (s := s) key
  have hintact : PoolSystem.intact { s with calls := s.calls ++ [⟨key, false, .start⟩] } =
      s.intact := by
    funext p
    cases p with
    | slot key => rfl
    | call j => exact map_concat_call (fun y => y.pc.intact) rfl j
  refine ⟨?_, ?_, ?_, ?_, ?_, h.bounded, h.judged⟩
  · rw [hheld]
    exact h.exclusive
  · rw [hheld]
    exact h.known
  · rw [hintact]
    exact h.opened
  · rw [hintact]
    exact h.fired
  · rw [hheld]
    exact h.kept

section Put

variable (lang : Lang) (list : List Pooled) (conn : ℕ) (now : ℤ)

theorem putCloses_perm : (putCloses lang list conn now).Perm
    ((if (putIdle list conn now).2.2 then [] else [conn]) ++
      (putIdle list conn now).2.1.map Pooled.conn) := by
  cases lang with
  | go => exact List.Perm.refl _
  | cpp => exact perm_append_comm

theorem putIdle_perm : ((putIdle list conn now).1.map Pooled.conn ++
    putCloses lang list conn now).Perm (list.map Pooled.conn ++ [conn]) := by
  have hsplit : list.map Pooled.conn = (list.takeWhile (Pooled.stale now)).map Pooled.conn ++
        (list.dropWhile (Pooled.stale now)).map Pooled.conn := by
    rw [← map_append, takeWhile_append_dropWhile]
  apply ((putCloses_perm lang list conn now).append_left _).trans
  rw [hsplit, append_assoc]
  by_cases hfull : poolPerEndpoint ≤ (list.dropWhile (Pooled.stale now)).length
  · rw [putIdle, if_pos hfull]
    simp only [Bool.false_eq_true, ↓reduceIte]
    rw [← append_assoc]
    exact perm_append_comm
  · rw [putIdle, if_neg hfull]
    simp only [↓reduceIte, map_append, map_cons, map_nil, nil_append]
    exact perm_append_comm

theorem length_putIdle (h : list.length ≤ poolPerEndpoint) :
    (putIdle list conn now).1.length ≤ poolPerEndpoint := by
  have hdrop : (list.dropWhile (Pooled.stale now)).length ≤ list.length :=
    (dropWhile_suffix _).length_le
  simp only [putIdle]
  split_ifs with hfull
  · exact hdrop.trans h
  · simp only [length_append, length_singleton]
    omega

end Put

section Step

variable [DecidableEq κ]

section

variable (h : s.Owned) (hk : s.calls[k]? = some y)

include h hk

theorem PoolSystem.Owned.dial (hpc : y.pc.conns = []) :
    PoolSystem.Owned { s.goto k y (.taken s.closed.length) with
      closed := s.closed ++ [false], opener := s.opener ++ [k] } := by
  have hslot : ∀ key, (s.goto k y (.taken s.closed.length)).held (.slot key) =
      s.held (.slot key) := by
    intro key
    rw [PoolSystem.goto, held_update_slot]
    split_ifs with heq
    · rw [heq]
      rfl
    · rfl
  have hcall : ∀ j, (s.goto k y (.taken s.closed.length)).held (.call j) =
      if j = k then [s.closed.length] else s.held (.call j) := held_update_call hk
  have hnew : (s.closed ++ [false])[s.closed.length]? = some false := by
    rw [List.getElem?_append_right le_rfl]
    simp
  have hlt : ∀ {c : ℕ}, c < s.closed.length → (s.closed ++ [false])[c]? = s.closed[c]? :=
    List.getElem?_append_left
  -- the new connection was nowhere before
  have hfrom : ∀ p c, c ∈ (s.goto k y (.taken s.closed.length)).intact p →
      c = s.closed.length ∨ ∃ q, c ∈ s.intact q := by
    intro p c hc
    rcases mem_intact_update hk hc with hc | hc
    · rcases mem_append.1 hc with hc | hc
      · exact .inr ⟨.slot y.key, hc⟩
      · exact .inl (mem_singleton.1 hc)
    · exact .inr ⟨p, hc⟩
  refine ⟨?_, ?_, ?_, ?_, ?_, ?_, h.judged⟩
  · apply h.exclusive.fresh (p := .call k) (x := s.closed.length)
    · exact (hcall k).trans (if_pos rfl)
    · intro r hr
      cases r with
      | slot key => exact hslot key
      | call j => exact (hcall j).trans (if_neg fun heq => hr (by rw [heq]))
    · intro r hr
      exact lt_irrefl _ (h.known r _ hr)
  · intro p c hc
    rw [length_append, length_singleton]
    cases p with
    | slot key => exact Nat.lt_succ_of_lt (h.known (.slot key) c (hslot key ▸ hc))
    | call j =>
      have hc' := (hcall j) ▸ hc
      split_ifs at hc'
      · rw [mem_singleton.1 hc']
        exact Nat.lt_succ_self _
      · exact Nat.lt_succ_of_lt (h.known (.call j) c hc')
  · intro p c hc
    rcases hfrom p c hc with rfl | ⟨q, hq⟩
    · exact hnew
    · exact (hlt (h.known q c (intact_subset_held s q hq))).trans (h.opened q c hq)
  · intro c hfired
    rw [length_append, length_singleton]
    refine ⟨Nat.lt_succ_of_lt (h.fired c hfired).1, fun p hc => ?_⟩
    rcases hfrom p c hc with rfl | ⟨q, hq⟩
    · exact lt_irrefl _ (h.fired _ hfired).1
    · exact (h.fired c hfired).2 q hq
  · intro c hc
    obtain ⟨hlen, -⟩ := List.getElem?_eq_some_iff.1 hc
    rw [length_append, length_singleton, Nat.lt_succ_iff_lt_or_eq] at hlen
    rcases hlen with hlen | rfl
    · obtain ⟨p, hp⟩ := h.kept c ((hlt hlen).symm.trans hc)
      cases p with
      | slot key => exact ⟨.slot key, (hslot key).symm ▸ hp⟩
      | call j =>
        refine ⟨.call j, ?_⟩
        have hne : j ≠ k := by
          rintro rfl
          rw [held_call hk, hpc] at hp
          cases hp
        exact ((hcall j).trans (if_neg hne)).symm ▸ hp
    · refine ⟨.call k, ?_⟩
      exact ((hcall k).trans (if_pos rfl)).symm ▸ mem_singleton_self _
  · intro key
    simp only [PoolSystem.goto, PoolSystem.update]
    split_ifs
    · exact h.bounded y.key
    · exact h.bounded key

theorem PoolSystem.Owned.pop {now : ℤ} {e : Pooled}
    (hpc : y.pc = .taking now) (hlast : (s.idle y.key).getLast? = some e) :
    (s.update k { y with pc := .judging now e } (s.idle y.key).dropLast).Owned := by
  have hsplit : (s.idle y.key).map Pooled.conn =
      (s.idle y.key).dropLast.map Pooled.conn ++ [e.conn] := by
    conv_lhs => rw [← dropLast_append_getLast? e hlast]
    simp
  apply PoolSystem.Owned.update h hk
  · rfl
  · rw [hpc, hsplit]
    exact (append_nil _).symm ▸ List.Subperm.refl _
  · intro c hc _
    rw [hpc, hsplit] at hc
    simpa [conns] using hc
  · intro c hc
    rw [hpc, hsplit]
    simpa [PoolPc.intact] using hc
  · rw [length_dropLast]
    exact (Nat.sub_le _ _).trans (h.bounded y.key)

theorem PoolSystem.Owned.put {c : ℕ} (hpc : y.pc = .putting c) (now : ℤ) :
    (s.update k { y with pc := .leaving (putCloses lang (s.idle y.key) c now) }
      (putIdle (s.idle y.key) c now).1).Owned := by
  have hperm := putIdle_perm lang (s.idle y.key) c now
  apply PoolSystem.Owned.update h hk
  · rfl
  · rw [hpc]
    exact hperm.subperm
  · intro x hx _
    rw [hpc] at hx
    exact hperm.symm.subset hx
  · intro x hx
    rw [hpc]
    simp only [PoolPc.intact, append_nil] at hx ⊢
    exact hperm.subset (mem_append_left _ hx)
  · exact length_putIdle _ _ _ (h.bounded y.key)

theorem PoolSystem.Owned.giveUp {pc : PoolPc}
    {c : ℕ} (hconns : y.pc.conns = c :: pc.conns) (hintact : y.pc.intact = [])
    (hintact' : pc.intact = []) : ((s.close c).goto k y pc).Owned := by
  have hclose : (s.close c).Owned := by
    apply h.close
    apply h.not_intact hk
    · rw [hconns]
      exact mem_cons_self
    · rw [hintact]
      exact not_mem_nil
  apply hclose.release hk hconns (close_closed s c)
  rw [hintact']
  exact nil_subset _

theorem PoolSystem.Owned.move (hm : PoolMoved lang s k y t) : t.Owned := by
  cases hm with
  | stays hconns hintact _ => exact h.goto hk hconns hintact
  | cancel =>
    apply PoolSystem.Owned.update h hk
    · rfl
    · exact List.Subperm.refl _
    · exact fun c hc _ => hc
    · exact fun c hc => hc
    · exact h.bounded y.key
  | pop hpc hlast => exact h.pop hk hpc hlast
  | @returns now _ e hpc hage =>
    have hopen : s.closed[e.conn]? = some false := by
      apply h.opened (.call k)
      rw [intact_call hk, hpc]
      exact mem_singleton_self _
    have hgoto : (s.goto k y (.taken e.conn)).Owned := by
      apply h.goto hk <;> simp [hpc, PoolPc.conns, PoolPc.intact]
    apply hgoto.log
    exact ⟨hage, by simp [PoolSystem.isClosed, hopen]⟩
  | closes hconns hintact hintact' => exact h.giveUp hk hconns hintact hintact'
  | dial hpc =>
    apply h.dial hk
    rw [hpc]
    rfl
  | @fire c hpc =>
    have hgoto : (s.goto k y (.busy c true)).Owned := by
      apply h.goto hk <;> simp [hpc, PoolPc.conns, PoolPc.intact]
    have hk' : (s.goto k y (.busy c true)).calls[k]? = some { y with pc := .busy c true } := by
      obtain ⟨hlt, -⟩ := List.getElem?_eq_some_iff.1 hk
      exact List.getElem?_set_self hlt
    have hmem : c ∈ (busy c true).conns := mem_singleton_self c
    apply hgoto.fire
    · exact hgoto.known (.call k) c (by rw [held_call hk']; exact hmem)
    · exact hgoto.not_intact hk' hmem not_mem_nil
  | put hpc => exact h.put hk hpc _

end

theorem PoolSystem.Owned.step (h : s.Owned) {act : PoolAct κ}
    (hact : poolStep lang s act = some t) : t.Owned := by
  cases act with
  | call key =>
    cases hact
    exact h.call key
  | move k m =>
    obtain ⟨y, hk, hm⟩ := Option.bind_eq_some_iff.1 hact
    exact h.move hk (moved_of_move hm)
  | callback c =>
    simp only [poolStep] at hact
    split_ifs at hact with hc
    cases hact
    exact h.callback hc

end Step

end Listen
