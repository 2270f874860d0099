import AbstractionIdentity.Python.CancellationSafe
import AbstractionIdentity.Transition.Lock

/-!
# The cancellation tree does not deadlock

`signal` keeps the lock of a node while it takes those of the children, and `close` takes the lock
of the parent before its own. A child has a larger number than the node it was made through, so
locks are taken in the order of the numbers: a call waits for a node above all those it holds
(`StackIn`). Some call can therefore always make a step (`cancellation_progress`).
-/

namespace Python

open Transition List Option Frame

/-- The node whose lock the frame takes or holds. -/
def Frame.node : Frame → ℕ
  | .signal n | .walk n _ | .link n _ | .linked n _ | .detach _ n | .close n _ | .closeWalk n _
  | .waiting n | .take n | .taken n | .calling n | .finish n => n

def Frame.ahead : Frame → List ℕ
  | .walk _ todo | .closeWalk _ todo => todo
  | .link _ child => [child]
  | .detach node _ => [node]
  | _ => []

def Frame.holds : Frame → Bool
  | .walk _ _ | .closeWalk _ _ | .linked _ _ => true
  | _ => false

/-- The next step of the frame takes the lock of its node. -/
def Frame.locks : Frame → Bool
  | .taken _ | .calling _ => false
  | frame => !frame.holds

def Frame.In (frame : Frame) (len : ℕ) : Prop :=
  frame.node < len ∧ ∀ c ∈ frame.ahead, frame.node < c ∧ c < len

def StackIn (len : ℕ) : List Frame → Prop
  | [] => True
  | frame :: rest =>
    frame.In len ∧ (∀ g ∈ rest, g.holds = true ∧ g.node < frame.node) ∧ StackIn len rest

def NodesIn (nodes : List Node) : Prop :=
  ∀ (n : ℕ) (x : Node), nodes[n]? = some x →
    (∀ c ∈ x.children, n < c ∧ c < nodes.length) ∧ ∀ p, x.parent = some p → p < n

structure Tree.Ordered (t : Tree) : Prop where
  nodes : NodesIn t.nodes
  calls : ∀ (i : ℕ) (st : List Frame), t.threads[i]? = some st → StackIn t.nodes.length st
  locks : ∀ (n : ℕ) (x : Node), t.nodes[n]? = some x → x.locked = true →
    ∃ st ∈ t.threads, ∃ g ∈ st, g.holds = true ∧ g.node = n

variable {t t' : Tree} {frame : Frame} {frames rest st : List Frame} {nodes : List Node}
  {n m len len' : ℕ} {x x' y : Node}

theorem Frame.In.mono (h : frame.In len) (hlen : len ≤ len') : frame.In len' :=
  ⟨h.1.trans_le hlen, fun c hc => ⟨(h.2 c hc).1, (h.2 c hc).2.trans_le hlen⟩⟩

theorem StackIn.mono (h : StackIn len st) (hlen : len ≤ len') : StackIn len' st := by
  induction st with
  | nil => trivial
  | cons frame rest ih => exact ⟨h.1.mono hlen, h.2.1, ih h.2.2⟩

theorem NodesIn.set (h : NodesIn nodes) (hx : nodes[n]? = some x)
    (hchildren : ∀ c ∈ x'.children, c ∈ x.children ∨ n < c ∧ c < nodes.length)
    (hparent : ∀ p, x'.parent = some p → x.parent = some p ∨ p < n) :
    NodesIn (nodes.set n x') := by
  intro m y hy
  rw [length_set]
  rcases lookup_set hy with ⟨rfl, rfl⟩ | ⟨-, hy⟩
  · obtain ⟨hc, hp⟩ := h m x hx
    exact ⟨fun c hc' => (hchildren c hc').elim (hc c) id,
      fun p hp' => (hparent p hp').elim (hp p) id⟩
  · exact h m y hy

theorem NodesIn.keep (h : NodesIn nodes) (hx : nodes[n]? = some x)
    (hchildren : x'.children = x.children) (hparent : x'.parent = x.parent) :
    NodesIn (nodes.set n x') :=
  h.set hx (fun _ hc => .inl (hchildren ▸ hc)) fun _ hp => .inl (hparent ▸ hp)

theorem release_nodes (t : Tree) (n : ℕ) (x : Node) : ∃ x', (t.release n x).nodes =
    t.nodes.set n x' ∧ x'.children = x.children ∧ x'.parent = x.parent ∧ x'.locked = false := by
  unfold Tree.release
  split_ifs
  · exact ⟨_, rfl, rfl, rfl, rfl⟩
  · exact ⟨_, rfl, rfl, rfl, rfl⟩

theorem Advanced.length (h : Advanced t frame t' frames) : t'.nodes.length = t.nodes.length := by
  cases h with
  | clearRelease hx _ | waiting hx _ =>
    obtain ⟨x', hnodes, -⟩ := release_nodes t _ _
    rw [hnodes, length_set]
  | _ => simp

theorem Advanced.nodesIn (h : Advanced t frame t' frames) (hn : NodesIn t.nodes)
    (hframe : frame.In t.nodes.length) : NodesIn t'.nodes := by
  cases h with
  | signal hx | walkEnd hx | linkShut hx | linked hx | close hx | take hx _ | finish hx =>
    exact hn.keep hx rfl rfl
  | walkNext | closeNext | refused | taken hx | calling => exact hn
  | @link n child x y hx hopen hy =>
    have hchild := hframe.2 child (by simp [ahead])
    have hlink : NodesIn (t.nodes.set n { x with children := child :: x.children }) := by
      refine hn.set hx (fun c hc => ?_) fun p hp => .inl hp
      rcases mem_cons.1 hc with rfl | hc
      · exact .inr hchild
      · exact .inl hc
    exact hlink.set hy (fun c hc => .inl hc) fun p hp => .inr (some.inj hp ▸ hchild.1)
  | @detach n parent x y hx hy =>
    have hfilter : NodesIn (t.nodes.set parent
        { x with children := x.children.filter (· ≠ n) }) :=
      hn.set hx (fun c hc => .inl (mem_filter.1 hc).1) fun p hp => .inl hp
    exact hfilter.set hy (fun c hc => .inl hc) fun p hp => by cases hp
  | clearWait hx => exact hn.set hx (fun c hc => by cases hc) fun p hp => .inl hp
  | @clearRelease n x hx _ =>
    obtain ⟨x', hnodes, hchildren, hparent, -⟩ := release_nodes t n x.clear
    rw [hnodes]
    refine hn.set hx (fun c hc => ?_) fun p hp => .inl (hparent ▸ hp)
    rw [hchildren] at hc
    cases hc
  | @waiting n x hx _ =>
    obtain ⟨x', hnodes, hchildren, hparent, -⟩ := release_nodes t n x
    rw [hnodes]
    exact hn.keep hx hchildren hparent

theorem StackIn.replace {f : Frame} (h : StackIn len (frame :: rest)) (hf : f.In len)
    (hnode : frame.node ≤ f.node) : StackIn len (f :: rest) :=
  ⟨hf, fun g hg => ⟨(h.2.1 g hg).1, (h.2.1 g hg).2.trans_le hnode⟩, h.2.2⟩

theorem StackIn.signal (h : StackIn len (frame :: rest)) (hhold : frame.holds = true)
    (hn : frame.node < n ∧ n < len) : StackIn len (.signal n :: frame :: rest) := by
  refine ⟨⟨hn.2, fun c hc => by cases hc⟩, fun g hg => ?_, h⟩
  rcases mem_cons.1 hg with rfl | hg
  · exact ⟨hhold, hn.1⟩
  · exact ⟨(h.2.1 g hg).1, (h.2.1 g hg).2.trans hn.1⟩

theorem Advanced.stackIn (h : Advanced t frame t' frames) (hn : NodesIn t.nodes)
    (hst : StackIn t.nodes.length (frame :: rest)) : StackIn t.nodes.length (frames ++ rest) := by
  obtain ⟨hlt, hahead⟩ := hst.1
  have hstay : ∀ {f : Frame}, f.ahead = [] → f.node = frame.node →
      StackIn t.nodes.length (f :: rest) := fun {f} hf hnode =>
    hst.replace ⟨hnode ▸ hlt, fun c hc => by rw [hf] at hc; cases hc⟩ hnode.ge
  cases h with
  | signal hx | close hx => exact hst.replace ⟨hlt, (hn _ _ hx).1⟩ le_rfl
  | @walkNext n child todo =>
    obtain ⟨hchild, htodo⟩ := forall_mem_cons.1 hahead
    exact (@StackIn.replace _ _ _ (.walk n todo) hst ⟨hlt, htodo⟩ le_rfl).signal rfl hchild
  | @closeNext n child todo =>
    obtain ⟨hchild, htodo⟩ := forall_mem_cons.1 hahead
    exact (@StackIn.replace _ _ _ (.closeWalk n todo) hst ⟨hlt, htodo⟩ le_rfl).signal rfl hchild
  | @linkShut n child x hx =>
    exact (@hstay (.linked n child) rfl rfl).signal rfl (hahead child (by simp [ahead]))
  | @detach n parent x y hx hy =>
    obtain ⟨hlower, hn⟩ := hahead n (by simp [ahead])
    exact hst.replace ⟨hn, fun c hc => by cases hc⟩ hlower.le
  | clearWait hx | take hx _ | taken hx | calling => exact hstay rfl rfl
  | _ => exact hst.2.2

theorem locked_keep (h : (nodes.set n x')[m]? = some y) (hx : nodes[n]? = some x)
    (hlocked : x'.locked = x.locked) (hy : y.locked = true) :
    ∃ z, nodes[m]? = some z ∧ z.locked = true := by
  rcases lookup_set h with ⟨rfl, rfl⟩ | ⟨-, hm⟩
  · exact ⟨x, hx, hlocked ▸ hy⟩
  · exact ⟨y, hm, hy⟩

theorem locked_other (h : (nodes.set n x')[m]? = some y) (hlocked : x'.locked = false)
    (hy : y.locked = true) : n ≠ m ∧ ∃ z, nodes[m]? = some z ∧ z.locked = true := by
  rcases lookup_set h with ⟨rfl, rfl⟩ | ⟨hne, hm⟩
  · rw [hlocked] at hy
    cases hy
  · exact ⟨hne.symm, y, hm, hy⟩

/-- A lock that is held after a step was taken by it, or was held before and not by the frame. -/
theorem Advanced.locks (h : Advanced t frame t' frames) (hy : t'.nodes[m]? = some y)
    (hlocked : y.locked = true) : (∃ g ∈ frames, g.holds = true ∧ g.node = m) ∨
      (∃ z, t.nodes[m]? = some z ∧ z.locked = true) ∧ (frame.holds = true → frame.node ≠ m) := by
  cases h with
  | signal hx | linkShut hx | close hx =>
    rcases lookup_set hy with ⟨rfl, -⟩ | ⟨-, hy⟩
    · exact .inl (by simp [holds, node])
    · exact .inr ⟨⟨y, hy, hlocked⟩, fun hh => by cases hh⟩
  | @walkNext n _ _ | @closeNext n _ _ =>
    by_cases hm : n = m
    · exact .inl (by simp [holds, node, hm])
    · exact .inr ⟨⟨y, hy, hlocked⟩, fun _ => hm⟩
  | walkEnd hx | linked hx | clearWait hx =>
    obtain ⟨hne, hz⟩ := locked_other hy rfl hlocked
    exact .inr ⟨hz, fun _ => hne⟩
  | clearRelease hx _ | waiting hx _ =>
    obtain ⟨x', hnodes, -, -, hfree⟩ := release_nodes t _ _
    rw [hnodes] at hy
    obtain ⟨hne, hz⟩ := locked_other hy hfree hlocked
    exact .inr ⟨hz, fun _ => hne⟩
  | link hx hopen hy' | detach hx hy' =>
    obtain ⟨z, hz, hl⟩ := locked_keep hy hy' rfl hlocked
    exact .inr ⟨locked_keep hz hx rfl hl, fun hh => by cases hh⟩
  | take hx _ | finish hx => exact .inr ⟨locked_keep hy hx rfl hlocked, fun hh => by cases hh⟩
  | refused | taken hx | calling => exact .inr ⟨⟨y, hy, hlocked⟩, fun hh => by cases hh⟩

theorem Tree.Ordered.create (h : t.Ordered) :
    Tree.Ordered { t with nodes := t.nodes ++ [.new] } where
  nodes m y hy := by
    rw [length_append]
    rcases lookup_concat_iff.1 hy with ⟨-, rfl⟩ | ⟨-, hy⟩
    · exact ⟨fun c hc => (by cases hc), fun p hp => (by cases hp)⟩
    · obtain ⟨hchildren, hparent⟩ := h.nodes m y hy
      exact ⟨fun c hc => ⟨(hchildren c hc).1, (hchildren c hc).2.trans_le (by simp)⟩, hparent⟩
  calls i st hst := (h.calls i st hst).mono (by simp)
  locks m y hy hlocked := by
    rcases lookup_concat_iff.1 hy with ⟨-, rfl⟩ | ⟨-, hy⟩
    · cases hlocked
    · exact h.locks m y hy hlocked

theorem Tree.Ordered.spawn (h : t.Ordered) (hframe : frame.In t.nodes.length) :
    Tree.Ordered { t with threads := t.threads ++ [[frame]] } where
  nodes := h.nodes
  calls := forall_concat h.calls ⟨hframe, by simp, trivial⟩
  locks m y hy hlocked := by
    obtain ⟨st, hst, hg⟩ := h.locks m y hy hlocked
    exact ⟨st, mem_append_left _ hst, hg⟩

theorem Tree.Ordered.advance {i : ℕ} (h : t.Ordered) (hi : t.threads[i]? = some (frame :: rest))
    (hadv : Advanced t frame t' frames) :
    Tree.Ordered { t' with threads := t'.threads.set i (frames ++ rest) } where
  nodes := hadv.nodesIn h.nodes (h.calls i _ hi).1
  calls j st hst := by
    change StackIn t'.nodes.length st
    rw [hadv.length]
    rw [hadv.threads] at hst
    rcases lookup_set hst with ⟨-, rfl⟩ | ⟨-, hst⟩
    · exact hadv.stackIn h.nodes (h.calls i _ hi)
    · exact h.calls j st hst
  locks m y hy hlocked := by
    change ∃ st ∈ t'.threads.set i (frames ++ rest), _
    rw [hadv.threads]
    have hnew : frames ++ rest ∈ t.threads.set i (frames ++ rest) :=
      mem_of_getElem? ((lookup_set_iff hi).2 (.inl ⟨rfl, rfl⟩))
    rcases hadv.locks hy hlocked with ⟨g, hg, hhold⟩ | ⟨⟨z, hz, hl⟩, hframe⟩
    · exact ⟨_, hnew, g, mem_append_left _ hg, hhold⟩
    · obtain ⟨st, hst, g, hg, hhold, hnode⟩ := h.locks m z hz hl
      obtain ⟨j, hj⟩ := List.getElem?_of_mem hst
      by_cases hij : j = i
      · subst hij
        obtain rfl : st = frame :: rest := some.inj (hj.symm.trans hi)
        rcases mem_cons.1 hg with rfl | hg
        · exact absurd hnode (hframe hhold)
        · exact ⟨_, hnew, g, mem_append_right _ hg, hhold, hnode⟩
      · exact ⟨st, mem_of_getElem? ((lookup_set_iff hi).2 (.inr ⟨hij, hj⟩)), g, hg, hhold, hnode⟩

theorem Tree.Ordered.step {act : CancelAct} (h : t.Ordered) (hstep : cancelStep t act = some t') :
    t'.Ordered := by
  have hspawn : ∀ {n : ℕ} {f : Node → Frame}, t.spawn n f = some t' →
      (∀ x, t.nodes[n]? = some x → (f x).In t.nodes.length) → t'.Ordered := by
    intro n f hs hf
    obtain ⟨x, hx, hs⟩ := node_of_match hs
    cases hs
    exact h.spawn (hf x hx)
  have halone : ∀ {n : ℕ} {x : Node}, t.nodes[n]? = some x → n < t.nodes.length :=
    fun hx => (List.getElem?_eq_some_iff.1 hx).1
  cases act with
  | create => exact some.inj hstep ▸ h.create
  | signal n | openSession n => exact hspawn hstep fun x hx => ⟨halone hx, fun c hc => by cases hc⟩
  | child n =>
    obtain ⟨x, hx, hstep⟩ := node_of_match hstep
    cases hstep
    have hn := halone hx
    refine h.create.spawn ⟨?_, fun c hc => ?_⟩
    · simp [node]
      omega
    · obtain rfl : c = t.nodes.length := by simpa [ahead] using hc
      simpa [node] using hn
  | close n =>
    refine hspawn hstep fun x hx => ?_
    unfold closeFrame
    cases hp : x.parent with
    | none => exact ⟨halone hx, fun c hc => by cases hc⟩
    | some p =>
      have hlt := (h.nodes n x hx).2 p hp
      refine ⟨hlt.trans (halone hx), fun c hc => ?_⟩
      obtain rfl : c = n := by simpa [ahead] using hc
      exact ⟨hlt, halone hx⟩
  | step i =>
    simp only [cancelStep] at hstep
    split at hstep
    · rename_i frame rest hi
      split at hstep
      · rename_i t'' frames hadv
        exact some.inj hstep ▸ h.advance hi (advanced_of_advance hadv)
      · cases hstep
    · cases hstep

/-! ### Progress -/

/-- Call `i` has not returned. -/
def Tree.Active (t : Tree) (i : ℕ) : Prop := ∃ frame rest, t.threads[i]? = some (frame :: rest)

/-- The node whose lock the call waits for. -/
def Tree.waits (t : Tree) (i : ℕ) : Option ℕ :=
  match t.threads[i]? with
  | some (frame :: _) =>
    if frame.locks && t.nodes[frame.node]?.any Node.locked then some frame.node else none
  | _ => none

variable {i : ℕ}

theorem waits_of_locked (hi : t.threads[i]? = some (frame :: rest)) (hwaits : t.waits i = none)
    (hlocks : frame.locks = true) (hx : t.nodes[frame.node]? = some x) : x.locked = false := by
  simpa [Tree.waits, hi, hlocks, hx] using hwaits

theorem locked_of_waits (h : t.waits i = some m) :
    ∃ frame rest x, t.threads[i]? = some (frame :: rest) ∧ frame.locks = true ∧ frame.node = m ∧
      t.nodes[m]? = some x ∧ x.locked = true := by
  unfold Tree.waits at h
  split at h
  · rename_i frame rest hi
    split_ifs at h with hcond
    cases h
    obtain ⟨hlocks, hany⟩ := Bool.and_eq_true_iff.1 hcond
    obtain ⟨x, hx, hlocked⟩ := (any_eq_true _ _).1 hany
    exact ⟨frame, rest, x, hi, hlocks, rfl, hx, hlocked⟩
  · cases h

theorem advance_isSome (hframe : frame.In t.nodes.length) (hx : t.nodes[frame.node]? = some x)
    (hfree : frame.locks = true → x.locked = false)
    (hidle : ∀ n, frame = .waiting n → x.opening = 0) : (t.advance frame).isSome = true := by
  have hset : ∀ (n c : ℕ) (y : Node), c ∈ frame.ahead →
      ∃ z, (t.nodes.set n y)[c]? = some z := fun n c y hc =>
    ⟨_, List.getElem?_eq_getElem (by simpa using (hframe.2 c hc).2)⟩
  cases frame with simp only [Frame.node] at hx
  | signal n | close n _ | take n | finish n => simp [Tree.advance, hx, hfree rfl]
  | walk n todo | closeWalk n todo => cases todo <;> simp [Tree.advance, hx]
  | linked n child | taken n | calling n => simp [Tree.advance, hx]
  | waiting n => simp [Tree.advance, hx, hfree rfl, hidle n rfl]
  | link n child =>
    have hlink : (t.link n child x).isSome = true := by
      unfold Tree.link
      obtain ⟨z, hz⟩ := hset n child { x with children := child :: x.children }
        (by simp [ahead])
      split_ifs
      · rfl
      · dsimp only
        rw [hz]
        rfl
    simp [Tree.advance, hx, hfree rfl, hlink]
  | detach node parent =>
    have hdetach : (t.detach node parent x).isSome = true := by
      unfold Tree.detach
      obtain ⟨z, hz⟩ := hset parent node { x with children := x.children.filter (· ≠ node) }
        (by simp [ahead])
      dsimp only
      rw [hz]
      rfl
    simp [Tree.advance, hx, hfree rfl, hdetach]

theorem Tree.Ordered.step_of_free (h : t.Ordered) (hi : t.threads[i]? = some (frame :: rest))
    (hwaits : t.waits i = none)
    (hidle : ∀ n x, frame = .waiting n → t.nodes[n]? = some x → x.opening = 0) :
    ∃ t', cancelStep t (.step i) = some t' := by
  have hframe := (h.calls i _ hi).1
  have hx := List.getElem?_eq_getElem hframe.1
  obtain ⟨⟨t', frames⟩, hadv⟩ := isSome_iff_exists.1 (advance_isSome hframe hx
    (fun hlocks => waits_of_locked hi hwaits hlocks hx) fun n hn => hidle n _ hn (hn ▸ hx))
  refine ⟨{ t' with threads := t'.threads.set i (frames ++ rest) }, ?_⟩
  simp only [cancelStep, hi, hadv]

theorem Frame.node_of_uses (h : frame.uses n = true) : frame.node = n ∧ frame.holds = false := by
  cases frame <;> first | cases h | exact ⟨of_decide_eq_true h, rfl⟩

theorem Frame.not_locks_of_holds (h : frame.holds = true) : frame.locks = false := by
  cases frame <;> first | rfl | cases h

theorem StackIn.head_of_uses (h : StackIn len (frame :: rest)) {u : Frame} (hu : u ∈ frame :: rest)
    (huses : u.uses n = true) : u = frame := by
  rcases mem_cons.1 hu with rfl | hu
  · rfl
  · have hhold := (h.2.1 u hu).1
    rw [(node_of_uses huses).2] at hhold
    cases hhold

theorem Tree.Ordered.held (h : t.Ordered) (hwaits : t.waits i = some m) :
    ∃ j, t.Active j ∧ ∀ m', t.waits j = some m' → m < m' := by
  obtain ⟨-, -, x, -, -, -, hx, hlocked⟩ := locked_of_waits hwaits
  obtain ⟨st, hst, g, hg, hhold, rfl⟩ := h.locks m x hx hlocked
  obtain ⟨j, hj⟩ := List.getElem?_of_mem hst
  cases st with
  | nil => cases hg
  | cons top rest =>
    refine ⟨j, ⟨top, rest, hj⟩, fun m' hm' => ?_⟩
    obtain ⟨frame, rest', -, hframe, hlocks, rfl, -, -⟩ := locked_of_waits hm'
    obtain ⟨rfl, rfl⟩ : top = frame ∧ rest = rest' := by simpa [hj] using hframe
    rcases mem_cons.1 hg with rfl | hg
    · rw [not_locks_of_holds hhold] at hlocks
      cases hlocks
    · exact ((h.calls j _ hj).2.1 g hg).2

/-- In every run, as long as a call has not returned, some call can make a step: no calls of
`signal`, `close`, `child` and of the native functions wait for each other for ever. -/
theorem cancellation_progress (acts : List CancelAct) (t : Tree)
    (hrun : run cancelStep .start acts = some t) (i : ℕ) (hi : t.Active i) :
    ∃ j t', cancelStep t (.step j) = some t' := by
  have hstart : Tree.start.Sound ∧ Tree.start.Ordered :=
    ⟨.start, by simp [Tree.start, NodesIn], by simp [Tree.start], by simp [Tree.start]⟩
  obtain ⟨hsound, hordered⟩ : t.Sound ∧ t.Ordered := by
    refine run_invariant_of_forall (I := fun t => t.Sound ∧ t.Ordered) ?_ hstart hrun
    rintro s act s' ⟨hs, ho⟩ hstep
    exact ⟨hs.step (moved_of_step hstep), ho.step hstep⟩
  have hbound : ∀ i m, t.waits i = some m → m < t.nodes.length := by
    intro i m hm
    obtain ⟨-, -, x, -, -, -, hx, -⟩ := locked_of_waits hm
    exact (List.getElem?_eq_some_iff.1 hx).1
  obtain ⟨j, ⟨frame, rest, hj⟩, hwaits⟩ :=
    Lock.exists_not_waiting hbound (fun i m _ hm => hordered.held hm) hi
  by_cases hidle : ∀ n x, frame = .waiting n → t.nodes[n]? = some x → x.opening = 0
  · exact ⟨j, hordered.step_of_free hj hwaits hidle⟩
  -- `close` waits for a native call, which can go on: nobody has the lock of the node
  simp only [not_forall] at hidle
  obtain ⟨n, x, rfl, hx, hopening⟩ := hidle
  have hrunning : 0 < t.running n := by
    have hcount := (hsound.handles.node n x hx).2
    omega
  obtain ⟨u, hu, huses⟩ := countP_pos_iff.1 hrunning
  obtain ⟨st, hst, hu⟩ := mem_flatten.1 hu
  obtain ⟨k, hk⟩ := List.getElem?_of_mem hst
  cases st with
  | nil => cases hu
  | cons top rest' =>
    obtain rfl := (hordered.calls k _ hk).head_of_uses hu huses
    have hfree : x.locked = false := waits_of_locked hj hwaits rfl hx
    refine ⟨k, hordered.step_of_free hk ?_ fun m y hm => ?_⟩
    · simp [Tree.waits, hk, (node_of_uses huses).1, hx, hfree]
    · rw [hm] at huses
      cases huses

/-- `close` of a child waits for the lock of the root, which `signal` has. -/
theorem cancellation_progress_sample :
    ∃ t, run cancelStep .start [.create, .child 0, .step 0, .signal 0, .step 1, .close 1] = some t ∧
      t.waits 2 = some 0 ∧ ∃ j t', cancelStep t (.step j) = some t' :=
  ⟨_, rfl, by decide, cancellation_progress
    [.create, .child 0, .step 0, .signal 0, .step 1, .close 1] _ rfl 2 ⟨_, _, rfl⟩⟩

end Python
