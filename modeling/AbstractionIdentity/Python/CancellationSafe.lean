import AbstractionIdentity.Python.Cancellation

/-!
# The cancellation tree is safe

A node only moves one way: once it is signalled, closing or closed, no child is linked to it any
more (`NodesGrow`). While `signal` walks, each child has been done, is still to come, or is the
target of the frame above (`FrameOk`).
-/

namespace Python

open Transition List Frame

/-! ### What a frame can do -/

inductive Advanced (t : Tree) : Frame → Tree → List Frame → Prop
  | signal {n : ℕ} {x : Node} (hx : t.nodes[n]? = some x) :
      Advanced t (.signal n)
        { t with
          nodes := t.nodes.set n { x with signaled := true, locked := true }
          fault := t.fault || x.handle && decide (0 < x.released) }
        [.walk n x.children]
  | walkNext {n child : ℕ} {todo : List ℕ} :
      Advanced t (.walk n (child :: todo)) t [.signal child, .walk n todo]
  | walkEnd {n : ℕ} {x : Node} (hx : t.nodes[n]? = some x) :
      Advanced t (.walk n [])
        { t with nodes := t.nodes.set n { x with locked := false }, done := n :: t.done } []
  | linkShut {n child : ℕ} {x : Node} (hx : t.nodes[n]? = some x) :
      Advanced t (.link n child)
        { t with nodes := t.nodes.set n { x with locked := true } }
        [.signal child, .linked n child]
  | link {n child : ℕ} {x y : Node} (hx : t.nodes[n]? = some x) (hopen : x.shut = false)
      (hy : (t.nodes.set n { x with children := child :: x.children })[child]? = some y) :
      Advanced t (.link n child)
        { t with
          nodes := (t.nodes.set n { x with children := child :: x.children }).set child
            { y with parent := some n }
          made := (n, child) :: t.made } []
  | linked {n child : ℕ} {x : Node} (hx : t.nodes[n]? = some x) :
      Advanced t (.linked n child)
        { t with
          nodes := t.nodes.set n { x with locked := false }
          made := (n, child) :: t.made } []
  | detach {n parent : ℕ} {x y : Node} (hx : t.nodes[parent]? = some x)
      (hy : (t.nodes.set parent
        { x with children := x.children.filter (· ≠ n) })[n]? = some y) :
      Advanced t (.detach n parent)
        { t with
          nodes := (t.nodes.set parent { x with children := x.children.filter (· ≠ n) }).set n
            { y with parent := none } }
        [.close n true]
  | close {n : ℕ} {hadParent : Bool} {x : Node} (hx : t.nodes[n]? = some x) :
      Advanced t (.close n hadParent)
        { t with
          nodes := t.nodes.set n
            { x with
              closing := true
              signaled := x.signaled || hadParent && x.handle
              locked := true }
          fault := t.fault || hadParent && x.handle && decide (0 < x.released) }
        [.closeWalk n x.children]
  | closeNext {n child : ℕ} {todo : List ℕ} :
      Advanced t (.closeWalk n (child :: todo)) t [.signal child, .closeWalk n todo]
  | clearWait {n : ℕ} {x : Node} (hx : t.nodes[n]? = some x) :
      Advanced t (.closeWalk n [])
        { t with nodes := t.nodes.set n { x.clear with locked := false } } [.waiting n]
  | clearRelease {n : ℕ} {x : Node} (hx : t.nodes[n]? = some x) (hidle : x.opening = 0) :
      Advanced t (.closeWalk n []) (t.release n x.clear) []
  | waiting {n : ℕ} {x : Node} (hx : t.nodes[n]? = some x) (hidle : x.opening = 0) :
      Advanced t (.waiting n) (t.release n x) []
  | refused {n : ℕ} : Advanced t (.take n) t []
  | take {n : ℕ} {x : Node} (hx : t.nodes[n]? = some x) (hhandle : x.handle = true) :
      Advanced t (.take n)
        { t with nodes := t.nodes.set n { x with opening := x.opening + 1 } } [.taken n]
  | taken {n : ℕ} {x : Node} (hx : t.nodes[n]? = some x) :
      Advanced t (.taken n) { t with fault := t.fault || decide (0 < x.released) }
        [.calling n]
  | calling {n : ℕ} : Advanced t (.calling n) t [.finish n]
  | finish {n : ℕ} {x : Node} (hx : t.nodes[n]? = some x) :
      Advanced t (.finish n)
        { t with nodes := t.nodes.set n { x with opening := x.opening - 1 } } []

theorem node_of_match {β : Type} {o : Option Node} {f : Node → Option β} {b : β} (h : (match o with
      | some x => f x
      | none => none) = some b) : ∃ x, o = some x ∧ f x = some b := by
  cases o with
  | none => cases h
  | some x => exact ⟨x, rfl, h⟩

variable {frame : Frame} {frames : List Frame} {n : ℕ} {t t' : Tree} {x x' : Node}

theorem advanced_link {child : ℕ}
    (hx : t.nodes[n]? = some x) (h : t.link n child x = some (t', frames)) :
    Advanced t (.link n child) t' frames := by
  unfold Tree.link at h
  cases hshut : x.shut with
  | true =>
    simp only [hshut, if_true, Option.some.injEq, Prod.mk.injEq] at h
    obtain ⟨rfl, rfl⟩ := h
    exact .linkShut hx
  | false =>
    simp only [hshut, Bool.false_eq_true, if_false] at h
    split at h
    · cases h
    · rename_i y hy
      simp only [Option.some.injEq, Prod.mk.injEq] at h
      obtain ⟨rfl, rfl⟩ := h
      exact .link hx hshut hy

theorem advanced_detach {parent : ℕ}
    (hx : t.nodes[parent]? = some x) (h : t.detach n parent x = some (t', frames)) :
    Advanced t (.detach n parent) t' frames := by
  unfold Tree.detach at h
  dsimp only at h
  split at h
  · cases h
  · rename_i y hy
    simp only [Option.some.injEq, Prod.mk.injEq] at h
    obtain ⟨rfl, rfl⟩ := h
    exact .detach hx hy

theorem advanced_of_advance (h : t.advance frame = some (t', frames)) :
    Advanced t frame t' frames := by
  cases frame with
  | signal n =>
    obtain ⟨x, hx, h⟩ := node_of_match h
    split_ifs at h
    simp only [Tree.signal, Option.some.injEq, Prod.mk.injEq] at h
    obtain ⟨rfl, rfl⟩ := h
    exact .signal hx
  | walk n todo =>
    cases todo with
    | cons child todo =>
      simp only [Tree.advance, Option.some.injEq, Prod.mk.injEq] at h
      obtain ⟨rfl, rfl⟩ := h
      exact .walkNext
    | nil =>
      obtain ⟨x, hx, h⟩ := node_of_match h
      simp only [Option.some.injEq, Prod.mk.injEq] at h
      obtain ⟨rfl, rfl⟩ := h
      exact .walkEnd hx
  | link n child =>
    obtain ⟨x, hx, h⟩ := node_of_match h
    split_ifs at h
    exact advanced_link hx h
  | linked n child =>
    obtain ⟨x, hx, h⟩ := node_of_match h
    simp only [Option.some.injEq, Prod.mk.injEq] at h
    obtain ⟨rfl, rfl⟩ := h
    exact .linked hx
  | detach n parent =>
    obtain ⟨x, hx, h⟩ := node_of_match h
    split_ifs at h
    exact advanced_detach hx h
  | close n hadParent =>
    obtain ⟨x, hx, h⟩ := node_of_match h
    split_ifs at h
    simp only [Tree.close, Option.some.injEq, Prod.mk.injEq] at h
    obtain ⟨rfl, rfl⟩ := h
    exact .close hx
  | closeWalk n todo =>
    cases todo with
    | cons child todo =>
      simp only [Tree.advance, Option.some.injEq, Prod.mk.injEq] at h
      obtain ⟨rfl, rfl⟩ := h
      exact .closeNext
    | nil =>
      obtain ⟨x, hx, h⟩ := node_of_match h
      unfold Tree.clear at h
      by_cases hopening : 0 < x.opening
      · simp only [hopening, if_true, Option.some.injEq, Prod.mk.injEq] at h
        obtain ⟨rfl, rfl⟩ := h
        exact .clearWait hx
      · simp only [hopening, if_false, Option.some.injEq, Prod.mk.injEq] at h
        obtain ⟨rfl, rfl⟩ := h
        exact .clearRelease hx (Nat.eq_zero_of_not_pos hopening)
  | waiting n =>
    obtain ⟨x, hx, h⟩ := node_of_match h
    split_ifs at h with hwait
    simp only [Bool.or_eq_true, decide_eq_true_eq, not_or] at hwait
    simp only [Option.some.injEq, Prod.mk.injEq] at h
    obtain ⟨rfl, rfl⟩ := h
    exact .waiting hx (Nat.eq_zero_of_not_pos hwait.2)
  | take n =>
    obtain ⟨x, hx, h⟩ := node_of_match h
    split_ifs at h
    unfold Tree.take at h
    by_cases hrefused : (x.closing || !x.handle) = true
    · simp only [hrefused, if_true, Option.some.injEq, Prod.mk.injEq] at h
      obtain ⟨rfl, rfl⟩ := h
      exact .refused
    · have hhandle : x.handle = true := by
        cases hh : x.handle <;> simp [hh] at hrefused ⊢
      rw [if_neg hrefused, Option.some.injEq, Prod.mk.injEq] at h
      obtain ⟨rfl, rfl⟩ := h
      exact .take hx hhandle
  | taken n =>
    obtain ⟨x, hx, h⟩ := node_of_match h
    simp only [Option.some.injEq, Prod.mk.injEq] at h
    obtain ⟨rfl, rfl⟩ := h
    exact .taken hx
  | calling n =>
    simp only [Tree.advance, Option.some.injEq, Prod.mk.injEq] at h
    obtain ⟨rfl, rfl⟩ := h
    exact .calling
  | finish n =>
    obtain ⟨x, hx, h⟩ := node_of_match h
    split_ifs at h
    simp only [Option.some.injEq, Prod.mk.injEq] at h
    obtain ⟨rfl, rfl⟩ := h
    exact .finish hx

/-! ### A node moves one way -/

structure Node.Later (x x' : Node) : Prop where
  signaled : x.signaled = true → x'.signaled = true
  closing : x.closing = true → x'.closing = true
  handle : x.handle = false → x'.handle = false
  children : x.shut = true → ∀ c ∈ x'.children, c ∈ x.children

theorem Node.shut_iff :
    x.shut = true ↔ x.signaled = true ∨ x.closing = true ∨ x.handle = false := by
  simp [Node.shut, or_assoc]

theorem Node.Later.shut (h : x.Later x') (hs : x.shut = true) : x'.shut = true := by
  rw [Node.shut_iff] at hs ⊢
  exact hs.imp h.signaled (Or.imp h.closing h.handle)

theorem Node.Later.refl (x : Node) : x.Later x := ⟨id, id, id, fun _ _ hc => hc⟩

theorem Node.Later.trans {y z : Node} (h : x.Later y) (h' : y.Later z) : x.Later z where
  signaled hx := h'.signaled (h.signaled hx)
  closing hx := h'.closing (h.closing hx)
  handle hx := h'.handle (h.handle hx)
  children hx c hc := h.children hx c (h'.children (h.shut hx) c hc)

def NodesGrow (nodes nodes' : List Node) : Prop :=
  ∀ (n : ℕ) (x : Node), nodes[n]? = some x → ∃ x', nodes'[n]? = some x' ∧ x.Later x'

theorem NodesGrow.refl (nodes : List Node) : NodesGrow nodes nodes := fun _ x hx => ⟨x, hx, .refl x⟩

theorem NodesGrow.trans {ns ns' ns'' : List Node} (h : NodesGrow ns ns')
    (h' : NodesGrow ns' ns'') : NodesGrow ns ns'' := by
  intro n x hx
  obtain ⟨x', hx', hl⟩ := h n x hx
  obtain ⟨x'', hx'', hl'⟩ := h' n x' hx'
  exact ⟨x'', hx'', hl.trans hl'⟩

theorem NodesGrow.set {ns : List Node} (hx : ns[n]? = some x)
    (hl : x.Later x') : NodesGrow ns (ns.set n x') := by
  intro m y hy
  by_cases hm : m = n
  · subst hm
    obtain rfl : x = y := by simpa [hx] using hy
    exact ⟨x', (lookup_set_iff hx).2 (.inl ⟨rfl, rfl⟩), hl⟩
  · exact ⟨y, (lookup_set_iff hx).2 (.inr ⟨hm, hy⟩), .refl y⟩

theorem NodesGrow.concat (ns : List Node) (x : Node) : NodesGrow ns (ns ++ [x]) := by
  intro n y hy
  refine ⟨y, ?_, .refl y⟩
  rw [List.getElem?_append_left (List.getElem?_eq_some_iff.1 hy).1]
  exact hy

theorem nodesGrow_release (hx : t.nodes[n]? = some x)
    (hl : x.Later x') : NodesGrow t.nodes (t.release n x').nodes := by
  unfold Tree.release
  split_ifs
  · exact .set hx (hl.trans ⟨id, id, fun _ => rfl, fun _ _ hc => hc⟩)
  · exact .set hx (hl.trans ⟨id, id, id, fun _ _ hc => hc⟩)

theorem later_of_children {children : List ℕ} (h : x.shut = true → ∀ c ∈ children, c ∈ x.children) :
    x.Later { x with children := children } := ⟨id, id, id, h⟩

theorem Node.later_clear (x : Node) : x.Later x.clear :=
  ⟨id, id, id, fun _ _ hc => absurd hc not_mem_nil⟩

theorem Advanced.nodesGrow (h : Advanced t frame t' frames) : NodesGrow t.nodes t'.nodes := by
  cases h with
  | signal hx => exact .set hx ⟨fun _ => rfl, id, id, fun _ _ hc => hc⟩
  | walkNext => exact .refl _
  | walkEnd hx => exact .set hx ⟨id, id, id, fun _ _ hc => hc⟩
  | linkShut hx => exact .set hx ⟨id, id, id, fun _ _ hc => hc⟩
  | link hx hopen hy =>
    refine (NodesGrow.set hx (later_of_children fun hs => ?_)).trans
      (.set hy ⟨id, id, id, fun _ _ hc => hc⟩)
    rw [hopen] at hs
    cases hs
  | linked hx => exact .set hx ⟨id, id, id, fun _ _ hc => hc⟩
  | detach hx hy =>
    exact (NodesGrow.set hx (later_of_children fun _ c hc => (mem_filter.1 hc).1)).trans
      (.set hy ⟨id, id, id, fun _ _ hc => hc⟩)
  | close hx =>
    refine .set hx ⟨fun hs => ?_, fun _ => rfl, id, fun _ _ hc => hc⟩
    simp [hs]
  | closeNext => exact .refl _
  | clearWait hx => exact .set hx ⟨id, id, id, fun _ _ hc => absurd hc not_mem_nil⟩
  | clearRelease hx _ => exact nodesGrow_release hx (Node.later_clear _)
  | waiting hx _ => exact nodesGrow_release hx (.refl _)
  | refused => exact .refl _
  | take hx _ => exact .set hx ⟨id, id, id, fun _ _ hc => hc⟩
  | taken hx => exact .refl _
  | calling => exact .refl _
  | finish hx => exact .set hx ⟨id, id, id, fun _ _ hc => hc⟩

theorem done_release (t : Tree) (n : ℕ) (x : Node) : (t.release n x).done = n :: t.done := by
  unfold Tree.release
  split_ifs <;> rfl

theorem threads_release (t : Tree) (n : ℕ) (x : Node) : (t.release n x).threads = t.threads := by
  unfold Tree.release
  split_ifs <;> rfl

theorem made_release (t : Tree) (n : ℕ) (x : Node) : (t.release n x).made = t.made := by
  unfold Tree.release
  split_ifs <;> rfl

theorem Advanced.done_subset (h : Advanced t frame t' frames) (hn : n ∈ t.done) : n ∈ t'.done := by
  cases h with
  | walkEnd hx => exact mem_cons_of_mem _ hn
  | clearRelease hx _ =>
    rw [done_release]
    exact mem_cons_of_mem _ hn
  | waiting hx _ =>
    rw [done_release]
    exact mem_cons_of_mem _ hn
  | _ => exact hn

theorem Advanced.threads (h : Advanced t frame t' frames) : t'.threads = t.threads := by
  cases h with
  | clearRelease hx _ => exact threads_release t _ _
  | waiting hx _ => exact threads_release t _ _
  | _ => rfl

/-! ### The handles -/

def Node.HandleOk (x : Node) : Prop :=
  x.handle = true ∧ x.released = 0 ∨ x.handle = false ∧ x.released = 1 ∧ x.opening = 0

theorem Node.HandleOk.released_eq (h : x.HandleOk) (hh : x.handle = true) : x.released = 0 := by
  rcases h with ⟨-, h⟩ | ⟨h, -⟩
  · exact h
  · rw [h] at hh
    cases hh

theorem Node.HandleOk.released_of_opening (h : x.HandleOk) (ho : 0 < x.opening) :
    x.released = 0 := by
  rcases h with ⟨-, h⟩ | ⟨-, -, h⟩
  · exact h
  · omega

theorem Node.HandleOk.released_le (h : x.HandleOk) : x.released ≤ 1 := by
  rcases h with ⟨-, h⟩ | ⟨-, h, -⟩ <;> omega

/-- The handles are in order, every call that uses one is counted, and no handle was
used after its release. -/
structure Handles (nodes : List Node) (running : ℕ → ℤ) (fault : Bool) : Prop where
  node : ∀ (n : ℕ) (x : Node), nodes[n]? = some x →
    x.HandleOk ∧ (x.opening : ℤ) = running n
  fresh : ∀ n, nodes.length ≤ n → running n = 0
  fault : fault = false

section Handles

variable {nodes : List Node} {running running' : ℕ → ℤ} {fault : Bool} {n : ℕ}
  {x x' : Node}

theorem Handles.set (h : Handles nodes running fault) (hx : nodes[n]? = some x)
    (hok : x'.HandleOk) (hopening : (x'.opening : ℤ) = running' n)
    (hrunning : ∀ m, m ≠ n → running' m = running m) :
    Handles (nodes.set n x') running' fault := by
  refine ⟨fun m y hy => ?_, fun m hm => ?_, h.fault⟩
  · rcases lookup_set hy with ⟨rfl, rfl⟩ | ⟨hne, hy⟩
    · exact ⟨hok, hopening⟩
    · rw [hrunning m hne]
      exact h.node m y hy
  · rw [length_set] at hm
    have hlt := (List.getElem?_eq_some_iff.1 hx).1
    rw [hrunning m (by omega)]
    exact h.fresh m hm

theorem Handles.set_same (h : Handles nodes running fault) (hx : nodes[n]? = some x)
    (hhandle : x'.handle = x.handle) (hreleased : x'.released = x.released)
    (hopening : x'.opening = x.opening) : Handles (nodes.set n x') running fault := by
  obtain ⟨hok, hcount⟩ := h.node n x hx
  refine h.set hx ?_ (by rw [hopening]; exact hcount) fun _ _ => rfl
  unfold Node.HandleOk at hok ⊢
  rw [hhandle, hreleased, hopening]
  exact hok

theorem Handles.concat (h : Handles nodes running fault) :
    Handles (nodes ++ [.new]) running fault := by
  refine ⟨fun m y hy => ?_, fun m hm => ?_, h.fault⟩
  · rcases lookup_concat_iff.1 hy with ⟨rfl, rfl⟩ | ⟨-, hy⟩
    · exact ⟨.inl ⟨rfl, rfl⟩, (h.fresh _ le_rfl).symm⟩
    · exact h.node m y hy
  · rw [length_append] at hm
    exact h.fresh m (by omega)

end Handles

theorem Handles.release {t : Tree} {running : ℕ → ℤ} {n : ℕ} {x x' : Node}
    (h : Handles t.nodes running t.fault) (hx : t.nodes[n]? = some x)
    (hhandle : x'.handle = x.handle) (hreleased : x'.released = x.released)
    (hopening : x'.opening = x.opening) (hidle : x.opening = 0) :
    Handles (t.release n x').nodes running (t.release n x').fault := by
  obtain ⟨hok, hcount⟩ := h.node n x hx
  unfold Tree.release
  split_ifs with hh
  · have hzero := hok.released_eq (hhandle ▸ hh)
    have hset : Handles (t.nodes.set n
        { x' with handle := false, released := x'.released + 1, locked := false })
        running t.fault := by
      refine h.set hx (.inr ⟨rfl, ?_, ?_⟩) ?_ fun _ _ => rfl
      · show x'.released + 1 = 1
        omega
      · exact hopening.trans hidle
      · show (x'.opening : ℤ) = running n
        rw [hopening]
        exact hcount
    refine ⟨hset.node, hset.fresh, ?_⟩
    simp [h.fault, hreleased, hzero]
  · exact h.set_same hx hhandle hreleased hopening

theorem running_set {t : Tree} {i n : ℕ} {xs ys : List Frame} (hi : t.threads[i]? = some xs) :
    ((t.threads.set i ys).flatten.countP (uses n) : ℤ) =
      t.running n - xs.countP (uses n) + ys.countP (uses n) :=
  countP_flatten_set hi

theorem Advanced.handles {running : ℕ → ℤ} (h : Advanced t frame t' frames)
    (hh : Handles t.nodes running t.fault) (huses : ∀ n, frame.uses n = true → 0 < running n) :
    Handles t'.nodes
      (fun n => running n - [frame].countP (uses n) + frames.countP (uses n))
      t'.fault := by
  -- a frame outside the native calls leaves the count as it is
  have hsame : ∀ {nodes : List Node} {fault : Bool}, Handles nodes running fault →
      (∀ n, [frame].countP (uses n) = frames.countP (uses n)) →
      Handles nodes (fun n => running n - [frame].countP (uses n) +
        frames.countP (uses n)) fault := by
    intro nodes fault hnodes hcount
    refine ⟨fun n x hx => ?_, fun n hn => ?_, hnodes.fault⟩
    · obtain ⟨hok, hopening⟩ := hnodes.node n x hx
      refine ⟨hok, ?_⟩
      rw [hcount n]
      omega
    · have := hnodes.fresh n hn
      rw [hcount n]
      omega
  have hquiet : ∀ {nodes : List Node} {b : Bool}, Handles nodes running t.fault →
      b = false → Handles nodes running (t.fault || b) := by
    rintro nodes b hnodes rfl
    exact ⟨hnodes.node, hnodes.fresh, by rw [hh.fault]; rfl⟩
  cases h with
  | @signal n x hx =>
    refine hsame (hquiet (hh.set_same hx rfl rfl rfl) ?_) fun _ => rfl
    cases hhandle : x.handle with
    | false => rfl
    | true => simp [(hh.node n x hx).1.released_eq hhandle]
  | walkNext => exact hsame hh fun _ => rfl
  | walkEnd hx => exact hsame (hh.set_same hx rfl rfl rfl) fun _ => rfl
  | linkShut hx => exact hsame (hh.set_same hx rfl rfl rfl) fun _ => rfl
  | link hx hopen hy =>
    exact hsame (Handles.set_same (hh.set_same hx rfl rfl rfl) hy rfl rfl rfl) fun _ => rfl
  | linked hx => exact hsame (hh.set_same hx rfl rfl rfl) fun _ => rfl
  | detach hx hy =>
    exact hsame (Handles.set_same (hh.set_same hx rfl rfl rfl) hy rfl rfl rfl) fun _ => rfl
  | @close n hadParent x hx =>
    refine hsame (hquiet (hh.set_same hx rfl rfl rfl) ?_) fun _ => rfl
    cases hhandle : x.handle with
    | false => simp
    | true => simp [(hh.node n x hx).1.released_eq hhandle]
  | closeNext => exact hsame hh fun _ => rfl
  | clearWait hx => exact hsame (hh.set_same hx rfl rfl rfl) fun _ => rfl
  | clearRelease hx hidle => exact hsame (hh.release hx rfl rfl rfl hidle) fun _ => rfl
  | waiting hx hidle => exact hsame (hh.release hx rfl rfl rfl hidle) fun _ => rfl
  | refused => exact hsame hh fun _ => rfl
  | @take n x hx hhandle =>
    obtain ⟨hok, hopening⟩ := hh.node n x hx
    refine hh.set hx (.inl ⟨hhandle, hok.released_eq hhandle⟩) ?_ ?_
    · simp [uses, hopening]
    · intro m hm
      simp [uses, Ne.symm hm]
  | @taken n x hx =>
    obtain ⟨hok, hopening⟩ := hh.node n x hx
    have hpos := huses n (by simp [uses])
    refine hsame (hquiet hh ?_) fun m => ?_
    · simp [hok.released_of_opening (by omega)]
    · simp [uses, countP_cons]
  | calling =>
    refine hsame hh fun m => ?_
    simp [uses, countP_cons]
  | @finish n x hx =>
    obtain ⟨hok, hopening⟩ := hh.node n x hx
    have hpos := huses n (by simp [uses])
    refine hh.set hx ?_ ?_ ?_
    · rcases hok with hok | ⟨-, -, hzero⟩
      · exact .inl hok
      · omega
    · simp [uses]
      omega
    · intro m hm
      simp [uses, Ne.symm hm]

/-! ### The walks -/

def Frame.target : Frame → Option ℕ
  | .signal n => some n
  | .walk n _ => some n
  | _ => none

def FrameOk (nodes : List Node) (done : List ℕ) (above : Option ℕ) : Frame → Prop
  | .walk n todo => ∃ x, nodes[n]? = some x ∧ x.signaled = true ∧
      ∀ c ∈ x.children, c ∈ done ∨ c ∈ todo ∨ above = some c
  | .linked _ child => child ∈ done ∨ above = some child
  | .closeWalk n todo => ∃ x, nodes[n]? = some x ∧ x.closing = true ∧
      ∀ c ∈ x.children, c ∈ done ∨ c ∈ todo ∨ above = some c
  | .waiting n => ∃ x, nodes[n]? = some x ∧ x.closing = true ∧ x.children = []
  | _ => True

def StackOk (nodes : List Node) (done : List ℕ) : Option ℕ → List Frame → Prop
  | _, [] => True
  | above, frame :: rest =>
    FrameOk nodes done above frame ∧ StackOk nodes done frame.target rest

section Stack

variable {nodes nodes' : List Node} {done done' : List ℕ} {above : Option ℕ}

theorem FrameOk.mono {frame : Frame} (h : FrameOk nodes done above frame)
    (hg : NodesGrow nodes nodes') (hd : ∀ n ∈ done, n ∈ done') :
    FrameOk nodes' done' above frame := by
  cases frame with
  | walk n todo =>
    obtain ⟨x, hx, hsig, hall⟩ := h
    obtain ⟨x', hx', hl⟩ := hg n x hx
    refine ⟨x', hx', hl.signaled hsig, fun c hc => ?_⟩
    exact (hall c (hl.children (Node.shut_iff.2 (.inl hsig)) c hc)).imp_left (hd c)
  | linked n child => exact Or.imp_left (hd child) h
  | closeWalk n todo =>
    obtain ⟨x, hx, hclosing, hall⟩ := h
    obtain ⟨x', hx', hl⟩ := hg n x hx
    refine ⟨x', hx', hl.closing hclosing, fun c hc => ?_⟩
    have hshut : x.shut = true := Node.shut_iff.2 (.inr (.inl hclosing))
    exact (hall c (hl.children hshut c hc)).imp_left (hd c)
  | waiting n =>
    obtain ⟨x, hx, hclosing, hnil⟩ := h
    obtain ⟨x', hx', hl⟩ := hg n x hx
    refine ⟨x', hx', hl.closing hclosing, eq_nil_iff_forall_not_mem.2 fun c hc => ?_⟩
    have hmem := hl.children (Node.shut_iff.2 (.inr (.inl hclosing))) c hc
    rw [hnil] at hmem
    cases hmem
  | _ => trivial

theorem StackOk.mono {st : List Frame} (h : StackOk nodes done above st)
    (hg : NodesGrow nodes nodes') (hd : ∀ n ∈ done, n ∈ done') :
    StackOk nodes' done' above st := by
  induction st generalizing above with
  | nil => trivial
  | cons frame rest ih => exact ⟨h.1.mono hg hd, ih h.2⟩

variable {c : ℕ}

theorem next_of_todo {child : ℕ} {todo : List ℕ}
    (h : c ∈ done ∨ c ∈ child :: todo ∨ none = some c) :
    c ∈ done ∨ c ∈ todo ∨ some child = some c := by
  rcases h with hdone | htodo | habove
  · exact .inl hdone
  · rcases mem_cons.1 htodo with rfl | htodo
    · exact .inr (.inr rfl)
    · exact .inr (.inl htodo)
  · cases habove

theorem done_of_returned {child : ℕ} {todo : List ℕ} (hchild : child ∈ done)
    (h : c ∈ done ∨ c ∈ todo ∨ some child = some c) :
    c ∈ done ∨ c ∈ todo ∨ none = some c := by
  rcases h with hdone | htodo | habove
  · exact .inl hdone
  · exact .inr (.inl htodo)
  · exact .inl (Option.some.inj habove ▸ hchild)

theorem done_of_todo_nil (h : c ∈ done ∨ c ∈ ([] : List ℕ) ∨ none = some c) : c ∈ done := by
  rcases h with hdone | htodo | habove
  · exact hdone
  · cases htodo
  · cases habove

theorem StackOk.returned {st : List Frame} (h : StackOk nodes done (some c) st)
    (hc : c ∈ done) : StackOk nodes done none st := by
  cases st with
  | nil => trivial
  | cons frame rest =>
    refine ⟨?_, h.2⟩
    have hframe := h.1
    cases frame with
    | walk n todo =>
      obtain ⟨x, hx, hsig, hall⟩ := hframe
      exact ⟨x, hx, hsig, fun c' hc' => done_of_returned hc (hall c' hc')⟩
    | closeWalk n todo =>
      obtain ⟨x, hx, hclosing, hall⟩ := hframe
      exact ⟨x, hx, hclosing, fun c' hc' => done_of_returned hc (hall c' hc')⟩
    | linked n child =>
      rcases hframe with hdone | habove
      · exact .inl hdone
      · exact .inl (Option.some.inj habove ▸ hc)
    | _ => exact hframe

end Stack

theorem Advanced.stack {rest : List Frame}
    (h : Advanced t frame t' frames) (hst : StackOk t.nodes t.done none (frame :: rest)) :
    StackOk t'.nodes t'.done none (frames ++ rest) := by
  have hrest : StackOk t'.nodes t'.done frame.target rest :=
    hst.2.mono h.nodesGrow fun _ hn => h.done_subset hn
  have hframe := hst.1
  cases h with
  | @signal n x hx =>
    refine ⟨⟨_, (lookup_set_iff hx).2 (.inl ⟨rfl, rfl⟩), rfl, fun c hc => ?_⟩, hrest⟩
    exact .inr (.inl hc)
  | @walkNext n child todo =>
    obtain ⟨x, hx, hsig, hall⟩ := hframe
    exact ⟨trivial, ⟨x, hx, hsig, fun c hc => next_of_todo (hall c hc)⟩, hrest⟩
  | walkEnd hx => exact hrest.returned mem_cons_self
  | linkShut hx => exact ⟨trivial, .inr rfl, hrest⟩
  | link hx hopen hy => exact hrest
  | linked hx => exact hrest
  | detach hx hy => exact ⟨trivial, hrest⟩
  | close hx =>
    refine ⟨⟨_, (lookup_set_iff hx).2 (.inl ⟨rfl, rfl⟩), rfl, fun c hc => ?_⟩, hrest⟩
    exact .inr (.inl hc)
  | closeNext =>
    obtain ⟨x, hx, hclosing, hall⟩ := hframe
    exact ⟨trivial, ⟨x, hx, hclosing, fun c hc => next_of_todo (hall c hc)⟩, hrest⟩
  | clearWait hx =>
    obtain ⟨y, hy, hclosing, -⟩ := hframe
    rw [hx, Option.some.injEq] at hy
    subst hy
    exact ⟨⟨_, (lookup_set_iff hx).2 (.inl ⟨rfl, rfl⟩), hclosing, rfl⟩, hrest⟩
  | clearRelease hx hidle => exact hrest
  | waiting hx hidle => exact hrest
  | refused => exact hrest
  | take hx hhandle => exact ⟨trivial, hrest⟩
  | taken hx => exact ⟨trivial, hrest⟩
  | calling => exact ⟨trivial, hrest⟩
  | finish hx => exact hrest

/-! ### What is signalled or closed -/

def Settled (nodes : List Node) (done : List ℕ) : Prop :=
  ∀ n ∈ done, ∃ x, nodes[n]? = some x ∧ (x.signaled = true ∨ x.handle = false) ∧
    ∀ c ∈ x.children, c ∈ done

theorem Node.Later.off (h : x.Later x') (hx : x.signaled = true ∨ x.handle = false) :
    x'.signaled = true ∨ x'.handle = false := hx.imp h.signaled h.handle

theorem Node.shut_of_off (hx : x.signaled = true ∨ x.handle = false) :
    x.shut = true := Node.shut_iff.2 (hx.imp_right .inr)

theorem Settled.mono {nodes nodes' : List Node} {done : List ℕ}
    (h : Settled nodes done) (hg : NodesGrow nodes nodes') : Settled nodes' done := by
  intro n hn
  obtain ⟨x, hx, hoff, hall⟩ := h n hn
  obtain ⟨x', hx', hl⟩ := hg n x hx
  exact ⟨x', hx', hl.off hoff, fun c hc => hall c (hl.children (Node.shut_of_off hoff) c hc)⟩

theorem Settled.cons {nodes : List Node} {done : List ℕ} {n : ℕ} {x : Node}
    (h : Settled nodes done) (hx : nodes[n]? = some x) (hoff : x.signaled = true ∨ x.handle = false)
    (hall : ∀ c ∈ x.children, c ∈ done) : Settled nodes (n :: done) := by
  intro m hm
  rcases mem_cons.1 hm with rfl | hm
  · exact ⟨x, hx, hoff, fun c hc => mem_cons_of_mem _ (hall c hc)⟩
  · obtain ⟨y, hy, hoff, hall⟩ := h m hm
    exact ⟨y, hy, hoff, fun c hc => mem_cons_of_mem _ (hall c hc)⟩

theorem Settled.release {t : Tree} {n : ℕ} {x x' : Node} (h : Settled t.nodes t.done)
    (hx : t.nodes[n]? = some x) (hl : x.Later x') (hnil : x'.children = []) :
    Settled (t.release n x').nodes (t.release n x').done := by
  have hgrow := h.mono (nodesGrow_release hx hl)
  have hnone : ∀ {done : List ℕ}, ∀ c ∈ x'.children, c ∈ done := by
    intro done c hc
    rw [hnil] at hc
    cases hc
  rw [done_release]
  unfold Tree.release at hgrow ⊢
  split_ifs at hgrow ⊢ with hh
  · exact hgrow.cons ((lookup_set_iff hx).2 (.inl ⟨rfl, rfl⟩)) (.inr rfl) hnone
  · refine hgrow.cons ((lookup_set_iff hx).2 (.inl ⟨rfl, rfl⟩)) (.inr ?_) hnone
    exact Bool.eq_false_iff.2 hh

theorem Advanced.settled (h : Advanced t frame t' frames) (hs : Settled t.nodes t.done)
    (hframe : FrameOk t.nodes t.done none frame) : Settled t'.nodes t'.done := by
  have hgrow := hs.mono h.nodesGrow
  cases h with
  | @walkEnd n x hx =>
    obtain ⟨y, hy, hsig, hall⟩ := hframe
    rw [hx, Option.some.injEq] at hy
    subst hy
    exact hgrow.cons ((lookup_set_iff hx).2 (.inl ⟨rfl, rfl⟩)) (.inl hsig)
      fun c hc => done_of_todo_nil (hall c hc)
  | clearRelease hx _ => exact hs.release hx (Node.later_clear _) rfl
  | waiting hx _ =>
    obtain ⟨y, hy, -, hnil⟩ := hframe
    rw [hx, Option.some.injEq] at hy
    subst hy
    exact hs.release hx (.refl _) hnil
  | _ => exact hgrow

def Dropped (nodes : List Node) (done : List ℕ) : Prop :=
  ∀ (n : ℕ) (x : Node), nodes[n]? = some x → ∀ c ∈ x.cleared, c ∈ done

section Dropped

variable {nodes : List Node} {done : List ℕ} {n : ℕ} {x x' : Node}

theorem Dropped.mono {done' : List ℕ} (h : Dropped nodes done)
    (hd : ∀ c ∈ done, c ∈ done') : Dropped nodes done' :=
  fun n x hx c hc => hd c (h n x hx c hc)

theorem Dropped.set (h : Dropped nodes done) (hc : ∀ c ∈ x'.cleared, c ∈ done) :
    Dropped (nodes.set n x') done := by
  intro m y hy
  rcases lookup_set hy with ⟨-, rfl⟩ | ⟨-, hy⟩
  · exact hc
  · exact h m y hy

theorem Dropped.set_same (h : Dropped nodes done) (hx : nodes[n]? = some x)
    (hc : x'.cleared = x.cleared) : Dropped (nodes.set n x') done :=
  h.set (hc ▸ h n x hx)

theorem Dropped.concat (h : Dropped nodes done) : Dropped (nodes ++ [.new]) done := by
  intro m y hy c hc
  rcases lookup_concat_iff.1 hy with ⟨-, rfl⟩ | ⟨-, hy⟩
  · cases hc
  · exact h m y hy c hc

end Dropped

theorem Dropped.release {t : Tree} {n : ℕ} {x : Node} (h : Dropped t.nodes t.done)
    (hc : ∀ c ∈ x.cleared, c ∈ t.done) :
    Dropped (t.release n x).nodes (t.release n x).done := by
  rw [done_release]
  refine Dropped.mono ?_ fun c hc => mem_cons_of_mem n hc
  unfold Tree.release
  split_ifs
  · exact h.set hc
  · exact h.set hc

theorem Advanced.dropped (h : Advanced t frame t' frames) (hd : Dropped t.nodes t.done)
    (hframe : FrameOk t.nodes t.done none frame) : Dropped t'.nodes t'.done := by
  -- before it clears its children, `close` has walked over all of them
  have hclear : ∀ {n : ℕ} {x : Node}, t.nodes[n]? = some x →
      FrameOk t.nodes t.done none (.closeWalk n []) → ∀ c ∈ x.clear.cleared, c ∈ t.done := by
    rintro n x hx ⟨y, hy, -, hall⟩ c hc
    rw [hx, Option.some.injEq] at hy
    subst hy
    rcases mem_append.1 hc with hc | hc
    · exact done_of_todo_nil (hall c hc)
    · exact hd n x hx c hc
  cases h with
  | signal hx => exact hd.set_same hx rfl
  | walkNext => exact hd
  | walkEnd hx => exact Dropped.mono (hd.set_same hx rfl) fun c hc => mem_cons_of_mem _ hc
  | linkShut hx => exact hd.set_same hx rfl
  | link hx hopen hy =>
    exact Dropped.set_same (hd.set_same hx rfl) hy rfl
  | linked hx => exact hd.set_same hx rfl
  | detach hx hy =>
    exact Dropped.set_same (hd.set_same hx rfl) hy rfl
  | close hx => exact hd.set_same hx rfl
  | closeNext => exact hd
  | clearWait hx => exact hd.set (hclear hx hframe)
  | clearRelease hx _ => exact hd.release (hclear hx hframe)
  | waiting hx _ => exact hd.release (hd _ _ hx)
  | refused => exact hd
  | take hx _ => exact hd.set_same hx rfl
  | taken hx => exact hd
  | calling => exact hd
  | finish hx => exact hd.set_same hx rfl

/-! ### Runs -/

structure Tree.Sound (t : Tree) : Prop where
  handles : Handles t.nodes (fun n => t.running n) t.fault
  calls : ∀ (i : ℕ) (st : List Frame), t.threads[i]? = some st →
    StackOk t.nodes t.done none st
  settled : Settled t.nodes t.done
  dropped : Dropped t.nodes t.done

theorem Tree.Sound.spawn (h : t.Sound)
    (huses : ∀ n, frame.uses n = false) (hok : ∀ done, FrameOk t.nodes done none frame) :
    Tree.Sound { t with threads := t.threads ++ [[frame]] } := by
  have hrunning : ∀ n, Tree.running { t with threads := t.threads ++ [[frame]] } n =
      t.running n := by
    intro n
    simp [Tree.running, huses n]
  refine ⟨?_, ?_, h.settled, h.dropped⟩
  · simp only [hrunning]
    exact h.handles
  · exact forall_concat h.calls ⟨hok _, trivial⟩

theorem Tree.Sound.create (h : t.Sound) : Tree.Sound { t with nodes := t.nodes ++ [.new] } where
  handles := h.handles.concat
  calls i st hst := (h.calls i st hst).mono (.concat _ _) fun _ hn => hn
  settled := h.settled.mono (.concat _ _)
  dropped := h.dropped.concat

theorem Tree.Sound.advance {t t' : Tree} {i : ℕ} {frame : Frame}
    {frames rest : List Frame} (h : t.Sound) (hi : t.threads[i]? = some (frame :: rest))
    (hadv : Advanced t frame t' frames) :
    Tree.Sound { t' with threads := t'.threads.set i (frames ++ rest) } := by
  have hthreads := hadv.threads
  have hstack := h.calls i _ hi
  have huses : ∀ n, frame.uses n = true → (0 : ℤ) < t.running n := by
    intro n hn
    have hmem : frame ∈ t.threads.flatten := mem_flatten.2 ⟨_, mem_of_getElem? hi, mem_cons_self⟩
    have hpos := countP_pos_iff.2 ⟨frame, hmem, hn⟩
    exact Int.natCast_pos.2 hpos
  have hrunning : ∀ n,
    (Tree.running { t' with threads := t'.threads.set i (frames ++ rest) } n : ℤ) =
      t.running n - [frame].countP (uses n) + frames.countP (uses n) := by
    intro n
    have hset := @running_set t i n _ (frames ++ rest) hi
    have hsplit : (frame :: rest).countP (uses n) =
        [frame].countP (uses n) + rest.countP (uses n) := by
      rw [← countP_append]
      rfl
    rw [countP_append] at hset
    show (((t'.threads.set i (frames ++ rest)).flatten.countP (uses n) : ℕ) : ℤ) = _
    rw [hthreads]
    omega
  refine ⟨?_, fun j st hst => ?_, hadv.settled h.settled hstack.1, hadv.dropped h.dropped hstack.1⟩
  · simp only [hrunning]
    exact hadv.handles h.handles huses
  · rw [hthreads] at hst
    rcases lookup_set hst with ⟨-, rfl⟩ | ⟨-, hst⟩
    · exact hadv.stack hstack
    · exact (h.calls j st hst).mono hadv.nodesGrow fun _ hn => hadv.done_subset hn

inductive Moved (t : Tree) : Tree → Prop
  | create : Moved t { t with nodes := t.nodes ++ [.new] }
  | spawn {frame : Frame} (huses : ∀ n, frame.uses n = false)
      (hok : ∀ done, FrameOk t.nodes done none frame) :
      Moved t { t with threads := t.threads ++ [[frame]] }
  | child {n : ℕ} :
      Moved t
        { t with
          nodes := t.nodes ++ [.new]
          threads := t.threads ++ [[.link n t.nodes.length]] }
  | advance {i : ℕ} {frame : Frame} {frames rest : List Frame} {t' : Tree}
      (hi : t.threads[i]? = some (frame :: rest)) (h : Advanced t frame t' frames) :
      Moved t { t' with threads := t'.threads.set i (frames ++ rest) }

theorem moved_of_spawn {frame : Node → Frame}
    (h : t.spawn n frame = some t') (huses : ∀ x m, (frame x).uses m = false)
    (hok : ∀ x done, FrameOk t.nodes done none (frame x)) : Moved t t' := by
  unfold Tree.spawn at h
  obtain ⟨x, -, h⟩ := node_of_match h
  cases h
  exact .spawn (huses x) (hok x)

theorem moved_of_step {act : CancelAct} (h : cancelStep t act = some t') : Moved t t' := by
  cases act with
  | create => exact Option.some.inj h ▸ .create
  | signal n => exact moved_of_spawn h (fun _ _ => rfl) fun _ _ => trivial
  | child n =>
    obtain ⟨x, -, h⟩ := node_of_match h
    exact Option.some.inj h ▸ .child
  | close n =>
    refine moved_of_spawn h (fun x m => ?_) fun x done => ?_
    · unfold closeFrame
      cases x.parent <;> rfl
    · unfold closeFrame
      cases x.parent <;> trivial
  | openSession n => exact moved_of_spawn h (fun _ _ => rfl) fun _ _ => trivial
  | step i =>
    simp only [cancelStep] at h
    split at h
    · rename_i frame rest hi
      split at h
      · rename_i t'' frames hadv
        exact Option.some.inj h ▸ .advance hi (advanced_of_advance hadv)
      · cases h
    · cases h

theorem Tree.Sound.step (h : t.Sound) (hm : Moved t t') : t'.Sound := by
  cases hm with
  | create => exact h.create
  | spawn huses hok => exact h.spawn huses hok
  | child => exact h.create.spawn (fun _ => rfl) fun _ => trivial
  | advance hi hadv => exact h.advance hi hadv

theorem Tree.Sound.start : Tree.start.Sound where
  handles := ⟨by simp [Tree.start], fun _ _ => rfl, rfl⟩
  calls := by simp [Tree.start]
  settled := by simp [Tree.start, Settled]
  dropped := by simp [Tree.start, Dropped]

theorem Moved.nodesGrow (h : Moved t t') : NodesGrow t.nodes t'.nodes := by
  cases h with
  | create => exact .concat _ _
  | spawn _ _ => exact .refl _
  | child => exact .concat _ _
  | advance _ hadv => exact hadv.nodesGrow

theorem Moved.made (h : Moved t t') (hs : t.Sound) {d m : ℕ} (hmade : (d, m) ∈ t'.made) :
    (d, m) ∈ t.made ∨ (∃ x, t.nodes[d]? = some x ∧ x.shut = false) ∨ m ∈ t.done := by
  cases h with
  | create => exact .inl hmade
  | spawn _ _ => exact .inl hmade
  | child => exact .inl hmade
  | @advance i frame frames rest t'' hi hadv =>
    have hframe := (hs.calls i _ hi).1
    cases hadv with
    | link hx hopen hy =>
      rcases mem_cons.1 hmade with heq | hold
      · obtain ⟨rfl, -⟩ := Prod.mk.inj heq
        exact .inr (.inl ⟨_, hx, hopen⟩)
      · exact .inl hold
    | linked hx =>
      rcases mem_cons.1 hmade with heq | hold
      · obtain ⟨-, rfl⟩ := Prod.mk.inj heq
        exact .inr (.inr (hframe.resolve_right (by simp)))
      · exact .inl hold
    | clearRelease hx _ =>
      rw [show ({ t.release _ _ with threads := _ } : Tree).made = _ from
        made_release t _ _] at hmade
      exact .inl hmade
    | waiting hx _ =>
      rw [show ({ t.release _ _ with threads := _ } : Tree).made = _ from
        made_release t _ _] at hmade
      exact .inl hmade
    | _ => exact .inl hmade

theorem Tree.Off.mono (h : t.Off n) (hg : NodesGrow t.nodes t'.nodes) : t'.Off n := by
  obtain ⟨x, hx, hoff⟩ := h
  obtain ⟨x', hx', hl⟩ := hg n x hx
  exact ⟨x', hx', hl.off hoff⟩

theorem off_of_done (h : Settled t.nodes t.done) (hn : n ∈ t.done) : t.Off n := by
  obtain ⟨x, hx, hoff, -⟩ := h n hn
  exact ⟨x, hx, hoff⟩

theorem done_of_descends (h : t.Sound) {d : ℕ} (hn : n ∈ t.done) (hd : t.Descends n d) :
    d ∈ t.done := by
  induction hd with
  | refl => exact hn
  | child _ hx hc ih =>
    rcases hc with hc | hc
    · obtain ⟨y, hy, -, hall⟩ := h.settled _ ih
      rw [hx, Option.some.injEq] at hy
      exact hall _ (hy ▸ hc)
    · exact h.dropped _ _ hx _ hc

structure Tree.Since (s : Tree) (d : ℕ) (t : Tree) : Prop where
  sound : t.Sound
  off : t.Off d
  made : ∀ m, (d, m) ∈ t.made → (d, m) ∈ s.made ∨ t.Off m

theorem Tree.Since.step {s : Tree} {d : ℕ} (h : s.Since d t) (hm : Moved t t') : s.Since d t' := by
  have hgrow := hm.nodesGrow
  refine ⟨h.sound.step hm, h.off.mono hgrow, fun m hmade => ?_⟩
  rcases hm.made h.sound hmade with hold | ⟨x, hx, hopen⟩ | hdone
  · exact (h.made m hold).imp_right fun hoff => hoff.mono hgrow
  · obtain ⟨y, hy, hoff⟩ := h.off
    rw [hx, Option.some.injEq] at hy
    subst hy
    rw [Node.shut_of_off hoff] at hopen
    cases hopen
  · exact .inr ((off_of_done h.sound.settled hdone).mono hgrow)

/-- In every run no released handle is used, and each is released at most once. After `signal` or
`close` of a node every node linked below it is signalled or closed, and so is every child made
later. -/
theorem cancellation_tree {acts later : List CancelAct} {s t : Tree}
    (hs : run cancelStep .start acts = some s) (ht : run cancelStep s later = some t) :
    s.fault = false ∧ (∀ n x, s.nodes[n]? = some x →
        x.released ≤ 1 ∧ (0 < s.running n → x.released = 0)) ∧
      ∀ n ∈ s.done, ∀ d, s.Descends n d →
        s.Off d ∧ t.Off d ∧ ∀ m, (d, m) ∈ t.made → (d, m) ∈ s.made ∨ t.Off m := by
  have hsound : s.Sound :=
    run_invariant_of_forall (fun _ _ _ hsound hstep => hsound.step (moved_of_step hstep))
      Tree.Sound.start hs
  refine ⟨hsound.handles.fault, fun n x hx => ?_, fun n hn d hd => ?_⟩
  · obtain ⟨hok, hopening⟩ := hsound.handles.node n x hx
    exact ⟨hok.released_le, fun hrunning => hok.released_of_opening (by omega)⟩
  · have hoff := off_of_done hsound.settled (done_of_descends hsound hn hd)
    have hsince : s.Since d t :=
      run_invariant_of_forall (fun _ _ _ hsince hstep => hsince.step (moved_of_step hstep))
        ⟨hsound, hoff, fun _ hm => .inl hm⟩ ht
    exact ⟨hoff, hsince.off, hsince.made⟩

/-- A grandchild's call is running while the root is signalled and the grandchild closed. -/
def signalWhileOpen : List CancelAct :=
  [.create, .child 0, .step 0, .child 1, .step 1, .openSession 2, .step 2, .step 2,
    .signal 0, .step 3, .step 3, .step 3, .step 3, .step 3, .step 3, .step 3, .step 3,
    .close 2, .step 4, .step 4, .step 4]

def childAfterSignal : List CancelAct :=
  [.child 1, .step 5, .step 5, .step 5, .step 5, .step 2, .step 2, .step 4]

theorem cancellation_tree_signalWhileOpen : ∃ s t, run cancelStep .start signalWhileOpen = some s ∧
      run cancelStep s childAfterSignal = some t ∧ 0 ∈ s.done ∧ 0 < s.running 2 ∧
      (1, 3) ∈ t.made ∧ (1, 3) ∉ s.made ∧ s.fault = false :=
  ⟨_, _, rfl, rfl, by decide, by decide, by decide, by decide,
    (cancellation_tree (show run cancelStep .start signalWhileOpen = some _ from rfl)
      (show run cancelStep _ childAfterSignal = some _ from rfl)).1⟩

end Python
