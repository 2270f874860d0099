import AbstractionIdentity.Transition.Run
import AbstractionIdentity.Transition.Table

/-!
# One live unix listener per path

A start locks the file beside the path, removes a stale socket, binds, listens and narrows the mode,
and holds the lock until the listener is closed. Any call may fail and any process crash. An
operation touches the path only from a place that holds the lock (`Advanced.path_change`).
-/

namespace Listen

open Transition Option

/-- What is at the path: nothing, a socket, of the start that bound it or of one before the
first, or something that is not a socket. -/
inductive PathEntry where
  | absent
  | socket (owner : Option ℕ)
  | other
  deriving DecidableEq

/-- The place of a start: the call it makes next, to the closing of the listener. `undo` and
`undoSocket` close one whose mode could not be set; `release` closes the lock. -/
inductive ListenPc where
  | mkdir
  | openLock
  | flock
  | lstat
  | remove
  | bind
  | listen
  | chmod
  | opened
  | closing
  | unlinked (socketOpen lockOpen : Bool)
  | undo
  | undoSocket
  | release
  | ended
  deriving DecidableEq

def ListenPc.holdsLock : ListenPc → Bool
  | .mkdir | .openLock | .flock | .ended => false
  | .unlinked _ lockOpen => lockOpen
  | _ => true

def ListenPc.bound : ListenPc → Bool
  | .listen | .chmod | .opened | .closing | .undo => true
  | _ => false

/-- The places at which a start has a live listener: its socket listens, and no `Close` of
it has come past the unlinking. -/
def ListenPc.live : ListenPc → Bool
  | .chmod | .opened | .closing | .undo => true
  | _ => false

/-- The next call of a start and whether it succeeds, a call of `Close`, and the two descriptors a
close gives up. -/
inductive ListenOp where
  | next (ok : Bool)
  | close
  | closeSocket
  | closeLock
  deriving DecidableEq

inductive LockMove where
  | keep
  | take
  | drop
  deriving DecidableEq

/-- One operation of the start `i`: its next place, what is at the path, and what becomes of
the lock; `free` is whether nobody holds it. -/
def advance (i : ℕ) (path : PathEntry) (free : Bool) :
    ListenOp → ListenPc → Option (ListenPc × PathEntry × LockMove)
  | .next ok, .mkdir => some (if ok then .openLock else .ended, path, .keep)
  | .next ok, .openLock => some (if ok then .flock else .ended, path, .keep)
  -- a lock that is taken is refused at once, and the descriptor closed again
  | .next ok, .flock =>
    if ok && free then some (.lstat, path, .take) else some (.ended, path, .keep)
  | .next ok, .lstat =>
    if !ok then some (.release, path, .keep)
    else match path with
      | .absent => some (.bind, path, .keep)
      | .socket _ => some (.remove, path, .keep)
      | .other => some (.release, path, .keep)
  | .next ok, .remove =>
    if ok then some (.bind, .absent, .keep) else some (.release, path, .keep)
  | .next ok, .bind =>
    if ok && path = .absent then some (.listen, .socket (some i), .keep)
    else some (.release, path, .keep)
  -- a socket that cannot listen is closed, and its file stays
  | .next ok, .listen => some (if ok then .chmod else .release, path, .keep)
  | .next ok, .chmod => some (if ok then .opened else .undo, path, .keep)
  | .next ok, .undo => some (.undoSocket, if ok then .absent else path, .keep)
  | .next _, .undoSocket => some (.release, path, .keep)
  | .next _, .release => some (.ended, path, .drop)
  | .next ok, .closing => some (.unlinked true true, if ok then .absent else path, .keep)
  | .close, .opened => some (.closing, path, .keep)
  -- a further `Close` waits for the unlinking, which happens once
  | .close, .unlinked socketOpen lockOpen =>
    some (.unlinked socketOpen lockOpen, path, .keep)
  | .closeSocket, .unlinked true lockOpen => some (.unlinked false lockOpen, path, .keep)
  -- of two calls of `Close` one returns while the other still closes the socket, so that the
  -- lock may go first
  | .closeLock, .unlinked socketOpen true => some (.unlinked socketOpen false, path, .drop)
  | _, _ => none

structure ListenCall where
  process : ℕ
  pc : ListenPc
  deriving DecidableEq

structure Endpoint where
  path : PathEntry
  lockedBy : Option ℕ
  calls : List ListenCall
  deriving DecidableEq

inductive EndpointAct where
  | start (process : ℕ)
  | call (i : ℕ) (op : ListenOp)
  | crash (process : ℕ)
  deriving DecidableEq

def LockMove.apply (i : ℕ) (lockedBy : Option ℕ) : LockMove → Option ℕ
  | .keep => lockedBy
  | .take => some i
  | .drop => none

def ListenCall.runsIn (process : ℕ) (c : ListenCall) : Bool := c.process = process

def ListenCall.crashed (process : ℕ) (c : ListenCall) : ListenCall :=
  if c.runsIn process then { c with pc := .ended } else c

def Endpoint.lockAfterCrash (s : Endpoint) (process : ℕ) : Option ℕ :=
  s.lockedBy.filter fun i => !(s.calls[i]?.any (ListenCall.runsIn process))

def endpointStep (s : Endpoint) : EndpointAct → Option Endpoint
  | .start process => some { s with calls := s.calls ++ [⟨process, .mkdir⟩] }
  | .call i op =>
    match s.calls[i]? with
    | none => none
    | some c => (advance i s.path (s.lockedBy = none) op c.pc).map fun (pc, path, move) =>
      { path := path
        lockedBy := move.apply i s.lockedBy
        calls := s.calls.set i { c with pc := pc } }
  | .crash process => some { s with
      lockedBy := s.lockAfterCrash process
      calls := s.calls.map (ListenCall.crashed process) }

def Endpoint.new (path : PathEntry) : Endpoint := ⟨path, none, []⟩

/-- What an operation of the start `i` can do to path and lock. -/
inductive Advanced (i : ℕ) (path : PathEntry) (free : Bool) :
    ListenPc → ListenPc → PathEntry → LockMove → Prop
  | along {pc pc'} (hlock : pc'.holdsLock = pc.holdsLock)
      (hbound : pc'.bound = true → pc.bound = true) (hstale : pc' ≠ .remove) :
      Advanced i path free pc pc' path .keep
  | locked (hfree : free = true) : Advanced i path free .flock .lstat path .take
  | found {owner} (hpath : path = .socket owner) :
      Advanced i path free .lstat .remove path .keep
  | removed : Advanced i path free .remove .bind .absent .keep
  | bound (hpath : path = .absent) :
      Advanced i path free .bind .listen (.socket (some i)) .keep
  | unlinked {pc pc'} (hpc : pc.bound = true) (hlock : pc'.holdsLock = true)
      (hbound : pc'.bound = false) (hstale : pc' ≠ .remove) :
      Advanced i path free pc pc' .absent .keep
  | dropped {pc pc'} (hpc : pc.holdsLock = true) (hlock : pc'.holdsLock = false) :
      Advanced i path free pc pc' path .drop

section Advance

variable {i : ℕ} {path path' : PathEntry} {free : Bool} {op : ListenOp} {pc pc' : ListenPc}
  {move : LockMove}

theorem ListenPc.holdsLock_of_bound (h : pc.bound = true) : pc.holdsLock = true := by
  cases pc <;> first | rfl | cases h

theorem ListenPc.bound_of_live (h : pc.live = true) : pc.bound = true := by
  cases pc <;> first | rfl | cases h

structure PlaceOk (i : ℕ) (path : PathEntry) (pc : ListenPc) : Prop where
  bound : pc.bound = true → path = .socket (some i)
  stale : pc = .remove → ∃ owner, path = .socket owner

theorem placeOk_of_not_holdsLock (h : pc.holdsLock = false) : PlaceOk i path pc where
  bound hb := by
    rw [ListenPc.holdsLock_of_bound hb] at h
    cases h
  stale hr := by
    rw [hr] at h
    cases h

theorem advanced (h : advance i path free op pc = some (pc', path', move)) :
    Advanced i path free pc pc' path' move := by
  have halong : ∀ {q q' : ListenPc}, some (q', path, LockMove.keep) = some (pc', path', move) →
      q'.holdsLock = q.holdsLock → (q'.bound = true → q.bound = true) → q' ≠ .remove →
      Advanced i path free q pc' path' move := by
    intro q q' heq hlock hbound hstale
    cases heq
    exact .along hlock hbound hstale
  rw [advance.eq_def] at h
  split at h
  -- the calls of `Listen` before the lock is taken
  next ok => cases ok <;> exact halong h rfl (by decide) (by decide)
  next ok => cases ok <;> exact halong h rfl (by decide) (by decide)
  next ok =>
    split_ifs at h with hfree
    · cases h
      exact .locked (Bool.and_eq_true_iff.1 hfree).2
    · exact halong h rfl (by decide) (by decide)
  -- under the lock
  next ok =>
    split_ifs at h
    · exact halong h rfl (by decide) (by decide)
    · split at h
      · exact halong h rfl (by decide) (by decide)
      · cases h
        exact .found rfl
      · exact halong h rfl (by decide) (by decide)
  next ok =>
    cases ok with
    | true =>
      cases h
      exact .removed
    | false => exact halong h rfl (by decide) (by decide)
  next ok =>
    split_ifs at h with hpath
    · cases h
      exact .bound (of_decide_eq_true (Bool.and_eq_true_iff.1 hpath).2)
    · exact halong h rfl (by decide) (by decide)
  next ok => cases ok <;> exact halong h rfl (by decide) (by decide)
  next ok => cases ok <;> exact halong h rfl (by decide) (by decide)
  next ok =>
    cases ok with
    | true =>
      cases h
      exact .unlinked rfl rfl rfl (by decide)
    | false => exact halong h rfl (by decide) (by decide)
  · exact halong h rfl (by decide) (by decide)
  · cases h
    exact .dropped rfl rfl
  next ok =>
    cases ok with
    | true =>
      cases h
      exact .unlinked rfl rfl rfl (by decide)
    | false => exact halong h rfl (by decide) (by decide)
  -- the ways of a listener that was returned
  · exact halong h rfl (by decide) (by decide)
  · exact halong h rfl (fun hb => by cases hb) (by simp)
  · exact halong h rfl (fun hb => by cases hb) (by simp)
  · cases h
    exact .dropped rfl rfl
  · cases h

theorem Advanced.lock (h : Advanced i path free pc pc' path' move) :
    (move = .keep ∧ pc'.holdsLock = pc.holdsLock) ∨
      (move = .take ∧ free = true ∧ pc'.holdsLock = true) ∨
      (move = .drop ∧ pc.holdsLock = true ∧ pc'.holdsLock = false) := by
  cases h with
  | along hlock => exact .inl ⟨rfl, hlock⟩
  | locked hfree => exact .inr (.inl ⟨rfl, hfree, rfl⟩)
  | unlinked hpc hlock => exact .inl ⟨rfl, hlock.trans (ListenPc.holdsLock_of_bound hpc).symm⟩
  | dropped hpc hlock => exact .inr (.inr ⟨rfl, hpc, hlock⟩)
  | _ => exact .inl ⟨rfl, rfl⟩

theorem Advanced.path_change (hok : PlaceOk i path pc)
    (h : Advanced i path free pc pc' path' move) :
    path' = path ∨ pc.holdsLock = true ∧ (path = .absent ∨ ∃ owner, path = .socket owner) := by
  cases h with
  | removed => exact .inr ⟨rfl, .inr (hok.stale rfl)⟩
  | bound hpath => exact .inr ⟨rfl, .inl hpath⟩
  | unlinked hpc => exact .inr ⟨ListenPc.holdsLock_of_bound hpc, .inr ⟨_, hok.bound hpc⟩⟩
  | _ => exact .inl rfl

theorem Advanced.placeOk (hok : PlaceOk i path pc)
    (h : Advanced i path free pc pc' path' move) : PlaceOk i path' pc' := by
  cases h with
  | along hlock hbound hstale =>
    exact ⟨fun hb => hok.bound (hbound hb), fun hr => absurd hr hstale⟩
  | locked => exact ⟨fun hb => (by cases hb), fun hr => by cases hr⟩
  | found hpath => exact ⟨fun hb => (by cases hb), fun _ => ⟨_, hpath⟩⟩
  | removed => exact ⟨fun hb => (by cases hb), fun hr => by cases hr⟩
  | bound => exact ⟨fun _ => rfl, fun hr => by cases hr⟩
  | unlinked hpc hlock hbound hstale =>
    exact ⟨fun hb => absurd hb (Bool.eq_false_iff.1 hbound), fun hr => absurd hr hstale⟩
  | dropped hpc hlock => exact placeOk_of_not_holdsLock hlock

end Advance

/-- A start has the lock exactly at the places that hold it, and its place is right about the
path. -/
structure Endpoint.Inv (s : Endpoint) : Prop where
  lock : ∀ (i : ℕ) (c : ListenCall), s.calls[i]? = some c →
    (c.pc.holdsLock = true ↔ s.lockedBy = some i)
  place : ∀ (i : ℕ) (c : ListenCall), s.calls[i]? = some c → PlaceOk i s.path c.pc
  holder : ∀ i : ℕ, s.lockedBy = some i → ∃ c : ListenCall, s.calls[i]? = some c

section Step

variable {s t : Endpoint}

theorem Endpoint.Inv.start (h : s.Inv) (process : ℕ) :
    Endpoint.Inv { s with calls := s.calls ++ [⟨process, .mkdir⟩] } where
  lock i c hi := by
    rcases lookup_concat_iff.1 hi with ⟨rfl, rfl⟩ | ⟨-, hi⟩
    · refine ⟨fun hl => (by cases hl), fun hl => ?_⟩
      obtain ⟨c, hc⟩ := h.holder _ hl
      simp at hc
    · exact h.lock i c hi
  place i c hi := by
    rcases lookup_concat_iff.1 hi with ⟨rfl, rfl⟩ | ⟨-, hi⟩
    · exact placeOk_of_not_holdsLock rfl
    · exact h.place i c hi
  holder i hi := by
    obtain ⟨c, hc⟩ := h.holder i hi
    refine ⟨c, lookup_concat_iff.2 (.inr ⟨fun heq => ?_, hc⟩)⟩
    rw [heq] at hc
    simp at hc

theorem Endpoint.Inv.call (h : s.Inv) {i : ℕ} {c : ListenCall} (hc : s.calls[i]? = some c)
    {pc : ListenPc} {path : PathEntry} {move : LockMove}
    (hadv : Advanced i s.path (s.lockedBy = none) c.pc pc path move) :
    Endpoint.Inv ⟨path, move.apply i s.lockedBy, s.calls.set i { c with pc := pc }⟩ := by
  -- another start that holds the lock keeps the path and the lock from changing
  have hother : ∀ (j : ℕ) (d : ListenCall), j ≠ i → s.calls[j]? = some d →
      (d.pc.holdsLock = true ↔ move.apply i s.lockedBy = some j) ∧ PlaceOk j path d.pc := by
    intro j d hj hd
    have hlock := h.lock j d hd
    have hplace := h.place j d hd
    have hmine := h.lock i c hc
    have hne : s.lockedBy = some i → s.lockedBy ≠ some j := by
      intro hi heq
      rw [hi] at heq
      exact hj (some.inj heq).symm
    refine ⟨?_, ?_⟩
    · rcases hadv.lock with ⟨rfl, -⟩ | ⟨rfl, hfree, -⟩ | ⟨rfl, hheld, -⟩
      · exact hlock
      · have hnone : s.lockedBy = none := of_decide_eq_true hfree
        rw [hlock, hnone]
        simpa [LockMove.apply] using Ne.symm hj
      · rw [hlock]
        simpa [LockMove.apply] using hne (hmine.1 hheld)
    · rcases hadv.path_change (h.place i c hc) with rfl | ⟨hheld, -⟩
      · exact hplace
      · refine placeOk_of_not_holdsLock (Bool.eq_false_iff.2 fun hl => ?_)
        exact hne (hmine.1 hheld) (hlock.1 hl)
  refine ⟨fun j d hd => ?_, fun j d hd => ?_, fun j hj => ?_⟩
  · rcases lookup_set hd with ⟨rfl, rfl⟩ | ⟨hne, hd⟩
    · have hmine := h.lock j c hc
      rcases hadv.lock with ⟨rfl, hsame⟩ | ⟨rfl, -, hheld⟩ | ⟨rfl, -, hlet⟩
      · rw [hsame, hmine]
        rfl
      · simp [LockMove.apply, hheld]
      · simp [LockMove.apply, hlet]
    · exact (hother j d hne hd).1
  · rcases lookup_set hd with ⟨rfl, rfl⟩ | ⟨hne, hd⟩
    · exact hadv.placeOk (h.place j c hc)
    · exact (hother j d hne hd).2
  · by_cases hji : j = i
    · exact ⟨_, (lookup_set_iff hc).2 (.inl ⟨hji, rfl⟩)⟩
    · have hold : s.lockedBy = some j := by
        rcases hadv.lock with ⟨rfl, -⟩ | ⟨rfl, -⟩ | ⟨rfl, -⟩
        · exact hj
        · exact absurd (some.inj hj).symm hji
        · cases hj
      obtain ⟨d, hd⟩ := h.holder j hold
      exact ⟨d, (lookup_set_iff hc).2 (.inr ⟨hji, hd⟩)⟩

theorem Endpoint.Inv.crash (h : s.Inv) (process : ℕ) : Endpoint.Inv { s with
      lockedBy := s.lockAfterCrash process
      calls := s.calls.map (ListenCall.crashed process) } := by
  have hlookup : ∀ {i : ℕ} {d : ListenCall},
      (s.calls.map (ListenCall.crashed process))[i]? = some d →
      ∃ c : ListenCall, s.calls[i]? = some c ∧ d = c.crashed process := by
    intro i d hd
    rw [List.getElem?_map, map_eq_some_iff] at hd
    obtain ⟨c, hc, rfl⟩ := hd
    exact ⟨c, hc, rfl⟩
  have hlock : ∀ {i : ℕ} {c : ListenCall}, s.calls[i]? = some c →
      (s.lockAfterCrash process = some i ↔ s.lockedBy = some i ∧ c.runsIn process = false) := by
    intro i c hc
    rw [Endpoint.lockAfterCrash, filter_eq_some_iff, hc]
    simp
  refine ⟨fun i d hd => ?_, fun i d hd => ?_, fun i hi => ?_⟩
  · obtain ⟨c, hc, rfl⟩ := hlookup hd
    simp only [hlock hc, ListenCall.crashed]
    cases hrun : c.runsIn process with
    | true => simp [ListenPc.holdsLock]
    | false => simpa using h.lock i c hc
  · obtain ⟨c, hc, rfl⟩ := hlookup hd
    simp only [ListenCall.crashed]
    split_ifs
    · exact placeOk_of_not_holdsLock rfl
    · exact h.place i c hc
  · obtain ⟨c, hc⟩ := h.holder i (filter_eq_some_iff.1 hi).1
    exact ⟨c.crashed process, by simp [hc]⟩

theorem endpointStep_inv {a : EndpointAct} (h : s.Inv) (hstep : endpointStep s a = some t) :
    t.Inv := by
  cases a with
  | start process =>
    cases hstep
    exact h.start process
  | call i op =>
    rw [endpointStep] at hstep
    cases hc : s.calls[i]? with
    | none => simp [hc] at hstep
    | some c =>
      simp only [hc, map_eq_some_iff] at hstep
      obtain ⟨⟨pc, path, move⟩, hadv, rfl⟩ := hstep
      exact h.call hc (advanced hadv)
  | crash process =>
    cases hstep
    exact h.crash process

theorem endpoint_inv {path : PathEntry} {acts : List EndpointAct}
    (h : run endpointStep (.new path) acts = some s) : s.Inv :=
  run_invariant_of_forall (fun _ _ _ => endpointStep_inv)
    ⟨fun _ _ hi => (by cases hi), fun _ _ hi => (by cases hi), fun _ hi => by cases hi⟩ h

theorem Endpoint.Inv.live (h : s.Inv) {i : ℕ} {c : ListenCall} (hc : s.calls[i]? = some c)
    (hlive : c.pc.live = true) : s.lockedBy = some i ∧ s.path = .socket (some i) := by
  have hbound := ListenPc.bound_of_live hlive
  exact ⟨(h.lock i c hc).1 (ListenPc.holdsLock_of_bound hbound), (h.place i c hc).bound hbound⟩

theorem Endpoint.Inv.removal (h : s.Inv) {a : EndpointAct} (hstep : endpointStep s a = some t)
    (hpath : t.path ≠ s.path) (hsome : s.path ≠ .absent) :
    ∃ (i : ℕ) (op : ListenOp) (c : ListenCall) (owner : Option ℕ), a = .call i op ∧
      s.calls[i]? = some c ∧ s.lockedBy = some i ∧ s.path = .socket owner := by
  cases a with
  | start process =>
    cases hstep
    exact absurd rfl hpath
  | crash process =>
    cases hstep
    exact absurd rfl hpath
  | call i op =>
    rw [endpointStep] at hstep
    cases hc : s.calls[i]? with
    | none => simp [hc] at hstep
    | some c =>
      simp only [hc, map_eq_some_iff] at hstep
      obtain ⟨⟨pc, path, move⟩, hadv, rfl⟩ := hstep
      have hchange := (advanced hadv).path_change (h.place i c hc)
      rcases hchange with rfl | ⟨hheld, habsent | ⟨owner, ho⟩⟩
      · exact absurd rfl hpath
      · exact absurd habsent hsome
      · exact ⟨i, op, c, owner, rfl, hc, (h.lock i c hc).1 hheld, ho⟩

end Step

/-- In every run of processes that start and close listeners on one path and crash, at most one
start has a live listener, with its socket at the path; nothing is taken away but sockets of no live
listener. -/
theorem one_live_listener (path : PathEntry) (acts : List EndpointAct) (s : Endpoint)
    (h : run endpointStep (.new path) acts = some s) :
    (∀ (i j : ℕ) (c d : ListenCall), s.calls[i]? = some c → s.calls[j]? = some d →
      c.pc.live = true → d.pc.live = true → i = j ∧ c.process = d.process) ∧
    (∀ (i : ℕ) (c : ListenCall), s.calls[i]? = some c → c.pc.live = true →
      s.lockedBy = some i ∧ s.path = .socket (some i)) ∧
    (∀ a t, endpointStep s a = some t → t.path ≠ s.path → s.path ≠ .absent →
      ∃ (i : ℕ) (op : ListenOp) (c : ListenCall) (owner : Option ℕ), a = .call i op ∧
        s.calls[i]? = some c ∧ s.lockedBy = some i ∧ s.path = .socket owner ∧
        ∀ (j : ℕ) (d : ListenCall), s.calls[j]? = some d → d.pc.live = true →
          j = i ∧ d.process = c.process) ∧
    (s.path = .other → ∀ a t, endpointStep s a = some t → t.path = .other) := by
  have hinv := endpoint_inv h
  refine ⟨?_, fun i c hc hlive => hinv.live hc hlive, ?_, ?_⟩
  · intro i j c d hc hd hlive hlive'
    have hi := (hinv.live hc hlive).1
    rw [(hinv.live hd hlive').1] at hi
    cases hi
    rw [hc] at hd
    cases hd
    exact ⟨rfl, rfl⟩
  · intro a t hstep hne hsome
    obtain ⟨i, op, c, owner, rfl, hc, hlock, howner⟩ := hinv.removal hstep hne hsome
    refine ⟨i, op, c, owner, rfl, hc, hlock, howner, fun j d hd hlive => ?_⟩
    have hj := (hinv.live hd hlive).1
    rw [hlock] at hj
    cases hj
    rw [hc] at hd
    cases hd
    exact ⟨rfl, rfl⟩
  · intro hother a t hstep
    by_contra hne
    obtain ⟨i, op, c, owner, -, -, -, howner⟩ :=
      hinv.removal hstep (by rwa [hother]) (by rw [hother]; decide)
    rw [hother] at howner
    cases howner

/-- The process 1 crashes with a listener, and the process 2 takes the path over. -/
def takeover : List EndpointAct :=
  [.start 1, .call 0 (.next true), .call 0 (.next true), .call 0 (.next true),
    .call 0 (.next true), .call 0 (.next true), .call 0 (.next true), .call 0 (.next true),
    .crash 1, .start 2, .call 1 (.next true), .call 1 (.next true), .call 1 (.next true),
    .start 3, .call 2 (.next true), .call 2 (.next true), .call 2 (.next true),
    .call 1 (.next true), .call 1 (.next true), .call 1 (.next true), .call 1 (.next true),
    .call 1 (.next true)]

theorem one_live_listener_takeover : ∃ s, run endpointStep (.new .absent) takeover = some s ∧
      (s.calls.map (·.pc.live)) = [false, true, false] ∧ s.path = .socket (some 1) := by
  refine ⟨_, rfl, by decide, ?_⟩
  exact ((one_live_listener .absent takeover _ rfl).2.1 1 ⟨2, .opened⟩ rfl rfl).2

end Listen
