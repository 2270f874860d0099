import AbstractionIdentity.Linux.Loopback

/-!
# The outcomes of a loopback binding

`bindTrace` is `bindLoopback` with a record of what it does to the process it found: the scan, the
pidfd, the observations behind the pin, the recheck and the close (`bindTrace_result`).
-/

namespace Linux

open Text Identity List LoopbackBinding

def LoopbackError.unwrap : LoopbackError → Option LoopbackError
  | .peerPending => some .peerGone
  | .noBinding | .peerGone | .peerMoved => none

def LoopbackError.is (err target : LoopbackError) : Bool := err = target || err.unwrap = some target

variable {b : LoopbackBinding} {err : LoopbackError} {pids : List ℤ}

theorem LoopbackError.is_peerPending : err.is .peerPending = true ↔ err = .peerPending := by
  cases err <;> decide

inductive BindEvent where
  | scanned (pids : List ℤ)
  | opened (pidfd : ℕ)
  | alive (live : Bool)
  | held (holding : Bool)
  | image
  | startTime
  | rechecked
  | closed (pidfd : ℕ)
  deriving DecidableEq

abbrev Traced := Except LoopbackError (LoopbackBinding × Peer) × List BindEvent

def releasePidfd : Option ℕ → List BindEvent
  | none => []
  | some pidfd => [.closed pidfd]

def failPinned (pidfd : ℕ) (err : LoopbackError) (events : List BindEvent) : Traced :=
  (.error err, events ++ releasePidfd (some pidfd))

section Trace

variable (little : Bool) (client server : AddrPort) (k : LoopbackSystem) (pidfd : ℕ)

def bindHolderTrace (row : TcpRow) (pid : ℤ) (events : List BindEvent) : Traced :=
  if !k.pidfdOpen then (.error .peerGone, events)
  else
    let events := events ++ [.opened pidfd]
    if pidfdAlive k.fdinfo pid ≠ .ok true then
      failPinned pidfd .peerGone (events ++ [.alive false])
    else
      let events := events ++ [.alive true]
      if !holds k.fds (socketLink row.inode) then
        failPinned pidfd .peerMoved (events ++ [.held false])
      else
        let events := events ++ [.held true, .image]
        match processExe k.exe with
        | .error _ => failPinned pidfd .peerGone events
        | .ok (exe, deleted) =>
          let events := events ++ [.startTime]
          match k.started with
          | .error _ => failPinned pidfd .noBinding events
          | .ok started =>
            let b := LoopbackBinding.mk client server row.inode row.uid pid exe
            if k.connectedAt + startTimeSlop < started then
              failPinned pidfd .peerMoved events
            else
              let events := events ++ [.rechecked]
              match b.recheck little k.check with
              | .error err => failPinned pidfd err events
              | .ok () => (.ok (b, loopbackPeer k b deleted started), events)

def bindTrace : Traced :=
  if !k.pidfdSupport then (.error .noBinding, [])
  else match socketRow little client server k.tcp with
    | .error _ => (.error .noBinding, [])
    | .ok none => (.error .peerGone, [])
    | .ok (some row) =>
      if row.uid ≠ k.getuid then (.error .noBinding, [])
      else if row.established ∧ row.inode = 0 then (.error .peerPending, [])
      else match holders row.inode row.uid k.procs with
        | .error _ => (.error .noBinding, [])
        | .ok [] => (.error .peerPending, [.scanned []])
        | .ok [pid] => bindHolderTrace little client server k pidfd row pid [.scanned [pid]]
        | .ok (pid :: pid' :: pids) => (.error .peerMoved, [.scanned (pid :: pid' :: pids)])

end Trace

variable {little : Bool} {client server : AddrPort} {k : LoopbackSystem} {pidfd : ℕ}
  {row : TcpRow} {pid : ℤ} {events : List BindEvent}

/-! ## The recheck -/

theorem emptyHolderRescan_error {found : Option TcpRow}
    (h : b.emptyHolderRescan found = .error err) : err = .peerMoved := by
  unfold emptyHolderRescan at h
  split at h
  · cases h
  · split_ifs at h
    cases h
    rfl

theorem recheckHolder_error {o : Sight} (h : b.recheckHolder o pids = .error err) :
    err = .peerMoved := by
  rw [recheckHolder] at h
  split_ifs at h
  · cases h
    rfl
  · split at h
    · split_ifs at h
      cases h
      rfl
    · cases h

theorem recheck_error {o : Sight} (h : b.recheck little o = .error err) : err = .peerMoved := by
  rw [recheck] at h
  split at h
  · cases h
  · cases h
  next found hfound =>
    split_ifs at h with hestablished hinode
    · cases h
      rfl
    · split at h
      · cases h
      next pids hpids =>
        split_ifs at h with hnil
        · exact recheckHolder_error h
        · split at h
          · exact recheckHolder_error h
          next again hagain =>
            split at h
            next err' hrescan =>
              cases h
              exact emptyHolderRescan_error hrescan
            · cases h
            · exact recheckHolder_error h

/-! ## One holder -/

theorem bindHolderTrace_unpinned (h : k.pidfdOpen = false) :
    bindHolderTrace little client server k pidfd row pid events = (.error .peerGone, events) := by
  rw [bindHolderTrace, h]
  rfl

def observations : List BindEvent :=
  [.alive false, .alive true, .held false, .held true, .image, .startTime, .rechecked]

theorem failPinned_closes (more : List BindEvent) {seen : List BindEvent}
    (hseen : seen = events ++ .opened pidfd :: more) (hmore : more ⊆ observations)
    (herr : err ≠ .peerPending) :
    ∃ err' more, failPinned pidfd err seen =
      (.error err', events ++ (.opened pidfd :: more) ++ [.closed pidfd]) ∧ more ⊆ observations ∧
        err' ≠ .peerPending := by
  subst hseen
  exact ⟨err, more, rfl, hmore, herr⟩

/-- Behind the pin the binding is made of a process that is alive and holds the socket, or the
pidfd is closed at the end, with an error that is not `peerPending`. -/
theorem bindHolderTrace_pinned (h : k.pidfdOpen = true) :
    (pidfdAlive k.fdinfo pid = .ok true ∧ holds k.fds (socketLink row.inode) = true ∧
      ∃ bound, bindHolderTrace little client server k pidfd row pid events =
        (.ok bound, events ++ [.opened pidfd, .alive true, .held true, .image, .startTime,
          .rechecked])) ∨
    ∃ err more, bindHolderTrace little client server k pidfd row pid events =
      (.error err, events ++ (.opened pidfd :: more) ++ [.closed pidfd]) ∧ more ⊆ observations ∧
        err ≠ .peerPending := by
  -- one case for each observation behind the pin that may fail
  have hopen : ¬ (!k.pidfdOpen) = true := by simp [h]
  rw [bindHolderTrace, if_neg hopen]
  dsimp only
  by_cases halive : pidfdAlive k.fdinfo pid = .ok true
  · rw [if_neg (not_not_intro halive)]
    cases hholds : holds k.fds (socketLink row.inode) with
    | false =>
      rw [if_pos (by rfl)]
      exact .inr (failPinned_closes [.alive true, .held false] (by simp) (by decide) (by decide))
    | true =>
      rw [if_neg (by simp)]
      cases hexe : processExe k.exe with
      | error err =>
        exact .inr (failPinned_closes [.alive true, .held true, .image] (by simp) (by decide)
          (by decide))
      | ok found =>
        obtain ⟨exe, deleted⟩ := found
        cases hstarted : k.started with
        | error err =>
          exact .inr (failPinned_closes [.alive true, .held true, .image, .startTime]
            (by simp) (by decide) (by decide))
        | ok started =>
          dsimp only
          split_ifs with hlate
          · exact .inr (failPinned_closes [.alive true, .held true, .image, .startTime]
              (by simp) (by decide) (by decide))
          · cases hcheck : (mk client server row.inode row.uid pid
                exe).recheck little k.check with
            | error err =>
              have herr : err ≠ .peerPending := by
                rw [recheck_error hcheck]
                decide
              exact .inr (failPinned_closes
                [.alive true, .held true, .image, .startTime, .rechecked]
                (by simp) (by decide) herr)
            | ok _ =>
              refine .inl ⟨halive, rfl, ?_⟩
              simp only [append_assoc, cons_append, nil_append]
              exact ⟨_, rfl⟩
  · rw [if_pos halive]
    exact .inr (failPinned_closes [.alive false] (by simp) (by decide) (by decide))

theorem bindHolderTrace_result : (bindHolderTrace little client server k pidfd row pid events).1 =
    bindHolder little client server k row pid := by
  rw [bindHolderTrace, bindHolder]
  by_cases hopen : (!k.pidfdOpen) = true
  · rw [if_pos hopen, if_pos hopen]
  rw [if_neg hopen, if_neg hopen]
  dsimp only
  by_cases halive : pidfdAlive k.fdinfo pid = .ok true
  · rw [if_neg (not_not_intro halive), if_neg (not_not_intro halive)]
    by_cases hholds : (!holds k.fds (socketLink row.inode)) = true
    · rw [if_pos hholds, if_pos hholds]
      rfl
    rw [if_neg hholds, if_neg hholds]
    cases hexe : processExe k.exe with
    | error err => rfl
    | ok found =>
      obtain ⟨exe, deleted⟩ := found
      cases hstarted : k.started with
      | error err => rfl
      | ok started =>
        dsimp only
        split_ifs with hlate
        · rfl
        · cases hcheck : (mk client server row.inode row.uid pid
            exe).recheck little k.check with
          | error err => rfl
          | ok _ => rfl
  · rw [if_pos halive, if_pos halive]
    rfl

theorem bindTrace_result :
    (bindTrace little client server k pidfd).1 = bindLoopback little client server k := by
  rw [bindTrace, bindLoopback]
  by_cases hsupport : (!k.pidfdSupport) = true
  · rw [if_pos hsupport, if_pos hsupport]
  rw [if_neg hsupport, if_neg hsupport]
  cases hrow : socketRow little client server k.tcp with
  | error err => rfl
  | ok found =>
    cases found with
    | none => rfl
    | some row =>
      dsimp only
      split_ifs
      · rfl
      · rfl
      · cases hpids : holders row.inode row.uid k.procs with
        | error err => rfl
        | ok pids =>
          rcases pids with _ | ⟨pid, _ | ⟨pid', pids⟩⟩
          · rfl
          · exact bindHolderTrace_result
          · rfl

/-! ## The whole binding -/

theorem bindTrace_cases :
    (∃ err events, bindTrace little client server k pidfd = (.error err, events) ∧
      ∀ event ∈ events, ∃ pids, event = .scanned pids) ∨
    k.pidfdOpen = true ∧ ∃ row pid, holders row.inode row.uid k.procs = .ok [pid] ∧
      bindTrace little client server k pidfd =
        bindHolderTrace little client server k pidfd row pid [.scanned [pid]] := by
  rw [bindTrace]
  split_ifs with hsupport
  · exact .inl ⟨_, _, rfl, by simp⟩
  cases hrow : socketRow little client server k.tcp with
  | error err => exact .inl ⟨_, _, rfl, by simp⟩
  | ok found =>
    cases found with
    | none => exact .inl ⟨_, _, rfl, by simp⟩
    | some row =>
      dsimp only
      split_ifs
      · exact .inl ⟨_, _, rfl, by simp⟩
      · exact .inl ⟨_, _, rfl, by simp⟩
      · cases hpids : holders row.inode row.uid k.procs with
        | error err => exact .inl ⟨_, _, rfl, by simp⟩
        | ok pids =>
          rcases pids with _ | ⟨pid, _ | ⟨pid', pids⟩⟩
          · exact .inl ⟨_, _, rfl, by simp⟩
          · cases hopen : k.pidfdOpen with
            | false => exact .inl ⟨_, _, bindHolderTrace_unpinned hopen, by simp⟩
            | true => exact .inr ⟨rfl, row, pid, hpids, rfl⟩
          · exact .inl ⟨_, _, rfl, by simp⟩

/-- The row is there, of the own user, and no process was found that holds its socket. -/
def Unheld (little : Bool) (client server : AddrPort) (k : LoopbackSystem) : Prop :=
  k.pidfdSupport = true ∧ ∃ row, socketRow little client server k.tcp = .ok (some row) ∧
    row.uid = k.getuid ∧
      (row.established = true ∧ row.inode = 0 ∨ holders row.inode row.uid k.procs = .ok [])

theorem bindHolder_ne_pending :
    bindHolder little client server k row pid ≠ .error .peerPending := by
  rw [← @bindHolderTrace_result little client server k 0 row pid []]
  cases hopen : k.pidfdOpen with
  | false =>
    rw [bindHolderTrace_unpinned hopen]
    simp
  | true =>
    rcases bindHolderTrace_pinned hopen with ⟨-, -, bound, htrace⟩ | ⟨err, more, htrace, -, herr⟩
    · rw [htrace]
      simp
    · rw [htrace]
      simpa using herr

theorem bindLoopback_pending_iff :
    bindLoopback little client server k = .error .peerPending ↔ Unheld little client server k := by
  rw [bindLoopback, Unheld]
  cases hsupport : k.pidfdSupport with
  | false => simp
  | true =>
    rw [if_neg (by simp)]
    cases hrow : socketRow little client server k.tcp with
    | error err => simp
    | ok found =>
      cases found with
      | none => simp
      | some row =>
        dsimp only
        split_ifs with huid hzero
        · simp [huid]
        · simp [hzero, not_not.1 huid]
        · cases hpids : holders row.inode row.uid k.procs with
          | error err => simp [hzero, hpids]
          | ok pids =>
            rcases pids with _ | ⟨pid, _ | ⟨pid', pids⟩⟩
            · simp only [true_iff, true_and]
              exact ⟨row, rfl, not_not.1 huid, .inr hpids⟩
            · simp [hpids, hzero, bindHolder_ne_pending]
            · simp [hpids, hzero]

theorem eq_of_scanned_holder (h : .scanned pids ∈
    (bindHolderTrace little client server k pidfd row pid [.scanned [pid]]).2) : pids = [pid] := by
  cases hopen : k.pidfdOpen with
  | false =>
    rw [bindHolderTrace_unpinned hopen] at h
    simpa using h
  | true =>
    rcases @bindHolderTrace_pinned little client server k pidfd row pid [.scanned [pid]] hopen
      with ⟨-, -, bound, hpinned⟩ | ⟨err, more, hpinned, hmore, -⟩
    · rw [hpinned] at h
      simpa using h
    · rw [hpinned] at h
      have hno : .scanned pids ∉ more := fun hmem => by simpa [observations] using hmore hmem
      simpa [hno] using h

theorem holders_of_scanned (h : .scanned pids ∈ (bindTrace little client server k pidfd).2) :
    ∃ row, socketRow little client server k.tcp = .ok (some row) ∧
      ¬ (row.established = true ∧ row.inode = 0) ∧
      holders row.inode row.uid k.procs = .ok pids := by
  rw [bindTrace] at h
  split_ifs at h
  · cases h
  · split at h
    · cases h
    · cases h
    next row hrow =>
      split_ifs at h with huid hzero
      · cases h
      · cases h
      · refine ⟨row, hrow, hzero, ?_⟩
        split at h
        · cases h
        next hpids => simpa [hpids, eq_comm] using h
        next pid hpids => rw [hpids, eq_of_scanned_holder h]
        next pid pid' rest hpids => simpa [hpids, eq_comm] using h

theorem bindTrace_bound {peer : Peer} (h : bindLoopback little client server k = .ok (b, peer)) :
    holders b.inode b.uid k.procs = .ok [b.pid] ∧ pidfdAlive k.fdinfo b.pid = .ok true ∧
      holds k.fds (socketLink b.inode) = true ∧
      (bindTrace little client server k pidfd).2 = [.scanned [b.pid], .opened pidfd, .alive true,
        .held true, .image, .startTime, .rechecked] := by
  have hresult := h
  rw [← @bindTrace_result little client server k pidfd] at hresult
  rcases @bindTrace_cases little client server k pidfd with
    ⟨err, events, htrace, -⟩ | ⟨hopen, row, pid, hpids, htrace⟩
  · rw [htrace] at hresult
    cases hresult
  · rw [htrace] at hresult ⊢
    rcases @bindHolderTrace_pinned little client server k pidfd row pid [.scanned [pid]] hopen with
      ⟨halive, hholds, bound, hpinned⟩ | ⟨err, more, hpinned, -, -⟩
    · rw [bindHolderTrace_result] at hresult
      obtain ⟨-, -, hinode, huid, hpid, -, -⟩ := bindHolder_captures hresult
      rw [hpinned, hinode, huid, hpid]
      exact ⟨hpids, halive, hholds, rfl⟩
    · rw [hpinned] at hresult
      cases hresult

theorem bindTrace_failed {err : LoopbackError}
    (h : bindLoopback little client server k = .error err) :
    (bindTrace little client server k pidfd).2.count (.closed pidfd) =
      (bindTrace little client server k pidfd).2.count (.opened pidfd) ∧
    (bindTrace little client server k pidfd).2.count (.opened pidfd) ≤ 1 := by
  have hresult := h
  rw [← @bindTrace_result little client server k pidfd] at hresult
  rcases @bindTrace_cases little client server k pidfd with
    ⟨err, events, htrace, hscans⟩ | ⟨hopen, row, pid, -, htrace⟩
  · have hcount : ∀ event, (∀ pids, event ≠ .scanned pids) → events.count event = 0 := by
      intro event hevent
      rw [count_eq_zero]
      intro hmem
      obtain ⟨pids, hpids⟩ := hscans event hmem
      exact hevent pids hpids
    rw [htrace]
    simp [hcount]
  · rw [htrace] at hresult ⊢
    rcases @bindHolderTrace_pinned little client server k pidfd row pid [.scanned [pid]] hopen with
      ⟨-, -, bound, hpinned⟩ | ⟨err, more, hpinned, hmore, -⟩
    · rw [hpinned] at hresult
      cases hresult
    · have hclosed : .closed pidfd ∉ more := fun hmem => by simpa [observations] using hmore hmem
      have hopened : .opened pidfd ∉ more := fun hmem => by simpa [observations] using hmore hmem
      rw [hpinned]
      simp [count_append, count_eq_zero.2 hclosed, count_eq_zero.2 hopened]

/-- `ErrPeerPending` is the answer exactly if the row is there and unheld; a binding is made only of
the one holder, alive and holding the socket behind its pin; every failure behind the pin closes the
pidfd exactly once. -/
theorem bindLoopback_outcomes (little : Bool) (client server : AddrPort) (k : LoopbackSystem)
    (pidfd : ℕ) :
    ((∃ err, bindLoopback little client server k = .error err ∧ err.is .peerPending = true) ↔
      Unheld little client server k) ∧
    (∀ pids, .scanned pids ∈ (bindTrace little client server k pidfd).2 → pids ≠ [] →
      ∀ err, bindLoopback little client server k = .error err → err.is .peerPending = false) ∧
    (∀ (b : LoopbackBinding) (o : Sight) (err : LoopbackError),
      b.recheck little o = .error err → err.is .peerPending = false) ∧
    (∀ b peer, bindLoopback little client server k = .ok (b, peer) →
      holders b.inode b.uid k.procs = .ok [b.pid] ∧ pidfdAlive k.fdinfo b.pid = .ok true ∧
      holds k.fds (socketLink b.inode) = true ∧
      (bindTrace little client server k pidfd).2 = [.scanned [b.pid], .opened pidfd, .alive true,
        .held true, .image, .startTime, .rechecked]) ∧
    ∀ err, bindLoopback little client server k = .error err →
      (.opened pidfd ∈ (bindTrace little client server k pidfd).2 →
        (bindTrace little client server k pidfd).2.count (.closed pidfd) = 1) ∧
      (.opened pidfd ∉ (bindTrace little client server k pidfd).2 →
        .closed pidfd ∉ (bindTrace little client server k pidfd).2) := by
  refine ⟨?_, ?_, ?_, fun b peer h => bindTrace_bound h, ?_⟩
  · simp only [LoopbackError.is_peerPending, exists_eq_right, bindLoopback_pending_iff]
  · intro pids hscanned hpids err herr
    rw [Bool.eq_false_iff, ne_eq, LoopbackError.is_peerPending]
    rintro rfl
    obtain ⟨row, hrow, hzero, hholders⟩ := holders_of_scanned hscanned
    obtain ⟨-, row', hrow', -, hunheld⟩ := bindLoopback_pending_iff.1 herr
    rw [hrow, Except.ok.injEq, Option.some.injEq] at hrow'
    subst hrow'
    rcases hunheld with hunheld | hunheld
    · exact hzero hunheld
    · rw [hholders, Except.ok.injEq] at hunheld
      exact hpids hunheld
  · intro b o err herr
    rw [recheck_error herr]
    decide
  · intro err herr
    obtain ⟨hclosed, hopened⟩ := @bindTrace_failed little client server k pidfd err herr
    constructor
    · intro hmem
      have hpos := count_pos_iff.2 hmem
      omega
    · intro hmem
      rw [← count_eq_zero] at hmem ⊢
      exact hclosed.trans hmem

end Linux
