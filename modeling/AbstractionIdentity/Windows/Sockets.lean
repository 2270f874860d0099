import AbstractionIdentity.Text.ByteReader

/-!
# Sockets and their owners

`checkLoopbackOnly` decides a property of the set of sockets of a process tree, but compares ports
in 16 bits while a socket has an `int`; the model records whom it asks about. `parseOwnerTable`
reads the tables of the system from which the sockets come.
-/

namespace Windows.Sockets

open Text List

/-! ## Addresses -/

inductive Addr where
  | invalid
  | v4 (bytes : {b : Bytes // b.length = 4})
  | v6 (bytes : {b : Bytes // b.length = 16}) (zone : Bytes)
  deriving DecidableEq

def mappedStart : Bytes := List.replicate 10 0 ++ [255, 255]

theorem length_mapped (bytes : {b : Bytes // b.length = 16}) : (bytes.1.drop 12).length = 4 := by
  rw [length_drop, bytes.2]

namespace Addr

/-- `Unmap`: the IPv4 address of a mapped one, which loses its zone. -/
def unmap : Addr → Addr
  | .v6 bytes zone =>
    if bytes.1.take 12 = mappedStart then .v4 ⟨bytes.1.drop 12, length_mapped bytes⟩
    else .v6 bytes zone
  | addr => addr

def isLoopback : Addr → Bool
  | .invalid => false
  | .v4 bytes => bytes.1.head? = some 127
  | .v6 bytes _ => bytes.1 = List.replicate 15 0 ++ [1]

def fromSlice (bytes : Bytes) : Option Addr :=
  if h : bytes.length = 4 then some (.v4 ⟨bytes, h⟩)
  else if h : bytes.length = 16 then some (.v6 ⟨bytes, h⟩ [])
  else none

end Addr

structure AddrPort where
  addr : Addr
  port : UInt16
  deriving DecidableEq

structure Socket where
  proto : Bytes
  addr : Addr
  port : ℤ
  pid : ℤ
  deriving DecidableEq

def tcp : Bytes := ascii "tcp"

def udp : Bytes := ascii "udp"

/-! ## The check -/

inductive BeyondLoopback where
  | beyond (proto : Bytes) (socket : AddrPort) (pid : ℤ)
  | notObserved (want : AddrPort)
  deriving DecidableEq

/-- The map of the answers, and the process ids that `owned` was asked about, the last first. -/
structure Membership where
  answers : List (ℤ × Bool) := []
  asked : List ℤ := []
  deriving DecidableEq

def member (owned : ℤ → Bool) (pid : ℤ) (m : Membership) : Bool × Membership :=
  match m.answers.lookup pid with
  | some inside => (inside, m)
  | none =>
    if 0 < pid then (owned pid, ⟨(pid, owned pid) :: m.answers, pid :: m.asked⟩)
    else (false, ⟨(pid, false) :: m.answers, m.asked⟩)

def Socket.addrPort (s : Socket) : AddrPort := ⟨s.addr.unmap, UInt16.ofInt s.port⟩

def checkFrom (owned : ℤ → Bool) (want : AddrPort) :
    List Socket → Bool → Membership → Option BeyondLoopback × Membership
  | [], expected, m => (if expected then none else some (.notObserved want), m)
  | s :: rest, expected, m =>
    if !s.addr.unmap.isLoopback then
      if (member owned s.pid m).1 then
        (some (.beyond s.proto s.addrPort s.pid), (member owned s.pid m).2)
      else checkFrom owned want rest expected (member owned s.pid m).2
    else if !expected && s.proto = tcp && s.addrPort = want then
      checkFrom owned want rest (member owned s.pid m).1 (member owned s.pid m).2
    else checkFrom owned want rest expected m

def checkLoopbackOnly (sockets : List Socket) (owned : ℤ → Bool) (listener : AddrPort) :
    Option BeyondLoopback × Membership :=
  checkFrom owned ⟨listener.addr.unmap, listener.port⟩ sockets false {}

/-! ## What the check decides -/

def Inside (owned : ℤ → Bool) (pid : ℤ) : Prop := 0 < pid ∧ owned pid = true

def Beyond (owned : ℤ → Bool) (s : Socket) : Prop :=
  s.addr.unmap.isLoopback = false ∧ Inside owned s.pid

def AtListener (owned : ℤ → Bool) (listener : AddrPort) (s : Socket) : Prop :=
  s.proto = tcp ∧ s.addr.unmap = listener.addr.unmap ∧ s.addr.unmap.isLoopback = true ∧
    Inside owned s.pid

def LoopbackOnly (owned : ℤ → Bool) (listener : AddrPort) (sockets : List Socket) : Prop :=
  (∀ s ∈ sockets, ¬ Beyond owned s) ∧
    ∃ s ∈ sockets, AtListener owned listener s ∧ s.port = listener.port.toNat

/-- No socket is beyond loopback, the tree does not have the listener, but at its address a port
that is the port of the listener only in 16 bits. -/
def OnlyTruncated (owned : ℤ → Bool) (listener : AddrPort) (sockets : List Socket) : Prop :=
  (∀ s ∈ sockets, ¬ Beyond owned s) ∧
    (∀ s ∈ sockets, AtListener owned listener s → s.port ≠ listener.port.toNat) ∧
    ∃ s ∈ sockets, AtListener owned listener s ∧ s.port % 65536 = listener.port.toNat

structure Membership.Sound (owned : ℤ → Bool) (m : Membership) : Prop where
  answer : ∀ {pid inside}, m.answers.lookup pid = some inside → (inside = true ↔ Inside owned pid)
  kept : ∀ pid ∈ m.asked, m.answers.lookup pid ≠ none
  once : m.asked.Nodup

variable {owned : ℤ → Bool}

theorem sound_empty : Membership.Sound owned {} :=
  ⟨fun h => (nomatch h), fun _ h => (nomatch h), nodup_nil⟩

theorem lookup_cons_ne {answers : List (ℤ × Bool)} {pid other : ℤ} {inside : Bool}
    (h : answers.lookup other ≠ none) : ((pid, inside) :: answers).lookup other ≠ none := by
  rw [lookup_cons]
  split
  · exact Option.some_ne_none inside
  · exact h

theorem Membership.Sound.answered {m : Membership} {pid : ℤ} {inside : Bool}
    (h : m.Sound owned) (hinside : inside = true ↔ Inside owned pid) :
    ∀ {other answer}, ((pid, inside) :: m.answers).lookup other = some answer →
      (answer = true ↔ Inside owned other) := by
  intro other answer hlookup
  rw [lookup_cons] at hlookup
  split at hlookup
  next heq =>
    cases hlookup
    rw [eq_of_beq heq]
    exact hinside
  · exact h.answer hlookup

theorem member_sound {m : Membership} (h : m.Sound owned) (pid : ℤ) :
    ((member owned pid m).1 = true ↔ Inside owned pid) ∧ (member owned pid m).2.Sound owned := by
  rw [member]
  cases hlookup : m.answers.lookup pid with
  | some inside => exact ⟨h.answer hlookup, h⟩
  | none =>
    by_cases hpid : 0 < pid
    · have hinside : owned pid = true ↔ Inside owned pid := ⟨fun ho => ⟨hpid, ho⟩, fun hi => hi.2⟩
      simp only [if_pos hpid]
      refine ⟨hinside, h.answered hinside, ?_, ?_⟩
      · intro other hother
        rcases mem_cons.1 hother with rfl | hother
        · simp
        · exact lookup_cons_ne (h.kept other hother)
      · refine nodup_cons.2 ⟨fun hmem => h.kept pid hmem hlookup, h.once⟩
    · have hinside : false = true ↔ Inside owned pid :=
        ⟨fun hf => (nomatch hf), fun hi => absurd hi.1 hpid⟩
      simp only [if_neg hpid]
      exact ⟨hinside, h.answered hinside,
        fun other hother => lookup_cons_ne (h.kept other hother), h.once⟩

def Passes (owned : ℤ → Bool) (want : AddrPort) (s : Socket) : Prop :=
  s.addr.unmap.isLoopback = true ∧ s.proto = tcp ∧ s.addrPort = want ∧ Inside owned s.pid

theorem checkFrom_spec {want : AddrPort} {sockets : List Socket} {expected : Bool}
    {m : Membership} (h : m.Sound owned) :
    ((checkFrom owned want sockets expected m).1 = none ↔
      (∀ s ∈ sockets, ¬ Beyond owned s) ∧ (expected = true ∨ ∃ s ∈ sockets, Passes owned want s)) ∧
      (checkFrom owned want sockets expected m).2.Sound owned := by
  induction sockets generalizing expected m with
  | nil =>
    rw [checkFrom]
    cases expected <;> simp [h]
  | cons s rest ih =>
    obtain ⟨hanswer, hsound⟩ := member_sound h s.pid
    rw [checkFrom, forall_mem_cons, exists_mem_cons_iff]
    cases hloop : s.addr.unmap.isLoopback with
    | false =>
      have hpasses : ¬ Passes owned want s := fun hp => by
        rw [Passes, hloop] at hp
        cases hp.1
      by_cases hin : (member owned s.pid m).1 = true
      · have hbeyond : Beyond owned s := ⟨hloop, hanswer.1 hin⟩
        simp [hin, hsound, hbeyond]
      · have hbeyond : ¬ Beyond owned s := fun hb => hin (hanswer.2 hb.2)
        simpa [hin, hbeyond, hpasses] using ih hsound
    | true =>
      have hbeyond : ¬ Beyond owned s := fun hb => by
        rw [Beyond, hloop] at hb
        cases hb.1
      by_cases hask : (!expected && s.proto = tcp && s.addrPort = want) = true
      · rw [Bool.and_eq_true, Bool.and_eq_true, Bool.not_eq_true', decide_eq_true_iff,
          decide_eq_true_iff] at hask
        obtain ⟨⟨rfl, hproto⟩, hwant⟩ := hask
        have hpasses : Passes owned want s ↔ (member owned s.pid m).1 = true := by
          rw [hanswer]
          exact ⟨fun hp => hp.2.2.2, fun hi => ⟨hloop, hproto, hwant, hi⟩⟩
        simpa [hproto, hwant, hbeyond, hpasses] using ih hsound
      · have hpasses : expected = true ∨ ¬ Passes owned want s := by
          by_cases hexpected : expected = true
          · exact .inl hexpected
          · refine .inr fun hp => hask ?_
            simp [hexpected, hp.2.1, hp.2.2.1]
        have hskip : (expected = true ∨ Passes owned want s ∨ ∃ x ∈ rest, Passes owned want x) ↔
              (expected = true ∨ ∃ x ∈ rest, Passes owned want x) := by
          rcases hpasses with hexpected | hpasses
          · simp [hexpected]
          · simp [hpasses]
        rw [if_neg (by simp), if_neg hask, hskip, and_iff_right hbeyond]
        exact ih h

theorem ofInt_eq_iff {n : ℤ} {p : UInt16} : UInt16.ofInt n = p ↔ n % 65536 = p.toNat := by
  have hlow := Int.emod_nonneg n (show (65536 : ℤ) ≠ 0 by decide)
  have hhigh := Int.emod_lt_of_pos n (show (0 : ℤ) < 65536 by decide)
  rw [← UInt16.toNat_inj, UInt16.ofInt, UInt16.toNat_ofNat']
  omega

theorem passes_iff {listener : AddrPort} {s : Socket} :
    Passes owned ⟨listener.addr.unmap, listener.port⟩ s ↔
      AtListener owned listener s ∧ s.port % 65536 = listener.port.toNat := by
  rw [Passes, AtListener, Socket.addrPort, AddrPort.mk.injEq, ofInt_eq_iff]
  tauto

theorem checkLoopbackOnly_none_iff {sockets : List Socket} {listener : AddrPort} :
    (checkLoopbackOnly sockets owned listener).1 = none ↔ (∀ s ∈ sockets, ¬ Beyond owned s) ∧
      ∃ s ∈ sockets, AtListener owned listener s ∧ s.port % 65536 = listener.port.toNat := by
  rw [checkLoopbackOnly, (checkFrom_spec sound_empty).1]
  simp [passes_iff]

theorem port_mod_of_eq {listener : AddrPort} {s : Socket} (h : s.port = listener.port.toNat) :
    s.port % 65536 = listener.port.toNat := by
  have hlt := listener.port.toNat_lt
  omega

theorem not_onlyTruncated {listener : AddrPort} {sockets : List Socket}
    (h : ∀ s ∈ sockets, 0 ≤ s.port ∧ s.port < 65536) : ¬ OnlyTruncated owned listener sockets := by
  rintro ⟨-, hnone, s, hs, hat, hport⟩
  obtain ⟨hlow, hhigh⟩ := h s hs
  exact hnone s hs hat (Int.emod_eq_of_lt hlow hhigh ▸ hport)

/-- Each process id is asked about at most once, and only the set of sockets matters. The check
accepts exactly the trees on loopback only, unless the listener's port is there only in 16 bits;
that cannot be where every port is one. -/
theorem checkLoopbackOnly_iff (sockets : List Socket) (owned : ℤ → Bool) (listener : AddrPort) :
    (checkLoopbackOnly sockets owned listener).2.asked.Nodup ∧
      (∀ sockets' : List Socket, (∀ s, s ∈ sockets' ↔ s ∈ sockets) →
        ((checkLoopbackOnly sockets' owned listener).1 = none ↔
          (checkLoopbackOnly sockets owned listener).1 = none)) ∧
      (((checkLoopbackOnly sockets owned listener).1 = none ↔
        LoopbackOnly owned listener sockets) ↔ ¬ OnlyTruncated owned listener sockets) ∧
      ((∀ s ∈ sockets, 0 ≤ s.port ∧ s.port < 65536) →
        ((checkLoopbackOnly sockets owned listener).1 = none ↔
          LoopbackOnly owned listener sockets)) := by
  have hiff : ((checkLoopbackOnly sockets owned listener).1 = none ↔
      LoopbackOnly owned listener sockets) ↔ ¬ OnlyTruncated owned listener sockets := by
    rw [checkLoopbackOnly_none_iff]
    constructor
    · rintro hiff ⟨hbeyond, hnone, htruncated⟩
      obtain ⟨-, s, hs, hat, hport⟩ := hiff.1 ⟨hbeyond, htruncated⟩
      exact hnone s hs hat hport
    · intro hno
      constructor
      · rintro ⟨hbeyond, hsome⟩
        refine ⟨hbeyond, by_contra fun hexact => hno ⟨hbeyond, fun s hs hat hport => ?_, hsome⟩⟩
        exact hexact ⟨s, hs, hat, hport⟩
      · rintro ⟨hbeyond, s, hs, hat, hport⟩
        exact ⟨hbeyond, s, hs, hat, port_mod_of_eq hport⟩
  refine ⟨(checkFrom_spec sound_empty).2.once, fun sockets' hsame => ?_, hiff,
    fun hports => hiff.2 (not_onlyTruncated hports)⟩
  rw [checkLoopbackOnly_none_iff, checkLoopbackOnly_none_iff]
  simp only [hsame]

def localhost : Addr := .v4 ⟨[127, 0, 0, 1], rfl⟩

/-- The listener of one process and a socket of another. -/
def listening : List Socket := [⟨udp, localhost, 5353, 7⟩, ⟨tcp, localhost, 80, 1⟩]

theorem checkLoopbackOnly_iff_listening :
    (checkLoopbackOnly listening (fun _ => true) ⟨localhost, 80⟩).1 = none ∧
      LoopbackOnly (fun _ => true) ⟨localhost, 80⟩ listening :=
  ⟨by decide, ((checkLoopbackOnly_iff listening (fun _ => true) ⟨localhost, 80⟩).2.2.2
    (by decide)).1 (by decide)⟩

/-- A socket with the port `80 + 65536` is accepted as the listener at port 80. -/
theorem truncated_port_accepted :
    (checkLoopbackOnly [⟨tcp, localhost, 65616, 1⟩] (fun _ => true) ⟨localhost, 80⟩).1 = none ∧
      ¬ LoopbackOnly (fun _ => true) ⟨localhost, 80⟩ [⟨tcp, localhost, 65616, 1⟩] := by
  refine ⟨by decide, ?_⟩
  rintro ⟨-, s, hs, -, hport⟩
  rw [mem_singleton.1 hs] at hport
  exact absurd hport (by decide)

/-! ## The owner tables -/

/-- Where a row has its address, port and process id, which come in this order. -/
structure OwnerTableLayout where
  proto : Bytes
  rowSize : ℕ
  addrAt : ℕ
  addrBytes : ℕ
  portAt : ℕ
  pidAt : ℕ
  address : addrBytes = 4 ∨ addrBytes = 16
  addr_le : addrAt + addrBytes ≤ portAt
  port_le : portAt + 2 ≤ pidAt
  pid_last : pidAt + 4 = rowSize

def tcp4OwnerLayout : OwnerTableLayout :=
  ⟨tcp, 24, 4, 4, 8, 20, .inl rfl, Nat.le_of_ble_eq_true rfl, Nat.le_of_ble_eq_true rfl, rfl⟩

def tcp6OwnerLayout : OwnerTableLayout :=
  ⟨tcp, 56, 0, 16, 20, 52, .inr rfl, Nat.le_of_ble_eq_true rfl, Nat.le_of_ble_eq_true rfl, rfl⟩

def udp4OwnerLayout : OwnerTableLayout :=
  ⟨udp, 12, 0, 4, 4, 8, .inl rfl, Nat.le_of_ble_eq_true rfl, Nat.le_of_ble_eq_true rfl, rfl⟩

def udp6OwnerLayout : OwnerTableLayout :=
  ⟨udp, 28, 0, 16, 20, 24, .inr rfl, Nat.le_of_ble_eq_true rfl, Nat.le_of_ble_eq_true rfl, rfl⟩

inductive OwnerTableError where
  | shorterThanCount
  | countExceedsBuffer
  | address
  deriving DecidableEq

def mulInt (a b : ℕ) : ℤ := ((a * b : ℕ) : ℤ).bmod (2 ^ 64)

def sliceInt (data : Bytes) (i j : ℤ) : Except Fault Bytes :=
  if 0 ≤ i ∧ 0 ≤ j then slice data i.toNat j.toNat else .error .outOfRange

def socketAt (layout : OwnerTableLayout) (row : Bytes) :
    Except Fault (Except OwnerTableError Socket) :=
  (slice row layout.addrAt (layout.addrAt + layout.addrBytes)).bind fun bytes =>
    match Addr.fromSlice bytes with
    | none => .ok (.error .address)
    | some addr =>
      (u8At row layout.portAt).bind fun high =>
      (u8At row (layout.portAt + 1)).bind fun low =>
      (u32At row layout.pidAt).map fun pid =>
        .ok ⟨layout.proto, addr, (high <<< 8 ||| low : ℕ), pid⟩

def socketsFrom (layout : OwnerTableLayout) (rows : Bytes) :
    ℕ → ℕ → Except Fault (Except OwnerTableError (List Socket))
  | _, 0 => .ok (.ok [])
  | i, count + 1 =>
    (sliceInt rows (mulInt i layout.rowSize) (mulInt (i + 1) layout.rowSize)).bind fun row =>
    (socketAt layout row).bind fun
      | .error err => .ok (.error err)
      | .ok s => (socketsFrom layout rows (i + 1) count).map (·.map (s :: ·))

def parseOwnerTable (buf : Bytes) (layout : OwnerTableLayout) :
    Except Fault (Except OwnerTableError (List Socket)) :=
  if buf.length < 4 then .ok (.error .shorterThanCount)
  else
    (u32At buf 0).bind fun count =>
    (slice buf 4 buf.length).bind fun rows =>
      if rows.length / layout.rowSize < count then .ok (.error .countExceedsBuffer)
      else socketsFrom layout rows 0 count

structure Row (layout : OwnerTableLayout) where
  before : {b : Bytes // b.length = layout.addrAt}
  addr : {b : Bytes // b.length = layout.addrBytes}
  between : {b : Bytes // b.length = layout.portAt - (layout.addrAt + layout.addrBytes)}
  port : UInt16
  behind : {b : Bytes // b.length = layout.pidAt - (layout.portAt + 2)}
  pid : UInt32

namespace Row

variable {layout : OwnerTableLayout}

def portBytes (port : UInt16) : Bytes := [UInt8.ofNat (port.toNat / 256), UInt8.ofNat port.toNat]

def encode (row : Row layout) : Bytes :=
  row.before.1 ++ (row.addr.1 ++ (row.between.1 ++ (portBytes row.port ++
    (row.behind.1 ++ le32 row.pid.toNat))))

theorem length_addr (row : Row layout) : row.addr.1.length = 4 ∨ row.addr.1.length = 16 := by
  rw [row.addr.2]
  exact layout.address

def address (row : Row layout) : Addr :=
  if h : row.addr.1.length = 4 then .v4 ⟨row.addr.1, h⟩
  else .v6 ⟨row.addr.1, row.length_addr.resolve_left h⟩ []

def socket (row : Row layout) : Socket := ⟨layout.proto, row.address, row.port.toNat, row.pid.toNat⟩

theorem length_encode (row : Row layout) : row.encode.length = layout.rowSize := by
  have hbefore := row.before.2
  have haddr := row.addr.2
  have hbetween := row.between.2
  have hbehind := row.behind.2
  have h1 := layout.addr_le
  have h2 := layout.port_le
  have h3 := layout.pid_last
  simp only [encode, length_append, portBytes, le32, length_cons, length_nil]
  omega

end Row

open Row

/-! ## The round trip of a row -/

section Parse

variable {layout : OwnerTableLayout}

theorem slice_append {start middle rest : Bytes} {i j : ℕ} (hi : start.length = i)
    (hj : i + middle.length = j) : slice (start ++ (middle ++ rest)) i j = .ok middle := by
  subst hi hj
  rw [slice, if_pos (by simp only [length_append]; omega), drop_left,
    Nat.add_sub_cancel_left, take_left]

theorem u8At_append {start rest : Bytes} {a : UInt8} {i : ℕ} (hi : start.length = i) :
    u8At (start ++ (a :: rest)) i = .ok a.toNat := by
  rw [u8At, ← hi, drop_left]

theorem fromSlice_addr (row : Row layout) : Addr.fromSlice row.addr.1 = some row.address := by
  rw [Addr.fromSlice, address]
  by_cases h : row.addr.1.length = 4
  · rw [dif_pos h, dif_pos h]
  · rw [dif_neg h, dif_neg h, dif_pos (row.length_addr.resolve_left h)]

theorem port_or (port : UInt16) : (UInt8.ofNat (port.toNat / 256)).toNat <<< 8 |||
    (UInt8.ofNat port.toNat).toNat = port.toNat := by
  have hlt := port.toNat_lt
  have hlow : (UInt8.ofNat port.toNat).toNat < 2 ^ 8 := (UInt8.ofNat port.toNat).toNat_lt
  rw [← Nat.shiftLeft_add_eq_or_of_lt hlow, Nat.shiftLeft_eq, UInt8.toNat_ofNat',
    UInt8.toNat_ofNat']
  omega

theorem socketAt_encode (row : Row layout) : socketAt layout row.encode = .ok (.ok row.socket) := by
  have hbefore := row.before.2
  have haddr := row.addr.2
  have hbetween := row.between.2
  have hbehind := row.behind.2
  have h1 := layout.addr_le
  have h2 := layout.port_le
  have hslice : slice row.encode layout.addrAt (layout.addrAt + layout.addrBytes) =
      .ok row.addr.1 := slice_append row.before.2 (by rw [haddr])
  have hhigh : u8At row.encode layout.portAt = .ok (UInt8.ofNat (row.port.toNat / 256)).toNat := by
    have hassoc : row.encode = (row.before.1 ++ row.addr.1 ++ row.between.1) ++
        (UInt8.ofNat (row.port.toNat / 256) :: UInt8.ofNat row.port.toNat ::
          (row.behind.1 ++ le32 row.pid.toNat)) := by
      simp only [encode, portBytes, append_assoc, cons_append, nil_append]
    rw [hassoc]
    exact u8At_append (by simp only [length_append]; omega)
  have hlow : u8At row.encode (layout.portAt + 1) = .ok (UInt8.ofNat row.port.toNat).toNat := by
    have hassoc : row.encode = (row.before.1 ++ row.addr.1 ++ row.between.1 ++
        [UInt8.ofNat (row.port.toNat / 256)]) ++ (UInt8.ofNat row.port.toNat ::
          (row.behind.1 ++ le32 row.pid.toNat)) := by
      simp only [encode, portBytes, append_assoc, cons_append, nil_append]
    rw [hassoc]
    exact u8At_append (by simp only [length_append, length_singleton]; omega)
  have hpid : u32At row.encode layout.pidAt = .ok row.pid.toNat := by
    have hassoc : row.encode = (row.before.1 ++ row.addr.1 ++ row.between.1 ++
        portBytes row.port ++ row.behind.1) ++ (le32 row.pid.toNat ++ []) := by
      simp only [encode, append_assoc, append_nil]
    rw [hassoc]
    refine u32At_le32 ?_ row.pid.toNat_lt
    simp only [length_append, portBytes, length_cons, length_nil]
    omega
  rw [socketAt, hslice]
  simp only [Except.bind, fromSlice_addr, hhigh, hlow, hpid, Except.map, port_or]
  rfl

/-! ## The table -/

theorem socketAt_ok {row : Bytes} (h : row.length = layout.rowSize) :
    ∃ s, socketAt layout row = .ok (.ok s) := by
  have haddress := layout.address
  have h1 := layout.addr_le
  have h2 := layout.port_le
  have h3 := layout.pid_last
  obtain ⟨high, hhigh⟩ := @u8At_ok row layout.portAt (by omega)
  obtain ⟨low, hlow⟩ := @u8At_ok row (layout.portAt + 1) (by omega)
  obtain ⟨pid, hpid, -⟩ := @u32At_ok row layout.pidAt (by omega)
  have hslice : slice row layout.addrAt (layout.addrAt + layout.addrBytes) =
      .ok ((row.drop layout.addrAt).take layout.addrBytes) := by
    rw [slice, if_pos (by omega), Nat.add_sub_cancel_left]
  have hlen : ((row.drop layout.addrAt).take layout.addrBytes).length = layout.addrBytes := by
    rw [length_take, length_drop]
    omega
  have haddr : ∃ addr, Addr.fromSlice ((row.drop layout.addrAt).take layout.addrBytes) =
      some addr := by
    rw [Addr.fromSlice]
    rcases haddress with hfour | hsixteen
    · exact ⟨_, dif_pos (hlen.trans hfour)⟩
    · rw [dif_neg (by omega)]
      exact ⟨_, dif_pos (hlen.trans hsixteen)⟩
  obtain ⟨addr, haddr⟩ := haddr
  rw [socketAt, hslice]
  simp only [Except.bind, haddr, hhigh, hlow, hpid, Except.map]
  exact ⟨_, rfl⟩

theorem mulInt_eq {a b : ℕ} (h : a * b < 2 ^ 63) : mulInt a b = (a * b : ℕ) := by
  unfold mulInt
  generalize a * b = n at h ⊢
  rewrite [Int.bmod_def]
  push_cast
  split_ifs <;> omega

theorem sliceInt_row {rows : Bytes} {i : ℕ} (hint : rows.length < 2 ^ 63)
    (h : (i + 1) * layout.rowSize ≤ rows.length) :
    sliceInt rows (mulInt i layout.rowSize) (mulInt (i + 1) layout.rowSize) =
      .ok ((rows.drop (i * layout.rowSize)).take layout.rowSize) := by
  have hsucc : (i + 1) * layout.rowSize = i * layout.rowSize + layout.rowSize := Nat.succ_mul _ _
  have hlow : i * layout.rowSize < 2 ^ 63 := by omega
  have hhigh : (i + 1) * layout.rowSize < 2 ^ 63 := by omega
  rw [mulInt_eq hlow, mulInt_eq hhigh, sliceInt,
    if_pos ⟨Int.natCast_nonneg _, Int.natCast_nonneg _⟩, Int.toNat_natCast, Int.toNat_natCast,
    slice, if_pos (by omega), hsucc, Nat.add_sub_cancel_left]

theorem socketsFrom_ok {rows : Bytes} (hint : rows.length < 2 ^ 63) {i count : ℕ}
    (h : (i + count) * layout.rowSize ≤ rows.length) :
    ∃ sockets, socketsFrom layout rows i count = .ok (.ok sockets) := by
  induction count generalizing i with
  | zero => exact ⟨[], rfl⟩
  | succ count ih =>
    have hnext : (i + 1 + count) * layout.rowSize ≤ rows.length := by
      rwa [show i + 1 + count = i + (count + 1) by omega]
    have hrow : (i + 1) * layout.rowSize ≤ rows.length :=
      (Nat.mul_le_mul_right _ (by omega)).trans hnext
    have hlen : ((rows.drop (i * layout.rowSize)).take layout.rowSize).length = layout.rowSize := by
      rw [Nat.succ_mul] at hrow
      rw [length_take, length_drop]
      omega
    obtain ⟨s, hs⟩ := socketAt_ok hlen
    obtain ⟨sockets, hsockets⟩ := ih hnext
    rw [socketsFrom, sliceInt_row hint hrow]
    simp only [Except.bind, hs, hsockets, Except.map]
    exact ⟨_, rfl⟩

theorem socketsFrom_encode {start trailing : Bytes} {table : List (Row layout)} {i : ℕ}
    (hstart : start.length = i * layout.rowSize)
    (hint : (start ++ (table.flatMap encode ++ trailing)).length < 2 ^ 63) :
    socketsFrom layout (start ++ (table.flatMap encode ++ trailing)) i table.length =
      .ok (.ok (table.map socket)) := by
  induction table generalizing i start with
  | nil => rfl
  | cons row table ih =>
    have hassoc : start ++ ((row :: table).flatMap encode ++ trailing) =
        start ++ row.encode ++ (table.flatMap encode ++ trailing) := by
      rw [flatMap_cons, append_assoc, append_assoc]
    have hnext : (start ++ row.encode).length = (i + 1) * layout.rowSize := by
      rw [length_append, row.length_encode, hstart, Nat.succ_mul]
    have hrow : (i + 1) * layout.rowSize ≤
        (start ++ row.encode ++ (table.flatMap encode ++ trailing)).length := by
      rw [length_append, hnext]
      exact Nat.le_add_right _ _
    have htake : ((start ++ row.encode ++ (table.flatMap encode ++ trailing)).drop
        (i * layout.rowSize)).take layout.rowSize = row.encode := by
      rw [← hstart, append_assoc, drop_left, ← row.length_encode, take_left]
    rw [hassoc] at hint ⊢
    rw [length_cons, socketsFrom, sliceInt_row hint hrow, htake]
    simp only [Except.bind, socketAt_encode, ih hnext hint, Except.map]
    rfl

theorem parseOwnerTable_of_count {buf : Bytes} {count : ℕ} (hlen : 4 ≤ buf.length)
    (hcount : u32At buf 0 = .ok count) :
    parseOwnerTable buf layout =
      if (buf.drop 4).length / layout.rowSize < count then .ok (.error .countExceedsBuffer)
      else socketsFrom layout (buf.drop 4) 0 count := by
  have hslice : slice buf 4 buf.length = .ok (buf.drop 4) := by
    rw [slice, if_pos ⟨hlen, Nat.le_refl _⟩, ← length_drop, take_length]
  rw [parseOwnerTable, if_neg (Nat.not_lt.2 hlen), hcount, hslice]
  rfl

theorem parseOwnerTable_encode {table : List (Row layout)} {trailing : Bytes}
    (hcount : table.length < 2 ^ 32)
    (hint : (le32 table.length ++ (table.flatMap encode ++ trailing)).length < 2 ^ 63) :
    parseOwnerTable (le32 table.length ++ (table.flatMap encode ++ trailing)) layout =
      .ok (.ok (table.map socket)) := by
  have hrows : (table.flatMap encode).length = table.length * layout.rowSize := by
    clear hcount hint
    induction table with
    | nil => rw [flatMap_nil, length_nil, length_nil, Nat.zero_mul]
    | cons row table ih =>
      rw [flatMap_cons, length_append, ih, row.length_encode, length_cons,
        Nat.succ_mul, Nat.add_comm]
  have hpos : 0 < layout.rowSize := by
    have hlast := layout.pid_last
    omega
  have hread : u32At (le32 table.length ++ (table.flatMap encode ++ trailing)) 0 =
      .ok table.length := @u32At_le32 [] _ 0 table.length rfl hcount
  have hdrop : (le32 table.length ++ (table.flatMap encode ++ trailing)).drop 4 =
      table.flatMap encode ++ trailing := rfl
  rw [parseOwnerTable_of_count (by simp [le32]) hread, hdrop, if_neg]
  · rw [length_append] at hint
    exact @socketsFrom_encode layout [] trailing table 0 (by simp) (by simp at hint ⊢; omega)
  · rw [Nat.div_lt_iff_lt_mul hpos, length_append, hrows]
    omega

end Parse

/-- The parser never reads out of range; it fails exactly for a buffer without a count, or with a
count of more rows than it has; and it returns every row of a table, in order. -/
theorem parseOwnerTable_exact (layout : OwnerTableLayout) {buf : Bytes}
    (hint : buf.length < 2 ^ 63) :
    (∃ answer, parseOwnerTable buf layout = .ok answer) ∧
      ((∃ err, parseOwnerTable buf layout = .ok (.error err)) ↔ buf.length < 4 ∨
        ∃ count, u32At buf 0 = .ok count ∧ buf.length - 4 < count * layout.rowSize) ∧
      ∀ (table : List (Row layout)) (trailing : Bytes), table.length < 2 ^ 32 →
        buf = le32 table.length ++ (table.flatMap Row.encode ++ trailing) →
          parseOwnerTable buf layout = .ok (.ok (table.map Row.socket)) := by
  have hpos : 0 < layout.rowSize := by
    have hlast := layout.pid_last
    omega
  have hround : ∀ (table : List (Row layout)) (trailing : Bytes), table.length < 2 ^ 32 →
      buf = le32 table.length ++ (table.flatMap encode ++ trailing) →
        parseOwnerTable buf layout = .ok (.ok (table.map socket)) := by
    rintro table trailing hcount rfl
    exact parseOwnerTable_encode hcount hint
  rcases Nat.lt_or_ge buf.length 4 with hshort | hlen
  · have hparse : parseOwnerTable buf layout = .ok (.error .shorterThanCount) := by
      rw [parseOwnerTable, if_pos hshort]
    exact ⟨⟨_, hparse⟩, iff_of_true ⟨_, hparse⟩ (.inl hshort), hround⟩
  · obtain ⟨count, hcount, -⟩ := @u32At_ok buf 0 hlen
    have hparse := @parseOwnerTable_of_count layout buf count hlen hcount
    have hexceeds_iff : (buf.drop 4).length / layout.rowSize < count ↔
        buf.length - 4 < count * layout.rowSize := by
      rw [Nat.div_lt_iff_lt_mul hpos, length_drop]
    by_cases hexceeds : buf.length - 4 < count * layout.rowSize
    · rw [if_pos (hexceeds_iff.2 hexceeds)] at hparse
      exact ⟨⟨_, hparse⟩, iff_of_true ⟨_, hparse⟩ (.inr ⟨count, hcount, hexceeds⟩), hround⟩
    · rw [if_neg fun h => hexceeds (hexceeds_iff.1 h)] at hparse
      obtain ⟨sockets, hsockets⟩ := @socketsFrom_ok layout (buf.drop 4)
        (by rw [length_drop]; omega) 0 count (by rw [length_drop, Nat.zero_add]; omega)
      rw [hsockets] at hparse
      refine ⟨⟨_, hparse⟩, iff_of_false ?_ ?_, hround⟩
      · rintro ⟨err, herr⟩
        rw [hparse] at herr
        cases herr
      · rintro (hshort | ⟨count', hcount', hmany⟩)
        · omega
        · rw [hcount] at hcount'
          cases hcount'
          exact hexceeds hmany

def udpRow (host : UInt8) (port : UInt16) (pid : UInt32) : Row udp4OwnerLayout :=
  ⟨⟨[], rfl⟩, ⟨[127, 0, 0, host], rfl⟩, ⟨[], rfl⟩, port, ⟨[0, 0], rfl⟩, pid⟩

/-- Two rows with trailing bytes, of UDP sockets at ports 53 and 5353. -/
theorem parseOwnerTable_exact_udp4 :
    parseOwnerTable ([2, 0, 0, 0] ++ [127, 0, 0, 1, 0, 53, 0, 0, 1, 1, 0, 0] ++
        [127, 0, 0, 2, 20, 233, 0, 0, 2, 0, 0, 0] ++ [9, 9, 9]) udp4OwnerLayout =
      .ok (.ok [⟨udp, .v4 ⟨[127, 0, 0, 1], rfl⟩, 53, 257⟩,
        ⟨udp, .v4 ⟨[127, 0, 0, 2], rfl⟩, 5353, 2⟩]) :=
  (parseOwnerTable_exact udp4OwnerLayout (by decide)).2.2
    [udpRow 1 53 257, udpRow 2 5353 2] [9, 9, 9] (by decide) (by decide)

end Windows.Sockets
