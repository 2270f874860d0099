import AbstractionIdentity.Windows.VersionInfo
import Mathlib.Data.List.Forall2

/-!
# The layout of a version resource

`encode` lays a tree of blocks out as the format documents it. `Node.version` are the strings of the
first table named by the first translation, or of the first table. The parser finds the blocks of
each block (`childBlocks_shows`) and returns these strings, except that without a translation it
takes a table with the empty name first.
-/

namespace Windows.Version

open Text List

/-! ## Trees and their bytes -/

def le16 (n : ℕ) : Bytes := [UInt8.ofNat n, UInt8.ofNat (n / 256)]

inductive Value where
  | text (units : List UInt16)
  | binary (bytes : Bytes)

/-- A block; `filled` says that what aligns the block after it counts in its length. -/
inductive Node where
  | node (key : { units : List UInt16 // 0 ∉ units }) (value : Value) (children : List Node)
      (filled : Bool)

def padding (n : ℕ) : Bytes := List.replicate (align4 n - n) 0

def textBytes (units : List UInt16) : Bytes := units.flatMap fun u => le16 u.toNat

def words : Bytes → List ℕ
  | a :: b :: rest => (a.toNat + 256 * b.toNat) :: words rest
  | _ => []

namespace Value

def bytes : Value → Bytes
  | text units => textBytes units
  | binary bytes => bytes

def size : Value → ℕ
  | text units => units.length
  | binary bytes => bytes.length

def kind : Value → ℕ
  | text _ => 1
  | binary _ => 0

def units : Value → List ℕ
  | text units => units.map UInt16.toNat
  | binary bytes => words bytes

def string (v : Value) : List Char := trimSpace (decode (v.units.takeWhile (· ≠ 0)))

def pairs : List ℕ → List (ℕ × ℕ)
  | language :: page :: rest => (language, page) :: pairs rest
  | _ => []

end Value

def front (key : List UInt16) (value : Bytes) : Bytes :=
  textBytes key ++ [0, 0] ++
    if value = [] then [] else padding (6 + (textBytes key ++ [0, 0]).length) ++ value

mutual

def Node.encode : Node → Bytes
  | .node key value children filled =>
    let start := front key.1 value.bytes
    let body := start ++ siblings children (6 + start.length)
    let whole := body ++ if filled then padding (6 + body.length) else []
    le16 (6 + whole.length) ++ le16 value.size ++ le16 value.kind ++ whole

def siblings : List Node → ℕ → Bytes
  | [], _ => []
  | child :: rest, n =>
    padding n ++ child.encode ++ siblings rest (align4 n + child.encode.length)

end

namespace Node

def key : Node → List UInt16
  | node key _ _ _ => key.1

def value : Node → Value
  | node _ value _ _ => value

def children : Node → List Node
  | node _ _ children _ => children

def name (b : Node) : List Char := decode (b.key.map UInt16.toNat)

def inner (b : Node) : ℕ := align4 (6 + (front b.key b.value.bytes).length)

/-! ## The strings of a tree -/

def named (s : String) (b : Node) : Bool := b.name = s.toList

def tables (root : Node) : List Node :=
  (root.children.filter (named "StringFileInfo")).flatMap children

def entriesIn (blocks : List Node) : List (ℕ × ℕ) :=
  (blocks.filter (named "Translation")).flatMap fun v => Value.pairs (words v.value.bytes)

def translations (root : Node) : List (ℕ × ℕ) :=
  (root.children.filter (named "VarFileInfo")).flatMap fun info => entriesIn info.children

def string (table : Node) (s : String) : List Char :=
  ((table.children.find? (named s)).map fun b => b.value.string).getD []

def strings (table : Node) : ImageVersion :=
  ⟨table.string "FileDescription", table.string "OriginalFilename"⟩

def digits (t : ℕ × ℕ) : List Char := hex4 t.1 ++ hex4 t.2

def table (root : Node) : Option Node :=
  match root.translations.head? with
  | none => root.tables.head?
  | some t => (root.tables.find? fun b => equalFold b.name (digits t)).or root.tables.head?

def version (root : Node) : Option ImageVersion := root.table.map strings

end Node

/-! ## Bytes at an offset -/

def Sits (data : Bytes) (start : ℕ) (bs : Bytes) : Prop := bs <+: data.drop start

section Sits

variable {data : Bytes} {start : ℕ}

theorem sits_append_iff {a b : Bytes} :
    Sits data start (a ++ b) ↔ Sits data start a ∧ Sits data (start + a.length) b := by
  constructor
  · rintro ⟨rest, hrest⟩
    refine ⟨⟨b ++ rest, by rw [← hrest, append_assoc]⟩, ⟨rest, ?_⟩⟩
    rw [← drop_drop, ← hrest, append_assoc, drop_left]
  · rintro ⟨⟨rest, hrest⟩, rest', hrest'⟩
    rw [← drop_drop, ← hrest, drop_left] at hrest'
    exact ⟨rest', by rw [← hrest, ← hrest', append_assoc]⟩

theorem Sits.le_length {bs : Bytes} (h : Sits data start bs) (hstart : start ≤ data.length) :
    start + bs.length ≤ data.length := by
  have hle := List.IsPrefix.length_le h
  rw [length_drop] at hle
  omega

theorem Sits.u16At {n : ℕ} (h : Sits data start (le16 n)) (hn : n < 65536) :
    u16At data start = .ok n := by
  obtain ⟨rest, hrest⟩ := h
  rw [Text.u16At, ← hrest]
  have hlow : (UInt8.ofNat n).toNat = n % 256 := UInt8.toNat_ofNat'
  have hhigh : (UInt8.ofNat (n / 256)).toNat = n / 256 % 256 := UInt8.toNat_ofNat'
  change Except.ok ((UInt8.ofNat n).toNat + 256 * (UInt8.ofNat (n / 256)).toNat) = _
  rw [hlow, hhigh]
  congr 1
  omega

theorem Sits.slice {bs : Bytes} (h : Sits data start bs) (hstart : start ≤ data.length) :
    slice data start (start + bs.length) = .ok bs := by
  rw [Text.slice, if_pos ⟨by omega, h.le_length hstart⟩]
  rw [show start + bs.length - start = bs.length by omega, ← prefix_iff_eq_take.1 h]

end Sits

/-! ## Text -/

section Text

variable {data : Bytes}

@[simp] theorem length_le16 (n : ℕ) : (le16 n).length = 2 := rfl

theorem textBytes_cons (u : UInt16) (us : List UInt16) :
    textBytes (u :: us) = le16 u.toNat ++ textBytes us := rfl

@[simp] theorem length_textBytes (us : List UInt16) : (textBytes us).length = 2 * us.length := by
  induction us with
  | nil => rfl
  | cons u us ih =>
    rw [textBytes_cons, length_append, ih, length_le16, length_cons]
    omega

theorem words_textBytes (us : List UInt16) : words (textBytes us) = us.map UInt16.toNat := by
  induction us with
  | nil => rfl
  | cons u us ih =>
    have hu := u.toNat_lt
    have hlow : (UInt8.ofNat u.toNat).toNat = u.toNat % 256 := UInt8.toNat_ofNat'
    have hhigh : (UInt8.ofNat (u.toNat / 256)).toNat = u.toNat / 256 % 256 := UInt8.toNat_ofNat'
    rw [map_cons, ← ih]
    change ((UInt8.ofNat u.toNat).toNat + 256 * (UInt8.ofNat (u.toNat / 256)).toNat) ::
      words (textBytes us) = _
    rw [hlow, hhigh]
    congr 1
    omega

theorem Value.units_eq (v : Value) : v.units = words v.bytes := by
  cases v with
  | text us => exact (words_textBytes us).symm
  | binary bytes => rfl

theorem Value.length_bytes (v : Value) :
    v.bytes.length = if v.kind = 1 then v.size * 2 else v.size := by
  cases v with
  | text us => exact (length_textBytes us).trans (Nat.mul_comm 2 us.length)
  | binary bytes => rfl

theorem Value.size_le (v : Value) : v.size ≤ v.bytes.length := by
  rw [v.length_bytes]
  split_ifs
  · omega
  · exact le_rfl

theorem Value.kind_lt (v : Value) : v.kind < 65536 := by
  cases v with
  | text us => exact Nat.succ_lt_succ (by omega)
  | binary bytes => exact Nat.succ_pos _

theorem units_of_sits {key : List UInt16} {limit fuel pos : ℕ} (hkey : 0 ∉ key)
    (h : Sits data pos (textBytes key ++ [0, 0])) (hlimit : pos + 2 * key.length + 2 ≤ limit)
    (hfuel : key.length < fuel) :
    units data limit fuel pos = .ok (key.map UInt16.toNat, some (pos + 2 * key.length + 2)) := by
  induction key generalizing fuel pos with
  | nil =>
    obtain ⟨fuel, rfl⟩ := Nat.exists_eq_add_of_lt hfuel
    have hzero : u16At data pos = .ok 0 := Sits.u16At h (by omega)
    rw [units, if_pos (by rw [length_nil] at hlimit; omega), hzero, Except.bind, if_pos rfl]
    rfl
  | cons u us ih =>
    obtain ⟨fuel, rfl⟩ := Nat.exists_eq_add_of_lt hfuel
    rw [length_cons] at hlimit ⊢
    rw [textBytes_cons, append_assoc, sits_append_iff] at h
    obtain ⟨hu, hus⟩ := h
    have hne : u.toNat ≠ 0 := fun h0 =>
      hkey (mem_cons.2 (.inl (UInt16.toNat_inj.1 h0).symm))
    have hrest := @ih (us.length + 1 + fuel) (pos + 2)
      (fun hmem => hkey (mem_cons_of_mem _ hmem)) hus (by omega) (by omega)
    rw [units, if_pos (by omega), hu.u16At u.toNat_lt, Except.bind, if_neg hne, hrest]
    change Except.ok _ = Except.ok _
    rw [map_cons, show pos + 2 + 2 * us.length + 2 = pos + 2 * (us.length + 1) + 2 by omega]

theorem units_words {value : Bytes} {fuel pos : ℕ} (hround : 0 < fuel)
    (hfuel : value.length < pos + 2 * fuel) :
    ∃ stop, units value value.length fuel pos =
      .ok ((words (value.drop pos)).takeWhile (· ≠ 0), stop) := by
  induction fuel generalizing pos with
  | zero => exact absurd hround (Nat.lt_irrefl 0)
  | succ fuel ih =>
    have hlen : (value.drop pos).length = value.length - pos := length_drop
    have hnext : value.drop (pos + 2) = (value.drop pos).drop 2 := drop_drop.symm
    rw [units, u16At]
    split_ifs with hpos
    · obtain ⟨stop, hrest⟩ := @ih (pos + 2) (by omega) (by omega)
      rw [hrest, hnext]
      generalize value.drop pos = tail at hlen ⊢
      rcases tail with _ | ⟨a, _ | ⟨b, rest⟩⟩
      · rw [length_nil] at hlen
        omega
      · rw [length_singleton] at hlen
        omega
      · change ∃ stop, (if a.toNat + 256 * b.toNat = 0 then _ else _) = _
        rw [words, takeWhile_cons]
        by_cases hzero : a.toNat + 256 * b.toNat = 0
        · rw [if_pos hzero, hzero]
          exact ⟨_, rfl⟩
        · rw [if_neg hzero, if_pos (decide_eq_true hzero)]
          exact ⟨stop, rfl⟩
    · generalize value.drop pos = tail at hlen
      rcases tail with _ | ⟨a, _ | ⟨b, rest⟩⟩
      · exact ⟨_, rfl⟩
      · exact ⟨_, rfl⟩
      · rw [length_cons, length_cons] at hlen
        omega

theorem textValue_eq (v : Value) : textValue v.bytes = .ok v.string := by
  obtain ⟨stop, hunits⟩ := @units_words v.bytes (v.bytes.length + 1) 0 (Nat.succ_pos _) (by omega)
  rw [textValue, hunits, Value.string, v.units_eq]
  rfl

end Text

/-! ## Blocks -/

section Blocks

variable {data : Bytes}

theorem align4_add {start : ℕ} (h : 4 ∣ start) (n : ℕ) : align4 (start + n) = start + align4 n := by
  rw [align4, align4]
  omega

theorem length_padding (n : ℕ) : (padding n).length = align4 n - n := length_replicate

theorem length_front (key : List UInt16) (value : Bytes) :
    6 + (front key value).length = if value = [] then 8 + 2 * key.length
      else align4 (8 + 2 * key.length) + value.length := by
  have hkey : (textBytes key ++ [0, 0]).length = 2 * key.length + 2 := by
    rw [length_append, length_textBytes]
    rfl
  have halign := le_align4 (8 + 2 * key.length)
  rw [front, length_append, hkey]
  split_ifs
  · rw [length_nil]
    omega
  · have hwhole : 6 + (2 * key.length + 2) = 8 + 2 * key.length := by omega
    rw [length_append, length_padding, hwhole]
    omega

theorem Node.encode_eq (b : Node) : ∃ tail : Bytes,
    b.encode = le16 b.encode.length ++ (le16 b.value.size ++ (le16 b.value.kind ++
      (front b.key b.value.bytes ++
        (siblings b.children (6 + (front b.key b.value.bytes).length) ++ tail)))) ∧
    6 + (front b.key b.value.bytes).length +
        (siblings b.children (6 + (front b.key b.value.bytes).length)).length + tail.length ≤
      align4 (6 + (front b.key b.value.bytes).length +
        (siblings b.children (6 + (front b.key b.value.bytes).length)).length) := by
  obtain ⟨key, value, children, filled⟩ := b
  change ∃ tail : Bytes, Node.encode (.node key value children filled) =
      le16 (Node.encode (.node key value children filled)).length ++ (le16 value.size ++
        (le16 value.kind ++ (front key.1 value.bytes ++
          (siblings children (6 + (front key.1 value.bytes).length) ++ tail)))) ∧
      6 + (front key.1 value.bytes).length +
        (siblings children (6 + (front key.1 value.bytes).length)).length + tail.length ≤
      align4 (6 + (front key.1 value.bytes).length +
        (siblings children (6 + (front key.1 value.bytes).length)).length)
  rw [Node.encode]
  generalize front key.1 value.bytes = start
  generalize siblings children (6 + start.length) = inside
  have halign := le_align4 (6 + start.length + inside.length)
  refine ⟨if filled then padding (6 + (start ++ inside).length) else [], ?_, ?_⟩
  · simp only [length_append, length_le16, append_assoc]
    congr 2
    omega
  · split_ifs
    · rw [length_padding, length_append, ← Nat.add_assoc]
      omega
    · rw [length_nil]
      omega

structure Laid (data : Bytes) (start : ℕ) (b : Node) : Prop where
  aligned : 4 ∣ start
  inside : start ≤ data.length
  length : b.encode.length < 65536
  sits : Sits data start b.encode

def Node.block (b : Node) (start : ℕ) : VersionBlock :=
  ⟨b.name, b.value.bytes, start + b.inner, start + b.encode.length⟩

def Shows (data : Bytes) (found : VersionBlock) (b : Node) : Prop :=
  ∃ start, Laid data start b ∧ found = b.block start

section Laid

variable {start : ℕ} {b : Node}

theorem Laid.stop_le (h : Laid data start b) : start + b.encode.length ≤ data.length :=
  h.sits.le_length h.inside

theorem Laid.sits_header (h : Laid data start b) :
    Sits data start (le16 b.encode.length) ∧ Sits data (start + 2) (le16 b.value.size) ∧
      Sits data (start + 4) (le16 b.value.kind) := by
  obtain ⟨tail, heq, -⟩ := b.encode_eq
  have hsits := h.sits
  rw [heq, sits_append_iff, sits_append_iff, sits_append_iff] at hsits
  obtain ⟨hlength, hsize, hkind, -⟩ := hsits
  exact ⟨hlength, hsize, hkind⟩

theorem Laid.sits_body (h : Laid data start b) : Sits data (start + 6) (front b.key b.value.bytes) ∧
      Sits data (start + (6 + (front b.key b.value.bytes).length))
        (siblings b.children (6 + (front b.key b.value.bytes).length)) := by
  obtain ⟨tail, heq, -⟩ := b.encode_eq
  have hsits := h.sits
  rw [heq, sits_append_iff, sits_append_iff, sits_append_iff, sits_append_iff,
    sits_append_iff] at hsits
  obtain ⟨-, -, -, hfront, hsiblings, -⟩ := hsits
  refine ⟨hfront, ?_⟩
  rw [← Nat.add_assoc]
  exact hsiblings

theorem Node.length_encode (b : Node) : 6 + (front b.key b.value.bytes).length +
        (siblings b.children (6 + (front b.key b.value.bytes).length)).length ≤ b.encode.length ∧
      b.encode.length ≤ align4 (6 + (front b.key b.value.bytes).length +
        (siblings b.children (6 + (front b.key b.value.bytes).length)).length) := by
  obtain ⟨tail, heq, hle⟩ := b.encode_eq
  have hlength := congrArg List.length heq
  simp only [length_append, length_le16] at hlength
  omega

theorem blockAfterKey_front {key : List UInt16} {value : Bytes} {stop : ℕ} {name : List Char}
    (haligned : 4 ∣ start) (h : Sits data (start + 6) (front key value))
    (hstop : start + (6 + (front key value).length) ≤ stop) (hdata : stop ≤ data.length) :
    blockAfterKey data name (align4 (start + 6 + 2 * key.length + 2)) value.length stop =
      .ok (some ⟨name, value, start + align4 (6 + (front key value).length), stop⟩) := by
  have hpos : align4 (start + 6 + 2 * key.length + 2) = start + align4 (8 + 2 * key.length) := by
    rw [← align4_add haligned]
    congr 1
    omega
  have hlength := length_front key value
  rw [hpos, blockAfterKey]
  by_cases hvalue : value = []
  · -- without a value the block may end before the boundary
    rw [hvalue, if_pos rfl] at hlength
    subst hvalue
    rw [hlength] at hstop ⊢
    by_cases hend : stop < start + align4 (8 + 2 * key.length)
    · have hslice : slice data stop stop = .ok [] := by
        rw [slice, if_pos ⟨le_rfl, hdata⟩, Nat.sub_self, take_zero]
      have hchildren : align4 stop = start + align4 (8 + 2 * key.length) := by
        rw [align4] at hend ⊢
        rw [align4]
        omega
      rw [if_pos hend, if_pos hend, hslice, ← hchildren]
      rfl
    · rw [if_neg hend, if_neg hend, length_nil, Nat.add_zero, Nat.min_eq_left (by omega)]
      generalize hat : start + align4 (8 + 2 * key.length) = pos at hend ⊢
      have hslice : slice data pos pos = .ok [] := by
        rw [slice, if_pos ⟨le_rfl, by omega⟩, Nat.sub_self, take_zero]
      have hchildren : align4 pos = pos := by
        rw [align4] at hat ⊢
        omega
      rw [hslice]
      change Except.ok (some (VersionBlock.mk name [] (align4 pos) stop)) = _
      rw [hchildren]
  · rw [if_neg hvalue] at hlength
    have hle := le_align4 (8 + 2 * key.length)
    have hkey : (textBytes key ++ [0, 0]).length = 2 * key.length + 2 := by
      rw [length_append, length_textBytes]
      rfl
    have hsits : Sits data (start + align4 (8 + 2 * key.length)) value := by
      rw [front, if_neg hvalue, sits_append_iff, hkey] at h
      have hpadded := h.2
      rw [sits_append_iff, length_padding] at hpadded
      convert hpadded.2 using 1
      rw [show 6 + (2 * key.length + 2) = 8 + 2 * key.length by omega]
      omega
    rw [hlength] at hstop ⊢
    rw [if_neg (by omega), if_neg (by omega), Nat.min_eq_left (by omega), hsits.slice (by omega)]
    change Except.ok (some (VersionBlock.mk name value
      (align4 (start + align4 (8 + 2 * key.length) + value.length)) stop)) = _
    rw [Nat.add_assoc, align4_add haligned]

theorem Node.zero_notMem_key (b : Node) : 0 ∉ b.key := by
  obtain ⟨key, value, children, filled⟩ := b
  exact key.2

theorem Laid.versionBlockAt (h : Laid data start b) {limit : ℕ}
    (hlimit : start + b.encode.length ≤ limit) :
    versionBlockAt data start limit = .ok (some (b.block start)) := by
  obtain ⟨hlength, hsize, hkind⟩ := h.sits_header
  obtain ⟨hfront, -⟩ := h.sits_body
  have hbytes := b.length_encode
  have hend := h.stop_le
  have hshort := h.length
  have hvalue := b.value.size_le
  have hfrontLength := length_front b.key b.value.bytes
  have halign := le_align4 (8 + 2 * b.key.length)
  have hkeyEnd : 8 + 2 * b.key.length + b.value.bytes.length ≤ b.encode.length := by
    split_ifs at hfrontLength with hnil
    · rw [hnil, length_nil]
      omega
    · omega
  have hunits : units data (start + b.encode.length) (data.length + 1) (start + 6) =
      .ok (b.key.map UInt16.toNat, some (start + 6 + 2 * b.key.length + 2)) := by
    refine units_of_sits b.zero_notMem_key ?_ (by omega) (by omega)
    rw [front, sits_append_iff] at hfront
    exact hfront.1
  have hkey : utf16z data (start + 6) (start + b.encode.length) =
      .ok (some (b.name, start + 6 + 2 * b.key.length + 2)) := by
    rw [utf16z, hunits]
    rfl
  rw [Version.versionBlockAt, if_neg (by omega), hlength.u16At hshort, Except.bind,
    hsize.u16At (by omega), Except.bind, hkind.u16At b.value.kind_lt, Except.bind,
    if_neg (by omega), hkey, Except.bind, ← b.value.length_bytes]
  exact blockAfterKey_front h.aligned hfront (by omega) hend

end Laid

theorem childLoop_siblings {start stop fuel n : ℕ} {children : List Node} (haligned : 4 ∣ start)
    (hsits : Sits data (start + n) (siblings children n))
    (hend : start + n + (siblings children n).length ≤ stop)
    (hfill : stop ≤ align4 (start + n + (siblings children n).length))
    (hdata : stop ≤ data.length) (hshort : (siblings children n).length < 65536)
    (hround : 0 < fuel) (hfuel : stop < start + align4 n + fuel) :
    ∃ visits, childLoop data stop fuel (start + align4 n) = .ok visits ∧
      List.Forall₂ (Shows data) (visits.filterMap Prod.snd) children := by
  induction children generalizing n fuel with
  | nil =>
    obtain ⟨fuel, rfl⟩ := Nat.exists_eq_add_of_lt hround
    rw [siblings, length_nil, Nat.add_zero] at hfill
    have hlast : ¬ start + align4 n + 6 ≤ stop := by
      rw [align4] at hfill ⊢
      omega
    rw [Nat.zero_add, childLoop, if_neg hlast]
    exact ⟨[], rfl, .nil⟩
  | cons child rest ih =>
    obtain ⟨fuel, rfl⟩ := Nat.exists_eq_add_of_lt hround
    have halign := le_align4 n
    have hchild := child.length_encode
    rw [siblings, sits_append_iff, sits_append_iff, length_append, length_padding] at hsits
    rw [siblings, length_append, length_append, length_padding] at hend hfill hshort
    obtain ⟨⟨-, hhere⟩, hrest⟩ := hsits
    have hpos : start + n + (align4 n - n) = start + align4 n := by omega
    rw [hpos] at hhere
    have hlaid : Laid data (start + align4 n) child := by
      refine ⟨?_, by omega, by omega, hhere⟩
      rw [align4]
      omega
    have hnext : align4 (start + align4 n + child.encode.length) =
        start + align4 (align4 n + child.encode.length) := by
      rw [Nat.add_assoc, align4_add haligned]
    obtain ⟨visits, hvisits, hshows⟩ := @ih fuel (align4 n + child.encode.length)
      (by convert hrest using 1; omega) (by omega)
      (by convert hfill using 2; omega) (by omega) (by omega)
      (by have hge := le_align4 (align4 n + child.encode.length); omega)
    rw [Nat.zero_add, childLoop, if_pos (by omega), hlaid.versionBlockAt (by omega), Except.bind]
    change ∃ visits,
      (childLoop data stop fuel (align4 (start + align4 n + child.encode.length))).map _ =
        .ok visits ∧ _
    rw [hnext, hvisits]
    exact ⟨_, rfl, .cons ⟨_, hlaid, rfl⟩ hshows⟩

theorem childBlocks_shows {found : VersionBlock} {b : Node} (h : Shows data found b) :
    ∃ blocks, childBlocks data found = .ok blocks ∧
      List.Forall₂ (Shows data) blocks b.children := by
  obtain ⟨start, hlaid, rfl⟩ := h
  obtain ⟨-, hsits⟩ := hlaid.sits_body
  obtain ⟨hle, hfill⟩ := b.length_encode
  have hdata := hlaid.stop_le
  have hshort := hlaid.length
  have haligned := hlaid.aligned
  obtain ⟨visits, hvisits, hshows⟩ := @childLoop_siblings data start (start + b.encode.length)
    (data.length + 1) _ b.children haligned hsits (by omega)
    (by rw [align4] at hfill ⊢; omega) hdata (by omega) (by omega) (by omega)
  refine ⟨_, ?_, hshows⟩
  change (childLoop data (start + b.encode.length) (data.length + 1) (start + b.inner)).map _ = _
  rw [Node.inner, hvisits]
  rfl

end Blocks

/-! ## The parser on a laid out tree -/

section Parse

variable {data : Bytes}

variable {b root : Node} {bs : List Node} {found : List VersionBlock} {s : String}

theorem Shows.key {found : VersionBlock} (h : Shows data found b) : found.key = b.name := by
  obtain ⟨start, -, rfl⟩ := h
  rfl

theorem Shows.value {found : VersionBlock} (h : Shows data found b) :
    found.value = b.value.bytes := by
  obtain ⟨start, -, rfl⟩ := h
  rfl

theorem Node.named_iff : b.named s = true ↔ b.name = s.toList := decide_eq_true_iff

def firstDigits (ts : List (ℕ × ℕ)) : List Char := (ts.head?.map Node.digits).getD []

theorem firstDigits_append (ts us : List (ℕ × ℕ)) :
    firstDigits (ts ++ us) = if firstDigits ts = [] then firstDigits us else firstDigits ts := by
  cases ts with
  | nil => rfl
  | cons t ts => rw [if_neg (fun h => (by cases h))]; rfl

theorem pairs_of_length_lt {bytes : Bytes} (h : bytes.length < 4) :
    Value.pairs (words bytes) = [] := by
  rcases bytes with _ | ⟨x, _ | ⟨y, _ | ⟨z, _ | ⟨w, rest⟩⟩⟩⟩
  · rfl
  · rfl
  · rfl
  · rfl
  · simp only [length_cons] at h
    omega

theorem pairs_of_le_length {bytes : Bytes} (h : 4 ≤ bytes.length) :
    ∃ language page rest, u16At bytes 0 = .ok language ∧ u16At bytes 2 = .ok page ∧
      Value.pairs (words bytes) = (language, page) :: rest := by
  rcases bytes with _ | ⟨x, _ | ⟨y, _ | ⟨z, _ | ⟨w, rest⟩⟩⟩⟩
  · simp only [length_nil] at h
    omega
  · simp only [length_cons, length_nil] at h
    omega
  · simp only [length_cons, length_nil] at h
    omega
  · simp only [length_cons, length_nil] at h
    omega
  · exact ⟨_, _, _, rfl, rfl, rfl⟩

theorem translationStep_eq {found : VersionBlock} {translation : List Char}
    (h : Shows data found b) :
    translationStep translation found = .ok (if translation = [] then
      firstDigits (if b.named "Translation" then Value.pairs (words b.value.bytes) else [])
      else translation) := by
  rw [translationStep, h.key, h.value]
  by_cases hempty : translation = []
  · rw [if_pos hempty]
    by_cases hname : b.name = "Translation".toList
    · rw [if_pos (Node.named_iff.2 hname)]
      by_cases hlen : 4 ≤ b.value.bytes.length
      · obtain ⟨language, page, rest, hlanguage, hpage, hpairs⟩ := pairs_of_le_length hlen
        rw [if_pos ⟨hname, hlen, hempty⟩, hlanguage, Except.bind, hpage, hpairs]
        rfl
      · rw [if_neg fun h => hlen h.2.1, pairs_of_length_lt (Nat.lt_of_not_le hlen), hempty]
        rfl
    · rw [if_neg fun h => hname h.1, if_neg fun h => hname (Node.named_iff.1 h), hempty]
      rfl
  · rw [if_neg fun h => hempty h.2.2, if_neg hempty]

theorem Node.entriesIn_cons (b : Node) (bs : List Node) : Node.entriesIn (b :: bs) =
      (if b.named "Translation" then Value.pairs (words b.value.bytes) else []) ++
        Node.entriesIn bs := by
  rw [Node.entriesIn, filter_cons]
  split_ifs
  · exact flatMap_cons
  · rfl

theorem translationLoop_eq (h : List.Forall₂ (Shows data) found bs) (translation : List Char) :
    translationLoop found translation = .ok (if translation = [] then
      firstDigits (Node.entriesIn bs) else translation) := by
  induction h generalizing translation with
  | nil =>
    rw [translationLoop]
    split_ifs with hempty
    · rw [hempty]
      rfl
    · rfl
  | @cons f b found bs hfirst _ ih =>
    rw [translationLoop, translationStep_eq hfirst, Except.bind, ih, Node.entriesIn_cons,
      firstDigits_append]
    by_cases hempty : translation = []
    · rw [if_pos hempty, if_pos hempty]
    · rw [if_neg hempty, if_neg hempty, if_neg hempty]

theorem collect_eq (h : List.Forall₂ (Shows data) found bs) (tables : List VersionBlock)
    (translation : List Char) :
    ∃ more, collect data found (tables, translation) = .ok (tables ++ more,
        if translation = [] then
          firstDigits ((bs.filter (Node.named "VarFileInfo")).flatMap fun info =>
            Node.entriesIn info.children)
        else translation) ∧
      List.Forall₂ (Shows data) more
        ((bs.filter (Node.named "StringFileInfo")).flatMap Node.children) := by
  induction h generalizing tables translation with
  | nil =>
    refine ⟨[], ?_, .nil⟩
    rw [collect, append_nil]
    split_ifs with hempty
    · rw [hempty]
      rfl
    · rfl
  | @cons f b found bs hfirst _ ih =>
    obtain ⟨blocks, hblocks, hshows⟩ := childBlocks_shows hfirst
    rw [collect, hfirst.key, filter_cons, filter_cons]
    by_cases hstring : b.name = "StringFileInfo".toList
    · have hvar : ¬ b.named "VarFileInfo" = true := fun h => by
        rw [Node.named_iff, hstring] at h
        exact absurd h (by decide)
      obtain ⟨more, hmore, htables⟩ := ih (tables ++ blocks) translation
      rw [if_pos hstring, if_pos (Node.named_iff.2 hstring), if_neg hvar, hblocks, Except.bind,
        hmore, append_assoc, flatMap_cons]
      exact ⟨_, rfl, rel_append hshows htables⟩
    · rw [if_neg hstring, if_neg fun h => hstring (Node.named_iff.1 h)]
      by_cases hvar : b.name = "VarFileInfo".toList
      · obtain ⟨more, hmore, htables⟩ := ih tables (if translation = [] then
          firstDigits (Node.entriesIn b.children) else translation)
        rw [if_pos hvar, if_pos (Node.named_iff.2 hvar), hblocks, Except.bind,
          translationLoop_eq hshows, Except.bind, hmore, flatMap_cons, firstDigits_append]
        refine ⟨more, ?_, htables⟩
        by_cases hempty : translation = []
        · rw [if_pos hempty, if_pos hempty]
        · rw [if_neg hempty, if_neg hempty, if_neg hempty]
      · rw [if_neg hvar, if_neg fun h => hvar (Node.named_iff.1 h)]
        exact ih tables translation

theorem find_shows {f₀ : VersionBlock} {b₀ : Node}
    (h : List.Forall₂ (Shows data) found bs) (h₀ : Shows data f₀ b₀) (p : List Char → Bool) :
    Shows data ((found.find? fun f => p f.key).getD f₀) ((bs.find? fun b => p b.name).getD b₀) := by
  induction h with
  | nil => exact h₀
  | @cons f b found bs hfirst _ ih =>
    rw [List.find?_cons, List.find?_cons, hfirst.key]
    cases p b.name with
    | true => exact hfirst
    | false => exact ih

theorem getD_find_mem {b : Node} {bs : List Node} (p : Node → Bool) :
    ((b :: bs).find? p).getD b ∈ b :: bs := by
  cases hfind : (b :: bs).find? p with
  | none => exact mem_cons_self
  | some c => exact mem_of_find?_eq_some hfind

theorem find_cons_of_named (h : b.name = s.toList) : (b :: bs).find? (Node.named s) = some b :=
  List.find?_cons_of_pos (Node.named_iff.2 h)

theorem find_cons_of_not_named (h : b.name ≠ s.toList) :
    (b :: bs).find? (Node.named s) = bs.find? (Node.named s) :=
  List.find?_cons_of_neg fun hname => h (Node.named_iff.1 hname)

theorem stringLoop_eq (h : List.Forall₂ (Shows data) found bs) (honce : (bs.map Node.name).Nodup)
    (v : ImageVersion) :
    stringLoop found v = .ok
      ⟨((bs.find? (Node.named "FileDescription")).map fun b => b.value.string).getD v.description,
       ((bs.find? (Node.named "OriginalFilename")).map fun b => b.value.string).getD
         v.originalName⟩ := by
  induction h generalizing v with
  | nil => rfl
  | @cons f b found bs hfirst _ ih =>
    rw [map_cons, nodup_cons] at honce
    have hlast : ∀ s : String, b.name = s.toList → bs.find? (Node.named s) = none := by
      intro s hs
      refine List.find?_eq_none.2 fun c hc hname => honce.1 ?_
      rw [hs, ← Node.named_iff.1 hname]
      exact mem_map_of_mem hc
    rw [stringLoop, hfirst.key, hfirst.value, textValue_eq, Except.bind, Except.bind]
    by_cases hdescription : b.name = "FileDescription".toList
    · have hother : b.name ≠ "OriginalFilename".toList := fun h => by
        rw [hdescription] at h
        exact absurd h (by decide)
      rw [if_pos hdescription, ih honce.2, find_cons_of_named hdescription,
        find_cons_of_not_named hother, hlast _ hdescription]
      rfl
    · rw [if_neg hdescription, find_cons_of_not_named hdescription]
      by_cases hname : b.name = "OriginalFilename".toList
      · rw [if_pos hname, ih honce.2, find_cons_of_named hname, hlast _ hname]
        rfl
      · rw [if_neg hname, find_cons_of_not_named hname, ih honce.2]

/-- The table that the parser takes: of those with the digits of the first translation, or with
the empty name if there is none, the first; otherwise the first of all. -/
def Node.taken (root : Node) : Option Node :=
  (root.tables.find? fun b => equalFold b.name (firstDigits root.translations)).or
    root.tables.head?

theorem parseVersionInfo_encode (hname : root.name = "VS_VERSION_INFO".toList)
    (hlength : root.encode.length ≤ 0xffff)
    (honce : ∀ t ∈ root.tables, (t.children.map Node.name).Nodup) (rest : Bytes) :
    parseVersionInfo (root.encode ++ rest) = .ok (root.taken.map Node.strings) := by
  have hlaid : Laid (root.encode ++ rest) 0 root :=
    ⟨⟨0, rfl⟩, Nat.zero_le _, by omega, prefix_append _ _⟩
  have hlimit : 0 + root.encode.length ≤ (root.encode ++ rest).length := by
    rw [length_append]
    omega
  have hroot := hlaid.versionBlockAt hlimit
  have hshown : Shows (root.encode ++ rest) (root.block 0) root := ⟨0, hlaid, rfl⟩
  obtain ⟨children, hchildren, hshows⟩ := childBlocks_shows hshown
  obtain ⟨tables, htables, hrel⟩ := collect_eq hshows [] []
  have hkey : (root.block 0).key = "VS_VERSION_INFO".toList := hname
  rw [if_pos rfl, nil_append] at htables
  change List.Forall₂ _ tables root.tables at hrel
  change collect _ _ _ = .ok (tables, firstDigits root.translations) at htables
  rw [parseVersionInfo, hroot, Except.bind]
  dsimp only
  rw [if_neg fun h => h hkey, hchildren, Except.bind, htables, Except.bind, Node.taken]
  generalize root.tables = ts at hrel honce ⊢
  cases hrel with
  | nil => rfl
  | @cons f t fs ts hfirst hrest =>
    have hshow := find_shows (.cons hfirst hrest) hfirst fun name =>
      equalFold name (firstDigits root.translations)
    have hmem := @getD_find_mem t ts fun b => equalFold b.name (firstDigits root.translations)
    obtain ⟨strings, hstrings, hall⟩ := childBlocks_shows hshow
    dsimp only
    rw [hstrings, Except.bind, stringLoop_eq hall (honce _ hmem), List.head?_cons, Option.or_some]
    rfl

theorem equalFold_nil (name : List Char) : equalFold name [] = decide (name = []) := by
  cases name with
  | nil => rfl
  | cons c name => rfl

theorem Node.taken_of_translation (h : root.translations ≠ []) : root.taken = root.table := by
  rw [Node.taken, Node.table]
  cases htranslations : root.translations with
  | nil => exact absurd htranslations h
  | cons t ts => rfl

theorem Node.taken_of_no_translation (h : root.translations = []) :
    root.taken = (root.tables.find? fun b => b.name = []).or root.tables.head? ∧
      root.table = root.tables.head? := by
  constructor
  · simp only [Node.taken, h, firstDigits, List.head?_nil, Option.map_none, Option.getD_none,
      equalFold_nil]
  · rw [Node.table, h]
    rfl

end Parse

/-- The parser returns the strings of a laid out tree exactly if the tree has a translation, or its
first table with the empty name, if there is one, has the strings of its first table. -/
theorem parseVersionInfo_encode_iff {root : Node} (hname : root.name = "VS_VERSION_INFO".toList)
    (hlength : root.encode.length ≤ 0xffff)
    (honce : ∀ t ∈ root.tables, (t.children.map Node.name).Nodup) (rest : Bytes) :
    parseVersionInfo (root.encode ++ rest) = .ok root.version ↔
      root.translations ≠ [] ∨ ∀ t, root.tables.find? (fun b => b.name = []) = some t →
        root.tables.head?.map Node.strings = some t.strings := by
  rw [parseVersionInfo_encode hname hlength honce, Except.ok.injEq, Node.version]
  by_cases htranslation : root.translations = []
  · obtain ⟨htaken, htable⟩ := Node.taken_of_no_translation htranslation
    rw [htaken, htable]
    cases hfind : root.tables.find? fun b => b.name = [] with
    | none => exact ⟨fun _ => .inr fun t ht => (by cases ht), fun _ => rfl⟩
    | some t =>
      refine ⟨fun h => .inr fun u hu => ?_, fun h => ?_⟩
      · cases hu
        exact h.symm
      · rcases h with h | h
        · exact absurd htranslation h
        · exact (h t rfl).symm
  · rw [Node.taken_of_translation htranslation]
    exact ⟨fun _ => .inl htranslation, fun _ => rfl⟩

def utf16 (s : String) : List UInt16 := s.toList.map fun c => UInt16.ofNat c.toNat

def describedTable (key : { units : List UInt16 // 0 ∉ units }) (description : String) : Node :=
  .node key (.text []) [.node ⟨utf16 "FileDescription", by decide⟩
    (.text (utf16 description ++ [0])) [] false] false

def treeOf (tables : List Node) (translation : Bytes) : Node :=
  .node ⟨utf16 "VS_VERSION_INFO", by decide⟩ (.binary [])
    [.node ⟨utf16 "StringFileInfo", by decide⟩ (.text []) tables false,
      .node ⟨utf16 "VarFileInfo", by decide⟩ (.text [])
        [.node ⟨utf16 "Translation", by decide⟩ (.binary translation) [] false] true] false

def frenchEnglish (translation : Bytes) : Node :=
  treeOf [describedTable ⟨utf16 "040c04b0", by decide⟩ "Outil",
    describedTable ⟨utf16 "040904B0", by decide⟩ "Tool"] translation

def namedUnnamed : Node :=
  treeOf [describedTable ⟨utf16 "040904b0", by decide⟩ "Tool",
    describedTable ⟨[], by decide⟩ "Other"] []

/-- The second table is the one of the translation. -/
theorem parseVersionInfo_encode_iff_english :
    parseVersionInfo ((frenchEnglish [0x09, 0x04, 0xb0, 0x04]).encode ++ [0, 0]) =
      .ok (some ⟨"Tool".toList, []⟩) := by
  have h := (@parseVersionInfo_encode_iff (frenchEnglish [0x09, 0x04, 0xb0, 0x04])
    (by decide +kernel) (by decide +kernel) (by decide +kernel) [0, 0]).2 (.inl (by decide +kernel))
  rw [h]
  exact congrArg Except.ok (by decide +kernel)

/-- Without a translation the strings are of the table with the empty name, not of the first. -/
theorem parseVersionInfo_unnamed_table :
    namedUnnamed.translations = [] ∧ namedUnnamed.version = some ⟨"Tool".toList, []⟩ ∧
      parseVersionInfo namedUnnamed.encode = .ok (some ⟨"Other".toList, []⟩) := by
  refine ⟨by decide +kernel, by decide +kernel, ?_⟩
  decide +kernel

end Windows.Version
