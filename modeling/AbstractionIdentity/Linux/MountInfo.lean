import AbstractionIdentity.Text.Clean
import AbstractionIdentity.Text.Words

/-!
# The mount table of Linux

`mountPointsOf` and `mountTypes` split each line at all white space of Unicode, of which the kernel
leaves some as it is in a path (`rawSpace`). A root or mount point that holds it is read as several
fields, and everything after it moves (`stringsFields_line`). From this follows when a table is
read exactly.
-/

namespace Linux

open Text List

/-- The white space of Unicode in UTF-8. No other rune has one of these in its encoding, so
that the bytes between them need no decoding. -/
def whiteSpace : List Bytes :=
  [[9], [10], [11], [12], [13], [32], [0xC2, 0x85], [0xC2, 0xA0], [0xE1, 0x9A, 0x80],
    [0xE2, 0x80, 0x80], [0xE2, 0x80, 0x81], [0xE2, 0x80, 0x82], [0xE2, 0x80, 0x83],
    [0xE2, 0x80, 0x84], [0xE2, 0x80, 0x85], [0xE2, 0x80, 0x86], [0xE2, 0x80, 0x87],
    [0xE2, 0x80, 0x88], [0xE2, 0x80, 0x89], [0xE2, 0x80, 0x8A], [0xE2, 0x80, 0xA8],
    [0xE2, 0x80, 0xA9], [0xE2, 0x80, 0xAF], [0xE2, 0x81, 0x9F], [0xE3, 0x80, 0x80]]

def stringsFields (s : Bytes) : List Bytes := words whiteSpace s

def escapeByte (b : UInt8) : Bytes :=
  if b = 32 then [92, 48, 52, 48]
  else if b = 9 then [92, 48, 49, 49]
  else if b = 10 then [92, 48, 49, 50]
  else if b = 92 then [92, 49, 51, 52]
  else [b]

def escape (s : Bytes) : Bytes := s.flatMap escapeByte

def parseOctal (a b c : UInt8) : Option UInt8 :=
  if [a, b, c].all (fun d => 48 ≤ d && d ≤ 55) then
    let n := (a.toNat - 48) * 64 + (b.toNat - 48) * 8 + (c.toNat - 48)
    if n < 256 then some (UInt8.ofNat n) else none
  else none

/-- `unescapeMountPath`; a text of fewer than four bytes holds no escape. -/
def unescapeMountPath : Bytes → Bytes
  | x :: a :: b :: c :: s =>
    if x = 92 then
      match parseOctal a b c with
      | some n => n :: unescapeMountPath s
      | none => x :: unescapeMountPath (a :: b :: c :: s)
    else x :: unescapeMountPath (a :: b :: c :: s)
  | s => s

def deviceText (major minor : ℕ) : Bytes := decimal major ++ 58 :: decimal minor

def mountPoint (line : Bytes) : Option Bytes :=
  if 9 ≤ (stringsFields line).length then
    (stringsFields line)[4]?.map unescapeMountPath
  else none

def mountPointsOf (info : Bytes) : List Bytes := (split 10 info).filterMap mountPoint

/-- The field after the first `-` that is not the last field. -/
def typeAfter : List Bytes → Option Bytes
  | a :: b :: fields => if a = [45] then some b else typeAfter (b :: fields)
  | _ => none

def mountType (want line : Bytes) : Option Bytes :=
  if (stringsFields line).length < 9 ∨ (stringsFields line)[2]? ≠ some want then none
  else typeAfter ((stringsFields line).drop 6)

def mountTypes (info : Bytes) (major minor : ℕ) : List Bytes :=
  (split 10 info).filterMap (mountType (deviceText major minor))

def networkFileSystems : List (UInt32 × Bytes) :=
  [(0x6969, ascii "nfs"), (0x517b, ascii "smb"), (0xff534d42, ascii "cifs"),
    (0xfe534d42, ascii "smb2"), (0x00c36400, ascii "ceph"), (0x5346414f, ascii "afs"),
    (0x6b414653, ascii "afs"), (0x01021997, ascii "9p"), (0x73757245, ascii "coda"),
    (0x564c, ascii "ncp"), (0x0bd00bd0, ascii "lustre"), (0x47504653, ascii "gpfs"),
    (0x19830326, ascii "beegfs"), (0x01161970, ascii "gfs2"), (0x7461636f, ascii "ocfs2"),
    (0xaad7aaea, ascii "panfs"), (0xbeefdead, ascii "snfs"), (0x013111a8, ascii "ibrix"),
    (0x61636673, ascii "acfs"), (0x786f4256, ascii "vboxsf"), (0xbacbacbc, ascii "vmhgfs"),
    (0x7c7c6673, ascii "prl_fs"), (0x0187, ascii "autofs")]

def fuseSuperMagic : UInt32 := 0x65735546

def localFUSE : List Bytes :=
  [ascii "fuseblk", ascii "fuse.lxcfs", ascii "fuse.squashfuse", ascii "fuse.squashfuse_ll",
    ascii "fuse.fuse-overlayfs"]

inductive VolumeError where
  | notLocal (fsType : Bytes)
  | stat (text : Bytes)
  | unread (text : Bytes)
  | unlisted
  deriving DecidableEq

def VolumeError.text : VolumeError → Bytes
  | .notLocal fsType => ascii "its volume is not a local file system (" ++ fsType ++ ascii ")"
  | .stat text => text
  | .unread text => ascii "its FUSE volume's type could not be read: " ++ text
  | .unlisted => ascii "its FUSE volume is not in /proc/self/mountinfo"

/-- `volumeAnswer` for the type `magic` that `statfs` read: `device` is the device number of
the file, and `info` the mount table, each with the text of its error. -/
def volumeAnswer (magic : UInt32) (device : Except Bytes (ℕ × ℕ)) (info : Except Bytes Bytes) :
    Option VolumeError :=
  match networkFileSystems.lookup magic with
  | some name => some (.notLocal name)
  | none =>
    if magic ≠ fuseSuperMagic then none
    else match device, info with
      | .error text, _ => some (.stat text)
      | .ok _, .error text => some (.unread text)
      | .ok (major, minor), .ok info =>
        if mountTypes info major minor = [] then some .unlisted
        else ((mountTypes info major minor).find? (· ∉ localFUSE)).map .notLocal

/-- The white space that the kernel leaves as it is in a path. -/
def rawSpace : List Bytes := whiteSpace.filter fun w => escape w = w

structure Word where
  text : Bytes
  alone : stringsFields text = [text]

/-- A mount, as the kernel knows it. Root and mount point are not white space alone, the
optional fields are none of them the separator `-`, and the options of the file system begin
with a word. The type is one word, also of a FUSE mount: the kernel writes its subtype, which
whoever mounts it names, and one with white space in it is left out here. -/
structure MountEntry where
  id : ℕ
  parent : ℕ
  major : ℕ
  minor : ℕ
  root : Bytes
  point : Bytes
  options : Word
  optional : List Word
  fsType : Word
  source : Bytes
  superOptions : Bytes
  root_words : words rawSpace root ≠ []
  point_words : words rawSpace point ≠ []
  options_ne : options.text ≠ [45]
  optional_ne : ∀ w ∈ optional, w.text ≠ [45]
  super_words : stringsFields superOptions ≠ []
  super_line : (10 : UInt8) ∉ superOptions

namespace MountEntry

def columns (e : MountEntry) : List Bytes :=
  [decimal e.id, decimal e.parent, deviceText e.major e.minor, escape e.root, escape e.point,
      e.options.text] ++
    e.optional.map (·.text) ++ [[45], e.fsType.text, escape e.source, e.superOptions]

def line (e : MountEntry) : Bytes := join 32 e.columns

def parts (e : MountEntry) : List Bytes := words rawSpace e.root ++ words rawSpace e.point

def early (e : MountEntry) : List Bytes := (e.parts.map escape ++ [e.options.text]).drop 3

def PointAligned (e : MountEntry) : Prop := e.parts[1]? = some e.point

/-- The word after a separator found too early is the type of the mount. -/
def TypeAligned (e : MountEntry) : Prop :=
  ∀ before after, e.early = before ++ [45] :: after → [45] ∉ before →
    after.head? = some e.fsType.text

def on (major minor : ℕ) (e : MountEntry) : Bool := e.major = major && e.minor = minor

end MountEntry

def render (table : List MountEntry) : Bytes := table.flatMap fun e => e.line ++ [10]

/-! ## Escaping -/

section Escape

theorem escape_append (s t : Bytes) : escape (s ++ t) = escape s ++ escape t := flatMap_append

theorem escape_cons (b : UInt8) (s : Bytes) : escape (b :: s) = escapeByte b ++ escape s := rfl

theorem escapeByte_cases (b : UInt8) : escapeByte b = [b] ∧ b ≠ 92 ∧ b ≠ 10 ∨
      ∃ x y z, escapeByte b = [92, x, y, z] ∧ parseOctal x y z = some b ∧
        ∀ c ∈ [92, x, y, z], 33 ≤ c.toNat ∧ c.toNat < 128 := by
  by_cases h32 : b = 32
  · subst h32
    exact .inr ⟨_, _, _, rfl, by decide, by decide +kernel⟩
  by_cases h9 : b = 9
  · subst h9
    exact .inr ⟨_, _, _, rfl, by decide, by decide +kernel⟩
  by_cases h10 : b = 10
  · subst h10
    exact .inr ⟨_, _, _, rfl, by decide, by decide +kernel⟩
  by_cases h92 : b = 92
  · subst h92
    exact .inr ⟨_, _, _, rfl, by decide, by decide +kernel⟩
  · exact .inl ⟨by simp [escapeByte, h32, h9, h10, h92], h92, h10⟩

theorem unescapeMountPath_cons {b : UInt8} (h : b ≠ 92) (s : Bytes) :
    unescapeMountPath (b :: s) = b :: unescapeMountPath s := by
  rcases s with _ | ⟨x, _ | ⟨y, _ | ⟨z, s⟩⟩⟩
  · rfl
  · rfl
  · rfl
  · rw [unescapeMountPath, if_neg h]

theorem unescapeMountPath_escape (s : Bytes) : unescapeMountPath (escape s) = s := by
  induction s with
  | nil => rfl
  | cons b s ih =>
    rw [escape_cons]
    rcases escapeByte_cases b with ⟨hb, h92, -⟩ | ⟨x, y, z, hb, hparse, -⟩
    · rw [hb, singleton_append, unescapeMountPath_cons h92, ih]
    · rw [hb]
      simp only [cons_append, nil_append, unescapeMountPath, if_true, hparse, ih]

theorem newline_not_mem_escape (s : Bytes) : (10 : UInt8) ∉ escape s := by
  intro h
  obtain ⟨b, -, hb⟩ := mem_flatMap.1 h
  rcases escapeByte_cases b with ⟨heq, -, h10⟩ | ⟨x, y, z, heq, -, hrange⟩
  · rw [heq, mem_singleton] at hb
    exact h10 hb.symm
  · rw [heq] at hb
    have hle := (hrange 10 hb).1
    simp at hle

theorem escape_whiteSpace : ∀ w ∈ whiteSpace, (escape w = w ∧ ∀ c ∈ w, escapeByte c = [c]) ∨
      ∃ c ∈ w, w = [c] ∧ escapeByte c ≠ [c] := by
  have hbytes : ∀ w ∈ whiteSpace, (escape w = w ∧ w.all (fun c => escapeByte c = [c]) = true) ∨
      w.length = 1 ∧ w.all (fun c => escapeByte c ≠ [c]) = true := by
    decide +kernel
  intro w hw
  rcases hbytes w hw with ⟨hsame, hplain⟩ | ⟨hlength, hescaped⟩
  · exact .inl ⟨hsame, fun c hc => of_decide_eq_true (all_eq_true.1 hplain c hc)⟩
  · obtain ⟨c, rfl⟩ := length_eq_one_iff.1 hlength
    have hc := mem_singleton_self c
    exact .inr ⟨c, hc, rfl, of_decide_eq_true (all_eq_true.1 hescaped c hc)⟩

theorem whiteSpace_head : ∀ w ∈ whiteSpace, ∃ c ∈ w.head?, c.toNat < 33 ∨ 128 ≤ c.toNat := by
  decide +kernel

theorem no_start_of_visible {x : Bytes} (h : ∀ b ∈ x, 33 ≤ b.toNat ∧ b.toNat < 128) :
    ∀ b ∈ x, ∀ w ∈ whiteSpace, ∃ c ∈ w.head?, c ≠ b := by
  intro b hb w hw
  obtain ⟨c, hc, hrange⟩ := whiteSpace_head w hw
  refine ⟨c, hc, ?_⟩
  rintro rfl
  have hvisible := h c hb
  omega

theorem prefix_escape_iff {w s : Bytes} (h : ∀ c ∈ w, escapeByte c = [c]) :
    w <+: escape s ↔ w <+: s := by
  induction w generalizing s with
  | nil => simp
  | cons c w ih =>
    have hc := h c mem_cons_self
    have hw := fun d hd => h d (mem_cons_of_mem c hd)
    cases s with
    | nil => rfl
    | cons b s =>
      rw [escape_cons, cons_prefix_cons]
      rcases escapeByte_cases b with ⟨hb, -⟩ | ⟨x, y, z, hb, -⟩
      · rw [hb, singleton_append, cons_prefix_cons, ih hw]
      · -- an escape begins with a backslash, which is itself escaped
        rw [hb, cons_append, cons_prefix_cons]
        have h92 : c ≠ 92 := by
          rintro rfl
          exact absurd hc (by decide)
        have hcb : c ≠ b := by
          rintro rfl
          rw [hc] at hb
          cases hb
        simp [h92, hcb]

theorem sepAt_escape {b : UInt8} (hb : escapeByte b = [b]) (s : Bytes) :
    sepAt whiteSpace (b :: escape s) = sepAt rawSpace (b :: s) := by
  refine sepAt_filter_congr fun w hw => ?_
  rw [decide_eq_true_iff]
  have hcons : b :: escape s = escape (b :: s) := by
    rw [escape_cons, hb]
    rfl
  rcases escape_whiteSpace w hw with ⟨hsame, hbytes⟩ | ⟨c, -, rfl, hc⟩
  · rw [hcons, prefix_escape_iff hbytes]
    exact ⟨fun h => ⟨hsame, h⟩, fun h => h.2⟩
  · have hcb : c ≠ b := by
      rintro rfl
      exact hc hb
    simp [cons_prefix_cons, hcb]

theorem escapeByte_of_mem_rawSpace {w : Bytes} (hw : w ∈ rawSpace) {c : UInt8} (hc : c ∈ w) :
    escapeByte c = [c] := by
  obtain ⟨hmem, hsame⟩ := mem_filter.1 hw
  rcases escape_whiteSpace w hmem with ⟨-, hbytes⟩ | ⟨d, -, rfl, hd⟩
  · exact hbytes c hc
  · refine absurd ?_ hd
    simpa [escape] using hsame

theorem flush_escape (word : Bytes) : flush (escape word) = (flush word).map escape := by
  cases word with
  | nil => rfl
  | cons b word =>
    have hne : escape (b :: word) ≠ [] := by
      rw [escape_cons]
      rcases escapeByte_cases b with ⟨hb, -⟩ | ⟨x, y, z, hb, -⟩ <;> simp [hb]
    rw [flush, flush, if_neg hne, if_neg (cons_ne_nil b word)]
    rfl

theorem wordsFrom_escape {skip : ℕ} {word s : Bytes}
    (hskip : ∀ b ∈ s.take skip, escapeByte b = [b]) :
    wordsFrom whiteSpace skip (escape word) (escape s) =
      (wordsFrom rawSpace skip word s).map escape := by
  induction s generalizing skip word with
  | nil => exact flush_escape word
  | cons b s ih =>
    rw [escape_cons]
    cases skip with
    | succ skip =>
      rw [take_succ_cons] at hskip
      rw [hskip b mem_cons_self, singleton_append, wordsFrom, wordsFrom]
      exact ih fun c hc => hskip c (mem_cons_of_mem _ hc)
    | zero =>
      rcases escapeByte_cases b with ⟨hb, -⟩ | ⟨x, y, z, hb, -, hvisible⟩
      · rw [hb, singleton_append, wordsFrom, wordsFrom, sepAt_escape hb]
        cases hw : sepAt rawSpace (b :: s) with
        | none =>
          have hword : escape word ++ [b] = escape (word ++ [b]) := by
            rw [escape_append, escape_cons, hb]
            rfl
          dsimp only
          rw [hword]
          exact ih fun c hc => by simp at hc
        | some w =>
          obtain ⟨hmem, hpre⟩ := prefix_of_sepAt hw
          dsimp only
          rw [map_append, flush_escape]
          refine congrArg _ (@ih (w.length - 1) [] fun c hc => ?_)
          refine escapeByte_of_mem_rawSpace hmem ?_
          cases w with
          | nil => simp at hc
          | cons d w =>
            obtain ⟨rfl, t, rfl⟩ := cons_prefix_cons.1 hpre
            simp only [length_cons, Nat.add_sub_cancel, take_left] at hc
            exact mem_cons_of_mem _ hc
      · -- the escape of `b` belongs to the word, and `b` begins no raw white space
        have hnone : sepAt rawSpace (b :: s) = none := by
          refine sepAt_eq_none_iff.2 fun w hw hpre => ?_
          cases w with
          | nil => exact absurd hw (by decide)
          | cons d w =>
            obtain rfl := (cons_prefix_cons.1 hpre).1
            have hd := escapeByte_of_mem_rawSpace hw mem_cons_self
            rw [hb] at hd
            cases hd
        have hword : escape word ++ [92, x, y, z] = escape (word ++ [b]) := by
          rw [escape_append, escape_cons, hb]
          rfl
        rw [hb, wordsFrom_append_of_no_start (no_start_of_visible hvisible), hword,
          wordsFrom, hnone]
        exact ih fun c hc => by simp at hc

theorem stringsFields_escape (s : Bytes) :
    stringsFields (escape s) = (words rawSpace s).map escape :=
  @wordsFrom_escape 0 [] s fun b hb => by simp at hb

end Escape

/-! ## Lines -/

section Line

theorem cuts_space : Cuts whiteSpace 32 := ⟨by decide, by decide, by decide⟩

theorem stringsFields_join (columns : List Bytes) :
    stringsFields (join 32 columns) = columns.flatMap stringsFields := by
  induction columns with
  | nil => rfl
  | cons column columns ih =>
    cases columns with
    | nil => simp [join]
    | cons column' columns =>
      rw [join_cons (cons_ne_nil _ _), flatMap_cons, ← ih]
      exact cuts_space.words_append

theorem stringsFields_of_visible {s : Bytes} (hne : s ≠ [])
    (h : ∀ b ∈ s, 33 ≤ b.toNat ∧ b.toNat < 128) : stringsFields s = [s] := by
  have hscan := @wordsFrom_append_of_no_start whiteSpace [] [] s (no_start_of_visible h)
  rw [append_nil, nil_append, wordsFrom, flush, if_neg hne] at hscan
  exact hscan

theorem visible_of_mem_decimal {n : ℕ} {b : UInt8} (h : b ∈ decimal n) :
    33 ≤ b.toNat ∧ b.toNat < 128 := by
  have hdigit := digit_of_mem_decimal h
  omega

theorem decimal_ne_nil (n : ℕ) : decimal n ≠ [] := by
  rw [decimal]
  simp

theorem stringsFields_decimal (n : ℕ) : stringsFields (decimal n) = [decimal n] :=
  stringsFields_of_visible (decimal_ne_nil n) fun _ h => visible_of_mem_decimal h

theorem stringsFields_deviceText (major minor : ℕ) :
    stringsFields (deviceText major minor) = [deviceText major minor] := by
  refine stringsFields_of_visible (by simp [deviceText]) fun b hb => ?_
  rw [deviceText, mem_append, mem_cons] at hb
  rcases hb with hb | rfl | hb
  · exact visible_of_mem_decimal hb
  · decide
  · exact visible_of_mem_decimal hb

theorem deviceText_eq_iff {major minor major' minor' : ℕ} :
    deviceText major minor = deviceText major' minor' ↔ major = major' ∧ minor = minor' := by
  have hcolon : ∀ n, (58 : UInt8) ∉ decimal n := by
    intro n h
    have hdigit := digit_of_mem_decimal h
    simp at hdigit
  refine ⟨fun h => ?_, fun ⟨hmajor, hminor⟩ => by rw [hmajor, hminor]⟩
  have hsplit := congrArg (split 58) h
  rw [deviceText, deviceText, split_append_sep, split_append_sep,
    split_eq_singleton (hcolon _), split_eq_singleton (hcolon _),
    split_eq_singleton (hcolon _), split_eq_singleton (hcolon _)] at hsplit
  simp only [singleton_append, List.cons.injEq, and_true] at hsplit
  exact ⟨decimal_injective hsplit.1, decimal_injective hsplit.2⟩

variable (e : MountEntry)

def MountEntry.late : List Bytes :=
  e.optional.map (·.text) ++ [45] :: e.fsType.text ::
    (stringsFields (escape e.source) ++ stringsFields e.superOptions)

theorem stringsFields_line : stringsFields e.line =
      [decimal e.id, decimal e.parent, deviceText e.major e.minor] ++
        ((e.parts.map escape ++ [e.options.text]) ++ e.late) := by
  have hdash : stringsFields [45] = [[45]] := by decide
  have hoptional : e.optional.flatMap (fun w => stringsFields w.text) =
      e.optional.map (·.text) := by
    rw [map_eq_flatMap]
    exact flatMap_congr fun w _ => w.alone
  rw [MountEntry.line, stringsFields_join, MountEntry.columns, flatMap_append,
    flatMap_append, flatMap_map, hoptional]
  simp only [flatMap_cons, flatMap_nil, stringsFields_decimal, stringsFields_deviceText,
    stringsFields_escape, e.options.alone, e.fsType.alone, hdash, MountEntry.parts, MountEntry.late,
    map_append, append_assoc, cons_append, nil_append, append_nil]

theorem two_le_length_parts : 2 ≤ e.parts.length := by
  have hroot := length_pos_iff.2 e.root_words
  have hpoint := length_pos_iff.2 e.point_words
  rw [MountEntry.parts, length_append]
  omega

theorem nine_le_length_fields : 9 ≤ (stringsFields e.line).length := by
  have hparts := two_le_length_parts e
  have hsuper := length_pos_iff.2 e.super_words
  rw [stringsFields_line, MountEntry.late]
  simp only [length_append, length_cons, length_map, length_nil]
  omega

theorem mountPoint_line : mountPoint e.line = e.parts[1]? := by
  have hparts := two_le_length_parts e
  have hfour : (stringsFields e.line)[4]? = (e.parts.map escape)[1]? := by
    rw [stringsFields_line, List.getElem?_append_right (by simp)]
    simp only [length_cons, length_nil, Nat.reduceAdd, Nat.reduceSub]
    rw [append_assoc, List.getElem?_append_left]
    rw [length_map]
    omega
  rw [mountPoint, if_pos (nine_le_length_fields e), hfour, List.getElem?_map, Option.map_map]
  have hid : unescapeMountPath ∘ escape = id := funext unescapeMountPath_escape
  rw [hid, Option.map_id_fun, id_eq]

theorem mountType_line (major minor : ℕ) : mountType (deviceText major minor) e.line =
      if e.on major minor then typeAfter (e.early ++ e.late) else none := by
  have hparts := two_le_length_parts e
  have htwo : (stringsFields e.line)[2]? = some (deviceText e.major e.minor) := by
    rw [stringsFields_line]
    rfl
  have hdrop : (stringsFields e.line).drop 6 = e.early ++ e.late := by
    rw [stringsFields_line, MountEntry.early]
    refine Eq.trans ?_ (drop_append_of_le_length ?_)
    · rfl
    · simp only [length_append, length_map, length_singleton]
      omega
  have hnine : ¬ (stringsFields e.line).length < 9 := by
    have hle := nine_le_length_fields e
    omega
  rw [mountType, htwo, hdrop]
  by_cases hon : e.on major minor = true
  · rw [if_pos hon, if_neg]
    rw [MountEntry.on, Bool.and_eq_true, decide_eq_true_iff, decide_eq_true_iff] at hon
    rintro (hlt | hne)
    · exact hnine hlt
    · exact hne (by rw [hon.1, hon.2])
  · rw [if_neg hon, if_pos]
    refine .inr fun heq => hon ?_
    rw [Option.some.injEq, deviceText_eq_iff] at heq
    rw [MountEntry.on, Bool.and_eq_true, decide_eq_true_iff, decide_eq_true_iff]
    exact heq

theorem typeAfter_append {before : List Bytes} (h : [45] ∉ before) (b : Bytes)
    (fields : List Bytes) : typeAfter (before ++ [45] :: b :: fields) = some b := by
  induction before with
  | nil => simp [typeAfter]
  | cons a before ih =>
    rw [mem_cons, not_or] at h
    have hrest := ih h.2
    cases before with
    | nil =>
      simp only [cons_append, nil_append] at hrest ⊢
      rw [typeAfter, if_neg (Ne.symm h.1)]
      exact hrest
    | cons a' before =>
      simp only [cons_append] at hrest ⊢
      rw [typeAfter, if_neg (Ne.symm h.1)]
      exact hrest

theorem early_ne_append_dash (before : List Bytes) : e.early ≠ before ++ [[45]] := by
  intro hsplit
  have hmem : [45] ∈ (e.early).getLast? := by
    rw [hsplit]
    simp
  rw [MountEntry.early, List.getLast?_drop] at hmem
  split_ifs at hmem
  · cases hmem
  · rw [List.getLast?_append, List.getLast?_singleton] at hmem
    exact e.options_ne (Option.some.inj hmem)

theorem typeAfter_early_iff :
    typeAfter (e.early ++ e.late) = some e.fsType.text ↔ e.TypeAligned := by
  have hread : ∀ before after, e.early = before ++ [45] :: after → [45] ∉ before →
      typeAfter (e.early ++ e.late) = after.head? := by
    intro before after hsplit hbefore
    cases after with
    | nil => exact absurd hsplit (early_ne_append_dash e before)
    | cons b after =>
      rw [hsplit, append_assoc]
      exact typeAfter_append hbefore b _
  by_cases hdash : [45] ∈ e.early
  · obtain ⟨before, after, hsplit, hbefore⟩ := eq_append_cons_of_mem hdash
    refine ⟨fun h before' after' hsplit' hbefore' => ?_, fun h => ?_⟩
    · rw [← hread before' after' hsplit' hbefore']
      exact h
    · rw [hread before after hsplit hbefore]
      exact h before after hsplit hbefore
  · refine ⟨fun _ before after hsplit => ?_, fun _ => ?_⟩
    · exact absurd (hsplit ▸ mem_append_right _ mem_cons_self) hdash
    · rw [MountEntry.late, ← append_assoc]
      refine typeAfter_append ?_ _ _
      rw [mem_append, not_or]
      refine ⟨hdash, fun hmem => ?_⟩
      obtain ⟨w, hw, heq⟩ := mem_map.1 hmem
      exact e.optional_ne w hw heq

theorem newline_not_mem_word (w : Word) : (10 : UInt8) ∉ w.text := by
  intro hmem
  obtain ⟨s, t, hst⟩ := append_of_mem hmem
  have hcut : Cuts whiteSpace 10 := ⟨by decide, by decide, by decide⟩
  have hwords : words whiteSpace s ++ words whiteSpace t = [w.text] := by
    rw [← hcut.words_append, ← hst]
    exact w.alone
  have hlen := congrArg (fun ws => ws.flatten.length) hwords
  have hs := @length_flatten_wordsFrom whiteSpace 0 [] s
  have ht := @length_flatten_wordsFrom whiteSpace 0 [] t
  rw [← words] at hs ht
  have htext : w.text.length = s.length + (t.length + 1) := by
    rw [hst, length_append, length_cons]
  simp only [flatten_append, length_append, flatten_cons, flatten_nil,
    append_nil, length_nil] at hlen hs ht
  omega

theorem newline_not_mem_line : (10 : UInt8) ∉ e.line := by
  have hdecimal : ∀ n, (10 : UInt8) ∉ decimal n := by
    intro n hmem
    have hdigit := digit_of_mem_decimal hmem
    simp at hdigit
  intro h
  rcases mem_join h with h32 | ⟨column, hcolumn, hmem⟩
  · exact absurd h32 (by decide)
  · simp only [MountEntry.columns, cons_append, nil_append, mem_cons,
      mem_append, mem_map, not_mem_nil, or_false] at hcolumn
    rcases hcolumn with rfl | rfl | rfl | rfl | rfl | rfl | ⟨w, -, rfl⟩ | rfl | rfl | rfl | rfl
    · exact hdecimal _ hmem
    · exact hdecimal _ hmem
    · rw [deviceText, mem_append, mem_cons] at hmem
      rcases hmem with hmem | hmem | hmem
      · exact hdecimal _ hmem
      · exact absurd hmem (by decide)
      · exact hdecimal _ hmem
    · exact newline_not_mem_escape _ hmem
    · exact newline_not_mem_escape _ hmem
    · exact newline_not_mem_word _ hmem
    · exact newline_not_mem_word w hmem
    · exact absurd hmem (by decide)
    · exact newline_not_mem_word _ hmem
    · exact newline_not_mem_escape _ hmem
    · exact e.super_line hmem

theorem split_render (table : List MountEntry) :
    split 10 (render table) = table.map (·.line) ++ [[]] := by
  induction table with
  | nil => rfl
  | cons e table ih =>
    have hcons : render (e :: table) = e.line ++ 10 :: render table := by
      rw [render, flatMap_cons, append_assoc]
      rfl
    rw [hcons, split_append_sep, split_eq_singleton (newline_not_mem_line e), ih]
    rfl

end Line

/-! ## Tables -/

section Table

theorem filterMap_eq_map_iff {α β : Type} {f : α → Option β} {g : α → β} {l : List α} :
    l.filterMap f = l.map g ↔ ∀ a ∈ l, f a = some (g a) := by
  induction l with
  | nil => simp
  | cons a l ih =>
    rw [forall_mem_cons, ← ih, map_cons]
    cases hfa : f a with
    | none =>
      rw [filterMap_cons_none hfa]
      refine ⟨fun h => ?_, fun h => by cases h.1⟩
      have hle := length_filterMap_le f l
      rw [h, length_cons, length_map] at hle
      omega
    | some b =>
      rw [filterMap_cons_some hfa, List.cons.injEq, Option.some.injEq]

theorem mountPointsOf_render (table : List MountEntry) :
    mountPointsOf (render table) = table.filterMap fun e => e.parts[1]? := by
  have hempty : mountPoint [] = none := by decide
  rw [mountPointsOf, split_render, filterMap_append, filterMap_map]
  simp only [filterMap_cons, hempty, filterMap_nil, append_nil]
  refine filterMap_congr fun e _ => ?_
  rw [Function.comp_apply, mountPoint_line]

theorem mountTypes_render (table : List MountEntry) (major minor : ℕ) :
    mountTypes (render table) major minor =
      (table.filter (·.on major minor)).filterMap fun e => typeAfter (e.early ++ e.late) := by
  have hempty : mountType (deviceText major minor) [] = none := if_pos (.inl (by decide))
  rw [mountTypes, split_render, filterMap_append, filterMap_map]
  simp only [filterMap_cons, hempty, filterMap_nil, append_nil]
  rw [filterMap_filter]
  refine filterMap_congr fun e _ => ?_
  rw [Function.comp_apply, mountType_line]

theorem mountPointsOf_exact_iff (table : List MountEntry) :
    mountPointsOf (render table) = table.map (·.point) ↔ ∀ e ∈ table, e.PointAligned := by
  rw [mountPointsOf_render, filterMap_eq_map_iff]
  rfl

theorem mountTypes_exact_iff (table : List MountEntry) (major minor : ℕ) :
    mountTypes (render table) major minor = (table.filter (·.on major minor)).map (·.fsType.text) ↔
      ∀ e ∈ table, e.on major minor = true → e.TypeAligned := by
  rw [mountTypes_render, filterMap_eq_map_iff]
  simp only [typeAfter_early_iff, mem_filter, and_imp]

theorem words_rawSpace_of_plain {s : Bytes} (hne : words rawSpace s ≠ [])
    (h : ∀ w ∈ rawSpace, ¬ w <:+: s) : words rawSpace s = [s] := by
  refine words_of_no_sep ?_ h
  rintro rfl
  exact hne rfl

theorem aligned_of_plain_root {e : MountEntry} (hroot : ∀ w ∈ rawSpace, ¬ w <:+: e.root) :
    (e.PointAligned ↔ words rawSpace e.point = [e.point]) ∧ (e.PointAligned → e.TypeAligned) := by
  have hparts : e.parts = e.root :: words rawSpace e.point := by
    rw [MountEntry.parts, words_rawSpace_of_plain e.root_words hroot]
    rfl
  have hpoint : e.PointAligned ↔ words rawSpace e.point = [e.point] := by
    rw [MountEntry.PointAligned, hparts, List.getElem?_cons_succ, ← List.head?_eq_getElem?]
    refine ⟨words_eq_singleton_of_head, fun h => ?_⟩
    rw [h]
    rfl
  refine ⟨hpoint, fun h before after hsplit => ?_⟩
  have hearly : e.early = [] := by
    rw [MountEntry.early, hparts, hpoint.1 h]
    rfl
  rw [hearly] at hsplit
  cases before <;> cases hsplit

theorem volumeAnswer_fuse {info : Bytes} {major minor : ℕ}
    (h : volumeAnswer fuseSuperMagic (.ok (major, minor)) (.ok info) = none) :
    ∀ fsType ∈ mountTypes info major minor, fsType ∈ localFUSE := by
  have hlookup : networkFileSystems.lookup fuseSuperMagic = none := by decide
  rw [volumeAnswer, hlookup] at h
  simp only [ne_eq, not_true_eq_false, if_false] at h
  split_ifs at h
  rw [Option.map_eq_none_iff, List.find?_eq_none] at h
  intro fsType hmem
  simpa using h fsType hmem

structure ReadsExactly (table : List MountEntry) : Prop where
  points : mountPointsOf (render table) = table.map (·.point)
  types : ∀ major minor, mountTypes (render table) major minor =
    (table.filter (·.on major minor)).map (·.fsType.text)

/-- A mount table is read exactly if and only if, for each mount, the second word of root and mount
point is the mount point, and a separator read too early is followed by the type. -/
theorem reads_exactly_iff (table : List MountEntry) :
    (ReadsExactly table ↔ ∀ e ∈ table, e.PointAligned ∧ e.TypeAligned) ∧
    ((∀ e ∈ table, ∀ w ∈ rawSpace, ¬ w <:+: e.root) →
      (ReadsExactly table ↔ ∀ e ∈ table, words rawSpace e.point = [e.point])) ∧
    (ReadsExactly table → ∀ major minor,
      volumeAnswer fuseSuperMagic (.ok (major, minor)) (.ok (render table)) = none →
        ∀ e ∈ table, e.on major minor = true → e.fsType.text ∈ localFUSE) := by
  have hiff : ReadsExactly table ↔ ∀ e ∈ table, e.PointAligned ∧ e.TypeAligned := by
    refine ⟨fun h e he => ⟨?_, ?_⟩, fun h => ⟨?_, fun major minor => ?_⟩⟩
    · exact (mountPointsOf_exact_iff table).1 h.points e he
    · refine (mountTypes_exact_iff table e.major e.minor).1 (h.types _ _) e he ?_
      simp [MountEntry.on]
    · exact (mountPointsOf_exact_iff table).2 fun e he => (h e he).1
    · exact (mountTypes_exact_iff table major minor).2 fun e he _ => (h e he).2
  refine ⟨hiff, fun hroot => ?_, fun h major minor haccept e he hon => ?_⟩
  · rw [hiff]
    refine forall₂_congr fun e he => ?_
    obtain ⟨hpoint, htype⟩ := aligned_of_plain_root (hroot e he)
    rw [← hpoint]
    exact ⟨fun h => h.1, fun h => ⟨h, htype h⟩⟩
  · refine volumeAnswer_fuse haccept e.fsType.text ?_
    rw [h.types major minor]
    exact mem_map_of_mem (mem_filter.2 ⟨he, hon⟩)

/-- A mount of `sshfs` at a path with carriage returns in it, `/m x - fuseblk` with each space
a carriage return. -/
def sshfsMount : MountEntry where
  id := 1
  parent := 0
  major := 0
  minor := 50
  root := [47]
  point := ascii "/m\rx\r-\rfuseblk"
  options := ⟨ascii "rw", by decide⟩
  optional := []
  fsType := ⟨ascii "fuse.sshfs", by decide⟩
  source := ascii "host:"
  superOptions := ascii "rw"
  root_words := by decide
  point_words := by decide
  options_ne := by decide
  optional_ne := by decide
  super_words := by decide
  super_line := by decide

/-- The mount point is cut at its first carriage return, the type is read out of the mount
point, and the remote volume is accepted. -/
theorem sshfs_accepted : mountPointsOf (render [sshfsMount]) = [ascii "/m"] ∧
      mountTypes (render [sshfsMount]) 0 50 = [ascii "fuseblk"] ∧
      volumeAnswer fuseSuperMagic (.ok (0, 50)) (.ok (render [sshfsMount])) = none ∧
      sshfsMount.on 0 50 = true ∧ sshfsMount.fsType.text ∉ localFUSE := by
  decide +kernel

end Table

end Linux
