import AbstractionIdentity.Windows.VersionResource

/-!
# The addresses of the resource walk

The walk to the version resource adds addresses in 32 bits, while `read` compares them in 64.
`versionBy` is the walk over unbounded addresses; `version` takes every address modulo `2 ^ 32`
(`version_eq`), and `exact` refuses one beyond 32 bits.
-/

namespace Windows.Version

open Text Stream Stream.Reads ImageLayout

/-! ## The walk over unbounded addresses -/

section By

variable (read : ℕ → ℕ → Reader Bytes)

def directoryBy (a : ℕ) : Reader (List ResourceEntry) :=
  (read a 16).bind fun head =>
  (lift (u16At head 12)).bind fun named =>
  (lift (u16At head 14)).bind fun ids =>
    if named + ids = 0 ∨ maxResourceEntries < named + ids then .fail .noVersion
    else
      (read (a + 16) ((named + ids) * 8)).bind fun raw =>
        lift (entriesFrom raw 0 (named + ids))

def subdirectoryBy (resource : ℕ) (entries : List ResourceEntry)
    (wanted : ResourceEntry → Bool) : Reader (List ResourceEntry) :=
  match entries.find? fun e => e.subdir && wanted e with
  | some e => directoryBy read (resource + e.offset)
  | none => .fail .noVersion

def leafBy (resource : ℕ) (languages : List ResourceEntry) : Reader Bytes :=
  match languages.foldl ImageLayout.choose none with
  | none => .fail .noVersion
  | some e =>
    (read (resource + e.offset) 16).bind fun entry =>
    (lift (u32At entry 4)).bind fun size =>
      if size < 6 ∨ maxVersionResource < size then .fail .noVersion
      else (lift (u32At entry 0)).bind fun rva => read rva size

def versionBy (resource : ℕ) : Reader ImageVersion :=
  if resource = 0 then .fail .noVersion
  else
    (directoryBy read resource).bind fun types =>
    (subdirectoryBy read resource types fun e =>
      !e.named && e.id = resourceTypeVersion).bind fun names =>
    (subdirectoryBy read resource names fun _ => true).bind fun languages =>
    (leafBy read resource languages).bind fun data =>
    (lift (parseVersionInfo data)).bind fun
      | none => .fail .noVersion
      | some version => .done version

end By

namespace ImageLayout

def readWrapped (img : ImageLayout) (a n : ℕ) : Reader Bytes := img.read (a % 2 ^ 32) n

def readExact (img : ImageLayout) (a n : ℕ) : Reader Bytes :=
  if a < 2 ^ 32 then img.read a n else .fail (.notInFile a)

def exact (img : ImageLayout) : Reader ImageVersion := versionBy img.readExact img.resourceRVA

end ImageLayout

variable {img : ImageLayout}

theorem directory_eq (a : ℕ) : img.directory (a % 2 ^ 32) = directoryBy img.readWrapped a := by
  rw [directory, directoryBy, Nat.mod_add_mod]
  rfl

theorem u32At_lt {data : Bytes} {i u : ℕ} (h : u32At data i = .ok u) : u < 2 ^ 32 := by
  rw [u32At] at h
  split at h
  next a b c d rest heq =>
    cases h
    have ha := a.toNat_lt
    have hb := b.toNat_lt
    have hc := c.toNat_lt
    have hd := d.toNat_lt
    omega
  · cases h

theorem leaf_eq (languages : List ResourceEntry) :
    img.leaf languages = leafBy img.readWrapped img.resourceRVA languages := by
  rw [leaf, leafBy]
  cases languages.foldl choose none with
  | none => rfl
  | some e =>
    refine congrArg (Reads.bind (img.readWrapped (img.resourceRVA + e.offset) 16)) ?_
    funext entry
    refine congrArg (Reads.bind (lift (u32At entry 4))) ?_
    funext size
    by_cases hsize : size < 6 ∨ maxVersionResource < size
    · rw [if_pos hsize, if_pos hsize]
    · rw [if_neg hsize, if_neg hsize]
      cases hrva : u32At entry 0 with
      | error f => rfl
      | ok rva =>
        change img.read rva size = img.read (rva % 2 ^ 32) size
        rw [Nat.mod_eq_of_lt (u32At_lt hrva)]

theorem subdirectory_eq (entries : List ResourceEntry) (wanted : ResourceEntry → Bool) :
    img.subdirectory entries wanted =
      subdirectoryBy img.readWrapped img.resourceRVA entries wanted := by
  rw [subdirectory, subdirectoryBy]
  cases entries.find? fun e => e.subdir && wanted e with
  | none => rfl
  | some e => exact directory_eq (img.resourceRVA + e.offset)

theorem version_eq (h : img.resourceRVA < 2 ^ 32) :
    img.version = versionBy img.readWrapped img.resourceRVA := by
  have hroot : img.directory img.resourceRVA = directoryBy img.readWrapped img.resourceRVA := by
    rw [← directory_eq, Nat.mod_eq_of_lt h]
  have hsub : img.subdirectory = subdirectoryBy img.readWrapped img.resourceRVA :=
    funext fun entries => funext fun wanted => subdirectory_eq entries wanted
  have hleaf : img.leaf = leafBy img.readWrapped img.resourceRVA := funext leaf_eq
  rewrite [version, versionBy, hroot, hsub, hleaf]
  rfl

/-! ## Where an address can be read -/

namespace ImageLayout

def Covers (img : ImageLayout) (rva n : ℕ) : Prop :=
  ∃ s ∈ img.sections, s.virtualAddress ≤ rva ∧ rva + n ≤ s.virtualAddress + s.rawSize

def Wraps (img : ImageLayout) (a n : ℕ) : Prop := 2 ^ 32 ≤ a ∧ img.Covers (a % 2 ^ 32) n

/-- The section table has a place for a wrapped address: that of the entries of the root directory,
of a directory or leaf that an entry may point to, or of the entries of such a directory. -/
def WalkWraps (img : ImageLayout) : Prop :=
  img.resourceRVA ≠ 0 ∧ img.Covers img.resourceRVA 16 ∧
    (img.Wraps (img.resourceRVA + 16) 8 ∨
      img.resourceRVA + 16 < 2 ^ 32 ∧ img.Covers (img.resourceRVA + 16) 8 ∧
        ∃ offset < 2 ^ 31, img.Wraps (img.resourceRVA + offset) 16 ∨
          img.resourceRVA + offset < 2 ^ 32 ∧ img.Covers (img.resourceRVA + offset) 16 ∧
            img.Wraps (img.resourceRVA + offset + 16) 8)

theorem Covers.mono {rva n m : ℕ} (h : img.Covers rva n) (hle : m ≤ n) : img.Covers rva m := by
  obtain ⟨s, hs, hlow, hhigh⟩ := h
  exact ⟨s, hs, hlow, by omega⟩

theorem read_of_covers {rva n : ℕ} (h : img.Covers rva n) :
    ∃ off, img.read rva n = readAt off n := by
  rw [read]
  split
  · exact ⟨_, rfl⟩
  next hnone =>
    obtain ⟨s, hs, hlow, hhigh⟩ := h
    refine absurd ?_ (List.find?_eq_none.1 hnone s hs)
    rw [Bool.and_eq_true, decide_eq_true_iff, decide_eq_true_iff]
    exact ⟨hlow, hhigh⟩

theorem read_of_not_covers {rva n : ℕ} (h : ¬ img.Covers rva n) :
    img.read rva n = .fail (.notInFile rva) := by
  rw [read]
  split
  next s hfind =>
    have hin := List.find?_some hfind
    rw [Bool.and_eq_true, decide_eq_true_iff, decide_eq_true_iff] at hin
    exact absurd ⟨s, List.mem_of_find?_eq_some hfind, hin⟩ h
  · rfl

end ImageLayout

open ImageLayout

theorem reads_of_covers {a n : ℕ} (ha : a < 2 ^ 32) (h : img.Covers a n) :
    ∃ off, img.readWrapped a n = readAt off n ∧ img.readExact a n = readAt off n := by
  obtain ⟨off, hoff⟩ := read_of_covers h
  refine ⟨off, ?_, ?_⟩
  · rw [readWrapped, Nat.mod_eq_of_lt ha, hoff]
  · rw [ImageLayout.readExact, if_pos ha, hoff]

theorem reads_of_wraps {a n : ℕ} (h : img.Wraps a n) :
    (∃ off, img.readWrapped a n = readAt off n) ∧ img.readExact a n = .fail (.notInFile a) :=
  ⟨read_of_covers h.2, if_neg (Nat.not_lt.2 h.1)⟩

theorem reads_of_not {a n : ℕ} (hwraps : ¬ img.Wraps a n) (h : ¬ (a < 2 ^ 32 ∧ img.Covers a n)) :
    (∃ err, img.readWrapped a n = .fail err) ∧ ∃ err, img.readExact a n = .fail err := by
  by_cases ha : a < 2 ^ 32
  · have hno : ¬ img.Covers a n := fun hc => h ⟨ha, hc⟩
    rw [readWrapped, ImageLayout.readExact, if_pos ha, Nat.mod_eq_of_lt ha, read_of_not_covers hno]
    exact ⟨⟨_, rfl⟩, ⟨_, rfl⟩⟩
  · have hno : ¬ img.Covers (a % 2 ^ 32) n := fun hc => hwraps ⟨Nat.not_lt.1 ha, hc⟩
    rw [readWrapped, ImageLayout.readExact, if_neg ha, read_of_not_covers hno]
    exact ⟨⟨_, rfl⟩, ⟨_, rfl⟩⟩

theorem agrees_read {a n : ℕ} (h : ¬ img.Wraps a n) :
    Agrees (fun _ => a < 2 ^ 32 ∧ img.Covers a n) (img.readWrapped a n) (img.readExact a n) := by
  by_cases hc : a < 2 ^ 32 ∧ img.Covers a n
  · obtain ⟨off, hwrapped, hexact⟩ := reads_of_covers hc.1 hc.2
    rw [hwrapped, hexact]
    exact ⟨rfl, rfl, fun buf _ => ⟨rfl, hc⟩⟩
  · obtain ⟨⟨err, hwrapped⟩, err', hexact⟩ := reads_of_not h hc
    rw [hwrapped, hexact]
    trivial

/-! ## Without a place for a wrapped address -/

theorem offset_lt {raw : Bytes} {i count : ℕ} {entries : List ResourceEntry}
    (h : entriesFrom raw i count = .ok entries) : ∀ e ∈ entries, e.offset < 2 ^ 31 := by
  induction count generalizing i entries with
  | zero =>
    cases h
    exact fun e he => (by cases he)
  | succ count ih =>
    rw [entriesFrom, entryAt] at h
    cases hname : u32At raw (i * 8) with
    | error f =>
      rw [hname] at h
      cases h
    | ok name =>
      cases hoffset : u32At raw (i * 8 + 4) with
      | error f =>
        rw [hname, hoffset] at h
        cases h
      | ok offset =>
        cases hrest : entriesFrom raw (i + 1) count with
        | error f =>
          rw [hname, hoffset, hrest] at h
          cases h
        | ok rest =>
          rw [hname, hoffset, hrest] at h
          cases h
          intro e he
          rcases List.mem_cons.1 he with rfl | he
          · exact Nat.mod_lt _ (by decide)
          · exact ih hrest e he

theorem choose_mem {languages : List ResourceEntry} {start : Option ResourceEntry}
    {e : ResourceEntry} (h : languages.foldl choose start = some e) :
    start = some e ∨ e ∈ languages := by
  induction languages generalizing start with
  | nil => exact .inl h
  | cons a rest ih =>
    rcases ih h with hstart | hmem
    · rw [choose] at hstart
      split_ifs at hstart with hsub hfirst
      · exact .inl hstart
      · cases hstart
        exact .inr List.mem_cons_self
      · exact .inl hstart
    · exact .inr (List.mem_cons_of_mem a hmem)

structure Walked (img : ImageLayout) (a : ℕ) (entries : List ResourceEntry) : Prop where
  head : img.Covers a 16
  fits : a + 16 < 2 ^ 32
  first : img.Covers (a + 16) 8
  offsets : ∀ e ∈ entries, e.offset < 2 ^ 31

theorem agrees_directory {a : ℕ} (h : ¬ img.Wraps a 16)
    (hentries : a < 2 ^ 32 → img.Covers a 16 → ¬ img.Wraps (a + 16) 8) :
    Agrees (Walked img a) (directoryBy img.readWrapped a) (directoryBy img.readExact a) := by
  refine (agrees_read h).bind fun head hhead => ?_
  refine (agrees_lift fun _ _ => trivial).bind fun named _ => ?_
  refine (agrees_lift fun _ _ => trivial).bind fun ids _ => ?_
  by_cases hcount : named + ids = 0 ∨ maxResourceEntries < named + ids
  · rw [if_pos hcount, if_pos hcount]
    trivial
  · rw [if_neg hcount, if_neg hcount]
    have hsome : 8 ≤ (named + ids) * 8 := by omega
    have hno : ¬ img.Wraps (a + 16) ((named + ids) * 8) := fun hwraps =>
      hentries hhead.1 hhead.2 ⟨hwraps.1, hwraps.2.mono hsome⟩
    refine (agrees_read hno).bind fun raw hraw => agrees_lift fun entries he => ?_
    exact ⟨hhead.2, hraw.1, hraw.2.mono hsome, offset_lt he⟩

theorem not_wraps_entry (h : ¬ img.WalkWraps) (hzero : img.resourceRVA ≠ 0)
    {types : List ResourceEntry} (hroot : Walked img img.resourceRVA types) {offset : ℕ}
    (hoffset : offset < 2 ^ 31) :
    ¬ img.Wraps (img.resourceRVA + offset) 16 ∧
      (img.resourceRVA + offset < 2 ^ 32 → img.Covers (img.resourceRVA + offset) 16 →
        ¬ img.Wraps (img.resourceRVA + offset + 16) 8) := by
  refine ⟨fun hwraps => h ?_, fun hlow hcovers hwraps => h ?_⟩
  · exact ⟨hzero, hroot.head, .inr ⟨hroot.fits, hroot.first, offset, hoffset, .inl hwraps⟩⟩
  · exact ⟨hzero, hroot.head,
      .inr ⟨hroot.fits, hroot.first, offset, hoffset, .inr ⟨hlow, hcovers, hwraps⟩⟩⟩

section Below

variable (h : ¬ img.WalkWraps) (hzero : img.resourceRVA ≠ 0) {types : List ResourceEntry}
  (hroot : Walked img img.resourceRVA types) {entries : List ResourceEntry}
  (hoffsets : ∀ e ∈ entries, e.offset < 2 ^ 31)

include h hzero hroot hoffsets

theorem agrees_subdirectory (wanted : ResourceEntry → Bool) :
    Agrees (fun found => ∀ e ∈ found, e.offset < 2 ^ 31)
      (subdirectoryBy img.readWrapped img.resourceRVA entries wanted)
      (subdirectoryBy img.readExact img.resourceRVA entries wanted) := by
  rw [subdirectoryBy, subdirectoryBy]
  cases hfind : entries.find? fun e => e.subdir && wanted e with
  | none => trivial
  | some e =>
    obtain ⟨hnot, hbehind⟩ := not_wraps_entry h hzero hroot
      (hoffsets e (List.mem_of_find?_eq_some hfind))
    exact (agrees_directory hnot hbehind).mono fun found hwalked => hwalked.offsets

theorem agrees_leaf : Agrees (fun _ => True) (leafBy img.readWrapped img.resourceRVA entries)
    (leafBy img.readExact img.resourceRVA entries) := by
  rw [leafBy, leafBy]
  cases hchosen : entries.foldl choose none with
  | none => trivial
  | some e =>
    have hoffset := hoffsets e ((choose_mem hchosen).resolve_left (by simp))
    refine (agrees_read (not_wraps_entry h hzero hroot hoffset).1).bind fun entry _ => ?_
    refine (agrees_lift fun _ _ => trivial).bind fun size _ => ?_
    by_cases hsize : size < 6 ∨ maxVersionResource < size
    · rw [if_pos hsize, if_pos hsize]
      trivial
    · rw [if_neg hsize, if_neg hsize]
      refine (agrees_lift fun rva hrva => u32At_lt hrva).bind fun rva hrva => ?_
      have hno : ¬ img.Wraps rva size := fun hwraps => absurd hwraps.1 (Nat.not_le.2 hrva)
      exact (agrees_read hno).mono fun _ _ => trivial

end Below

theorem agrees_version (h : ¬ img.WalkWraps) (hfits : img.resourceRVA < 2 ^ 32) :
    Agrees (fun _ => True) (versionBy img.readWrapped img.resourceRVA) img.exact := by
  rw [exact, versionBy, versionBy]
  by_cases hzero : img.resourceRVA = 0
  · rw [if_pos hzero, if_pos hzero]
    trivial
  rw [if_neg hzero, if_neg hzero]
  have hplain : ¬ img.Wraps img.resourceRVA 16 := fun hwraps => absurd hwraps.1 (by omega)
  have hbehind : img.resourceRVA < 2 ^ 32 → img.Covers img.resourceRVA 16 →
      ¬ img.Wraps (img.resourceRVA + 16) 8 := fun _ hhead hwraps =>
    h ⟨hzero, hhead, .inl hwraps⟩
  refine (agrees_directory hplain hbehind).bind fun types hroot => ?_
  refine (agrees_subdirectory h hzero hroot hroot.offsets _).bind fun names hnames => ?_
  refine (agrees_subdirectory h hzero hroot hnames _).bind fun languages hlanguages => ?_
  refine (agrees_leaf h hzero hroot hlanguages).bind fun data _ => ?_
  refine (agrees_lift fun _ _ => trivial).bind fun found _ => ?_
  cases found with
  | none => trivial
  | some version => exact ⟨rfl, trivial⟩

/-! ## With a place for a wrapped address -/

def oneEntryHead : Bytes := List.replicate 14 0 ++ [1, 0]

def versionEntry (offset : ℕ) : Bytes := le32 resourceTypeVersion ++ le32 (2 ^ 31 + offset)

theorem entriesFrom_versionEntry {offset : ℕ} (h : offset < 2 ^ 31) :
    entriesFrom (versionEntry offset) 0 1 = .ok [⟨false, resourceTypeVersion, offset, true⟩] := by
  have hname : u32At (versionEntry offset) (0 * 8) = .ok resourceTypeVersion :=
    @u32At_le32 [] (le32 (2 ^ 31 + offset)) 0 resourceTypeVersion rfl (by decide)
  have hoffset : u32At (versionEntry offset) (0 * 8 + 4) = .ok (2 ^ 31 + offset) :=
    @u32At_le32 (le32 resourceTypeVersion) [] 4 (2 ^ 31 + offset) rfl (by omega)
  rw [entriesFrom, entryAt, hname, hoffset]
  simpa [Except.bind, Except.map, entriesFrom, resourceTypeVersion] using h

theorem directoryBy_of_read {read : ℕ → ℕ → Reader Bytes} {a : ℕ} {off : ℤ}
    (h : read a 16 = readAt off 16) : ∃ next, directoryBy read a = .read off 16 next ∧
      next oneEntryHead = (read (a + 16) 8).bind fun raw => lift (entriesFrom raw 0 1) := by
  rw [directoryBy, h]
  exact ⟨_, rfl, rfl⟩

theorem not_agrees_directory {Q : ImageVersion → Prop} {a : ℕ}
    {f g : List ResourceEntry → Reader ImageVersion}
    (h : img.Wraps a 16 ∨ a < 2 ^ 32 ∧ img.Covers a 16 ∧ img.Wraps (a + 16) 8) :
    ¬ Agrees Q ((directoryBy img.readWrapped a).bind f)
      ((directoryBy img.readExact a).bind g) := by
  rcases h with hwraps | ⟨hlow, hcovers, hwraps⟩
  · obtain ⟨⟨off, hwrapped⟩, hexact⟩ := reads_of_wraps hwraps
    rw [directoryBy, directoryBy, hwrapped, hexact]
    exact fun h => h
  · obtain ⟨off, hwrapped, hexact⟩ := reads_of_covers hlow hcovers
    obtain ⟨next, hdir, hnext⟩ := directoryBy_of_read hwrapped
    obtain ⟨next', hdir', hnext'⟩ := directoryBy_of_read hexact
    rw [hdir, hdir']
    intro hagrees
    have hentry : Agrees Q ((next oneEntryHead).bind f) ((next' oneEntryHead).bind g) :=
      hagrees.2.2 oneEntryHead rfl
    obtain ⟨⟨off', hread⟩, hfail⟩ := reads_of_wraps hwraps
    rw [hnext, hnext', hread, hfail] at hentry
    exact hentry

theorem not_agrees_version (h : img.WalkWraps) (hfits : img.resourceRVA < 2 ^ 32) :
    ¬ Agrees (fun _ => True) (versionBy img.readWrapped img.resourceRVA) img.exact := by
  obtain ⟨hzero, hhead, hcase⟩ := h
  rw [exact, versionBy, versionBy, if_neg hzero, if_neg hzero]
  rcases hcase with hwraps | ⟨hfits', hfirst, offset, hoffset, hcase⟩
  · exact not_agrees_directory (.inr ⟨hfits, hhead, hwraps⟩)
  · obtain ⟨off, hwrapped, hexact⟩ := reads_of_covers hfits hhead
    obtain ⟨next, hdir, hnext⟩ := directoryBy_of_read hwrapped
    obtain ⟨next', hdir', hnext'⟩ := directoryBy_of_read hexact
    obtain ⟨off', hread, hread'⟩ := reads_of_covers hfits' hfirst
    rw [hdir, hdir']
    intro hagrees
    have hentry : Agrees _ ((next oneEntryHead).bind _) ((next' oneEntryHead).bind _) :=
      hagrees.2.2 oneEntryHead rfl
    rw [hnext, hnext', hread, hread'] at hentry
    have hbelow := hentry.2.2 (versionEntry offset) rfl
    simp only [Reads.bind, entriesFrom_versionEntry hoffset] at hbelow
    exact not_agrees_directory hcase hbelow

/-- For every content of the image the walk makes the reads of the one that refuses addresses beyond
32 bits, and ends alike, exactly if the section table has no place for a wrapped address. -/
theorem version_exact_iff {img : ImageLayout} (hfits : img.resourceRVA < 2 ^ 32) :
    (∀ file : ReaderAt VersionError, Alike (play file img.version []) (play file img.exact [])) ↔
      ¬ img.WalkWraps := by
  rw [version_eq hfits, ← agrees_iff_alike]
  constructor
  · exact fun hagrees hwraps => not_agrees_version hwraps hfits hagrees
  · exact fun hno => agrees_version hno hfits

def plainLayout : ImageLayout := ⟨[⟨0x1000, 0x200, 0x200, 0x400⟩], 0x1000⟩

theorem version_exact_iff_plainLayout : plainLayout.resourceRVA < 2 ^ 32 ∧
      ((∀ file : ReaderAt VersionError,
        Alike (play file plainLayout.version []) (play file plainLayout.exact [])) ↔
          ¬ plainLayout.WalkWraps) :=
  ⟨by decide, version_exact_iff (by decide)⟩

/-- The parts of an image whose resource section begins 16 bytes below `2 ^ 32`, with a second
section at address zero. -/
def wrappingPart (off : ℤ) : Bytes :=
  if off = 0 then [77, 90] ++ List.replicate 58 0 ++ le32 64
  else if off = 64 then [80, 69, 0, 0, 0, 0, 2, 0] ++ List.replicate 12 0 ++ [120, 0]
  else if off = 88 then
    [0x0b, 0x01] ++ List.replicate 90 0 ++ le32 3 ++ List.replicate 16 0 ++ le32 0xfffffff0
  else if off = 208 then
    List.replicate 8 0 ++ le32 0x1000 ++ le32 0xfffffff0 ++ le32 0x1000 ++ le32 0x1000 ++
      List.replicate 24 0 ++ le32 0x1000 ++ le32 0 ++ le32 0x1000 ++ le32 0x2000
  else if off = 0x1000 then oneEntryHead
  else if off = 0x2000 then versionEntry 0
  else []

theorem length_filled (bytes : Bytes) (n : ℕ) :
    ((bytes ++ List.replicate n 0).take n).length = n := by
  rw [List.length_take, List.length_append, List.length_replicate]
  omega

def wrappingImage : ReaderAt VersionError := fun _ off n =>
  .ok ⟨(wrappingPart off ++ List.replicate n 0).take n, length_filled (wrappingPart off) n⟩

/-- The entries of the root directory are at `2 ^ 32`; the walk reads them at address zero. -/
theorem wrapped_entries_read : (play wrappingImage readVersionResource []).1 =
        [(0, 64), (64, 24), (88, 120), (208, 80), (0x1000, 16), (0x2000, 8), (0x1000, 16),
          (0x2000, 8), (0x1000, 16), (0x2000, 8)] ∧
      (play wrappingImage (readImageLayout.bind ImageLayout.exact) []).1 =
        [(0, 64), (64, 24), (88, 120), (208, 80), (0x1000, 16)] := by
  decide +kernel

end Windows.Version
