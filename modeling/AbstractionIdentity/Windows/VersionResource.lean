import AbstractionIdentity.Stream.Reads
import AbstractionIdentity.Windows.VersionInfo

/-!
# Finding the version resource of an image

`readVersionResource` takes all offsets, counts and sizes from the image, whose reader may answer
each read as it likes. Addresses of the image are 32-bit numbers whose sums wrap around; offsets in
the file are sums that 64 bits hold.
-/

namespace Windows.Version

open Text Stream Stream.Reads Holds

/-! ## The reader -/

def maxHeaderOffset : ℕ := 2 ^ 20
def maxSections : ℕ := 96
def maxResourceEntries : ℕ := 4096
def maxVersionResource : ℕ := 0xffff
def maxOptionalHeader : ℕ := 0x1000
def resourceTypeVersion : ℕ := 16
def resourceDirectory : ℕ := 2

inductive VersionError where
  | notImage
  | header
  | optionalHeader
  | notInFile (rva : ℕ)
  | noVersion
  | read (text : Bytes)
  deriving DecidableEq

abbrev Reader (α : Type) : Type := Reads VersionError Fault α

structure ImageSection where
  virtualAddress : ℕ
  virtualSize : ℕ
  rawSize : ℕ
  rawOffset : ℕ

/-- What `readImageLayout` finds: the sections, and the address of the resources or 0. -/
structure ImageLayout where
  sections : List ImageSection
  resourceRVA : ℕ

def readAt (off : ℤ) (n : ℕ) : Reader Bytes := .read off n .done

/-- Where the count and the data directories are in an optional header, by its magic. -/
def directoriesOf (magic : ℕ) : Option (ℕ × ℕ) :=
  if magic = 0x10b then some (92, 96) else if magic = 0x20b then some (108, 112) else none

/-- The address of the resources; 0 where the header has no such directory. -/
def resourceAddress (optional : Bytes) (optionalSize countAt directoriesAt : ℕ) :
    Except Fault ℕ :=
  let entry := directoriesAt + resourceDirectory * 8
  if countAt + 4 ≤ optionalSize then
    (u32At optional countAt).bind fun count =>
      if resourceDirectory < count ∧ entry + 8 ≤ optionalSize then u32At optional entry else .ok 0
  else .ok 0

def sectionAt (table : Bytes) (i : ℕ) : Except Fault ImageSection :=
  (u32At table (i * 40 + 8)).bind fun virtualSize =>
  (u32At table (i * 40 + 12)).bind fun virtualAddress =>
  (u32At table (i * 40 + 16)).bind fun rawSize =>
  (u32At table (i * 40 + 20)).map fun rawOffset =>
    ⟨virtualAddress, virtualSize, rawSize, rawOffset⟩

def sectionsFrom (table : Bytes) : ℕ → ℕ → Except Fault (List ImageSection)
  | _, 0 => .ok []
  | i, count + 1 =>
    (sectionAt table i).bind fun s => (sectionsFrom table (i + 1) count).map (s :: ·)

def readSections (peOffset sectionCount optionalSize : ℕ) (optional : Bytes) : Reader ImageLayout :=
  (lift (u16At optional 0)).bind fun magic =>
    match directoriesOf magic with
    | none => .fail .optionalHeader
    | some at' =>
      (lift (resourceAddress optional optionalSize at'.1 at'.2)).bind fun rva =>
      (readAt (peOffset + 24 + optionalSize) (sectionCount * 40)).bind fun table =>
      (lift (sectionsFrom table 0 sectionCount)).bind fun sections => .done ⟨sections, rva⟩

/-- `readImageLayout` after the file header `head`. -/
def readOptionalHeader (peOffset : ℕ) (head : Bytes) : Reader ImageLayout :=
  (lift (slice head 0 4)).bind fun magic =>
    if magic ≠ [80, 69, 0, 0] then .fail .notImage
    else
      (lift (u16At head 6)).bind fun sectionCount =>
      (lift (u16At head 20)).bind fun optionalSize =>
        if maxSections < sectionCount ∨ maxOptionalHeader < optionalSize ∨ optionalSize < 2 then
          .fail .header
        else
          (readAt (peOffset + 24) optionalSize).bind fun optional =>
            readSections peOffset sectionCount optionalSize optional

def readImageLayout : Reader ImageLayout :=
  (readAt 0 64).bind fun dos =>
  (lift (u8At dos 0)).bind fun m =>
  (lift (u8At dos 1)).bind fun z =>
    if m ≠ 77 ∨ z ≠ 90 then .fail .notImage
    else
      (lift (u32At dos 0x3c)).bind fun peOffset =>
        if maxHeaderOffset < peOffset then .fail .notImage
        else (readAt peOffset 24).bind fun head => readOptionalHeader peOffset head

namespace ImageLayout

/-- The bytes at an address, from the first section that holds them all. -/
def read (img : ImageLayout) (rva n : ℕ) : Reader Bytes :=
  match img.sections.find? fun s =>
      s.virtualAddress ≤ rva && rva + n ≤ s.virtualAddress + s.rawSize with
  | some s => readAt (s.rawOffset + (rva - s.virtualAddress : ℕ)) n
  | none => .fail (.notInFile rva)

end ImageLayout

/-- An entry of a resource directory. The top bits of its two words say whether it has a name and
whether it leads to a directory. -/
structure ResourceEntry where
  named : Bool
  id : ℕ
  offset : ℕ
  subdir : Bool

def entryAt (raw : Bytes) (i : ℕ) : Except Fault ResourceEntry :=
  (u32At raw (i * 8)).bind fun name =>
  (u32At raw (i * 8 + 4)).map fun offset =>
    ⟨2 ^ 31 ≤ name, name % 2 ^ 31, offset % 2 ^ 31, 2 ^ 31 ≤ offset⟩

def entriesFrom (raw : Bytes) : ℕ → ℕ → Except Fault (List ResourceEntry)
  | _, 0 => .ok []
  | i, count + 1 =>
    (entryAt raw i).bind fun e => (entriesFrom raw (i + 1) count).map (e :: ·)

namespace ImageLayout

def directory (img : ImageLayout) (rva : ℕ) : Reader (List ResourceEntry) :=
  (img.read rva 16).bind fun head =>
  (lift (u16At head 12)).bind fun named =>
  (lift (u16At head 14)).bind fun ids =>
    if named + ids = 0 ∨ maxResourceEntries < named + ids then .fail .noVersion
    else
      (img.read ((rva + 16) % 2 ^ 32) ((named + ids) * 8)).bind fun raw =>
        lift (entriesFrom raw 0 (named + ids))

def subdirectory (img : ImageLayout) (entries : List ResourceEntry)
    (wanted : ResourceEntry → Bool) : Reader (List ResourceEntry) :=
  match entries.find? fun e => e.subdir && wanted e with
  | some e => img.directory ((img.resourceRVA + e.offset) % 2 ^ 32)
  | none => .fail .noVersion

/-- The entry that `leaf` chooses: the last that is neutral, otherwise the first. -/
def choose (chosen : Option ResourceEntry) (e : ResourceEntry) : Option ResourceEntry :=
  if e.subdir then chosen
  else if chosen.isNone || (!e.named && e.id = 0) then some e
  else chosen

def leaf (img : ImageLayout) (languages : List ResourceEntry) : Reader Bytes :=
  match languages.foldl choose none with
  | none => .fail .noVersion
  | some e =>
    (img.read ((img.resourceRVA + e.offset) % 2 ^ 32) 16).bind fun entry =>
    (lift (u32At entry 4)).bind fun size =>
      if size < 6 ∨ maxVersionResource < size then .fail .noVersion
      else (lift (u32At entry 0)).bind fun rva => img.read rva size

/-- `readVersionResource` after the section table. -/
def version (img : ImageLayout) : Reader ImageVersion :=
  if img.resourceRVA = 0 then .fail .noVersion
  else
    (img.directory img.resourceRVA).bind fun types =>
    (img.subdirectory types fun e => !e.named && e.id = resourceTypeVersion).bind fun names =>
    (img.subdirectory names fun _ => true).bind fun languages =>
    (img.leaf languages).bind fun data =>
    (lift (parseVersionInfo data)).bind fun
      | none => .fail .noVersion
      | some version => .done version

end ImageLayout

def readVersionResource : Reader ImageVersion := readImageLayout.bind ImageLayout.version

/-! ## Every read of every run -/

/-- A read at an offset of the file, of at most 0xffff bytes. -/
def Small (off : ℤ) (n : ℕ) : Prop := 0 ≤ off ∧ n ≤ 0xffff

/-- Such a read within the file bytes of one section. -/
def InSection (img : ImageLayout) (off : ℤ) (n : ℕ) : Prop :=
  Small off n ∧ ∃ s ∈ img.sections, (s.rawOffset : ℤ) ≤ off ∧ off + n ≤ s.rawOffset + s.rawSize

section Safe

variable {P : ℤ → ℕ → Prop}

theorem holds_readAt {off : ℤ} {n : ℕ} (h : P off n) :
    Holds P (fun buf => buf.length = n) (readAt off n) :=
  ⟨h, fun _ hlen => hlen⟩

theorem resourceAddress_ok {optional : Bytes} {countAt directoriesAt : ℕ} :
    ∃ rva, resourceAddress optional optional.length countAt directoriesAt = .ok rva := by
  rw [resourceAddress]
  split_ifs with hcount
  · obtain ⟨count, hu, -⟩ := @u32At_ok optional countAt hcount
    rw [hu, Except.bind]
    split_ifs with hentry
    · obtain ⟨rva, hrva, -⟩ := @u32At_ok optional (directoriesAt + resourceDirectory * 8) (by omega)
      exact ⟨rva, hrva⟩
    · exact ⟨0, rfl⟩
  · exact ⟨0, rfl⟩

theorem sectionAt_ok {table : Bytes} {i : ℕ} (h : i * 40 + 40 ≤ table.length) :
    ∃ s, sectionAt table i = .ok s := by
  obtain ⟨a, ha, -⟩ := @u32At_ok table (i * 40 + 8) (by omega)
  obtain ⟨b, hb, -⟩ := @u32At_ok table (i * 40 + 12) (by omega)
  obtain ⟨c, hc, -⟩ := @u32At_ok table (i * 40 + 16) (by omega)
  obtain ⟨d, hd, -⟩ := @u32At_ok table (i * 40 + 20) (by omega)
  rw [sectionAt, ha, Except.bind, hb, Except.bind, hc, Except.bind, hd]
  exact ⟨_, rfl⟩

theorem sectionsFrom_ok {table : Bytes} {i count : ℕ} (h : (i + count) * 40 ≤ table.length) :
    ∃ sections, sectionsFrom table i count = .ok sections := by
  induction count generalizing i with
  | zero => exact ⟨[], rfl⟩
  | succ count ih =>
    obtain ⟨s, hs⟩ := @sectionAt_ok table i (by omega)
    obtain ⟨rest, hrest⟩ := @ih (i + 1) (by omega)
    rw [sectionsFrom, hs, Except.bind, hrest]
    exact ⟨_, rfl⟩

theorem entryAt_ok {raw : Bytes} {i : ℕ} (h : i * 8 + 8 ≤ raw.length) :
    ∃ e, entryAt raw i = .ok e := by
  obtain ⟨a, ha, -⟩ := @u32At_ok raw (i * 8) (by omega)
  obtain ⟨b, hb, -⟩ := @u32At_ok raw (i * 8 + 4) (by omega)
  rw [entryAt, ha, Except.bind, hb]
  exact ⟨_, rfl⟩

theorem entriesFrom_ok {raw : Bytes} {i count : ℕ} (h : (i + count) * 8 ≤ raw.length) :
    ∃ entries, entriesFrom raw i count = .ok entries := by
  induction count generalizing i with
  | zero => exact ⟨[], rfl⟩
  | succ count ih =>
    obtain ⟨e, he⟩ := @entryAt_ok raw i (by omega)
    obtain ⟨rest, hrest⟩ := @ih (i + 1) (by omega)
    rw [entriesFrom, he, Except.bind, hrest]
    exact ⟨_, rfl⟩

/-- The table is as long as `sectionCount` says, so no section is read out of range. -/
theorem holds_readSections {peOffset sectionCount optionalSize : ℕ} {optional : Bytes}
    (hcount : sectionCount ≤ maxSections) (hsize : 2 ≤ optionalSize)
    (hlen : optional.length = optionalSize) :
    Holds Small (fun _ => True) (readSections peOffset sectionCount optionalSize optional) := by
  obtain ⟨magic, hmagic, -⟩ := @u16At_ok optional 0 (by omega)
  refine bind_lift hmagic ?_
  split
  · trivial
  next at' _ =>
    obtain ⟨rva, hrva⟩ := @resourceAddress_ok optional at'.1 at'.2
    rw [hlen] at hrva
    refine bind_lift hrva ?_
    have hsmall : Small (peOffset + 24 + optionalSize) (sectionCount * 40) := by
      rw [maxSections] at hcount
      exact ⟨by omega, by omega⟩
    refine bind (holds_readAt hsmall) fun table htable => ?_
    obtain ⟨sections, hsections⟩ := @sectionsFrom_ok table 0 sectionCount (by omega)
    exact bind_lift hsections trivial

theorem holds_readOptionalHeader {peOffset : ℕ} {head : Bytes} (hlen : head.length = 24) :
    Holds Small (fun _ => True) (readOptionalHeader peOffset head) := by
  have hslice : slice head 0 4 = .ok ((head.drop 0).take 4) := if_pos ⟨by omega, by omega⟩
  refine bind_lift hslice ?_
  split_ifs
  · trivial
  · obtain ⟨sectionCount, hcount, -⟩ := @u16At_ok head 6 (by omega)
    obtain ⟨optionalSize, hsize, -⟩ := @u16At_ok head 20 (by omega)
    refine bind_lift hcount ?_
    refine bind_lift hsize ?_
    split_ifs with hbad
    · trivial
    · rw [not_or, not_or, not_lt, not_lt, not_lt] at hbad
      have hsmall : Small (peOffset + 24) optionalSize := by
        rw [maxOptionalHeader] at hbad
        exact ⟨by omega, by omega⟩
      exact bind (holds_readAt hsmall) fun optional hoptional =>
        holds_readSections hbad.1 hbad.2.2 hoptional

theorem holds_readImageLayout : Holds Small (fun _ => True) readImageLayout := by
  have hfirst : Small 0 64 := ⟨le_rfl, by omega⟩
  refine bind (holds_readAt hfirst) fun dos hdos => ?_
  obtain ⟨m, hm⟩ := @u8At_ok dos 0 (by omega)
  obtain ⟨z, hz⟩ := @u8At_ok dos 1 (by omega)
  obtain ⟨peOffset, hoffset, -⟩ := @u32At_ok dos 0x3c (by omega)
  refine bind_lift hm ?_
  refine bind_lift hz ?_
  split_ifs
  · trivial
  · refine bind_lift hoffset ?_
    split_ifs
    · trivial
    · have hsmall : Small peOffset 24 := ⟨by omega, by omega⟩
      exact bind (holds_readAt hsmall) fun head hhead => holds_readOptionalHeader hhead

variable {img : ImageLayout}

/-- A read of an address stays in the section that was found for it. -/
theorem holds_read {rva n : ℕ} (hn : n ≤ 0xffff) :
    Holds (InSection img) (fun buf => buf.length = n) (img.read rva n) := by
  rw [ImageLayout.read]
  split
  next s hfind =>
    have hmem := List.mem_of_find?_eq_some hfind
    have hin := List.find?_some hfind
    rw [Bool.and_eq_true, decide_eq_true_iff, decide_eq_true_iff] at hin
    refine holds_readAt ⟨⟨by omega, hn⟩, s, hmem, by omega, ?_⟩
    omega
  · trivial

theorem holds_directory {rva : ℕ} : Holds (InSection img) (fun _ => True) (img.directory rva) := by
  refine bind (holds_read (by omega)) fun head hhead => ?_
  obtain ⟨named, hnamed, -⟩ := @u16At_ok head 12 (by omega)
  obtain ⟨ids, hids, -⟩ := @u16At_ok head 14 (by omega)
  refine bind_lift hnamed ?_
  refine bind_lift hids ?_
  split_ifs with hbad
  · trivial
  · rw [not_or, not_lt, maxResourceEntries] at hbad
    refine bind (holds_read (by omega)) fun raw hraw => ?_
    obtain ⟨entries, hentries⟩ := @entriesFrom_ok raw 0 (named + ids) (by omega)
    rw [hentries]
    trivial

theorem holds_subdirectory {entries : List ResourceEntry} {wanted : ResourceEntry → Bool} :
    Holds (InSection img) (fun _ => True) (img.subdirectory entries wanted) := by
  rw [ImageLayout.subdirectory]
  split
  · exact holds_directory
  · trivial

theorem holds_leaf {languages : List ResourceEntry} :
    Holds (InSection img) (fun _ => True) (img.leaf languages) := by
  rw [ImageLayout.leaf]
  split
  · trivial
  · refine bind (holds_read (by omega)) fun entry hentry => ?_
    obtain ⟨size, hsize, -⟩ := @u32At_ok entry 4 (by omega)
    obtain ⟨rva, hrva, -⟩ := @u32At_ok entry 0 (by omega)
    refine bind_lift hsize ?_
    split_ifs with hbad
    · trivial
    · rw [not_or, not_lt, not_lt, maxVersionResource] at hbad
      refine bind_lift hrva ?_
      exact (holds_read hbad.2).mono (fun _ _ h => h) fun _ _ => trivial

theorem holds_version : Holds (InSection img) (fun _ => True) img.version := by
  rw [ImageLayout.version]
  split_ifs
  · trivial
  · refine bind holds_directory fun types _ => ?_
    refine bind holds_subdirectory fun names _ => ?_
    refine bind holds_subdirectory fun languages _ => ?_
    refine bind holds_leaf fun data _ => ?_
    obtain ⟨r, hr⟩ := parseVersionInfo_ok data
    refine bind_lift hr ?_
    cases r with
    | none => trivial
    | some version => trivial

end Safe

/-- Against every file the program ends without a fault; each read is at an offset of the file and
of at most 0xffff bytes, those after the section table within the file bytes of one section; blocks
are visited at increasing offsets. -/
theorem readVersionResource_safe : (∀ file : ReaderAt VersionError, ∃ trace outcome,
      play file readVersionResource [] = (trace, outcome) ∧ Run readVersionResource trace outcome) ∧
    (∀ trace outcome, Run readVersionResource trace outcome →
      (∀ f, outcome ≠ .fault f) ∧ (∀ r ∈ trace, 0 ≤ r.1 ∧ r.2 ≤ 0xffff) ∧
        ((∃ err, outcome = .fail err ∧ Run readImageLayout trace (.fail err)) ∨
          ∃ img headers rest, trace = headers ++ rest ∧ Run readImageLayout headers (.done img) ∧
            ∀ r ∈ rest, ∃ s ∈ img.sections,
              (s.rawOffset : ℤ) ≤ r.1 ∧ r.1 + r.2 ≤ s.rawOffset + s.rawSize)) ∧
    ∀ (data : Bytes) (b : VersionBlock), b.stop ≤ data.length →
      ∃ visits, childLoop data b.stop (data.length + 1) b.children = .ok visits ∧
        (visits.map Prod.fst).Pairwise (· < ·) := by
  refine ⟨fun file => ?_, fun trace outcome hrun => ?_, fun data b hb => ?_⟩
  · exact ⟨_, _, rfl, run_play file readVersionResource []⟩
  · rcases hrun.of_bind with ⟨err, rfl, hlayout⟩ | ⟨f, rfl, hlayout⟩ |
      ⟨img, headers, rest, rfl, hlayout, hversion⟩
    · obtain ⟨hreads, -, -⟩ := holds_readImageLayout.of_run hlayout
      exact ⟨fun f hf => (by cases hf), hreads, .inl ⟨err, rfl, hlayout⟩⟩
    · exact absurd rfl ((holds_readImageLayout.of_run hlayout).2.1 f)
    · obtain ⟨hheaders, -, -⟩ := holds_readImageLayout.of_run hlayout
      obtain ⟨hrest, hfault, -⟩ := holds_version.of_run hversion
      refine ⟨hfault, fun r hr => ?_, .inr ⟨img, headers, rest, rfl, hlayout, ?_⟩⟩
      · rcases List.mem_append.1 hr with hr | hr
        · exact hheaders r hr
        · exact (hrest r hr).1
      · exact fun r hr => (hrest r hr).2
  · obtain ⟨visits, hvisits, hsorted, -⟩ :=
      @childLoop_ok data b.stop (data.length + 1) b.children hb (by omega) (by omega)
    exact ⟨visits, hvisits, hsorted⟩

end Windows.Version
