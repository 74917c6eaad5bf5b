import ElfFormat.Proofs.FirstMatch
import ElfFormat.Proofs.Machine.Decoder
import ElfFormat.Proofs.Tables

/-!
# Looking up by address

A segment occupies the addresses from its start on, as many as its size in memory says. They are
counted without end (`ProgramHeader.Occupies`), while the test is made in words; it compares the
distance from the start, so a segment that reaches past the last word still occupies what lies in
front of that and nothing at the bottom (`ProgramHeader.containsAddress_iff`).

An address finds the first loaded segment that occupies it (`SegmentTable.byAddress_eq_some_iff`).
Only the program headers of loaded segments and their positions take part in that, so neither what
other segments occupy nor what any segment carries can change the answer
(`SegmentTable.place_byAddress_congr`).
-/

namespace ElfFormat

/-- The segment occupies the address in memory. The end of a segment need not be an address. -/
def ProgramHeader.Occupies (h : ProgramHeader) (address : Nat) : Prop :=
  h.virtualAddress.toNat ≤ address ∧ address < h.virtualAddress.toNat + h.memorySize.toNat

instance (h : ProgramHeader) (address : Nat) : Decidable (h.Occupies address) :=
  inferInstanceAs (Decidable (_ ∧ _))

namespace ProgramHeader

/-- The difference of words is the difference of the numbers where the address is not below. -/
theorem containsAddress_iff (h : ProgramHeader) (address : UInt64) :
    h.containsAddress address = true ↔ h.Occupies address.toNat := by
  unfold containsAddress Occupies
  rw [Bool.and_eq_true, decide_eq_true_eq, decide_eq_true_eq, UInt64.lt_iff_toNat_lt]
  -- In front of the start the difference would wrap around, but then the first test has failed.
  by_cases hle : h.virtualAddress ≤ address
  · have hle' := UInt64.le_iff_toNat_le.1 hle
    rw [UInt64.toNat_sub_of_le _ _ hle]
    simp only [hle, hle', true_and]
    omega
  · have hlt := mt UInt64.le_iff_toNat_le.2 hle
    simp only [hle, hlt, false_and]

theorem isLoad_iff (h : ProgramHeader) : h.isLoad = true ↔ h.type = SegmentType.load :=
  beq_iff_eq

end ProgramHeader

/-- The segment is brought into memory, and occupies the address there. -/
def Segment.LoadedAt (s : Segment) (address : UInt64) : Prop :=
  s.header.type = SegmentType.load ∧ s.header.Occupies address.toNat

instance (s : Segment) (address : UInt64) : Decidable (s.LoadedAt address) :=
  inferInstanceAs (Decidable (_ ∧ _))

namespace SegmentTable

/-- The segment stands in front of all others that are loaded at the address. -/
def FirstLoadedAt (t : SegmentTable) (address : UInt64) (s : Segment) : Prop :=
  IsFirst t.segments.toList (·.LoadedAt address) s.index s

/-- The program header at a position, if it is that of a loaded segment. -/
def loadAt? (t : SegmentTable) (i : Nat) : Option ProgramHeader :=
  (t.segments[i]?.map (·.header)).filter (·.isLoad)

/-- The loaded segments have the same headers at the same positions. -/
def SameLoads (t u : SegmentTable) : Prop :=
  ∀ i, t.loadAt? i = u.loadAt? i

variable {t u : SegmentTable} {image image' : Image} {header header' : FileHeader}
  {address : UInt64}

theorem index_of_parse (h : parse image header = .ok t) {i : Nat} {s : Segment}
    (hs : t.segments.toList[i]? = some s) : s.index = i := by
  rw [parse_eq] at h
  obtain ⟨-, rfl⟩ := Guard.protect_eq_ok_iff.1 h
  rw [Array.getElem?_toList] at hs
  obtain ⟨hi, rfl⟩ := Array.getElem?_eq_some_iff.1 hs
  rw [FileHeader.getElem_segmentTable]
  rfl

theorem loadedAt_iff {s : Segment} :
    (s.header.isLoad && s.header.containsAddress address) = true ↔ s.LoadedAt address := by
  rw [Bool.and_eq_true, ProgramHeader.isLoad_iff, ProgramHeader.containsAddress_iff]
  rfl

theorem byAddress_eq_some_iff (h : parse image header = .ok t) {s : Segment} :
    t.byAddress address = some s ↔ t.FirstLoadedAt address s := by
  have hfind : t.byAddress address = some s ↔
      ∃ i, IsFirst t.segments.toList (·.LoadedAt address) i s :=
    find?_eq_some_iff_isFirst fun _ _ => loadedAt_iff
  rw [hfind]
  constructor
  · rintro ⟨i, hfirst⟩
    obtain rfl := index_of_parse h hfirst.get_eq
    exact hfirst
  · exact fun hfirst => ⟨_, hfirst⟩

theorem byAddress_eq_none_iff (t : SegmentTable) (address : UInt64) :
    t.byAddress address = none ↔ ∀ s ∈ t.segments, ¬s.LoadedAt address := by
  simp only [← Array.mem_toList_iff]
  exact find?_eq_none_iff_forall fun _ _ => loadedAt_iff

theorem loadAt?_eq_some_iff {i : Nat} {k : ProgramHeader} :
    t.loadAt? i = some k ↔
      ∃ s, t.segments.toList[i]? = some s ∧ s.header = k ∧ k.type = SegmentType.load := by
  rw [Array.getElem?_toList, loadAt?, Option.filter_eq_some_iff, Option.map_eq_some_iff,
    ProgramHeader.isLoad_iff]
  constructor
  · rintro ⟨⟨s, hs, rfl⟩, hload⟩
    exact ⟨s, hs, rfl, hload⟩
  · rintro ⟨s, hs, rfl, hload⟩
    exact ⟨⟨s, hs, rfl⟩, hload⟩

/-- Where the answer stands, and with which header, is settled by the headers of loaded segments. -/
theorem place_byAddress_eq_some_iff (h : parse image header = .ok t) {i : Nat}
    {k : ProgramHeader} :
    (t.byAddress address).map (fun s => (s.index, s.header)) = some (i, k) ↔
      t.loadAt? i = some k ∧ k.Occupies address.toNat ∧
        ∀ j < i, ∀ k', t.loadAt? j = some k' → ¬k'.Occupies address.toNat := by
  simp only [Option.map_eq_some_iff, byAddress_eq_some_iff h, loadAt?_eq_some_iff, Prod.mk.injEq]
  constructor
  · rintro ⟨s, ⟨hget, ⟨hload, hin⟩, hbefore⟩, rfl, rfl⟩
    refine ⟨⟨s, hget, rfl, hload⟩, hin, ?_⟩
    rintro j hj _ ⟨s', hs', rfl, hload'⟩ hin'
    exact hbefore j hj s' hs' ⟨hload', hin'⟩
  · rintro ⟨⟨s, hget, rfl, hload⟩, hin, hbefore⟩
    obtain rfl := index_of_parse h hget
    refine ⟨s, ⟨hget, ⟨hload, hin⟩, ?_⟩, rfl, rfl⟩
    rintro j hj s' hs' ⟨hload', hin'⟩
    exact hbefore j hj _ ⟨s', hs', rfl, hload'⟩ hin'

/-- Which segment is found depends on the loaded ones alone. -/
theorem place_byAddress_congr (ht : parse image header = .ok t)
    (hu : parse image' header' = .ok u) (hs : t.SameLoads u) :
    (t.byAddress address).map (fun s => (s.index, s.header)) =
      (u.byAddress address).map (fun s => (s.index, s.header)) := by
  refine Option.ext fun ⟨i, k⟩ => ?_
  rw [place_byAddress_eq_some_iff ht, place_byAddress_eq_some_iff hu]
  simp only [hs _]

end SegmentTable

/-- A segment contains the addresses that it occupies, counted exactly, and no subtraction goes
below zero for that. In a table that decodes, an address finds the first loaded segment that
occupies it and fails only if there is none; two tables with the same headers of loaded segments at
the same positions answer alike, whatever their other segments are and whatever is decoded. -/
theorem addresses_find_loaded_segments :
    (∀ (h : ProgramHeader) (address : UInt64),
      (h.containsAddress address = true ↔ h.Occupies address.toNat) ∧
        Machine.Exact Eq (Machine.containsAddress h address) (.ok (h.containsAddress address))) ∧
    ∀ image header t, SegmentTable.parse image header = .ok t → ∀ address,
      (∀ s, t.byAddress address = some s ↔ t.FirstLoadedAt address s) ∧
      (t.byAddress address = none ↔ ∀ s ∈ t.segments, ¬s.LoadedAt address) ∧
      ∀ image' header' u, SegmentTable.parse image' header' = .ok u → t.SameLoads u →
        (t.byAddress address).map (fun s => (s.index, s.header)) =
          (u.byAddress address).map (fun s => (s.index, s.header)) := by
  refine ⟨fun h address => ⟨h.containsAddress_iff address, ?_⟩, fun image header t ht address =>
    ⟨fun s => SegmentTable.byAddress_eq_some_iff ht, SegmentTable.byAddress_eq_none_iff t address,
      fun image' header' u hu hs => SegmentTable.place_byAddress_congr ht hu hs⟩⟩
  exact Machine.containsAddress_exact h address

/-- A segment that occupies all of the memory, and two that are loaded at the end of it, of which
the first one reaches past the last address and carries the four bytes behind the table. -/
def topmost (type : UInt32) (behind : List UInt8) : Image :=
  let load : ProgramHeader :=
    { type := 1, flags := 0, offset := 169, virtualAddress := 0xfffffffffffffff0
      physicalAddress := 0, fileSize := 4, memorySize := 32, alignment := 0 }
  let whole : ProgramHeader :=
    { load with type, virtualAddress := 0, memorySize := 0xffffffffffffffff }
  let last : ProgramHeader := { load with virtualAddress := 0xfffffffffffffff8, memorySize := 8 }
  let bytes := [0] ++ whole.encode .little .elf64 ++ load.encode .little .elf64 ++
    last.encode .little .elf64 ++ behind
  { bytes := ⟨bytes.toArray⟩ }

/-- The header that describes the three records of `topmost`. -/
def topmostHeader : FileHeader where
  ident := { elfClass := .elf64, encoding := .lsb, version := 1, osAbi := 0, abiVersion := 0 }
  type := 2
  machine := 62
  version := 1
  entry := 0
  programOffset := 1
  sectionOffset := 0
  flags := 0
  headerSize := 64
  programEntrySize := 56
  programCount := 3
  sectionEntrySize := 0
  sectionCount := 0
  nameIndex := 0

/-- In the first file the loaded segments have no bytes, and in the second they have. In both of
them an address at the top finds the segment that reaches past it, and one at the bottom finds none,
though the segment that is not loaded occupies either. -/
theorem addresses_find_loaded_segments_topmost :
    ∃ t u, SegmentTable.parse (topmost 4 []) topmostHeader = .ok t ∧
      SegmentTable.parse (topmost 6 [1, 2, 3, 4]) topmostHeader = .ok u ∧
      (t.byAddress 0xfffffffffffffff8).map (·.contents) = some (.error (.outOfBounds 169 4 169)) ∧
      (u.byAddress 0xfffffffffffffff8).map (·.index) = some 1 ∧
      t.byAddress 4 = none ∧ u.byAddress 4 = none := by
  have ht := (SegmentTable.parse_eq topmostHeader (topmost 4 [])).trans
    (Guard.protect_eq_ok_iff.2 ⟨by decide +kernel, rfl⟩)
  have hu := (SegmentTable.parse_eq topmostHeader (topmost 6 [1, 2, 3, 4])).trans
    (Guard.protect_eq_ok_iff.2 ⟨by decide +kernel, rfl⟩)
  have htlist : (topmostHeader.segmentTable (topmost 4 [])).segments.toList =
      (List.range 3).map (topmostHeader.segmentAt (topmost 4 [])) := by rfl
  have hulist : (topmostHeader.segmentTable (topmost 6 [1, 2, 3, 4])).segments.toList =
      (List.range 3).map (topmostHeader.segmentAt (topmost 6 [1, 2, 3, 4])) := by rfl
  obtain ⟨-, hlookup⟩ := addresses_find_loaded_segments
  obtain ⟨hsome, -, hsame⟩ := hlookup _ _ _ ht 0xfffffffffffffff8
  obtain ⟨-, hnone, hsame'⟩ := hlookup _ _ _ ht 4
  -- Two records are the same bytes in both files, and the one in front of them is not loaded.
  have hrecord : ∀ i ∈ [1, 2], topmostHeader.programRecord (topmost 4 []).full i =
      topmostHeader.programRecord (topmost 6 [1, 2, 3, 4]).full i := by
    intro i hi
    refine View.ext_toList rfl ?_ rfl
    unfold FileHeader.programRecord
    rw [View.toList_window, View.toList_window, Image.toList_full, Image.toList_full]
    revert i
    decide +kernel
  have hheader : ∀ i ∈ [1, 2], topmostHeader.programHeaderAt (topmost 4 []).full i =
      topmostHeader.programHeaderAt (topmost 6 [1, 2, 3, 4]).full i :=
    fun i hi => congrArg (ProgramHeader.ofView · .elf64) (hrecord i hi)
  have hloads : (topmostHeader.segmentTable (topmost 4 [])).SameLoads
      (topmostHeader.segmentTable (topmost 6 [1, 2, 3, 4])) := by
    intro i
    unfold SegmentTable.loadAt?
    rw [← Array.getElem?_toList, ← Array.getElem?_toList, htlist, hulist]
    have hkept : ∀ i ∈ [1, 2], Option.filter (·.isLoad)
        (some (topmostHeader.programHeaderAt (topmost 4 []).full i)) = Option.filter (·.isLoad)
          (some (topmostHeader.programHeaderAt (topmost 6 [1, 2, 3, 4]).full i)) :=
      fun i hi => congrArg _ (congrArg some (hheader i hi))
    rcases i with _ | _ | _ | i
    · decide +kernel
    · exact hkept 1 (by decide)
    · exact hkept 2 (by decide)
    · rw [List.getElem?_eq_none (by simp), List.getElem?_eq_none (by simp)]
  have hfound := (hsome (topmostHeader.segmentAt (topmost 4 []) 1)).2
    ⟨by rw [htlist]; rfl, by decide +kernel, ?_⟩
  have hlow : (topmostHeader.segmentTable (topmost 4 [])).byAddress 4 = none := by
    refine hnone.2 ?_
    simp only [← Array.mem_toList_iff]
    rw [htlist]
    decide +kernel
  · refine ⟨_, _, ht, hu, ?_, ?_, hlow, ?_⟩
    · rw [hfound]
      decide +kernel
    · have hplace := congrArg (Option.map Prod.fst) (hsame _ _ _ hu hloads)
      rw [Option.map_map, Option.map_map, hfound] at hplace
      exact hplace.symm
    · have hplace := hsame' _ _ _ hu hloads
      rw [hlow, Option.map_none, eq_comm, Option.map_eq_none_iff] at hplace
      exact hplace
  · intro j hj s hs
    rw [htlist] at hs
    obtain rfl : j = 0 := Nat.lt_one_iff.1 hj
    obtain rfl := Option.some.inj hs
    decide +kernel

end ElfFormat
