import ElfFormat.Proofs.Tables

/-!
# What decoded tables hold

A table that decodes has one element for each declared record, and each element is what stands in
the image at its place, in the order that the image has then (`tables_hold_records`). How many
there are may be kept in the first section header; both tables look it up in the same record
(`SectionHeader.initial`), which is the header of the first section if there is one.

Neither the image's order nor the header has to come from the image: any header may be tried on any
image, and its tables may overlap each other.
-/

namespace ElfFormat

/-- The fields of the header stand at position `i` of the section header table. -/
def SectionHeader.StandsAt (h : SectionHeader) (image : Image) (header : FileHeader) (i : Nat) :
    Prop :=
  ∃ record, image.view (header.sectionOffset.toNat + i * header.sectionEntrySize.toNat)
      header.elfClass.sectionHeaderSize = .ok record ∧ h = .ofView record header.elfClass

/-- The fields of the header stand at position `i` of the program header table. -/
def ProgramHeader.StandsAt (h : ProgramHeader) (image : Image) (header : FileHeader) (i : Nat) :
    Prop :=
  ∃ record, image.view (header.programOffset.toNat + i * header.programEntrySize.toNat)
      header.elfClass.programHeaderSize = .ok record ∧ h = .ofView record header.elfClass

/-- The table has the sections that a file with this first record declares. -/
structure SectionTable.Holds (t : SectionTable) (image : Image) (header : FileHeader)
    (first : SectionHeader) : Prop where
  front : first.StandsAt image header 0
  size : t.sections.size =
    if header.sectionCount = 0 then first.size.toNat else header.sectionCount.toNat
  nameIndex : t.nameIndex =
    if header.nameIndex = 0xffff then first.link.toNat else header.nameIndex.toNat
  extent : header.sectionOffset.toNat + t.sections.size * header.sectionEntrySize.toNat ≤
    image.length
  index : ∀ i (hi : i < t.sections.size), t.sections[i].index = i
  stands : ∀ i (hi : i < t.sections.size), t.sections[i].header.StandsAt image header i
  contents : ∀ i (hi : i < t.sections.size), t.sections[i].contents =
    t.sections[i].header.contents image header.elfClass
  header_zero : ∀ hi : 0 < t.sections.size, t.sections[0].header = first

/-- The table has this number of segments, in file order. -/
structure SegmentTable.Holds (t : SegmentTable) (image : Image) (header : FileHeader)
    (count : Nat) : Prop where
  size : t.segments.size = count
  index : ∀ i (hi : i < t.segments.size), t.segments[i].index = i
  stands : ∀ i (hi : i < t.segments.size), t.segments[i].header.StandsAt image header i
  contents : ∀ i (hi : i < t.segments.size), t.segments[i].contents =
    t.segments[i].header.contents image

variable {image : Image} {header : FileHeader}

theorem FileHeader.sectionHeaderAt_standsAt {i : Nat}
    (fits : header.sectionOffset.toNat + i * header.sectionEntrySize.toNat +
      header.elfClass.sectionHeaderSize ≤ image.length) :
    (header.sectionHeaderAt image.full i).StandsAt image header i := by
  refine ⟨_, ?_, rfl⟩
  rw [Image.view_eq, if_pos fits]
  rfl

theorem FileHeader.programHeaderAt_standsAt {i : Nat}
    (fits : header.programOffset.toNat + i * header.programEntrySize.toNat +
      header.elfClass.programHeaderSize ≤ image.length) :
    (header.programHeaderAt image.full i).StandsAt image header i := by
  refine ⟨_, ?_, rfl⟩
  rw [Image.view_eq, if_pos fits]
  rfl

/-- A first record that was read is the one that stands there. -/
theorem SectionHeader.initial_of_guards (h0 : header.sectionOffset ≠ 0)
    (hg : ∀ g ∈ header.firstRecordGuards image.full, g.holds = true) :
    initial image header = .ok (some (header.sectionHeaderAt image.full 0)) ∧
      (header.sectionHeaderAt image.full 0).StandsAt image header 0 := by
  have hi := initial_eq header image
  rw [Guard.protect_eq_ok_iff.2 ⟨hg, rfl⟩, if_neg h0] at hi
  refine ⟨hi, FileHeader.sectionHeaderAt_standsAt ?_⟩
  rw [Nat.zero_mul, Nat.add_zero]
  exact (FileHeader.firstRecordGuards_hold_iff.1 hg h0).2

/-- Where the checks hold, the table has a record for each section. -/
theorem FileHeader.sectionTable_holds (h0 : header.sectionOffset ≠ 0)
    (hg : ∀ g ∈ header.sectionGuards image.full, g.holds = true) :
    (header.sectionTable image).Holds image header (header.sectionHeaderAt image.full 0) := by
  obtain ⟨hfirst, hextent⟩ := List.forall_mem_append.1 hg
  obtain ⟨-, hstands⟩ := SectionHeader.initial_of_guards h0 hfirst
  replace hfirst := firstRecordGuards_hold_iff.1 hfirst h0
  simp only [List.forall_mem_cons, decide_eq_true_eq, h0, false_or, Image.length_full] at hextent
  have hsize : (header.sectionTable image).sections.size =
      header.sectionTotal (header.sectionHeaderAt image.full 0) := by
    simp [sectionTable, h0]
  have hget : ∀ i (hi : i < (header.sectionTable image).sections.size),
      (header.sectionTable image).sections[i] = header.sectionAt image i :=
    fun _ => getElem_sectionTable
  refine
    { front := hstands, size := hsize, nameIndex := ?_, extent := ?_, index := fun i hi => ?_
      stands := fun i hi => ?_, contents := fun i hi => ?_, header_zero := fun hi => ?_ }
  · rw [sectionTable, if_neg h0]
    rfl
  · rw [hsize]
    exact hextent.1
  · rw [hget i hi]
    rfl
  · rw [hget i hi]
    refine sectionHeaderAt_standsAt ?_
    have := add_size_le_mul (hsize ▸ hi) hfirst.1
    omega
  · rw [hget i hi]
    rfl
  · rw [hget 0 hi]
    rfl

theorem FileHeader.segmentTable_holds
    (h0 : ¬(header.programOffset = 0 ∨ header.programCount = 0))
    (hs : header.elfClass.programHeaderSize ≤ header.programEntrySize.toNat)
    (hx : header.programOffset.toNat +
      header.programTotal image.full * header.programEntrySize.toNat ≤ image.length) :
    (header.segmentTable image).Holds image header (header.programTotal image.full) := by
  have hsize : (header.segmentTable image).segments.size = header.programTotal image.full := by
    simp [segmentTable, h0]
  have hget : ∀ i (hi : i < (header.segmentTable image).segments.size),
      (header.segmentTable image).segments[i] = header.segmentAt image i :=
    fun _ => getElem_segmentTable
  refine
    { size := hsize, index := fun i hi => ?_, stands := fun i hi => ?_
      contents := fun i hi => ?_ }
  · rw [hget i hi]
    rfl
  · rw [hget i hi]
    refine programHeaderAt_standsAt ?_
    have := add_size_le_mul (hsize ▸ hi) hs
    omega
  · rw [hget i hi]
    rfl

/-- A table that decodes holds the declared records of the image, and nothing else. -/
theorem tables_hold_records (small : image.length < 2 ^ 64) (header : FileHeader) :
    (∀ t, SectionTable.parse image header = .ok t →
      if header.sectionOffset = 0 then t.sections = #[] ∧ t.nameIndex = 0
      else ∃ first, SectionHeader.initial image header = .ok (some first) ∧
        t.Holds image header first) ∧
    ∀ t, SegmentTable.parse image header = .ok t →
      if header.programOffset = 0 ∨ header.programCount = 0 then t.segments = #[]
      else if header.programCount = 0xffff ∧ header.sectionOffset ≠ 0 then
        ∃ first, SectionHeader.initial image header = .ok (some first) ∧
          first.StandsAt image header 0 ∧ t.Holds image header first.info.toNat
      else t.Holds image header header.programCount.toNat := by
  refine ⟨fun t h => ?_, fun t h => ?_⟩
  · rw [SectionTable.parse_eq small] at h
    obtain ⟨hg, rfl⟩ := Guard.protect_eq_ok_iff.1 h
    split
    · next h0 =>
      rw [FileHeader.sectionTable, if_pos h0]
      exact ⟨rfl, rfl⟩
    · next h0 =>
      have hfirst := (List.forall_mem_append.1 hg).1
      exact ⟨_, (SectionHeader.initial_of_guards h0 hfirst).1, header.sectionTable_holds h0 hg⟩
  · rw [SegmentTable.parse_eq] at h
    obtain ⟨hg, rfl⟩ := Guard.protect_eq_ok_iff.1 h
    split
    · next h0 => rw [FileHeader.segmentTable, if_pos h0]
    next h0 =>
    rw [FileHeader.programGuards, if_neg h0, List.cons_append] at hg
    obtain ⟨hs, hg⟩ := List.forall_mem_cons.1 hg
    obtain ⟨hfirst, hextent⟩ := List.forall_mem_append.1 hg
    simp only [List.forall_mem_cons, decide_eq_true_eq] at hs hextent
    have hholds := FileHeader.segmentTable_holds h0 hs hextent.1
    unfold FileHeader.programTotal at hholds
    split
    · next hx =>
      obtain ⟨hc, hso⟩ := hx
      have hc' : header.programCount = extendedProgramCount := hc
      rw [if_pos hc', if_neg hso] at hholds
      rw [if_pos hc'] at hfirst
      obtain ⟨hi, hstands⟩ := SectionHeader.initial_of_guards hso hfirst
      exact ⟨_, hi, hstands, hholds⟩
    · next hx =>
      -- Without a section header table the number is the marker itself.
      by_cases hc : header.programCount = extendedProgramCount
      · by_cases hso : header.sectionOffset = 0
        · rwa [if_pos hc, if_pos hso] at hholds
        · exact absurd ⟨hc, hso⟩ hx
      · rwa [if_neg hc] at hholds

/-- A big-endian image with two section headers, 44 bytes apart, and a program header behind them;
their numbers stand in the first section header. -/
def strided : Image :=
  let first : SectionHeader :=
    { name := 0, type := 0, flags := 0, address := 0, offset := 0, size := 2, link := 1, info := 1
      alignment := 0, entrySize := 0 }
  let program : ProgramHeader :=
    { type := 1, flags := 5, offset := 0, virtualAddress := 4096, physicalAddress := 0
      fileSize := 0, memorySize := 8, alignment := 1 }
  let bytes := [0] ++ first.encode .big .elf32 ++ [0, 0, 0, 0] ++
    { first with name := 7, type := 8 : SectionHeader }.encode .big .elf32 ++ [0, 0, 0, 0] ++
    program.encode .big .elf32
  { bytes := ⟨bytes.toArray⟩, fixedOrder := some .big }

/-- A header that defers to the first section header for all three numbers, from a file of the other
order. -/
def stridedHeader : FileHeader where
  ident := { elfClass := .elf32, encoding := .lsb, version := 1, osAbi := 0, abiVersion := 0 }
  type := 1
  machine := 8
  version := 1
  entry := 0
  programOffset := 89
  sectionOffset := 1
  flags := 0
  headerSize := 52
  programEntrySize := 32
  programCount := 0xffff
  sectionEntrySize := 44
  sectionCount := 0
  nameIndex := 0xffff

theorem tables_hold_records_strided :
    strided.length < 2 ^ 64 ∧ ∃ s t, SectionTable.parse strided stridedHeader = .ok s ∧
      SegmentTable.parse strided stridedHeader = .ok t ∧ s.sections.size = 2 ∧ s.nameIndex = 1 ∧
        t.segments.size = 1 ∧ ∀ hi : 0 < t.segments.size,
          t.segments[0].header.virtualAddress = 4096 := by
  have small : strided.length < 2 ^ 64 := by decide +kernel
  have hs := (@SectionTable.parse_eq stridedHeader strided small).trans
    (Guard.protect_eq_ok_iff.2 ⟨by decide +kernel, rfl⟩)
  have ht := (SegmentTable.parse_eq stridedHeader strided).trans
    (Guard.protect_eq_ok_iff.2 ⟨by decide +kernel, rfl⟩)
  obtain ⟨hsections, hsegments⟩ := tables_hold_records small stridedHeader
  have hsections := hsections _ hs
  have hsegments := hsegments _ ht
  rw [if_neg (by decide)] at hsections
  rw [if_neg (by decide), if_pos (by decide)] at hsegments
  obtain ⟨first, hfirst, hsections⟩ := hsections
  obtain ⟨first', hfirst', -, hsegments⟩ := hsegments
  obtain rfl := Option.some.inj (Except.ok.inj (hfirst.symm.trans hfirst'))
  have hinit := (@SectionHeader.initial_of_guards strided stridedHeader (by decide)
    (by decide +kernel)).1
  obtain rfl := Option.some.inj (Except.ok.inj (hfirst.symm.trans hinit))
  refine ⟨small, _, _, hs, ht, hsections.size.trans (by decide +kernel),
    hsections.nameIndex.trans (by decide +kernel), hsegments.size.trans (by decide +kernel),
    fun hi => ?_⟩
  obtain ⟨record, hrecord, hheader⟩ := hsegments.stands 0 hi
  obtain ⟨-, rfl⟩ := View.eq_window_of_subview hrecord
  rw [hheader]
  decide +kernel

end ElfFormat
