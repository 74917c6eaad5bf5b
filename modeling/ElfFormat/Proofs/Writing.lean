import ElfFormat.Proofs.Acceptance
import ElfFormat.Proofs.Placement

/-!
# What is found in a written file

If the numbers of a draft fit its class, the header of the written file is read back, both tables
fit, and the records that are found are those that were written (`Draft.Writable.parse_eq`,
`Draft.Writable.sectionHeaderAt_eq`, `Draft.Writable.programHeaderAt_eq`). What stands where is
known from the placement.
-/

namespace ElfFormat

/-- The section's numbers fit, and only a section without contents gives a size of its own. -/
structure SectionDraft.Writable (s : SectionDraft) (c : Class) : Prop where
  name : 0 ∉ Utf8.encode s.name
  flags : c.Fits s.flags
  address : c.Fits s.address
  alignment : c.Fits s.alignment
  entrySize : c.Fits s.entrySize
  size : ∀ n, s.size = some n →
    c.Fits n ∧ (s.type = SectionType.null ∨ s.type = SectionType.noBits)

/-- Every number of the segment fits the class. -/
structure SegmentDraft.Writable (s : SegmentDraft) (c : Class) : Prop where
  virtualAddress : c.Fits s.virtualAddress
  physicalAddress : c.Fits s.physicalAddress
  memorySize : c.Fits s.memorySize
  alignment : c.Fits s.alignment

/-- The numbers of the draft and the places in its file fit, without extended numbering. -/
structure Draft.Writable (d : Draft) : Prop where
  entry : d.elfClass.Fits d.entry
  sections : ∀ s ∈ d.sections, s.Writable d.elfClass
  segments : ∀ s ∈ d.segments, s.Writable d.elfClass
  length_lt : d.bytes.length < 256 ^ d.elfClass.wordSize
  nameTable_lt : d.nameTable.length < 2 ^ 32
  sections_le : d.sections.length ≤ 65533
  segments_le : d.segments.length ≤ 65534

namespace Draft

variable {d : Draft}

theorem programOffset_le (d : Draft) : d.programOffset ≤ d.bytes.length := by
  by_cases hs : d.segments.isEmpty
  · rw [programOffset, if_pos hs]
    exact Nat.zero_le _
  · exact Nat.le_trans (Nat.le_add_right _ _) (holds_programHeaderBytes hs).le_length

theorem sectionTableOffset_le (d : Draft) :
    d.sectionTableOffset + d.sectionTotal * d.elfClass.sectionHeaderSize ≤ d.bytes.length := by
  rw [← length_sectionHeaderBytes]
  exact holds_sectionHeaderBytes.le_length

/-- The offsets in the header fit the class, since the whole file does. -/
theorem Writable.headerFits (h : d.Writable) : d.header.Fits := by
  have hp := d.programOffset_le
  have hs := d.sectionTableOffset_le
  have hl := h.length_lt
  refine ⟨h.entry, ?_, ?_⟩
  · exact Class.fits_ofNat (c := d.elfClass) (by omega)
  · exact Class.fits_ofNat (c := d.elfClass) (by omega)

/-- The written file, once its order is known. -/
def image (d : Draft) : Image where
  bytes := ⟨d.bytes.toArray⟩
  fixedOrder := some d.encoding.order

/-- A piece that stands in the file is seen through a window on it. -/
theorem window_eq {offset : Nat} {piece : List UInt8} (h : Holds d.bytes offset piece) :
    d.image.full.window offset piece.length = .ofList offset piece d.encoding.order := by
  refine View.ext_toList (Nat.zero_add offset) ?_ rfl
  rw [View.toList_window, Image.toList_full, View.toList_ofList]
  exact h.take_drop

theorem record_eq {α : Type} {f : α → List UInt8} {l : List α} {offset size i : Nat} {a : α}
    (h : Holds d.bytes offset (l.flatMap f)) (hf : ∀ b ∈ l, (f b).length = size)
    (ha : l[i]? = some a) :
    d.image.full.window (offset + i * size) size =
      .ofList (offset + i * size) (f a) d.encoding.order := by
  have hw := window_eq (h.trans (holds_flatMap hf ha))
  rwa [hf a (List.mem_of_getElem? ha)] at hw

theorem view_eq {offset : Nat} {piece : List UInt8} (h : Holds d.bytes offset piece) :
    d.image.view offset piece.length = .ok (.ofList offset piece d.encoding.order) := by
  have hl : offset + piece.length ≤ d.image.length := h.le_length
  rw [Image.view_eq, if_pos hl, window_eq h]

theorem Writable.parse_header (h : d.Writable) {v : View} (hv : v.toList = d.bytes) :
    FileHeader.parse v = .ok d.header := by
  obtain ⟨front, rest, hb, hf⟩ := holds_headerBytes (d := d)
  obtain rfl := List.length_eq_zero_iff.1 hf
  rw [List.nil_append, headerBytes] at hb
  exact FileHeader.parse_encode h.headerFits (List.length_replicate ..) (hv.trans hb)

theorem toNat_sectionOffset (h : d.Writable) :
    d.header.sectionOffset.toNat = d.sectionTableOffset := by
  have hs := d.sectionTableOffset_le
  have hl := h.length_lt
  exact Class.toNat_ofNat (c := d.elfClass) (by omega)

theorem toNat_programOffset (h : d.Writable) : d.header.programOffset.toNat = d.programOffset := by
  have hp := d.programOffset_le
  have hl := h.length_lt
  exact Class.toNat_ofNat (c := d.elfClass) (by omega)

theorem toNat_sectionEntrySize (d : Draft) :
    d.header.sectionEntrySize.toNat = d.elfClass.sectionHeaderSize := by
  show (UInt16.ofNat d.elfClass.sectionHeaderSize).toNat = _
  cases d.elfClass <;> rfl

theorem toNat_programEntrySize (d : Draft) :
    d.header.programEntrySize.toNat = d.elfClass.programHeaderSize := by
  show (UInt16.ofNat d.elfClass.programHeaderSize).toNat = _
  cases d.elfClass <;> rfl

theorem toNat_sectionCount (h : d.Writable) : d.header.sectionCount.toNat = d.sectionTotal := by
  have hl := h.sections_le
  refine UInt16.toNat_ofNat_of_lt' ?_
  show d.sections.length + 2 < 65536
  omega

theorem toNat_programCount (h : d.Writable) :
    d.header.programCount.toNat = d.segments.length := by
  have hl := h.segments_le
  refine UInt16.toNat_ofNat_of_lt' ?_
  show d.segments.length < 65536
  omega

theorem toNat_nameIndex (h : d.Writable) : d.header.nameIndex.toNat = d.sections.length + 1 := by
  have hl := h.sections_le
  refine UInt16.toNat_ofNat_of_lt' ?_
  show d.sections.length + 1 < 65536
  omega

/-- The number of sections stands in the header, so the first section header does not count. -/
theorem sectionTotal_eq (h : d.Writable) (first : SectionHeader) :
    d.header.sectionTotal first = d.sectionTotal := by
  have hc := toNat_sectionCount h
  have hz : d.header.sectionCount ≠ 0 := by
    intro e
    rw [e] at hc
    exact absurd hc (Nat.succ_ne_zero _).symm
  rw [FileHeader.sectionTotal, if_neg hz, hc]

theorem sectionNameIndex_eq (h : d.Writable) (first : SectionHeader) :
    d.header.sectionNameIndex first = d.sections.length + 1 := by
  have hn := toNat_nameIndex h
  have hl := h.sections_le
  have hx : d.header.nameIndex ≠ SectionIndex.extended := by
    intro e
    rw [e, show SectionIndex.extended.toNat = 65535 from rfl] at hn
    omega
  rw [FileHeader.sectionNameIndex, if_neg hx, hn]

theorem programTotal_eq (h : d.Writable) (file : View) :
    d.header.programTotal file = d.segments.length := by
  have hc := toNat_programCount h
  have hl := h.segments_le
  have hx : d.header.programCount ≠ extendedProgramCount := by
    intro e
    rw [e, show extendedProgramCount.toNat = 65535 from rfl] at hc
    omega
  rw [FileHeader.programTotal, if_neg hx, hc]

/-- The file that is written passes all checks of decoding. -/
theorem Writable.tables_fit (h : d.Writable) :
    ∀ g ∈ d.header.tableGuards d.image.full, g.holds = true := by
  have hs := d.sectionTableOffset_le
  have htotal : d.sectionTotal = d.sections.length + 2 := rfl
  have hsize : d.elfClass.sectionHeaderSize ≤ d.sectionTotal * d.elfClass.sectionHeaderSize := by
    refine Nat.le_mul_of_pos_left _ ?_
    omega
  have hlen : d.image.full.length = d.bytes.length := rfl
  have hc : d.header.elfClass = d.elfClass := rfl
  -- Without segments there is no program header table, and nothing to fit.
  have hp : (d.header.programOffset = 0 ∨ d.header.programCount = 0) ∨
      d.programOffset + d.segments.length * d.elfClass.programHeaderSize ≤ d.bytes.length := by
    by_cases he : d.segments.isEmpty
    · refine .inl (.inl ?_)
      show UInt64.ofNat d.programOffset = 0
      rw [programOffset, if_pos he]
      rfl
    · refine .inr ?_
      rw [← length_programHeaderBytes]
      exact (holds_programHeaderBytes he).le_length
  simp only [FileHeader.tableGuards, List.forall_mem_cons, decide_eq_true_eq, sectionTotal_eq h,
    programTotal_eq h, toNat_sectionOffset h, toNat_programOffset h, toNat_sectionEntrySize,
    toNat_programEntrySize, hlen, hc]
  refine ⟨.inr (Nat.le_refl _), .inr ?_, .inr hs, .inr (Nat.le_refl _), hp,
    List.forall_mem_nil _⟩
  omega

/-- Decoding comes to the object whose tables are looked up in the written file. -/
theorem Writable.parse_eq (h : d.Writable) :
    (Object.parse { bytes := ⟨d.bytes.toArray⟩ }).1 = .ok (Object.found d.image d.header) := by
  have hh : FileHeader.parse (Image.full { bytes := ⟨d.bytes.toArray⟩ }) = .ok d.header :=
    h.parse_header (Image.toList_full _)
  have hsmall : d.image.length < 2 ^ 64 := by
    refine Nat.lt_of_lt_of_le h.length_lt ?_
    cases d.elfClass <;> decide
  rw [Object.parse, hh]
  show Object.ofHeader d.image d.header = _
  rw [Object.ofHeader_eq hsmall]
  exact Guard.protect_eq_ok_iff.2 ⟨h.tables_fit, rfl⟩

/-! ## The records -/

/-- The headers of the drafted sections, without the two that are added. -/
def draftedHeaders (d : Draft) : List SectionHeader :=
  List.zipWith (fun s (name, offset) => sectionHeader s name offset) d.sections
    ((nameOffsets 1 d.sections).1.zip d.sectionOffsets.1)

theorem sectionHeaders_eq (d : Draft) :
    d.sectionHeaders = nullHeader :: (d.draftedHeaders ++ [d.nameTableHeader]) :=
  rfl

theorem length_draftedHeaders (d : Draft) : d.draftedHeaders.length = d.sections.length := by
  have h := length_sectionHeaders d
  rw [sectionHeaders_eq, List.length_cons, List.length_append] at h
  exact Nat.add_right_cancel (m := 2) h

theorem exists_places {i : Nat} {spec : SectionDraft} (hs : d.sections[i]? = some spec) :
    ∃ name place, (nameOffsets 1 d.sections).1[i]? = some name ∧
      d.sectionOffsets.1[i]? = some place := by
  obtain ⟨hi, -⟩ := List.getElem?_eq_some_iff.1 hs
  refine ⟨_, _, List.getElem?_eq_getElem ?_, List.getElem?_eq_getElem ?_⟩
  · rwa [length_nameOffsets]
  · rwa [sectionOffsets, length_offsets, List.length_map]

theorem draftedHeaders_eq_some_iff {i : Nat} {header : SectionHeader} :
    d.draftedHeaders[i]? = some header ↔
      ∃ spec name place, d.sections[i]? = some spec ∧
        (nameOffsets 1 d.sections).1[i]? = some name ∧ d.sectionOffsets.1[i]? = some place ∧
          sectionHeader spec name place = header := by
  rw [draftedHeaders, List.getElem?_zipWith_eq_some]
  constructor
  · rintro ⟨spec, ⟨name, place⟩, hs, hz, rfl⟩
    obtain ⟨hn, hp⟩ := List.getElem?_zip_eq_some.1 hz
    exact ⟨spec, name, place, hs, hn, hp, rfl⟩
  · rintro ⟨spec, name, place, hs, hn, hp, rfl⟩
    exact ⟨spec, (name, place), hs, List.getElem?_zip_eq_some.2 ⟨hn, hp⟩, rfl⟩

theorem sectionHeaders_succ {i name place : Nat} {spec : SectionDraft}
    (hs : d.sections[i]? = some spec) (hn : (nameOffsets 1 d.sections).1[i]? = some name)
    (hp : d.sectionOffsets.1[i]? = some place) :
    d.sectionHeaders[i + 1]? = some (sectionHeader spec name place) := by
  have h := draftedHeaders_eq_some_iff.2 ⟨spec, name, place, hs, hn, hp, rfl⟩
  obtain ⟨hi, -⟩ := List.getElem?_eq_some_iff.1 h
  rw [sectionHeaders_eq, List.getElem?_cons_succ, List.getElem?_append_left hi, h]

theorem sectionHeaders_last (d : Draft) :
    d.sectionHeaders[d.sections.length + 1]? = some d.nameTableHeader := by
  rw [sectionHeaders_eq, List.getElem?_cons_succ, ← length_draftedHeaders,
    List.getElem?_concat_length]

theorem fits_zero (c : Class) : c.Fits 0 := by
  cases c <;> decide

theorem Writable.section_lt (h : d.Writable) {i place : Nat} {spec : SectionDraft}
    (hs : d.sections[i]? = some spec) (hp : d.sectionOffsets.1[i]? = some place) :
    place + spec.data.length < 256 ^ d.elfClass.wordSize :=
  Nat.lt_of_le_of_lt (holds_section hp hs).le_length h.length_lt

theorem Writable.segment_lt (h : d.Writable) {i place : Nat} {spec : SegmentDraft}
    (hs : d.segments[i]? = some spec) (hp : d.segmentOffsets.1[i]? = some place) :
    place + spec.data.length < 256 ^ d.elfClass.wordSize :=
  Nat.lt_of_le_of_lt (holds_segment hp hs).le_length h.length_lt

theorem Writable.nameTable_fits (h : d.Writable) :
    d.nameTableOffset + d.nameTable.length < 256 ^ d.elfClass.wordSize :=
  Nat.lt_of_le_of_lt holds_nameTable.le_length h.length_lt

theorem Writable.sectionHeader_fits (h : d.Writable) {header : SectionHeader}
    (hm : header ∈ d.sectionHeaders) : header.Fits d.elfClass := by
  have hz := fits_zero d.elfClass
  rw [sectionHeaders_eq, List.mem_cons, List.mem_append, List.mem_singleton] at hm
  rcases hm with rfl | hm | rfl
  · exact ⟨hz, hz, hz, hz, hz, hz⟩
  · obtain ⟨i, hi⟩ := List.mem_iff_getElem?.1 hm
    obtain ⟨spec, name, place, hs, hn, hp, rfl⟩ := draftedHeaders_eq_some_iff.1 hi
    have hw := h.sections spec (List.mem_of_getElem? hs)
    have hlt := h.section_lt hs hp
    refine ⟨hw.flags, hw.address, Class.fits_ofNat (by omega), ?_, hw.alignment, hw.entrySize⟩
    show d.elfClass.Fits (spec.size.getD _)
    rcases hn : spec.size with _ | n
    · exact Class.fits_ofNat (by omega)
    · exact (hw.size n hn).1
  · have hlt := h.nameTable_fits
    refine ⟨hz, hz, Class.fits_ofNat (by omega), Class.fits_ofNat (by omega), ?_, hz⟩
    show d.elfClass.Fits 1
    cases d.elfClass <;> decide

theorem Writable.programHeader_fits (h : d.Writable) {i place : Nat} {spec : SegmentDraft}
    (hs : d.segments[i]? = some spec) (hp : d.segmentOffsets.1[i]? = some place) :
    (programHeader spec place).Fits d.elfClass := by
  have hw := h.segments spec (List.mem_of_getElem? hs)
  have hlt := h.segment_lt hs hp
  exact ⟨Class.fits_ofNat (by omega), hw.virtualAddress, hw.physicalAddress,
    Class.fits_ofNat (by omega), hw.memorySize, hw.alignment⟩

/-- The header in each record is the drafted one. -/
theorem Writable.sectionHeaderAt_eq (h : d.Writable) {i : Nat} {header : SectionHeader}
    (hi : d.sectionHeaders[i]? = some header) :
    d.header.sectionHeaderAt d.image.full i = header := by
  have hf := h.sectionHeader_fits (List.mem_of_getElem? hi)
  have hw := record_eq holds_sectionHeaderBytes
    (fun k _ => k.length_encode d.encoding.order d.elfClass) hi
  rw [FileHeader.sectionHeaderAt, FileHeader.sectionRecord, toNat_sectionOffset h,
    toNat_sectionEntrySize]
  show SectionHeader.ofView (d.image.full.window _ d.elfClass.sectionHeaderSize) d.elfClass = _
  rw [hw]
  exact SectionHeader.ofView_encode hf rfl (View.toList_ofList ..)

theorem Writable.programHeaderAt_eq (h : d.Writable) {i place : Nat} {spec : SegmentDraft}
    (hs : d.segments[i]? = some spec) (hp : d.segmentOffsets.1[i]? = some place) :
    d.header.programHeaderAt d.image.full i = programHeader spec place := by
  have hf := h.programHeader_fits hs hp
  have he : ¬d.segments.isEmpty := by
    rw [List.isEmpty_iff]
    exact List.ne_nil_of_mem (List.mem_of_getElem? hs)
  have hi : d.programHeaders[i]? = some (programHeader spec place) :=
    List.getElem?_zipWith_eq_some.2 ⟨spec, place, hs, hp, rfl⟩
  have hw := record_eq (holds_programHeaderBytes he)
    (fun k _ => k.length_encode d.encoding.order d.elfClass) hi
  rw [FileHeader.programHeaderAt, FileHeader.programRecord, toNat_programOffset h,
    toNat_programEntrySize]
  show ProgramHeader.ofView (d.image.full.window _ d.elfClass.programHeaderSize) d.elfClass = _
  rw [hw]
  exact ProgramHeader.ofView_encode hf rfl (View.toList_ofList ..)

end Draft

end ElfFormat
