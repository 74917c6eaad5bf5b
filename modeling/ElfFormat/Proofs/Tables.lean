import ElfFormat.Object
import ElfFormat.Proofs.Guard
import ElfFormat.Proofs.Layout
import ElfFormat.Proofs.Window

/-!
# What a table decodes to

Each table decodes to its records at their places, behind guards on its geometry alone
(`SectionTable.parse_eq`, `SegmentTable.parse_eq`): no record fails once the whole table fits, and
no failure in the contents of a record reaches the table. In an image of less than `2 ^ 64` bytes
the products are exact, because what the decoder puts for a product that is too large fits no such
image either.
-/

namespace ElfFormat

namespace FileHeader

variable (header : FileHeader) (file : View) (image : Image)

/-! ## The section header table -/

/-- The bytes of a section header, by its position in the table. -/
def sectionRecord (i : Nat) : View :=
  file.window (header.sectionOffset.toNat + i * header.sectionEntrySize.toNat)
    header.elfClass.sectionHeaderSize

/-- The header in the record of this index. -/
def sectionHeaderAt (i : Nat) : SectionHeader :=
  .ofView (header.sectionRecord file i) header.elfClass

/-- The section of this index. -/
def sectionAt (i : Nat) : Section where
  index := i
  header := header.sectionHeaderAt image.full i
  decoded := .mk fun _ => (header.sectionHeaderAt image.full i).contents image header.elfClass

/-- The table as it is found, if it is there and fits. -/
def sectionTable : SectionTable :=
  let first := header.sectionHeaderAt image.full 0
  if header.sectionOffset = 0 then { sections := #[], nameIndex := 0 }
  else
    { sections := ((List.range (header.sectionTotal first)).map (header.sectionAt image)).toArray
      nameIndex := header.sectionNameIndex first }

/-- What must hold for the first section header to be read. -/
def firstRecordGuards : List Guard :=
  let size := header.elfClass.sectionHeaderSize
  let stride := header.sectionEntrySize.toNat
  let offset := header.sectionOffset.toNat
  [ { holds := header.sectionOffset = 0 ∨ size ≤ stride
      failure := .invalidEntrySize "section header" size stride },
    { holds := header.sectionOffset = 0 ∨ offset + size ≤ file.length
      failure := .outOfBounds offset size file.length } ]

/-- What must hold for the section header table to be read. -/
def sectionGuards : List Guard :=
  let total := header.sectionTotal (header.sectionHeaderAt file 0)
  let extent := total * header.sectionEntrySize.toNat
  let offset := header.sectionOffset.toNat
  header.firstRecordGuards file ++
    [ { holds := header.sectionOffset = 0 ∨ offset + extent ≤ file.length
        failure := .outOfBounds offset (min extent maxWord) file.length } ]

/-! ## The program header table -/

/-- The bytes of a program header, by its position in the table. -/
def programRecord (i : Nat) : View :=
  file.window (header.programOffset.toNat + i * header.programEntrySize.toNat)
    header.elfClass.programHeaderSize

/-- The header in the record of this index. -/
def programHeaderAt (i : Nat) : ProgramHeader :=
  .ofView (header.programRecord file i) header.elfClass

/-- The segment of this index. -/
def segmentAt (i : Nat) : Segment where
  index := i
  header := header.programHeaderAt image.full i
  decoded := .mk fun _ => (header.programHeaderAt image.full i).contents image

/-- The number of program headers, wherever it is kept. -/
def programTotal : Nat :=
  if header.programCount = extendedProgramCount then
    if header.sectionOffset = 0 then header.programCount.toNat
    else (header.sectionHeaderAt file 0).info.toNat
  else header.programCount.toNat

/-- The segment table as it is, without the checks of its decoding. -/
def segmentTable : SegmentTable :=
  if header.programOffset = 0 ∨ header.programCount = 0 then { segments := #[] }
  else
    { segments := ((List.range (header.programTotal image.full)).map
        (header.segmentAt image)).toArray }

/-- What must hold for the program header table to be read; the number of its records may have to be
looked up in the first section header. -/
def programGuards : List Guard :=
  let size := header.elfClass.programHeaderSize
  let stride := header.programEntrySize.toNat
  let offset := header.programOffset.toNat
  let extent := header.programTotal file * stride
  if header.programOffset = 0 ∨ header.programCount = 0 then []
  else
    { holds := size ≤ stride, failure := .invalidEntrySize "program header" size stride } ::
      (if header.programCount = extendedProgramCount then header.firstRecordGuards file else []) ++
      [ { holds := offset + extent ≤ file.length
          failure := .outOfBounds offset extent file.length } ]

end FileHeader

variable {header : FileHeader} {image : Image}

namespace FileHeader

theorem getElem_sectionTable {i : Nat} (hi : i < (header.sectionTable image).sections.size) :
    (header.sectionTable image).sections[i] = header.sectionAt image i := by
  by_cases h0 : header.sectionOffset = 0
  · simp [sectionTable, h0] at hi
  · simp [sectionTable, h0]

theorem getElem_segmentTable {i : Nat} (hi : i < (header.segmentTable image).segments.size) :
    (header.segmentTable image).segments[i] = header.segmentAt image i := by
  by_cases h0 : header.programOffset = 0 ∨ header.programCount = 0
  · simp [segmentTable, h0] at hi
  · simp [segmentTable, h0]

end FileHeader

theorem ne_zero_toNat {x : UInt64} (h : x ≠ 0) : 0 < x.toNat := by
  rcases Nat.eq_zero_or_pos x.toNat with hz | hp
  · exact absurd (UInt64.toNat_inj.1 hz) h
  · exact hp

theorem FileHeader.firstRecordGuards_hold_iff {file : View} :
    (∀ g ∈ header.firstRecordGuards file, g.holds = true) ↔
      (header.sectionOffset ≠ 0 →
        header.elfClass.sectionHeaderSize ≤ header.sectionEntrySize.toNat ∧
          header.sectionOffset.toNat + header.elfClass.sectionHeaderSize ≤ file.length) := by
  by_cases h0 : header.sectionOffset = 0 <;> simp [firstRecordGuards, h0]

theorem SectionHeader.initial_eq (header : FileHeader) (image : Image) :
    SectionHeader.initial image header =
      Guard.protect (header.firstRecordGuards image.full)
        (if header.sectionOffset = 0 then none
         else some (header.sectionHeaderAt image.full 0)) := by
  rw [initial]
  by_cases h0 : header.sectionOffset = 0
  · rw [if_pos h0, if_pos h0]
    simp [FileHeader.firstRecordGuards, Guard.protect, h0]
  rw [if_neg h0, if_neg h0]
  by_cases hs : header.sectionEntrySize.toNat < header.elfClass.sectionHeaderSize
  · rw [if_pos hs, FileHeader.firstRecordGuards,
      Guard.protect_cons_of_not (by simpa [h0] using hs)]
  rw [if_neg hs, FileHeader.firstRecordGuards,
    Guard.protect_cons_of_holds (by simpa [h0] using Nat.not_lt.1 hs), Image.view_eq]
  by_cases hf : header.sectionOffset.toNat + header.elfClass.sectionHeaderSize ≤ image.length
  · have hp := SectionHeader.parse_eq (c := header.elfClass)
      (Nat.le_of_eq (View.length_window (v := image.full) hf).symm)
    rw [if_pos hf, Guard.protect_cons_of_holds (by simp [hf])]
    show (do let first ← SectionHeader.parse _ _; .ok (some first)) = _
    rw [hp]
    simp [FileHeader.sectionHeaderAt, FileHeader.sectionRecord, Guard.protect]
    rfl
  · rw [if_neg hf, Guard.protect_cons_of_not (by simpa [h0] using hf)]
    rfl

namespace SectionTable

theorem readRecord_eq {c : Class} {w : View} (hw : w.length = c.sectionHeaderSize) (i : Nat) :
    readRecord image c i w =
      .ok { index := i, header := .ofView w c,
            decoded := .mk fun _ => (SectionHeader.ofView w c).contents image c } := by
  rw [readRecord, SectionHeader.parse_eq (Nat.le_of_eq hw.symm)]
  rfl

/-- Read from a window, the records are those of the file. -/
theorem records_eq {extent count : Nat}
    (hx : header.sectionOffset.toNat + extent ≤ image.length)
    (fits : ∀ i < count,
      i * header.sectionEntrySize.toNat + header.elfClass.sectionHeaderSize ≤ extent) :
    (image.full.window header.sectionOffset.toNat extent).records count
        header.sectionEntrySize.toNat header.elfClass.sectionHeaderSize
        (readRecord image header.elfClass) =
      .ok ((List.range count).map (header.sectionAt image)) := by
  rw [View.records_eq_ok (by rwa [View.length_window hx]) fun i w hw => readRecord_eq hw i]
  refine congrArg Except.ok (List.map_congr_left fun i hi => ?_)
  rw [View.window_window hx (fits i (List.mem_range.1 hi))]
  rfl

/-- The table lies in the image and its records in the table. -/
def Fits (image : Image) (header : FileHeader) (first : SectionHeader) : Prop :=
  let count := header.sectionTotal first
  let stride := header.sectionEntrySize.toNat
  let extent := min (count * stride) maxWord
  header.sectionOffset.toNat + extent ≤ image.length ∧
    ∀ i < count, i * stride + header.elfClass.sectionHeaderSize ≤ extent

theorem read_of_fits {first : SectionHeader} (h : Fits image header first) :
    read image header first =
      .ok { sections := ((List.range (header.sectionTotal first)).map
              (header.sectionAt image)).toArray
            nameIndex := header.sectionNameIndex first } := by
  obtain ⟨hx, hfit⟩ := h
  rw [read, Image.view_eq, if_pos hx]
  show View.records _ _ _ _ _ >>= _ = _
  rw [records_eq hx hfit]
  rfl

/-- Only a table that lies in the image with all its records is read. -/
theorem fits_of_read {first : SectionHeader} {t : SectionTable}
    (h : read image header first = .ok t) : Fits image header first := by
  rw [read] at h
  obtain ⟨table, hv, h⟩ := bind_eq_ok_iff.1 h
  obtain ⟨l, hl, -⟩ := bind_eq_ok_iff.1 h
  obtain ⟨hx, rfl⟩ := View.eq_window_of_subview hv
  have hfit := View.fits_of_records_ok hl
  rw [View.length_window hx] at hfit
  exact ⟨hx, hfit⟩

/-- In an image that its length fits, the extent of the table is exact. -/
theorem read_eq (hs : header.elfClass.sectionHeaderSize ≤ header.sectionEntrySize.toNat)
    (h0 : header.sectionOffset ≠ 0) (small : image.length < 2 ^ 64) (first : SectionHeader) :
    let extent := header.sectionTotal first * header.sectionEntrySize.toNat
    read image header first =
      if header.sectionOffset.toNat + extent ≤ image.length then
        .ok { sections := ((List.range (header.sectionTotal first)).map
                (header.sectionAt image)).toArray
              nameIndex := header.sectionNameIndex first }
      else .error (.outOfBounds header.sectionOffset.toNat (min extent maxWord) image.length) := by
  intro extent
  have hpos := ne_zero_toNat h0
  have hmax : maxWord = 2 ^ 64 - 1 := rfl
  by_cases hx : header.sectionOffset.toNat + extent ≤ image.length
  · have hm : min extent maxWord = extent := by omega
    rw [if_pos hx]
    refine read_of_fits ⟨Nat.le_trans (Nat.add_le_add_left (Nat.min_le_left _ _) _) hx, ?_⟩
    exact fun i hi => Nat.le_trans (add_size_le_mul hi hs) (Nat.le_of_eq hm.symm)
  · -- The largest word counts for a larger product, and no image reaches that far either.
    rw [if_neg hx, read, Image.view_eq, if_neg (by omega)]
    rfl

/-- Decoding a section table is a row of checks, and then the table as it is. -/
theorem parse_eq (small : image.length < 2 ^ 64) :
    parse image header =
      Guard.protect (header.sectionGuards image.full) (header.sectionTable image) := by
  have hi := SectionHeader.initial_eq header image
  rw [parse, FileHeader.sectionGuards, Guard.protect_append, ← hi]
  rcases hfirst : SectionHeader.initial image header with e | first
  · rfl
  rw [hfirst] at hi
  obtain ⟨hg, rfl⟩ := Guard.protect_eq_ok_iff.1 hi.symm
  by_cases h0 : header.sectionOffset = 0
  · rw [if_pos h0, Guard.protect_cons_of_holds (by simp [h0]), FileHeader.sectionTable, if_pos h0]
    rfl
  rw [if_neg h0, FileHeader.sectionTable, if_neg h0]
  show read image header (header.sectionHeaderAt image.full 0) = _
  rw [read_eq (FileHeader.firstRecordGuards_hold_iff.1 hg h0).1 h0 small, Guard.protect_single]
  simp only [h0, false_or]
  rfl

/-- In images of any length, a table that decodes is the one that is there. -/
theorem parse_eq_ok_iff (h0 : header.sectionOffset ≠ 0) {t : SectionTable} :
    parse image header = .ok t ↔
      (∀ g ∈ header.firstRecordGuards image.full, g.holds = true) ∧
        Fits image header (header.sectionHeaderAt image.full 0) ∧
          header.sectionTable image = t := by
  have hi := SectionHeader.initial_eq header image
  rw [if_neg h0] at hi
  rw [parse, FileHeader.sectionTable, if_neg h0]
  constructor
  · intro h
    obtain ⟨first, hfirst, h⟩ := bind_eq_ok_iff.1 h
    rw [hfirst] at hi
    obtain ⟨hg, rfl⟩ := Guard.protect_eq_ok_iff.1 hi.symm
    have hfits := fits_of_read h
    exact ⟨hg, hfits, Except.ok.inj ((read_of_fits hfits).symm.trans h)⟩
  · rintro ⟨hg, hfits, rfl⟩
    rw [hi, Guard.protect_eq_ok_iff.2 ⟨hg, rfl⟩]
    exact read_of_fits hfits

theorem eq_of_parse {t : SectionTable} (h : parse image header = .ok t) :
    t = header.sectionTable image := by
  by_cases h0 : header.sectionOffset = 0
  · rw [parse, SectionHeader.initial, if_pos h0] at h
    rw [FileHeader.sectionTable, if_pos h0]
    exact (Except.ok.inj h).symm
  · exact ((parse_eq_ok_iff h0).1 h).2.2.symm

end SectionTable

namespace SegmentTable

theorem segmentTotal_eq (header : FileHeader) (image : Image) :
    header.segmentTotal image =
      Guard.protect (if header.programCount = extendedProgramCount then
          header.firstRecordGuards image.full else [])
        (header.programTotal image.full) := by
  rw [FileHeader.segmentTotal, FileHeader.programTotal]
  by_cases hc : header.programCount = extendedProgramCount
  · have hi := SectionHeader.initial_eq header image
    rw [if_pos hc, if_pos hc, if_pos hc]
    rcases hfirst : SectionHeader.initial image header with e | first
    · rw [hfirst, eq_comm, Guard.protect_eq_error_iff] at hi
      exact (Guard.protect_eq_error_iff.2 hi).symm
    · rw [hfirst, eq_comm, Guard.protect_eq_ok_iff] at hi
      obtain ⟨hg, rfl⟩ := hi
      rw [Guard.protect_eq_ok_iff.2 ⟨hg, rfl⟩]
      by_cases h0 : header.sectionOffset = 0
      · rw [if_pos h0, if_pos h0]
        rfl
      · rw [if_neg h0, if_neg h0]
        rfl
  · rw [if_neg hc, if_neg hc, if_neg hc]
    rfl

theorem readRecord_eq {c : Class} {w : View} (hw : w.length = c.programHeaderSize) (i : Nat) :
    readRecord image c i w =
      .ok { index := i, header := .ofView w c,
            decoded := .mk fun _ => (ProgramHeader.ofView w c).contents image } := by
  rw [readRecord, ProgramHeader.parse_eq (Nat.le_of_eq hw.symm)]
  rfl

/-- Read from a window, the records are those of the file. -/
theorem records_eq {extent count : Nat}
    (hx : header.programOffset.toNat + extent ≤ image.length)
    (fits : ∀ i < count,
      i * header.programEntrySize.toNat + header.elfClass.programHeaderSize ≤ extent) :
    (image.full.window header.programOffset.toNat extent).records count
        header.programEntrySize.toNat header.elfClass.programHeaderSize
        (readRecord image header.elfClass) =
      .ok ((List.range count).map (header.segmentAt image)) := by
  rw [View.records_eq_ok (by rwa [View.length_window hx]) fun i w hw => readRecord_eq hw i]
  refine congrArg Except.ok (List.map_congr_left fun i hi => ?_)
  rw [View.window_window hx (fits i (List.mem_range.1 hi))]
  rfl

theorem read_eq (hs : header.elfClass.programHeaderSize ≤ header.programEntrySize.toNat)
    (count : Nat) :
    let extent := count * header.programEntrySize.toNat
    read image header count =
      if header.programOffset.toNat + extent ≤ image.length then
        .ok { segments := ((List.range count).map (header.segmentAt image)).toArray }
      else .error (.outOfBounds header.programOffset.toNat extent image.length) := by
  intro extent
  rw [read]
  by_cases hx : header.programOffset.toNat + extent ≤ image.length
  · rw [if_pos hx, Image.view_eq, if_pos hx]
    show View.records _ _ _ _ _ >>= _ = _
    rw [records_eq hx fun i hi => add_size_le_mul hi hs]
    rfl
  · rw [if_neg hx, Image.view_eq, if_neg hx]
    rfl

theorem parse_eq (header : FileHeader) (image : Image) :
    parse image header =
      Guard.protect (header.programGuards image.full) (header.segmentTable image) := by
  rw [parse, FileHeader.programGuards, FileHeader.segmentTable]
  by_cases h0 : header.programOffset = 0 ∨ header.programCount = 0
  · rw [if_pos h0, if_pos h0, if_pos h0]
    rfl
  rw [if_neg h0, if_neg h0, if_neg h0]
  by_cases hs : header.programEntrySize.toNat < header.elfClass.programHeaderSize
  · rw [if_pos hs, List.cons_append, Guard.protect_cons_of_not (by simpa using hs)]
  have hs' := Nat.not_lt.1 hs
  rw [if_neg hs, List.cons_append, Guard.protect_cons_of_holds (by simpa using hs'),
    Guard.protect_append _ _ (header.programTotal image.full), ← segmentTotal_eq]
  rcases ht : header.segmentTotal image with e | total
  · rfl
  rw [segmentTotal_eq] at ht
  obtain ⟨-, rfl⟩ := Guard.protect_eq_ok_iff.1 ht
  show read image header (header.programTotal image.full) = _
  rw [read_eq hs']
  exact (Guard.protect_single _ _ _).symm

end SegmentTable

namespace Object

/-- The tables of an image, as they are found. -/
def found (image : Image) (header : FileHeader) : Object where
  header := header
  sections := header.sectionTable image
  segments := header.segmentTable image

theorem parse_of_adopt {fixed : Image} (hh : FileHeader.parse image.full = .ok header)
    (ha : image.adopt header.order = .ok fixed) :
    parse image = (ofHeader fixed header, fixed) := by
  rw [parse, hh]
  simp only [ha]

/-- Decoding goes in three steps, and the image has the order of the header for the last one. -/
theorem parse_eq_ok_iff {o : Object} :
    (parse image).1 = .ok o ↔ FileHeader.parse image.full = .ok o.header ∧
      ∃ fixed, image.adopt o.header.order = .ok fixed ∧ ofHeader fixed o.header = .ok o := by
  constructor
  · intro h
    rw [parse] at h
    rcases hh : FileHeader.parse image.full with e | header
    · rw [hh] at h
      cases h
    rw [hh] at h
    rcases ha : image.adopt header.order with e | fixed
    · simp only [ha] at h
      cases h
    simp only [ha] at h
    obtain rfl : o.header = header := by
      obtain ⟨sections, -, ho⟩ := bind_eq_ok_iff.1 h
      obtain ⟨segments, -, ho⟩ := bind_eq_ok_iff.1 ho
      rw [← Except.ok.inj ho]
    exact ⟨rfl, fixed, ha, h⟩
  · rintro ⟨hh, fixed, ha, ho⟩
    rw [parse_of_adopt hh ha]
    exact ho

/-- An object is what is found in its image, once the image has the object's order. -/
theorem eq_found_of_parse {o : Object} (h : (parse image).1 = .ok o) :
    o = found { image with fixedOrder := some o.header.order } o.header := by
  obtain ⟨-, fixed, ha, h⟩ := parse_eq_ok_iff.1 h
  rw [Image.fixedOrder_of_adopt ha, ofHeader] at h
  obtain ⟨sections, hs, h⟩ := bind_eq_ok_iff.1 h
  obtain ⟨segments, hp, h⟩ := bind_eq_ok_iff.1 h
  rw [SegmentTable.parse_eq] at hp
  rw [← Except.ok.inj h, SectionTable.eq_of_parse hs, ← (Guard.protect_eq_ok_iff.1 hp).2]
  rfl

end Object

end ElfFormat
