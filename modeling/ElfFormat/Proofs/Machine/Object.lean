import ElfFormat.Object
import ElfFormat.Proofs.Machine.Payload

/-!
# Objects on a machine

Both tables are windows of a number of records times a stride. For the sections the product is
checked, and where it does not fit the machine reports the largest length there is; no image holds
as much, so this is the failure that the product itself leads to. For the segments it is not
checked: their number has 32 bits at most and the stride 16.
-/

namespace ElfFormat.Machine

/-- A section, whose contents are decoded at once on a machine. -/
structure Section where
  index : UInt64
  header : SectionHeader
  contents : Except Error SectionContents

/-- The sections and the index of the one that holds their names. -/
structure SectionTable where
  sections : List Section
  nameIndex : UInt64

/-- A segment with its contents. -/
structure Segment where
  index : UInt64
  header : ProgramHeader
  contents : Except Error SegmentContents

/-- The segments in the order of their table. -/
structure SegmentTable where
  segments : List Segment

/-- A decoded file. -/
structure Object where
  header : FileHeader
  sections : SectionTable
  segments : SegmentTable

/-- The first record of the section header table, if the file has the table. -/
def initial (image : Image) (header : FileHeader) : Compute (Option SectionHeader) :=
  if header.sectionOffset = 0 then return none
  else if header.sectionEntrySize.toUInt64 < sectionHeaderSize header.elfClass then
    fail (.invalidEntrySize "section header" (sectionHeaderSize header.elfClass).toNat
      header.sectionEntrySize.toUInt64.toNat)
  else do
    let record ← (Window.full image).subview header.sectionOffset
      (sectionHeaderSize header.elfClass)
    let first ← sectionHeader record header.elfClass
    return some first

/-- The number of sections, which the first record tells where the header does not. -/
def sectionTotal (header : FileHeader) (first : SectionHeader) : UInt64 :=
  if header.sectionCount = 0 then first.size else header.sectionCount.toUInt64

/-- The index of the section that holds the names, which the first record tells where the header
gives the mark for it. -/
def sectionNameIndex (header : FileHeader) (first : SectionHeader) : UInt64 :=
  if header.nameIndex = SectionIndex.extended then first.link.toUInt64
  else header.nameIndex.toUInt64

/-- A section from its record. If its contents cannot be decoded, that is kept with it and is no
failure of the table. -/
def readSection (image : Image) (c : Class) (index : UInt64) (record : Window) :
    Compute Section := do
  let header ← sectionHeader record c
  let contents ← settle (sectionContents image c header)
  return { index, header, contents }

/-- Reads the section table behind its first record. -/
def sections (image : Image) (header : FileHeader) (first : SectionHeader) :
    Compute SectionTable :=
  let count := sectionTotal header first
  let stride := header.sectionEntrySize.toUInt64
  match checkedMul count stride with
  | none => fail ((Window.full image).outOfBounds header.sectionOffset (.ofNat maxWord))
  | some length => do
    let table ← (Window.full image).subview header.sectionOffset length
    let sections ← table.records count stride (sectionHeaderSize header.elfClass)
      (readSection image header.elfClass)
    return { sections, nameIndex := sectionNameIndex header first }

/-- The section table, which is empty if the header gives no place for it. -/
def sectionTable (image : Image) (header : FileHeader) : Compute SectionTable := do
  match ← initial image header with
  | none => return { sections := [], nameIndex := 0 }
  | some first => sections image header first

/-- The number of segments, which the first section header tells where the header gives the mark for
it. -/
def segmentTotal (image : Image) (header : FileHeader) : Compute UInt64 :=
  if header.programCount = extendedProgramCount then do
    match ← initial image header with
    | some first => return first.info.toUInt64
    | none => return extendedProgramCount.toUInt64
  else return header.programCount.toUInt64

/-- A segment from its record, with the failure of its contents if they have one. -/
def readSegment (image : Image) (c : Class) (index : UInt64) (record : Window) :
    Compute Segment := do
  let header ← programHeader record c
  let contents ← settle (segmentContents image header)
  return { index, header, contents }

/-- The segment table. The length of the table is an unchecked product. -/
def segmentTable (image : Image) (header : FileHeader) : Compute SegmentTable :=
  let size := programHeaderSize header.elfClass
  let stride := header.programEntrySize.toUInt64
  if header.programOffset = 0 ∨ header.programCount = 0 then return { segments := [] }
  else if stride < size then fail (.invalidEntrySize "program header" size.toNat stride.toNat)
  else do
    let count ← segmentTotal image header
    let table ← (Window.full image).subview header.programOffset (← mul count stride)
    let segments ← table.records count stride size (readSegment image header.elfClass)
    return { segments }

/-- Both tables of a header that was read before. -/
def objectOf (image : Image) (header : FileHeader) : Compute Object := do
  let sections ← sectionTable image header
  let segments ← segmentTable image header
  return { header, sections, segments }

/-- The object or what is wrong with the image, and the image as it is afterwards. -/
def object (image : Image) : Compute (Except Error Object × Image) := do
  match ← settle (fileHeader (Window.full image)) with
  | .error e => return (.error e, image)
  | .ok header =>
    match image.adopt header.order with
    | .error e => return (.error e, image)
    | .ok image => do
      let object ← settle (objectOf image header)
      return (object, image)

/-! ## What they stand for -/

/-- The section is the given one, and so is what became of its contents. -/
structure Section.Reads (s : Section) (t : ElfFormat.Section) : Prop where
  index : s.index.toNat = t.index
  header : s.header = t.header
  contents : Settled SectionContents.Reads s.contents t.contents

/-- Section by section. -/
structure SectionTable.Reads (t : SectionTable) (u : ElfFormat.SectionTable) : Prop where
  sections : List.Forall₂ Section.Reads t.sections u.sections.toList
  nameIndex : t.nameIndex.toNat = u.nameIndex

/-- The segment is the given one, and so is what became of its contents. -/
structure Segment.Reads (s : Segment) (t : ElfFormat.Segment) : Prop where
  index : s.index.toNat = t.index
  header : s.header = t.header
  contents : Settled SegmentContents.Reads s.contents t.contents

/-- Segment by segment. -/
structure SegmentTable.Reads (t : SegmentTable) (u : ElfFormat.SegmentTable) : Prop where
  segments : List.Forall₂ Segment.Reads t.segments u.segments.toList

/-- The header is the same, and both tables stand for the given ones. -/
structure Object.Reads (o : Object) (p : ElfFormat.Object) : Prop where
  header : o.header = p.header
  sections : o.sections.Reads p.sections
  segments : o.segments.Reads p.segments

section Exactness

variable {image : Image} (small : image.length < 2 ^ 63) (header : FileHeader)
include small

theorem initial_exact :
    Exact Eq (initial image header) (SectionHeader.initial image header) := by
  have hview := (Window.full_reads small).subview_exact header.sectionOffset
    (sectionHeaderSize header.elfClass)
  rw [toNat_sectionHeaderSize] at hview
  unfold initial SectionHeader.initial
  simp only [UInt64.lt_iff_toNat_lt, toNat_sectionHeaderSize, UInt16.toNat_toUInt64]
  split
  · exact .pure rfl
  split
  · exact .fail _
  refine hview.bind fun record _ hr => ?_
  exact (sectionHeader_exact hr header.elfClass).bind fun first _ he => he ▸ .pure rfl

omit small in
theorem toNat_sectionTotal (first : SectionHeader) :
    (sectionTotal header first).toNat = header.sectionTotal first := by
  unfold sectionTotal FileHeader.sectionTotal
  split
  · rfl
  · exact UInt16.toNat_toUInt64 _

omit small in
theorem toNat_sectionNameIndex (first : SectionHeader) :
    (sectionNameIndex header first).toNat = header.sectionNameIndex first := by
  unfold sectionNameIndex FileHeader.sectionNameIndex
  split
  · exact UInt32.toNat_toUInt64 _
  · exact UInt16.toNat_toUInt64 _

theorem readSection_exact (c : Class) (index : UInt64) {w : Window} {v : View} (hr : w.Reads v) :
    Exact Section.Reads (readSection image c index w)
      (SectionTable.readRecord image c index.toNat v) := by
  refine (sectionHeader_exact hr c).bind fun h _ he => he ▸ ?_
  refine (sectionContents_exact small c h).settle.bind_ok fun contents hc => ?_
  exact .pure ⟨rfl, rfl, hc⟩

/-- The number of sections may be any word. If its product with the stride is none, no file is that
long. -/
theorem sections_exact (first : SectionHeader) :
    Exact SectionTable.Reads (sections image header first)
      (SectionTable.read image header first) := by
  have hfull := Window.full_reads small
  unfold sections SectionTable.read Image.view checkedMul
  simp only [← toNat_sectionTotal, ← toNat_sectionHeaderSize]
  generalize sectionTotal header first = count
  rw [← UInt16.toNat_toUInt64]
  generalize header.sectionEntrySize.toUInt64 = stride
  by_cases hfit : count.toNat * stride.toNat < 2 ^ 64
  · have hmin : min (count.toNat * stride.toNat) maxWord = (count * stride).toNat := by
      rw [toNat_mul hfit]
      exact Nat.min_eq_left (Nat.le_pred_of_lt hfit)
    rw [if_pos hfit, hmin]
    refine (hfull.subview_exact header.sectionOffset (count * stride)).bind fun table _ ht => ?_
    refine (records_exact ht hfit fun index w v hr =>
      readSection_exact small header.elfClass index hr).bind fun sections _ hs => ?_
    exact .pure ⟨hs, toNat_sectionNameIndex header first⟩
  · have hmin : min (count.toNat * stride.toNat) maxWord = (UInt64.ofNat maxWord).toNat :=
      Nat.min_eq_right (Nat.le_trans (Nat.sub_le _ 1) (Nat.not_lt.1 hfit))
    have hnone : image.full.subview header.sectionOffset.toNat (UInt64.ofNat maxWord).toNat =
        .error ((Window.full image).outOfBounds header.sectionOffset (.ofNat maxWord)) := by
      rw [View.subview_eq, hfull.outOfBounds_eq, if_neg]
      show ¬_ + (2 ^ 64 - 1) ≤ image.length
      omega
    rw [if_neg hfit, hmin, hnone]
    exact .fail _

theorem sectionTable_exact :
    Exact SectionTable.Reads (sectionTable image header)
      (ElfFormat.SectionTable.parse image header) := by
  refine (initial_exact small header).bind fun first _ he => he ▸ ?_
  cases first with
  | none => exact .pure ⟨.nil, rfl⟩
  | some first => exact sections_exact small header first

/-- The number of segments has 32 bits, wherever it comes from. -/
theorem segmentTotal_exact :
    Exact (fun count n => count.toNat = n ∧ n < 2 ^ 32) (segmentTotal image header)
      (header.segmentTotal image) := by
  have hcount := Nat.lt_trans header.programCount.toNat_lt (show 2 ^ 16 < 2 ^ 32 by decide)
  unfold segmentTotal FileHeader.segmentTotal
  split
  · next hmarker =>
    refine (initial_exact small header).bind fun first _ he => he ▸ ?_
    cases first with
    | none => exact .pure ⟨by rw [hmarker, UInt16.toNat_toUInt64], hcount⟩
    | some first => exact .pure ⟨UInt32.toNat_toUInt64 _, first.info.toNat_lt⟩
  · exact .pure ⟨UInt16.toNat_toUInt64 _, hcount⟩

theorem readSegment_exact (c : Class) (index : UInt64) {w : Window} {v : View} (hr : w.Reads v) :
    Exact Segment.Reads (readSegment image c index w)
      (SegmentTable.readRecord image c index.toNat v) := by
  refine (programHeader_exact hr c).bind fun h _ he => he ▸ ?_
  refine (segmentContents_exact small h).settle.bind_ok fun contents hc => ?_
  exact .pure ⟨rfl, rfl, hc⟩

/-- The length of the table is a product of 32 bits and 16, which is a word. -/
theorem segmentTable_exact :
    Exact SegmentTable.Reads (segmentTable image header)
      (ElfFormat.SegmentTable.parse image header) := by
  have hstride := header.programEntrySize.toNat_lt
  unfold segmentTable ElfFormat.SegmentTable.parse SegmentTable.read Image.view
  simp only [UInt64.lt_iff_toNat_lt, toNat_programHeaderSize, UInt16.toNat_toUInt64]
  split
  · exact .pure ⟨.nil⟩
  split
  · exact .fail _
  refine (segmentTotal_exact small header).bind fun count n hn => ?_
  obtain ⟨rfl, hlt⟩ := hn
  rw [← UInt16.toNat_toUInt64] at hstride ⊢
  generalize header.programEntrySize.toUInt64 = stride at hstride ⊢
  have hfit : count.toNat * stride.toNat < 2 ^ 64 :=
    Nat.lt_trans (Nat.mul_lt_mul'' hlt hstride) (by decide)
  rw [mul_eq hfit, pure_bind, ← toNat_mul hfit, ← toNat_programHeaderSize]
  refine ((Window.full_reads small).subview_exact _ _).bind fun table _ ht => ?_
  refine (records_exact ht hfit fun index w v hr =>
    readSegment_exact small header.elfClass index hr).bind fun segments _ hs => ?_
  exact .pure ⟨hs⟩

theorem objectOf_exact :
    Exact Object.Reads (objectOf image header) (ElfFormat.Object.ofHeader image header) := by
  refine (sectionTable_exact small header).bind fun sections _ hs => ?_
  refine (segmentTable_exact small header).bind fun segments _ hp => ?_
  exact .pure ⟨rfl, hs, hp⟩

omit header in
/-- The order that the image has afterwards is the same too, whether or not decoding fails. -/
theorem object_exact :
    Exact (fun a b => Settled Object.Reads a.1 b.1 ∧ a.2 = b.2) (object image)
      (.ok (ElfFormat.Object.parse image)) := by
  unfold object ElfFormat.Object.parse
  refine (fileHeader_exact (Window.full_reads small)).settle.bind_ok fun r hr => ?_
  generalize FileHeader.parse image.full = parsed at hr ⊢
  rcases hr with ⟨rfl⟩ | e
  · next header =>
    simp only []
    cases hadopt : image.adopt header.order with
    | error e => exact .pure ⟨.failure e, rfl⟩
    | ok adopted =>
      have hbytes : adopted.length = image.length := by rw [Image.fixedOrder_of_adopt hadopt]; rfl
      refine (objectOf_exact (hbytes ▸ small) header).settle.bind_ok fun object ho => ?_
      exact .pure ⟨ho, rfl⟩
  · exact .pure ⟨.failure e, rfl⟩

end Exactness

end ElfFormat.Machine
