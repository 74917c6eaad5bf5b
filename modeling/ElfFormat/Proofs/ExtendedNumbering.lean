import ElfFormat.Proofs.Answers
import ElfFormat.Proofs.Deferral

/-!
# Extended numbering is transparent

A file that keeps the number of its sections, the index of the section that names them or the number
of its segments in its first section header decodes to the same object as a file that keeps them in
its header (`extended_numbering_transparent`), apart from the first section and from what happened
to stand where the numbers were written. The totals do not move (`sectionTotal_deferring`,
`programTotal_deferring`), so both tables are read from the same places, and what they answer is
compared section by section.
-/

namespace ElfFormat

/-- The patches leave alone what the section occupies of the file. -/
def SectionHeader.Spared (h : SectionHeader) (patches : List Patch) : Prop :=
  h.type ≠ SectionType.null → h.type ≠ SectionType.noBits →
    Patch.Spare patches h.offset.toNat h.size.toNat

instance (h : SectionHeader) (patches : List Patch) : Decidable (h.Spared patches) :=
  inferInstanceAs (Decidable (_ → _ → _))

/-- No patch touches the range that the header gives. -/
def ProgramHeader.Spared (h : ProgramHeader) (patches : List Patch) : Prop :=
  Patch.Spare patches h.offset.toNat h.fileSize.toNat

instance (h : ProgramHeader) (patches : List Patch) : Decidable (h.Spared patches) :=
  inferInstanceAs (Decidable (Patch.Spare _ _ _))

/-- The patches leave alone the section that holds the section names, if any does. -/
def SectionTable.NamesSpared (t : SectionTable) (patches : List Patch) : Prop :=
  t.nameIndex ≠ 0 → ∀ s, t.section? t.nameIndex = .ok s → s.header.Spared patches

/-- Of an object only the first section and what the patches touch may differ from another one. -/
structure Object.Keeps (q p : Object) (patches : List Patch) : Prop where
  sectionCount : q.sections.size = p.sections.size
  nameIndex : q.sections.nameIndex = p.sections.nameIndex
  segmentCount : q.segments.size = p.segments.size
  sectionHeader : ∀ i (hi : i < p.sections.sections.size) (hj : i < q.sections.sections.size),
    i ≠ 0 → q.sections.sections[i].header = p.sections.sections[i].header
  segmentHeader : ∀ i (hi : i < p.segments.segments.size) (hj : i < q.segments.segments.size),
    q.segments.segments[i].header = p.segments.segments[i].header
  section_eq : ∀ i (hi : i < p.sections.sections.size) (hj : i < q.sections.sections.size),
    i ≠ 0 → p.sections.sections[i].header.Spared patches →
      q.sections.sections[i] = p.sections.sections[i]
  segment_eq : ∀ i (hi : i < p.segments.segments.size) (hj : i < q.segments.segments.size),
    p.segments.segments[i].header.Spared patches → q.segments.segments[i] = p.segments.segments[i]
  sectionName : p.sections.NamesSpared patches →
    ∀ i (hi : i < p.sections.sections.size) (hj : i < q.sections.sections.size),
      q.sections.sectionName q.sections.sections[i] = p.sections.sectionName p.sections.sections[i]
  byName : p.sections.NamesSpared patches → ∀ name,
    (q.sections.byName name).map (·.index) = (p.sections.byName name).map (·.index)
  byAddress : ∀ address,
    (q.segments.byAddress address).map (·.index) = (p.segments.byAddress address).map (·.index)
  interpreter : (∀ s ∈ p.segments.segments, s.header.type = SegmentType.interpreter →
    s.header.Spared patches) → q.interpreter? = p.interpreter?

/-! ## The tables of the two files -/

/-- The numbers stand in the header of the file, and those that are moved may stand in a first
section header behind it. -/
structure FileHeader.CanDefer (h : FileHeader) (moved : List Deferred) : Prop where
  behind : h.elfClass.headerSize ≤ h.sectionOffset.toNat
  sectionCount : h.sectionCount ≠ 0
  nameIndex : h.nameIndex ≠ 0xffff
  programCount : h.programCount ≠ 0xffff
  programs : .programCount ∈ moved → h.programCount ≠ 0

/-- The number of segments of a file that keeps it in its header. -/
def FileHeader.segmentCount (h : FileHeader) : Nat :=
  if h.programOffset = 0 then 0 else h.programCount.toNat

namespace FileHeader

variable {h : FileHeader} {moved : List Deferred} (C : h.CanDefer moved)
include C

theorem CanDefer.sectionOffset_ne_zero : h.sectionOffset ≠ 0 := by
  intro h0
  have := C.behind
  rw [h0] at this
  cases hc : h.elfClass <;> rw [hc] at this <;> exact absurd this (by decide)

theorem CanDefer.sectionTotal (first : SectionHeader) :
    h.sectionTotal first = h.sectionCount.toNat := by
  unfold FileHeader.sectionTotal
  rw [if_neg C.sectionCount]

theorem CanDefer.sectionNameIndex (first : SectionHeader) :
    h.sectionNameIndex first = h.nameIndex.toNat := by
  unfold FileHeader.sectionNameIndex
  exact if_neg C.nameIndex

/-- The number of sections is found in either place. -/
theorem sectionTotal_deferring (first : SectionHeader) :
    (h.deferring moved).sectionTotal (first.keeping h moved) = h.sectionCount.toNat := by
  unfold sectionTotal deferring SectionHeader.keeping
  by_cases hm : .sectionCount ∈ moved
  · simp [hm, Deferred.marker]
  · simp [hm, Deferred.number, C.sectionCount]

theorem sectionNameIndex_deferring (first : SectionHeader) :
    (h.deferring moved).sectionNameIndex (first.keeping h moved) = h.nameIndex.toNat := by
  have hn : h.nameIndex ≠ SectionIndex.extended := C.nameIndex
  unfold sectionNameIndex deferring SectionHeader.keeping
  by_cases hm : .nameIndex ∈ moved
  · simp [hm, Deferred.marker]
  · simp [hm, Deferred.number, hn]

theorem programCount_deferring_eq_zero :
    (h.deferring moved).programCount = 0 ↔ h.programCount = 0 := by
  unfold deferring
  by_cases hm : .programCount ∈ moved
  · simp only [hm, if_true, Deferred.marker]
    exact ⟨fun h0 => absurd h0 (by decide), fun h0 => absurd h0 (C.programs hm)⟩
  · simp [hm, Deferred.number]

theorem sectionTable_eq (image : Image) :
    h.sectionTable image = .ofFn h.sectionCount.toNat h.nameIndex.toNat (h.sectionAt image) := by
  unfold sectionTable
  rw [if_neg C.sectionOffset_ne_zero, C.sectionTotal, C.sectionNameIndex]
  rfl

omit C in
/-- A segment table depends on its number of records, wherever that is given. -/
theorem segmentTable_of_total {k : FileHeader} {image : Image} {count : UInt16}
    (hz : k.programCount = 0 ↔ count = 0) (ht : k.programTotal image.full = count.toNat) :
    k.segmentTable image =
      .ofFn (if k.programOffset = 0 then 0 else count.toNat) (k.segmentAt image) := by
  unfold segmentTable
  by_cases h0 : k.programOffset = 0
  · rw [if_pos (.inl h0), if_pos h0]
    rfl
  · rw [if_neg h0, ht]
    split
    · next hc =>
      rw [hz.1 (hc.resolve_left h0)]
      rfl
    · rfl

theorem segmentTable_eq (image : Image) :
    h.segmentTable image = .ofFn h.segmentCount (h.segmentAt image) := by
  have hp : h.programCount ≠ extendedProgramCount := C.programCount
  exact segmentTable_of_total Iff.rfl (if_neg hp)

end FileHeader

namespace Deferral

variable {a b : Image} {h : FileHeader} {moved : List Deferred} (H : Deferral a b h moved)
include H

section Totals

variable (C : h.CanDefer moved) (ho : a.order = h.order)
include C ho

theorem programTotal_deferring :
    (h.deferring moved).programTotal b.full = h.programCount.toNat := by
  have h0 : (h.deferring moved).sectionOffset ≠ 0 := C.sectionOffset_ne_zero
  have hp : h.programCount ≠ extendedProgramCount := C.programCount
  unfold FileHeader.programTotal
  rw [if_neg h0, H.sectionHeaderAt_zero ho]
  unfold FileHeader.deferring SectionHeader.keeping
  by_cases hm : .programCount ∈ moved
  · simp [hm, Deferred.marker]
  · simp [hm, Deferred.number, hp]

theorem sectionTable_eq :
    (h.deferring moved).sectionTable b =
      .ofFn h.sectionCount.toNat h.nameIndex.toNat ((h.deferring moved).sectionAt b) := by
  have h0 : (h.deferring moved).sectionOffset ≠ 0 := C.sectionOffset_ne_zero
  unfold FileHeader.sectionTable
  rw [if_neg h0, H.sectionHeaderAt_zero ho, FileHeader.sectionTotal_deferring C,
    FileHeader.sectionNameIndex_deferring C]
  rfl

theorem segmentTable_eq :
    (h.deferring moved).segmentTable b =
      .ofFn h.segmentCount ((h.deferring moved).segmentAt b) :=
  FileHeader.segmentTable_of_total (FileHeader.programCount_deferring_eq_zero C)
    (H.programTotal_deferring C ho)

end Totals

section Records

variable (hs : h.elfClass.sectionHeaderSize ≤ h.sectionEntrySize.toNat)
include hs

theorem sectionHeaderAt_eq {i : Nat} (hi : i ≠ 0) :
    (h.deferring moved).sectionHeaderAt b.full i = h.sectionHeaderAt a.full i :=
  (FileHeader.sectionHeaderAt_congr rfl H.order_eq.symm rfl rfl (H.agreeOn_section hs hi)).symm

theorem sectionHeaderAt_name (ho : a.order = h.order) (i : Nat) :
    ((h.deferring moved).sectionHeaderAt b.full i).name = (h.sectionHeaderAt a.full i).name := by
  by_cases hi : i = 0
  · rw [hi, H.sectionHeaderAt_zero ho]
    rfl
  · rw [H.sectionHeaderAt_eq hs hi]

theorem sectionAt_eq {i : Nat} (hi : i ≠ 0)
    (spared : (h.sectionHeaderAt a.full i).Spared (h.deferral moved)) :
    (h.deferring moved).sectionAt b i = h.sectionAt a i := by
  refine (FileHeader.sectionAt_congr rfl (H.sectionHeaderAt_eq hs hi).symm fun hn hb => ?_).symm
  exact AgreeOn.view_eq (H.agreeOn (spared hn hb)) H.order_eq.symm H.length_eq.symm

omit hs
variable (apart : ∀ j < h.segmentCount, Patch.Spare (h.deferral moved)
  (h.programOffset.toNat + j * h.programEntrySize.toNat) h.elfClass.programHeaderSize)
include apart

theorem programHeaderAt_eq {j : Nat} (hj : j < h.segmentCount) :
    (h.deferring moved).programHeaderAt b.full j = h.programHeaderAt a.full j :=
  (FileHeader.programHeaderAt_congr rfl H.order_eq.symm rfl rfl (H.agreeOn (apart j hj))).symm

theorem segmentAt_eq {j : Nat} (hj : j < h.segmentCount)
    (spared : (h.programHeaderAt a.full j).Spared (h.deferral moved)) :
    (h.deferring moved).segmentAt b j = h.segmentAt a j := by
  refine (FileHeader.segmentAt_congr (H.programHeaderAt_eq apart hj).symm ?_).symm
  exact AgreeOn.view_eq (H.agreeOn spared) H.order_eq.symm H.length_eq.symm

theorem interpreter?_eq {j : Nat} (hj : j < h.segmentCount)
    (spared : (h.programHeaderAt a.full j).type = SegmentType.interpreter →
      (h.programHeaderAt a.full j).Spared (h.deferral moved)) :
    ((h.deferring moved).segmentAt b j).interpreter? = (h.segmentAt a j).interpreter? := by
  by_cases ht : (h.programHeaderAt a.full j).type = SegmentType.interpreter
  · rw [H.segmentAt_eq apart hj (spared ht)]
  · have hb : ((h.deferring moved).segmentAt b j).header.type ≠ SegmentType.interpreter := by
      show ((h.deferring moved).programHeaderAt b.full j).type ≠ _
      rwa [H.programHeaderAt_eq apart hj]
    rw [SegmentTable.interpreter?_of_type rfl hb, SegmentTable.interpreter?_of_type rfl ht]

end Records

end Deferral

/-! ## The object -/

theorem Object.first_of_ofHeader {image : Image} {header : FileHeader} {o : Object}
    (h0 : header.sectionOffset ≠ 0) (h : ofHeader image header = .ok o) :
    header.elfClass.sectionHeaderSize ≤ header.sectionEntrySize.toNat ∧
      header.sectionOffset.toNat + header.elfClass.sectionHeaderSize ≤ image.length := by
  obtain ⟨sections, hs, -⟩ := bind_eq_ok_iff.1 h
  obtain ⟨hg, -, -⟩ := (SectionTable.parse_eq_ok_iff h0).1 hs
  exact FileHeader.firstRecordGuards_hold_iff.1 hg h0

variable {a b : Image} {h : FileHeader} {moved : List Deferred}

namespace Deferral

/-- The object that is found with the numbers moved keeps what the other one has. -/
theorem found_keeps (H : Deferral a b h moved) (C : h.CanDefer moved) (ho : a.order = h.order)
    (hs : h.elfClass.sectionHeaderSize ≤ h.sectionEntrySize.toNat)
    (apart : ∀ j < h.segmentCount, Patch.Spare (h.deferral moved)
      (h.programOffset.toNat + j * h.programEntrySize.toNat) h.elfClass.programHeaderSize) :
    (Object.found b (h.deferring moved)).Keeps (Object.found a h) (h.deferral moved) := by
  have hp : Object.found a h =
      { header := h
        sections := .ofFn h.sectionCount.toNat h.nameIndex.toNat (h.sectionAt a)
        segments := .ofFn h.segmentCount (h.segmentAt a) } := by
    rw [Object.found, FileHeader.sectionTable_eq C, FileHeader.segmentTable_eq C]
  have hq : Object.found b (h.deferring moved) =
      { header := h.deferring moved
        sections := .ofFn h.sectionCount.toNat h.nameIndex.toNat ((h.deferring moved).sectionAt b)
        segments := .ofFn h.segmentCount ((h.deferring moved).segmentAt b) } := by
    rw [Object.found, H.sectionTable_eq C ho, H.segmentTable_eq C ho]
  have hnames : (SectionTable.ofFn h.sectionCount.toNat h.nameIndex.toNat
      (h.sectionAt a)).NamesSpared (h.deferral moved) → h.nameIndex.toNat ≠ 0 →
      h.nameIndex.toNat < h.sectionCount.toNat →
      (h.deferring moved).sectionAt b h.nameIndex.toNat = h.sectionAt a h.nameIndex.toNat := by
    intro spared h0 hlt
    refine H.sectionAt_eq hs h0 (spared h0 (h.sectionAt a h.nameIndex.toNat) ?_)
    exact (SectionTable.section?_ofFn _).trans (if_pos hlt)
  rw [hp, hq]
  refine
    { sectionCount := SectionTable.size_ofFn.trans SectionTable.size_ofFn.symm
      nameIndex := rfl
      segmentCount := SegmentTable.size_ofFn.trans SegmentTable.size_ofFn.symm
      sectionHeader := fun i hi hj h0 => ?_
      segmentHeader := fun i hi hj => ?_
      section_eq := fun i hi hj h0 spared => ?_
      segment_eq := fun i hi hj spared => ?_
      sectionName := fun spared i hi hj => ?_
      byName := fun spared name => ?_
      byAddress := fun address => ?_
      interpreter := fun spared => ?_ }
  · rw [SectionTable.getElem_ofFn, SectionTable.getElem_ofFn]
    exact H.sectionHeaderAt_eq hs h0
  · rw [SegmentTable.getElem_ofFn, SegmentTable.getElem_ofFn]
    exact H.programHeaderAt_eq apart (by simpa using hi)
  · rw [SectionTable.getElem_ofFn] at spared ⊢
    rw [SectionTable.getElem_ofFn]
    exact H.sectionAt_eq hs h0 spared
  · rw [SegmentTable.getElem_ofFn] at spared ⊢
    rw [SegmentTable.getElem_ofFn]
    exact H.segmentAt_eq apart (by simpa using hi) spared
  · rw [SectionTable.getElem_ofFn, SectionTable.getElem_ofFn]
    exact SectionTable.sectionName_ofFn (hnames spared) (H.sectionHeaderAt_name hs ho i)
  · exact SectionTable.byName_ofFn (hnames spared) (fun i _ => H.sectionHeaderAt_name hs ho i)
      (fun _ => rfl) name
  · refine SegmentTable.byAddress_ofFn (fun i hi => H.programHeaderAt_eq apart hi) ?_ address
    exact fun _ => rfl
  · refine SegmentTable.interpreter_ofFn fun i hi => ?_
    exact H.interpreter?_eq apart hi (spared (h.segmentAt a i)
      (List.mem_toArray.2 (List.mem_map_of_mem (List.mem_range.2 hi))))

/-- The segment table passes its checks with the numbers moved, since it is as long as before. -/
theorem programGuards_hold (H : Deferral a b h moved) (C : h.CanDefer moved)
    (ho : a.order = h.order) (hg : ∀ g ∈ h.programGuards a.full, g.holds = true)
    (hfirst : ∀ g ∈ (h.deferring moved).firstRecordGuards b.full, g.holds = true) :
    ∀ g ∈ (h.deferring moved).programGuards b.full, g.holds = true := by
  have hlength : b.full.length = a.full.length := H.length_eq
  have hp : h.programCount ≠ extendedProgramCount := C.programCount
  have ht : h.programTotal a.full = h.programCount.toNat := if_neg hp
  have hiff : (h.deferring moved).programOffset = 0 ∨ (h.deferring moved).programCount = 0 ↔
      h.programOffset = 0 ∨ h.programCount = 0 :=
    or_congr_right (FileHeader.programCount_deferring_eq_zero C)
  unfold FileHeader.programGuards at hg ⊢
  simp only [H.programTotal_deferring C ho, hlength]
  by_cases hz : h.programOffset = 0 ∨ h.programCount = 0
  · rw [if_pos (hiff.2 hz)]
    exact nofun
  · simp only [if_neg hz, ht] at hg
    obtain ⟨hsize, hg⟩ := List.forall_mem_cons.1 hg
    obtain ⟨-, hextent⟩ := List.forall_mem_append.1 hg
    rw [if_neg (hz ∘ hiff.1)]
    refine List.forall_mem_cons.2 ⟨hsize, List.forall_mem_append.2 ⟨fun g hm => ?_, hextent⟩⟩
    split at hm
    · exact hfirst g hm
    · exact absurd hm List.not_mem_nil

/-- Both tables fit where they did before. -/
theorem ofHeader_eq (H : Deferral a b h moved) (C : h.CanDefer moved) (ho : a.order = h.order)
    {p : Object} (ha : Object.ofHeader a h = .ok p) :
    Object.ofHeader b (h.deferring moved) = .ok (Object.found b (h.deferring moved)) := by
  have h0 : (h.deferring moved).sectionOffset ≠ 0 := C.sectionOffset_ne_zero
  have hlength : b.full.length = a.full.length := H.length_eq
  obtain ⟨sections, hs, ha⟩ := bind_eq_ok_iff.1 ha
  obtain ⟨segments, hm, ha⟩ := bind_eq_ok_iff.1 ha
  obtain ⟨hfirst, hfits, rfl⟩ := (SectionTable.parse_eq_ok_iff C.sectionOffset_ne_zero).1 hs
  rw [SegmentTable.parse_eq] at hm
  obtain ⟨hg, rfl⟩ := Guard.protect_eq_ok_iff.1 hm
  have hfirst' : ∀ g ∈ (h.deferring moved).firstRecordGuards b.full, g.holds = true := by
    unfold FileHeader.firstRecordGuards
    rw [hlength]
    exact hfirst
  have hfits' : SectionTable.Fits b (h.deferring moved)
      ((h.deferring moved).sectionHeaderAt b.full 0) := by
    unfold SectionTable.Fits at hfits ⊢
    rw [C.sectionTotal] at hfits
    rw [H.sectionHeaderAt_zero ho, FileHeader.sectionTotal_deferring C, H.length_eq]
    exact hfits
  have hsections := (SectionTable.parse_eq_ok_iff h0).2 ⟨hfirst', hfits', rfl⟩
  have hsegments := (SegmentTable.parse_eq (h.deferring moved) b).trans
    (Guard.protect_eq_ok_iff.2 ⟨H.programGuards_hold C ho hg hfirst', rfl⟩)
  rw [Object.ofHeader, hsections, hsegments]
  rfl

end Deferral

/-- Moving any of the numbers of a file into its first section header gives a file that decodes, and
to the same object but for the first section and what the patches touch. -/
theorem extended_numbering_transparent {p : Object} (ha : (Object.parse a).1 = .ok p)
    (moved : List Deferred) (can : p.header.CanDefer moved)
    (apart : ∀ j < p.segments.size, Patch.Spare (p.header.deferral moved)
      (p.header.programOffset.toNat + j * p.header.programEntrySize.toNat)
      p.header.elfClass.programHeaderSize) :
    ∃ q, (Object.parse (a.patched (p.header.deferral moved))).1 = .ok q ∧
      q.header = p.header.deferring moved ∧ q.Keeps p (p.header.deferral moved) := by
  obtain ⟨h, rfl⟩ : ∃ h, p = .found { a with fixedOrder := some h.order } h :=
    ⟨_, Object.eq_found_of_parse ha⟩
  obtain ⟨hheader, fixed, hadopt, hobject⟩ := Object.parse_eq_ok_iff.1 ha
  obtain rfl := Image.fixedOrder_of_adopt hadopt
  have C : h.CanDefer moved := can
  obtain ⟨hs, hfit'⟩ := Object.first_of_ofHeader C.sectionOffset_ne_zero hobject
  have hfit : h.sectionOffset.toNat + h.elfClass.sectionHeaderSize ≤ a.length := hfit'
  have hb : Deferral a _ h moved := .of_patched C.behind hfit moved
  have hheader' : FileHeader.parse (a.patched (h.deferral moved)).full = .ok (h.deferring moved) :=
    hb.parse_header hheader
  have H : Deferral { a with fixedOrder := some h.order } _ h moved :=
    .of_patched C.behind hfit' moved
  rw [Image.patched_inOrder] at H
  refine ⟨.found _ (h.deferring moved), Object.parse_eq_ok_iff.2 ⟨hheader', _,
    Image.adopt_congr (Image.fixedOrder_patched _ _) hadopt, H.ofHeader_eq C rfl hobject⟩, rfl, ?_⟩
  refine H.found_keeps C rfl hs fun j hj => apart j ?_
  show j < (h.segmentTable _).segments.size
  rwa [FileHeader.segmentTable_eq C, SegmentTable.size_ofFn]

/-- The header of a file with two sections and a segment, whose numbers all stand in it. -/
def plainHeader : FileHeader where
  ident := { elfClass := .elf32, encoding := .msb, version := 1, osAbi := 0, abiVersion := 0 }
  type := 2
  machine := 8
  version := 1
  entry := 0
  programOffset := 52
  sectionOffset := 84
  flags := 0
  headerSize := 52
  programEntrySize := 32
  programCount := 1
  sectionEntrySize := 40
  sectionCount := 2
  nameIndex := 1

/-- A file with one segment and a string table, which counts in its header. -/
def plain : Image :=
  let program : ProgramHeader :=
    { type := 1, flags := 4, offset := 164, virtualAddress := 4096, physicalAddress := 0
      fileSize := 3, memorySize := 3, alignment := 1 }
  let first : SectionHeader :=
    { name := 0, type := 0, flags := 0, address := 0, offset := 0, size := 0, link := 0, info := 0
      alignment := 0, entrySize := 0 }
  let names : SectionHeader := { first with name := 1, type := 3, offset := 164, size := 3 }
  let bytes := plainHeader.encode (List.replicate 7 0) ++ program.encode .big .elf32 ++
    first.encode .big .elf32 ++ names.encode .big .elf32 ++ [0, 97, 0]
  { bytes := ⟨bytes.toArray⟩ }

theorem extended_numbering_transparent_plain :
    ∃ p q, (Object.parse plain).1 = .ok p ∧
      (Object.parse (plain.patched
        (p.header.deferral [.sectionCount, .nameIndex, .programCount]))).1 = .ok q ∧
      q.header.sectionCount = 0 ∧ q.header.nameIndex = 0xffff ∧ q.header.programCount = 0xffff ∧
      q.sections.size = 2 ∧ q.sections.nameIndex = 1 ∧ q.segments.size = 1 ∧
      q.sections.sections[1]? = p.sections.sections[1]? ∧
      q.segments.segments[0]? = p.segments.segments[0]? := by
  have hd : FileHeader.declared plain.full = plainHeader := by decide +kernel
  have ha := (Object.parse_eq (show plain.fixedOrder = none from rfl)
    (by decide +kernel)).trans (Guard.protect_eq_ok_iff.2 ⟨by decide +kernel, rfl⟩)
  rw [hd] at ha
  have can : plainHeader.CanDefer [.sectionCount, .nameIndex, .programCount] :=
    ⟨by decide, by decide, by decide, by decide, by decide⟩
  obtain ⟨q, hq, hheader, keeps⟩ := extended_numbering_transparent ha _ can (by decide +kernel)
  have hsections : q.sections.size = 2 := keeps.sectionCount
  have hsegments : q.segments.size = 1 := keeps.segmentCount
  refine ⟨_, q, ha, hq, ?_, ?_, ?_, hsections, keeps.nameIndex, hsegments, ?_, ?_⟩
  · rw [hheader]
    rfl
  · rw [hheader]
    rfl
  · rw [hheader]
    rfl
  · have hsize : 1 < q.sections.sections.size := Nat.lt_of_lt_of_eq (by decide) hsections.symm
    rw [getElem?_pos _ 1 hsize, getElem?_pos _ 1 (by decide)]
    exact congrArg some (keeps.section_eq 1 _ _ (by decide) (by decide +kernel))
  · have hsize : 0 < q.segments.segments.size := Nat.lt_of_lt_of_eq (by decide) hsegments.symm
    rw [getElem?_pos _ 0 hsize, getElem?_pos _ 0 (by decide)]
    exact congrArg some (keeps.segment_eq 0 _ _ (by decide +kernel))

end ElfFormat
