import ElfFormat.Proofs.Contents
import ElfFormat.Proofs.Writing

/-!
# Written files are read back

A draft whose numbers fit its class is read back from the file that is written for it
(`written_draft_reads_back`): the free fields of the header, one section for each drafted one
between the null section and the one that holds the names, and one segment for each drafted one.
Each range holds the drafted data, whatever the data then decodes to.
-/

namespace ElfFormat

/-- The section reads as drafted, with its data at `place`. -/
structure SectionDraft.ReadAs (spec : SectionDraft) (o : Object) (s : Section) (place : Nat) :
    Prop where
  name : o.sections.sectionName s = .ok spec.name
  type : s.header.type = spec.type
  flags : s.header.flags = spec.flags
  address : s.header.address = spec.address
  link : s.header.link = spec.link
  info : s.header.info = spec.info
  alignment : s.header.alignment = spec.alignment
  entrySize : s.header.entrySize = spec.entrySize
  offset : s.header.offset.toNat = place
  size : s.header.size.toNat = (spec.size.map (·.toNat)).getD spec.data.length
  contents : s.contents =
    s.header.decode o.header.elfClass (.ofList place spec.data o.header.order)
  view : ∀ v, s.view? = some v ↔
    (∃ contents, s.contents = .ok contents ∧ contents ≠ .absent) ∧
      v = .ofList place spec.data o.header.order

/-- The segment reads as drafted, with its data at `place`. -/
structure SegmentDraft.ReadAs (spec : SegmentDraft) (o : Object) (s : Segment) (place : Nat) :
    Prop where
  type : s.header.type = spec.type
  flags : s.header.flags = spec.flags
  virtualAddress : s.header.virtualAddress = spec.virtualAddress
  physicalAddress : s.header.physicalAddress = spec.physicalAddress
  memorySize : s.header.memorySize = spec.memorySize
  alignment : s.header.alignment = spec.alignment
  offset : s.header.offset.toNat = place
  fileSize : s.header.fileSize.toNat = spec.data.length
  contents : s.contents = s.header.decode (.ofList place spec.data o.header.order)

/-- The object is the drafted one, section by section and segment by segment. -/
structure Draft.ReadAs (d : Draft) (o : Object) : Prop where
  elfClass : o.header.elfClass = d.elfClass
  encoding : o.header.ident.encoding = d.encoding
  osAbi : o.header.ident.osAbi = d.osAbi
  type : o.header.type = d.type
  machine : o.header.machine = d.machine
  entry : o.header.entry = d.entry
  flags : o.header.flags = d.flags
  sectionTotal : o.sections.size = d.sections.length + 2
  nameIndex : o.sections.nameIndex = d.sections.length + 1
  null : ∃ s, o.sections.section? 0 = .ok s ∧ s.header = Draft.nullHeader ∧ s.contents = .ok .absent
  sections : ∀ i spec, d.sections[i]? = some spec → ∃ s place,
    o.sections.section? (i + 1) = .ok s ∧ s.index = i + 1 ∧
      d.sectionOffsets.1[i]? = some place ∧ spec.ReadAs o s place
  segmentTotal : o.segments.size = d.segments.length
  segments : ∀ i spec, d.segments[i]? = some spec → ∃ s place,
    o.segments.segment? i = .ok s ∧ s.index = i ∧
      d.segmentOffsets.1[i]? = some place ∧ spec.ReadAs o s place

namespace Draft

variable {d : Draft}

theorem Writable.sections_eq (h : d.Writable) :
    d.header.sectionTable d.image =
      { sections := ((List.range d.sectionTotal).map (d.header.sectionAt d.image)).toArray
        nameIndex := d.sections.length + 1 } := by
  have h0 : d.header.sectionOffset ≠ 0 := by
    intro e
    have ho := toNat_sectionOffset h
    have hr := le_roundUp (d.nameTableOffset + d.nameTable.length) unit
    have hn : 0 < d.nameTable.length := by
      unfold nameTable
      rw [List.cons_append]
      exact Nat.succ_pos _
    rw [e, sectionTableOffset] at ho
    have hz : (0 : UInt64).toNat = 0 := rfl
    omega
  rw [FileHeader.sectionTable, if_neg h0, sectionTotal_eq h, sectionNameIndex_eq h]

theorem Writable.section_eq (h : d.Writable) {i : Nat} {header : SectionHeader}
    (hi : d.sectionHeaders[i]? = some header) :
    ∃ s, (d.header.sectionTable d.image).section? i = .ok s ∧ s.index = i ∧ s.header = header ∧
      s.contents = header.contents d.image d.elfClass := by
  obtain ⟨hlt, -⟩ := List.getElem?_eq_some_iff.1 hi
  rw [length_sectionHeaders] at hlt
  refine ⟨d.header.sectionAt d.image i, ?_, rfl, h.sectionHeaderAt_eq hi, ?_⟩
  · rw [h.sections_eq, SectionTable.section?]
    simp [hlt]
  · show (d.header.sectionHeaderAt d.image.full i).contents d.image d.elfClass = _
    rw [h.sectionHeaderAt_eq hi]

theorem Writable.segments_eq (h : d.Writable) :
    d.header.segmentTable d.image =
      { segments :=
          ((List.range d.segments.length).map (d.header.segmentAt d.image)).toArray } := by
  have hc := toNat_programCount h
  have ho := toNat_programOffset h
  have hz : (0 : UInt64).toNat = 0 := rfl
  have hz' : (0 : UInt16).toNat = 0 := rfl
  rw [FileHeader.segmentTable]
  by_cases he : d.segments.isEmpty
  · have hn : d.segments.length = 0 := List.length_eq_zero_iff.2 (List.isEmpty_iff.1 he)
    have h0 : d.header.programCount = 0 := by
      refine UInt16.toNat_inj.1 ?_
      rw [hc, hn, hz']
    rw [if_pos (.inr h0), hn]
    rfl
  · have hn : d.segments.length ≠ 0 :=
      fun e => he (List.isEmpty_iff.2 (List.length_eq_zero_iff.1 e))
    have hr := le_roundUp d.elfClass.headerSize unit
    have hpos : 0 < d.elfClass.headerSize := by
      cases d.elfClass <;> decide
    rw [programOffset, if_neg he] at ho
    have h0 : ¬(d.header.programOffset = 0 ∨ d.header.programCount = 0) := by
      rintro (e | e)
      · rw [e, hz] at ho
        omega
      · rw [e, hz'] at hc
        omega
    rw [if_neg h0, programTotal_eq h]

theorem Writable.segment_eq (h : d.Writable) {i place : Nat} {spec : SegmentDraft}
    (hs : d.segments[i]? = some spec) (hp : d.segmentOffsets.1[i]? = some place) :
    ∃ s, (d.header.segmentTable d.image).segment? i = .ok s ∧ s.index = i ∧
      s.header = programHeader spec place ∧
      s.contents = (programHeader spec place).contents d.image := by
  obtain ⟨hlt, -⟩ := List.getElem?_eq_some_iff.1 hs
  refine ⟨d.header.segmentAt d.image i, ?_, rfl, h.programHeaderAt_eq hs hp, ?_⟩
  · rw [h.segments_eq, SegmentTable.segment?]
    simp [hlt]
  · show (d.header.programHeaderAt d.image.full i).contents d.image = _
    rw [h.programHeaderAt_eq hs hp]

/-- A name that the table holds is found through the section that holds the names. -/
theorem Writable.string_eq (h : d.Writable) {offset : Nat} {name : String}
    (hh : Holds d.nameTable offset (nameBytes name)) (hn : 0 ∉ Utf8.encode name) :
    (d.header.sectionTable d.image).string (d.sections.length + 1) offset = .ok name := by
  obtain ⟨s, hs, -, -, hc⟩ := h.section_eq (sectionHeaders_last d)
  have hlt := h.nameTable_fits
  have hrange : d.nameTableHeader.range d.image =
      .ok (.ofList d.nameTableOffset d.nameTable d.encoding.order) := by
    have ho : d.nameTableHeader.offset.toNat = d.nameTableOffset :=
      Class.toNat_ofNat (c := d.elfClass) (by omega)
    have hl : d.nameTableHeader.size.toNat = d.nameTable.length :=
      Class.toNat_ofNat (c := d.elfClass) (by omega)
    rw [SectionHeader.range, ho, hl, view_eq holds_nameTable]
  rw [SectionHeader.contents_eq_decode fun _ => hrange] at hc
  have ht : (d.header.sectionTable d.image).stringTable (d.sections.length + 1) =
      .ok ⟨.ofList d.nameTableOffset d.nameTable d.encoding.order⟩ :=
    bind_eq_ok_iff.2 ⟨s, hs, bind_eq_ok_iff.2 ⟨_, hc, rfl⟩⟩
  rw [SectionTable.string]
  refine bind_eq_ok_iff.2 ⟨_, ht, ?_⟩
  obtain ⟨front, rest, hb, rfl⟩ := hh
  rw [StringTable.string, View.text_eq_ok_iff, View.toList_ofList, View.length_ofList, hb,
    List.drop_left]
  refine ⟨?_, ?_⟩
  · rw [List.length_append, List.length_append, nameBytes, List.length_append]
    have h1 : ([0] : List UInt8).length = 1 := rfl
    omega
  · have hpos : ∀ b ∈ Utf8.encode name, decide (b ≠ 0) = true :=
      fun b hb => decide_eq_true fun e => hn (e ▸ hb)
    rw [List.take_of_length_le (by simp), nameBytes, List.append_assoc,
      List.takeWhile_append_of_pos hpos]
    simp

theorem Writable.sectionName_eq (h : d.Writable) {i name : Nat} {spec : SectionDraft} {s : Section}
    (hs : d.sections[i]? = some spec) (hn : (nameOffsets 1 d.sections).1[i]? = some name)
    (hname : s.header.name = .ofNat name) :
    (d.header.sectionTable d.image).sectionName s = .ok spec.name := by
  have hh : Holds d.nameTable name (nameBytes spec.name) :=
    @holds_names d.sections [0] (nameBytes nameOfNames) i name spec hn hs
  have hle := hh.le_length
  have hlt := h.nameTable_lt
  have hto : s.header.name.toNat = name := by
    rw [hname]
    refine UInt32.toNat_ofNat_of_lt' (Nat.lt_of_le_of_lt ?_ hlt)
    exact Nat.le_trans (Nat.le_add_right ..) hle
  have hidx : (d.header.sectionTable d.image).nameIndex = d.sections.length + 1 := by
    rw [h.sections_eq]
  rw [SectionTable.sectionName, hidx, if_neg (Nat.succ_ne_zero _), hto]
  exact h.string_eq hh (h.sections spec (List.mem_of_getElem? hs)).name

/-- The contents of a section are decoded from the drafted data, whatever they are. -/
theorem Writable.section_reads (h : d.Writable) {i : Nat} {spec : SectionDraft}
    (hs : d.sections[i]? = some spec) :
    ∃ s place, (d.header.sectionTable d.image).section? (i + 1) = .ok s ∧ s.index = i + 1 ∧
      d.sectionOffsets.1[i]? = some place ∧ spec.ReadAs (.found d.image d.header) s place := by
  obtain ⟨name, place, hn, hp⟩ := exists_places hs
  obtain ⟨s, hsec, hidx, hhead, hc⟩ := h.section_eq (sectionHeaders_succ hs hn hp)
  have hw := h.sections spec (List.mem_of_getElem? hs)
  have hlt := h.section_lt hs hp
  have hoff : (sectionHeader spec name place).offset.toNat = place :=
    Class.toNat_ofNat (c := d.elfClass) (by omega)
  have hsize : (sectionHeader spec name place).size.toNat =
      (spec.size.map (·.toNat)).getD spec.data.length := by
    show (spec.size.getD _).toNat = _
    rcases spec.size with _ | n
    · exact Class.toNat_ofNat (c := d.elfClass) (by omega)
    · rfl
  have hcontents : s.contents = (sectionHeader spec name place).decode d.elfClass
      (.ofList place spec.data d.encoding.order) := by
    refine hc.trans (SectionHeader.contents_eq_decode fun hform => ?_)
    -- Only a section without contents has a size of its own.
    have hnone : spec.size = none := by
      rcases hz : spec.size with _ | n
      · rfl
      · exact absurd (if_pos (hw.size n hz).2) hform
    rw [hnone] at hsize
    rw [SectionHeader.range, hoff, hsize]
    exact view_eq (holds_section hp hs)
  have hname := h.sectionName_eq hs hn (congrArg SectionHeader.name hhead)
  obtain ⟨index, header, decoded⟩ := s
  obtain rfl : header = sectionHeader spec name place := hhead
  exact ⟨_, place, hsec, hidx, hp, hname, rfl, rfl, rfl, rfl, rfl, rfl, rfl, hoff, hsize, hcontents,
    Section.view?_iff_of_decode hcontents⟩

theorem Writable.segment_reads (h : d.Writable) {i : Nat} {spec : SegmentDraft}
    (hs : d.segments[i]? = some spec) :
    ∃ s place, (d.header.segmentTable d.image).segment? i = .ok s ∧ s.index = i ∧
      d.segmentOffsets.1[i]? = some place ∧ spec.ReadAs (.found d.image d.header) s place := by
  obtain ⟨hi, -⟩ := List.getElem?_eq_some_iff.1 hs
  obtain ⟨place, hp⟩ : ∃ place, d.segmentOffsets.1[i]? = some place := by
    refine ⟨_, List.getElem?_eq_getElem ?_⟩
    rwa [segmentOffsets, length_offsets, List.length_map]
  obtain ⟨s, hseg, hidx, hhead, hc⟩ := h.segment_eq hs hp
  have hlt := h.segment_lt hs hp
  have hoff : (programHeader spec place).offset.toNat = place :=
    Class.toNat_ofNat (c := d.elfClass) (by omega)
  have hsize : (programHeader spec place).fileSize.toNat = spec.data.length :=
    Class.toNat_ofNat (c := d.elfClass) (by omega)
  have hrange : (programHeader spec place).range d.image =
      .ok (.ofList place spec.data d.encoding.order) := by
    rw [ProgramHeader.range, hoff, hsize]
    exact view_eq (holds_segment hp hs)
  have hcontents := hc.trans (ProgramHeader.contents_eq_decode hrange)
  obtain ⟨index, header, decoded⟩ := s
  obtain rfl : header = programHeader spec place := hhead
  exact ⟨_, place, hseg, hidx, hp, rfl, rfl, rfl, rfl, rfl, rfl, hoff, hsize, hcontents⟩

end Draft

/-- The file that is written for a draft is read back as the draft. -/
theorem written_draft_reads_back {d : Draft} (h : d.Writable) :
    ∃ o, (Object.parse { bytes := ⟨d.bytes.toArray⟩ }).1 = .ok o ∧ d.ReadAs o := by
  refine ⟨_, h.parse_eq, ?_⟩
  have h0 : d.sectionHeaders[0]? = some Draft.nullHeader := rfl
  obtain ⟨s, hs, -, hhead, hc⟩ := h.section_eq h0
  exact
    { elfClass := rfl, encoding := rfl, osAbi := rfl, type := rfl, machine := rfl, entry := rfl
      flags := rfl
      sectionTotal := by
        show (d.header.sectionTable d.image).sections.size = _
        rw [h.sections_eq]
        simp [Draft.sectionTotal]
      nameIndex := by
        show (d.header.sectionTable d.image).nameIndex = _
        rw [h.sections_eq]
      null := ⟨s, hs, hhead, hc⟩
      sections := fun i spec hi => h.section_reads hi
      segmentTotal := by
        show (d.header.segmentTable d.image).segments.size = _
        rw [h.segments_eq]
        simp
      segments := fun i spec hi => h.segment_reads hi }

/-- A big-endian draft with a section of data, one without contents and a segment. -/
def Draft.sample : Draft where
  elfClass := .elf32
  encoding := .msb
  sections := [
    { name := ".data", type := 1, data := [1, 2, 3] },
    { name := ".bss", type := SectionType.noBits, size := some 64 } ]
  segments := [{ type := SegmentType.load, memorySize := 8, data := [7] }]

/-- The first drafted section is found by its index, with its name, its place and its bytes. -/
theorem written_draft_reads_back_sample :
    Draft.sample.Writable ∧ ∃ o s,
      (Object.parse { bytes := ⟨Draft.sample.bytes.toArray⟩ }).1 = .ok o ∧
      o.sections.section? 1 = .ok s ∧ o.sections.sectionName s = .ok ".data" ∧
        s.header.offset.toNat = 96 ∧ s.view? = some (.ofList 96 [1, 2, 3] .big) := by
  have hw : Draft.sample.Writable :=
    { entry := by decide
      sections := by
        intro s hs
        rcases List.mem_cons.1 hs with rfl | hs
        · exact ⟨by decide +kernel, by decide, by decide, by decide, by decide, nofun⟩
        · obtain rfl := List.mem_singleton.1 hs
          refine ⟨by decide +kernel, by decide, by decide, by decide, by decide, ?_⟩
          rintro n ⟨⟩
          exact ⟨by decide, .inr rfl⟩
      segments := by
        intro s hs
        obtain rfl := List.mem_singleton.1 hs
        exact ⟨by decide, by decide, by decide, by decide⟩
      length_lt := by decide +kernel
      nameTable_lt := by decide +kernel
      sections_le := by decide
      segments_le := by decide }
  obtain ⟨o, ho, hr⟩ := written_draft_reads_back hw
  obtain ⟨s, place, hs, -, hp, hread⟩ := hr.sections 0 _ rfl
  obtain rfl : place = 96 := by
    have h96 : Draft.sample.sectionOffsets.1[0]? = some 96 := by decide +kernel
    exact Option.some.inj (hp.symm.trans h96)
  have horder : o.header.order = .big := congrArg Encoding.order hr.encoding
  -- A section of program data has its bytes as its contents, whatever they are.
  have hraw : s.contents = .ok (.raw (.ofList 96 [1, 2, 3] .big)) := by
    rw [hread.contents, horder, SectionHeader.decode, hread.type]
    rfl
  have hview := (hread.view _).2 ⟨⟨_, hraw, by rintro ⟨⟩⟩, rfl⟩
  rw [horder] at hview
  exact ⟨hw, o, s, ho, hs, hread.name, hread.offset, hview⟩

end ElfFormat
