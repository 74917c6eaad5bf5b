import ElfFormat.Proofs.Acceptance

/-!
# Records are decoded on their own

A section depends on its record and on its range of the file, and on nothing else: two files of one
class and order that agree there give the same section, however they differ elsewhere
(`records_isolated`). The header is decoded from a window on the record, and the contents from a
window on the range, so it is enough that windows on bytes that agree are equal
(`AgreeOn.window_eq`). Segments are decoded in the same way.
-/

namespace ElfFormat

/-- The images have the same bytes in a range. -/
def AgreeOn (a b : Image) (offset length : Nat) : Prop :=
  ∀ k < length, a.bytes.data[offset + k]? = b.bytes.data[offset + k]?

instance (a b : Image) (offset length : Nat) : Decidable (AgreeOn a b offset length) :=
  inferInstanceAs (Decidable (∀ k < length, _))

/-- The range lies in both images, which agree on it. -/
def ShareRange (a b : Image) (offset length : Nat) : Prop :=
  offset + length ≤ a.length ∧ offset + length ≤ b.length ∧ AgreeOn a b offset length

instance (a b : Image) (offset length : Nat) : Decidable (ShareRange a b offset length) :=
  inferInstanceAs (Decidable (_ ∧ _ ∧ _))

/-- The images share what the section occupies of the file; a section without contents occupies
nothing. -/
def SectionHeader.Shared (h : SectionHeader) (a b : Image) : Prop :=
  h.type ≠ SectionType.null → h.type ≠ SectionType.noBits →
    ShareRange a b h.offset.toNat h.size.toNat

instance (h : SectionHeader) (a b : Image) : Decidable (h.Shared a b) :=
  inferInstanceAs (Decidable (_ → _ → _))

/-- The images share what the segment occupies of the file. -/
def ProgramHeader.Shared (h : ProgramHeader) (a b : Image) : Prop :=
  ShareRange a b h.offset.toNat h.fileSize.toNat

variable {a b : Image}

theorem AgreeOn.bytes_eq {offset length : Nat} (h : AgreeOn a b offset length) :
    (a.full.toList.drop offset).take length = (b.full.toList.drop offset).take length := by
  rw [Image.toList_full, Image.toList_full]
  refine List.ext_getElem? fun k => ?_
  by_cases hk : k < length
  · rw [List.getElem?_take_of_lt hk, List.getElem?_take_of_lt hk, List.getElem?_drop,
      List.getElem?_drop]
    simpa using h k hk
  · rw [List.getElem?_take_eq_none (Nat.not_lt.1 hk), List.getElem?_take_eq_none (Nat.not_lt.1 hk)]

/-- A window shows the bytes of its range and nothing else of the image. -/
theorem AgreeOn.window_eq {offset length : Nat} (h : AgreeOn a b offset length)
    (ho : a.order = b.order) : a.full.window offset length = b.full.window offset length := by
  refine View.ext_toList rfl ?_ ho
  rw [View.toList_window, View.toList_window, h.bytes_eq]

theorem AgreeOn.view_eq {offset length : Nat} (h : AgreeOn a b offset length)
    (ho : a.order = b.order) (hl : a.length = b.length) :
    a.view offset length = b.view offset length := by
  rw [Image.view_eq, Image.view_eq, hl, h.window_eq ho]

theorem ShareRange.view_eq {offset length : Nat} (h : ShareRange a b offset length)
    (ho : a.order = b.order) : a.view offset length = b.view offset length := by
  obtain ⟨ha, hb, hab⟩ := h
  rw [Image.view_eq, Image.view_eq, if_pos ha, if_pos hb, hab.window_eq ho]

/-- The contents are decoded from the range of the section alone, if it has one. -/
theorem SectionHeader.contents_congr {h : SectionHeader} (c : Class)
    (hr : h.type ≠ SectionType.null → h.type ≠ SectionType.noBits → h.range a = h.range b) :
    h.contents a c = h.contents b c := by
  rw [contents, contents]
  by_cases ht : h.type = SectionType.null ∨ h.type = SectionType.noBits
  · have hf : SectionForm.ofType h.type = .absent := if_pos ht
    rw [hf]
  · obtain ⟨hn, hb⟩ := not_or.1 ht
    rw [hr hn hb]

theorem ProgramHeader.contents_congr {h : ProgramHeader} (hr : h.range a = h.range b) :
    h.contents a = h.contents b := by
  rw [contents, contents, hr]

namespace FileHeader

variable {h k : FileHeader}

theorem sectionHeaderAt_congr (hc : h.elfClass = k.elfClass) (hd : a.order = b.order)
    (ho : h.sectionOffset = k.sectionOffset) (he : h.sectionEntrySize = k.sectionEntrySize)
    {i : Nat}
    (hi : AgreeOn a b (h.sectionOffset.toNat + i * h.sectionEntrySize.toNat)
      h.elfClass.sectionHeaderSize) :
    h.sectionHeaderAt a.full i = k.sectionHeaderAt b.full i := by
  rw [sectionHeaderAt, sectionHeaderAt, sectionRecord, sectionRecord, hi.window_eq hd, ho, he, hc]

/-- A section depends on its header and on the range that this gives. -/
theorem sectionAt_congr (hc : h.elfClass = k.elfClass) {i : Nat}
    (hrec : h.sectionHeaderAt a.full i = k.sectionHeaderAt b.full i)
    (hr : (h.sectionHeaderAt a.full i).type ≠ SectionType.null →
      (h.sectionHeaderAt a.full i).type ≠ SectionType.noBits →
        (h.sectionHeaderAt a.full i).range a = (h.sectionHeaderAt a.full i).range b) :
    h.sectionAt a i = k.sectionAt b i := by
  refine Section.ext_contents rfl hrec ?_
  show (h.sectionHeaderAt a.full i).contents a h.elfClass =
    (k.sectionHeaderAt b.full i).contents b k.elfClass
  rw [← hrec, ← hc]
  exact SectionHeader.contents_congr _ hr

theorem programHeaderAt_congr (hc : h.elfClass = k.elfClass) (hd : a.order = b.order)
    (ho : h.programOffset = k.programOffset) (he : h.programEntrySize = k.programEntrySize)
    {i : Nat}
    (hi : AgreeOn a b (h.programOffset.toNat + i * h.programEntrySize.toNat)
      h.elfClass.programHeaderSize) :
    h.programHeaderAt a.full i = k.programHeaderAt b.full i := by
  rw [programHeaderAt, programHeaderAt, programRecord, programRecord, hi.window_eq hd, ho, he, hc]

theorem segmentAt_congr {i : Nat}
    (hrec : h.programHeaderAt a.full i = k.programHeaderAt b.full i)
    (hr : (h.programHeaderAt a.full i).range a = (h.programHeaderAt a.full i).range b) :
    h.segmentAt a i = k.segmentAt b i := by
  refine Segment.ext_contents rfl hrec ?_
  show (h.programHeaderAt a.full i).contents a = (k.programHeaderAt b.full i).contents b
  rw [← hrec]
  exact ProgramHeader.contents_congr hr

end FileHeader

/-- Of two files of one class and encoding, sections and segments are the same wherever their
records and, if they have any, their ranges are. -/
theorem records_isolated {p q : Object} (ha : (Object.parse a).1 = .ok p)
    (hb : (Object.parse b).1 = .ok q) (hc : p.header.elfClass = q.header.elfClass)
    (hd : p.header.ident.encoding = q.header.ident.encoding) :
    (∀ i (hi : i < p.sections.sections.size) (hj : i < q.sections.sections.size),
      p.header.sectionOffset = q.header.sectionOffset →
      p.header.sectionEntrySize = q.header.sectionEntrySize →
      AgreeOn a b (p.header.sectionOffset.toNat + i * p.header.sectionEntrySize.toNat)
        p.header.elfClass.sectionHeaderSize →
      p.sections.sections[i].header.Shared a b →
      p.sections.sections[i] = q.sections.sections[i]) ∧
    ∀ i (hi : i < p.segments.segments.size) (hj : i < q.segments.segments.size),
      p.header.programOffset = q.header.programOffset →
      p.header.programEntrySize = q.header.programEntrySize →
      AgreeOn a b (p.header.programOffset.toNat + i * p.header.programEntrySize.toNat)
        p.header.elfClass.programHeaderSize →
      p.segments.segments[i].header.Shared a b →
      p.segments.segments[i] = q.segments.segments[i] := by
  obtain ⟨h, rfl⟩ : ∃ h, p = .found { a with fixedOrder := some h.order } h :=
    ⟨_, Object.eq_found_of_parse ha⟩
  obtain ⟨k, rfl⟩ : ∃ k, q = .found { b with fixedOrder := some k.order } k :=
    ⟨_, Object.eq_found_of_parse hb⟩
  have ho : { a with fixedOrder := some h.order : Image }.order =
      { b with fixedOrder := some k.order : Image }.order := congrArg Encoding.order hd
  refine ⟨fun i hi hj hso hse hrec hr => ?_, fun i hi hj hso hse hrec hr => ?_⟩
  · have hs := FileHeader.getElem_sectionTable hi
    rw [show (Object.found _ h).sections.sections[i] = _ from hs] at hr ⊢
    rw [show (Object.found _ k).sections.sections[i] = _ from FileHeader.getElem_sectionTable hj]
    exact FileHeader.sectionAt_congr hc (FileHeader.sectionHeaderAt_congr hc ho hso hse hrec)
      fun hn hb => ShareRange.view_eq (hr hn hb) ho
  · have hs := FileHeader.getElem_segmentTable hi
    rw [show (Object.found _ h).segments.segments[i] = _ from hs] at hr ⊢
    rw [show (Object.found _ k).segments.segments[i] = _ from FileHeader.getElem_segmentTable hj]
    exact FileHeader.segmentAt_congr (FileHeader.programHeaderAt_congr hc ho hso hse hrec)
      (ShareRange.view_eq hr ho)

/-- A file with two sections, of which the first one and what is behind the second vary. -/
def siblings (info : UInt32) (behind : List UInt8) : Image :=
  let header : FileHeader :=
    { ident := { elfClass := .elf32, encoding := .lsb, version := 1, osAbi := 0, abiVersion := 0 }
      type := 1, machine := 3, version := 1, entry := 0, programOffset := 0, sectionOffset := 52
      flags := 0, headerSize := 52, programEntrySize := 0, programCount := 0
      sectionEntrySize := 40, sectionCount := 2, nameIndex := 0 }
  let first : SectionHeader :=
    { name := 0, type := 0, flags := 0, address := 0, offset := 0, size := 0, link := 0, info
      alignment := 0, entrySize := 0 }
  let second : SectionHeader :=
    { first with type := 1, offset := 132, size := 4, info := 0 }
  let bytes := header.encode (List.replicate 7 0) ++ first.encode .little .elf32 ++
    second.encode .little .elf32 ++ [1, 2, 3, 4] ++ behind
  { bytes := ⟨bytes.toArray⟩ }

/-- The first sections differ, and the second ones are the same. -/
theorem records_isolated_siblings :
    ∃ p q, (Object.parse (siblings 0 [])).1 = .ok p ∧
      (Object.parse (siblings 7 [5, 6])).1 = .ok q ∧
      p.sections.sections[0]? ≠ q.sections.sections[0]? ∧
      p.sections.sections[1]? = q.sections.sections[1]? := by
  have ha := (Object.parse_eq (show (siblings 0 []).fixedOrder = none from rfl)
    (by decide +kernel)).trans (Guard.protect_eq_ok_iff.2 ⟨by decide +kernel, rfl⟩)
  have hb := (Object.parse_eq (show (siblings 7 [5, 6]).fixedOrder = none from rfl)
    (by decide +kernel)).trans (Guard.protect_eq_ok_iff.2 ⟨by decide +kernel, rfl⟩)
  refine ⟨_, _, ha, hb, fun h => ?_, ?_⟩
  · exact absurd (congrArg (Option.map (·.header.info)) h) (by decide +kernel)
  · rw [getElem?_pos _ 1 (by decide +kernel), getElem?_pos _ 1 (by decide +kernel)]
    refine congrArg some ((records_isolated ha hb ?_ ?_).1 1 ?_ ?_ ?_ ?_ ?_ ?_) <;>
      decide +kernel

end ElfFormat
