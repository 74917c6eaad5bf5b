import ElfFormat.Proofs.Acceptance
import ElfFormat.Proofs.Answers
import ElfFormat.Proofs.Dispatch
import ElfFormat.Proofs.Isolation

/-!
# Longer files

Bytes put behind a file that decodes take nothing from the object (`parse_append`). The length of an
image is asked for in bounds and told in failures, and enters nothing else: whatever fits is read
from the same bytes in both files (`View.Extends`). So the tables are where they were, and a section
or a segment is the same unless its own range was cut off at the end of the file
(`FileHeader.sectionAt_extends`); then it is decoded from the longer file if its range fits by now.
-/

namespace ElfFormat

/-- The view starts with what the other one has. -/
structure View.Extends (w v : View) : Prop where
  offset_eq : w.offset = v.offset
  order_eq : w.order = v.order
  bytes : v.toList <+: w.toList

/-- The image with more bytes behind it. -/
def Image.append (image : Image) (more : ByteArray) : Image :=
  { image with bytes := image.bytes ++ more }

namespace View.Extends

variable {w v : View} (x : w.Extends v)
include x

theorem length_le : v.length ≤ w.length := by
  rw [← length_toList, ← length_toList]
  exact x.bytes.length_le

theorem inOrder (order : ByteOrder) : (w.inOrder order).Extends (v.inOrder order) :=
  ⟨x.offset_eq, rfl, x.bytes⟩

theorem bytes_eq {offset length : Nat} (h : offset + length ≤ v.length) :
    (w.toList.drop offset).take length = (v.toList.drop offset).take length := by
  refine bytesAt_congr ?_ h
  rw [← length_toList, List.take_length]
  exact (List.prefix_iff_eq_take.1 x.bytes).symm

theorem window_eq {offset length : Nat} (h : offset + length ≤ v.length) :
    w.window offset length = v.window offset length := by
  refine ext_toList (congrArg (· + offset) x.offset_eq) ?_ x.order_eq
  rw [toList_window, toList_window, x.bytes_eq h]

theorem numberAt_eq {offset width : Nat} (h : offset + width ≤ v.length) :
    w.numberAt offset width = v.numberAt offset width := by
  unfold numberAt
  rw [x.bytes_eq h, x.order_eq]

theorem u8At_eq {offset : Nat} (h : offset + 1 ≤ v.length) : w.u8At offset = v.u8At offset :=
  congrArg UInt8.ofNat (x.numberAt_eq h)

end View.Extends

/-! ## The header -/

namespace FileHeader

variable {w v : View} (x : w.Extends v)
include x

theorem ofView_extends {ident : Ident} (fits : ident.elfClass.headerSize ≤ v.length) :
    ofView w ident = ofView v ident := by
  have hsize : ident.elfClass.headerSize = 40 + 3 * ident.elfClass.wordSize := by
    cases ident.elfClass <;> rfl
  unfold ofView
  simp (disch := omega) only [View.u16At, View.u32At, View.wordAt, x.numberAt_eq]

theorem declared_extends (hg : ∀ g ∈ guards v, g.holds = true) : declared w = declared v := by
  simp only [guards, List.forall_mem_cons, decide_eq_true_eq] at hg
  obtain ⟨hsmall, -, -, -, hlarge, -⟩ := hg
  unfold declared
  rw [x.u8At_eq (by omega), x.u8At_eq (by omega)]
  have hident : ∀ c d, Ident.ofView w c d = Ident.ofView v c d := by
    intro c d
    unfold Ident.ofView
    rw [x.u8At_eq (by omega), x.u8At_eq (by omega), x.u8At_eq (by omega)]
  simp only [hident]
  refine ofView_extends (x.inOrder _) ?_
  show Class.headerSize (if v.u8At 4 = 2 then .elf64 else .elf32) ≤ v.length
  split
  · next h => exact hlarge h
  · exact hsmall

/-- A header that is decoded from a view is decoded from any longer one. -/
theorem parse_extends {h : FileHeader} (hp : parse v = .ok h) : parse w = .ok h := by
  rw [parse_eq_protect, Guard.protect_eq_ok_iff] at hp ⊢
  obtain ⟨hg, hd⟩ := hp
  refine ⟨?_, (declared_extends x hg).trans hd⟩
  have hle := x.length_le
  simp only [guards, List.forall_mem_cons, decide_eq_true_eq] at hg ⊢
  obtain ⟨hsmall, hmagic, hclass, hencoding, hlarge, hnil⟩ := hg
  have hfront := x.bytes_eq (show 0 + 4 ≤ v.length by omega)
  rw [List.drop_zero, List.drop_zero] at hfront
  rw [x.u8At_eq (by omega), x.u8At_eq (by omega), hfront]
  exact ⟨by omega, hmagic, hclass, hencoding, fun h => (hlarge h).trans hle, hnil⟩

end FileHeader

/-! ## The tables -/

section Tables

variable {a b : Image} (x : b.full.Extends a.full) {h : FileHeader}
include x

theorem FileHeader.sectionHeaderAt_extends {i : Nat}
    (fits : h.sectionOffset.toNat + i * h.sectionEntrySize.toNat + h.elfClass.sectionHeaderSize ≤
      a.length) : h.sectionHeaderAt b.full i = h.sectionHeaderAt a.full i := by
  unfold sectionHeaderAt sectionRecord
  rw [x.window_eq fits]

theorem FileHeader.programHeaderAt_extends {i : Nat}
    (fits : h.programOffset.toNat + i * h.programEntrySize.toNat + h.elfClass.programHeaderSize ≤
      a.length) : h.programHeaderAt b.full i = h.programHeaderAt a.full i := by
  unfold programHeaderAt programRecord
  rw [x.window_eq fits]

theorem FileHeader.firstRecord_extends (hg : ∀ g ∈ h.firstRecordGuards a.full, g.holds = true) :
    (∀ g ∈ h.firstRecordGuards b.full, g.holds = true) ∧
      (h.sectionOffset ≠ 0 → h.sectionHeaderAt b.full 0 = h.sectionHeaderAt a.full 0) := by
  rw [firstRecordGuards_hold_iff] at hg ⊢
  refine ⟨fun h0 => ⟨(hg h0).1, (hg h0).2.trans x.length_le⟩, fun h0 => ?_⟩
  refine sectionHeaderAt_extends x ?_
  rw [Nat.zero_mul, Nat.add_zero]
  exact (hg h0).2

theorem FileHeader.programTotal_extends
    (hg : h.programCount = extendedProgramCount →
      ∀ g ∈ h.firstRecordGuards a.full, g.holds = true) :
    h.programTotal b.full = h.programTotal a.full := by
  unfold programTotal
  by_cases hc : h.programCount = extendedProgramCount
  · by_cases h0 : h.sectionOffset = 0
    · rw [if_pos hc, if_pos hc, if_pos h0, if_pos h0]
    · rw [(firstRecord_extends x (hg hc)).2 h0]
  · rw [if_neg hc, if_neg hc]

/-- The table of the longer file has the same headers at the same places. -/
theorem SectionTable.parse_extends {t : SectionTable} (hp : parse a h = .ok t) :
    ∃ count nameIndex, t = ofFn count nameIndex (h.sectionAt a) ∧
      parse b h = .ok (ofFn count nameIndex (h.sectionAt b)) ∧
        ∀ i < count, h.sectionHeaderAt b.full i = h.sectionHeaderAt a.full i := by
  by_cases h0 : h.sectionOffset = 0
  · rw [parse, SectionHeader.initial, if_pos h0] at hp ⊢
    exact ⟨0, 0, (Except.ok.inj hp).symm, rfl, fun _ hi => absurd hi (Nat.not_lt_zero _)⟩
  obtain ⟨hg, ⟨hx, hfit⟩, rfl⟩ := (parse_eq_ok_iff h0).1 hp
  obtain ⟨hg', hfirst⟩ := FileHeader.firstRecord_extends x hg
  replace hfirst := hfirst h0
  have htable : ∀ image, h.sectionTable image =
      ofFn (h.sectionTotal (h.sectionHeaderAt image.full 0))
        (h.sectionNameIndex (h.sectionHeaderAt image.full 0)) (h.sectionAt image) :=
    fun _ => if_neg h0
  refine ⟨_, _, htable a, (parse_eq_ok_iff h0).2 ⟨hg', ?_, ?_⟩, fun i hi => ?_⟩
  · rw [hfirst]
    exact ⟨hx.trans x.length_le, hfit⟩
  · rw [htable b, hfirst]
  · refine FileHeader.sectionHeaderAt_extends x ?_
    have := hfit i hi
    omega

theorem SegmentTable.parse_extends {t : SegmentTable} (hp : parse a h = .ok t) :
    ∃ count, t = ofFn count (h.segmentAt a) ∧ parse b h = .ok (ofFn count (h.segmentAt b)) ∧
      ∀ i < count, h.programHeaderAt b.full i = h.programHeaderAt a.full i := by
  by_cases h0 : h.programOffset = 0 ∨ h.programCount = 0
  · rw [parse, if_pos h0] at hp ⊢
    exact ⟨0, (Except.ok.inj hp).symm, rfl, fun _ hi => absurd hi (Nat.not_lt_zero _)⟩
  have htable : ∀ image, h.segmentTable image =
      ofFn (h.programTotal image.full) (h.segmentAt image) := fun _ => if_neg h0
  rw [parse_eq, htable] at hp ⊢
  obtain ⟨hg, rfl⟩ := Guard.protect_eq_ok_iff.1 hp
  rw [FileHeader.programGuards, if_neg h0, List.cons_append] at hg
  obtain ⟨hs, hg⟩ := List.forall_mem_cons.1 hg
  obtain ⟨hfirst, hextent⟩ := List.forall_mem_append.1 hg
  simp only [List.forall_mem_cons, decide_eq_true_eq] at hs hextent
  have hfirst' : h.programCount = extendedProgramCount →
      ∀ g ∈ h.firstRecordGuards a.full, g.holds = true := by
    intro hc
    rwa [if_pos hc] at hfirst
  have htotal := FileHeader.programTotal_extends x hfirst'
  refine ⟨_, rfl, ?_, fun i hi => FileHeader.programHeaderAt_extends x ?_⟩
  · rw [htotal]
    refine Guard.protect_eq_ok_iff.2 ⟨?_, rfl⟩
    rw [FileHeader.programGuards, if_neg h0, List.cons_append]
    refine List.forall_mem_cons.2 ⟨decide_eq_true hs, List.forall_mem_append.2 ⟨fun g hm => ?_, ?_⟩⟩
    · split at hm
      · next hc => exact (FileHeader.firstRecord_extends x (hfirst' hc)).1 g hm
      · exact absurd hm List.not_mem_nil
    · simp only [List.forall_mem_cons, decide_eq_true_eq, htotal]
      exact ⟨hextent.1.trans x.length_le, List.forall_mem_nil _⟩
  · have := add_size_le_mul hi hs
    have := hextent.1
    rw [Image.length_full] at this
    omega

end Tables

/-! ## What the records carry -/

/-- The range of the section ends behind a file of this length, and that is why it has no
contents. -/
def Section.IsCut (s : Section) (length : Nat) : Prop :=
  s.contents = .error (.outOfBounds s.header.offset.toNat s.header.size.toNat length)

/-- The range of the segment leaves a file of this length. -/
def Segment.IsCut (s : Segment) (length : Nat) : Prop :=
  s.contents = .error (.outOfBounds s.header.offset.toNat s.header.fileSize.toNat length)

instance (s : Section) (length : Nat) : Decidable (s.IsCut length) :=
  inferInstanceAs (Decidable (_ = _))

/-- The section is cut off at the end of the image too, or it is decoded from its range. -/
def Section.Resumes (s : Section) (image : Image) (c : Class) : Prop :=
  image.length < s.header.offset.toNat + s.header.size.toNat ∧ s.IsCut image.length ∨
    ∃ view, image.view s.header.offset.toNat s.header.size.toNat = .ok view ∧
      s.contents = s.header.decode c view

/-- The segment is cut off by the end of this file too, or it is decoded from its range there. -/
def Segment.Resumes (s : Segment) (image : Image) : Prop :=
  image.length < s.header.offset.toNat + s.header.fileSize.toNat ∧ s.IsCut image.length ∨
    ∃ view, image.view s.header.offset.toNat s.header.fileSize.toNat = .ok view ∧
      s.contents = s.header.decode view

section Records

variable {a b : Image} {h : FileHeader} {i : Nat}

theorem View.Extends.view_eq (x : b.full.Extends a.full) {offset length : Nat}
    (fits : offset + length ≤ a.length) : b.view offset length = a.view offset length := by
  have hle : a.length ≤ b.length := x.length_le
  rw [Image.view_eq, Image.view_eq, if_pos fits, if_pos (fits.trans hle), x.window_eq fits]

/-- Only a section whose range was cut off can change. -/
theorem FileHeader.sectionAt_extends (x : b.full.Extends a.full)
    (hi : h.sectionHeaderAt b.full i = h.sectionHeaderAt a.full i)
    (hcut : ¬(h.sectionAt a i).IsCut a.length) : h.sectionAt b i = h.sectionAt a i := by
  refine (sectionAt_congr rfl hi.symm fun hn hb => (x.view_eq ?_).symm).symm
  by_contra hlt
  exact hcut (Section.contents_of_outside rfl (not_or.2 ⟨hn, hb⟩) (Nat.not_le.1 hlt))

theorem FileHeader.segmentAt_extends (x : b.full.Extends a.full)
    (hi : h.programHeaderAt b.full i = h.programHeaderAt a.full i)
    (hcut : ¬(h.segmentAt a i).IsCut a.length) : h.segmentAt b i = h.segmentAt a i := by
  refine (segmentAt_congr hi.symm (x.view_eq ?_).symm).symm
  by_contra hlt
  exact hcut (ProgramHeader.contents_of_range
    (View.subview_eq_error_iff.2 ⟨Nat.not_le.1 hlt, rfl⟩))

/-- A section that was cut off is cut off still, or is decoded from the range that is complete
now. -/
theorem FileHeader.sectionAt_resumes
    (hi : h.sectionHeaderAt b.full i = h.sectionHeaderAt a.full i)
    (hcut : (h.sectionAt a i).IsCut a.length) : (h.sectionAt b i).Resumes b h.elfClass := by
  -- A section that occupies nothing is never cut off.
  have ht : SectionForm.ofType (h.sectionHeaderAt b.full i).type ≠ .absent := by
    rw [hi]
    intro ht
    have := (SectionHeader.contents_of_absent ht a h.elfClass).symm.trans hcut
    cases this
  by_cases hle : (h.sectionAt b i).header.offset.toNat + (h.sectionAt b i).header.size.toNat ≤
      b.length
  · have hr := View.subview_eq_window (v := b.full) hle
    exact .inr ⟨_, hr, SectionHeader.contents_eq_decode fun _ => hr⟩
  · have hr := View.subview_eq_error_iff (v := b.full).2 ⟨Nat.not_le.1 hle, rfl⟩
    exact .inl ⟨Nat.not_le.1 hle, SectionHeader.contents_of_range _ ht hr⟩

theorem Segment.resumes {s : Segment} (hs : s.contents = s.header.contents b) : s.Resumes b := by
  by_cases hle : s.header.offset.toNat + s.header.fileSize.toNat ≤ b.length
  · have hr := View.subview_eq_window (v := b.full) hle
    exact .inr ⟨_, hr, hs.trans (ProgramHeader.contents_eq_decode hr)⟩
  · refine .inl ⟨Nat.not_le.1 hle, hs.trans (ProgramHeader.contents_of_range ?_)⟩
    exact View.subview_eq_error_iff.2 ⟨Nat.not_le.1 hle, rfl⟩

end Records

/-! ## The object -/

/-- The section at the index, if there is one, is not cut off. -/
def SectionTable.Whole (t : SectionTable) (index length : Nat) : Prop :=
  ∀ hi : index < t.sections.size, ¬t.sections[index].IsCut length

instance (t : SectionTable) (index length : Nat) : Decidable (t.Whole index length) :=
  inferInstanceAs (Decidable (∀ _ : _ < _, _))

/-- What the image decodes to has all that a file of this length decoded to, and what was cut off
there as far as the image has it. -/
structure Object.Extends (q p : Object) (length : Nat) (image : Image) : Prop where
  header : q.header = p.header
  sectionCount : q.sections.size = p.sections.size
  nameIndex : q.sections.nameIndex = p.sections.nameIndex
  segmentCount : q.segments.size = p.segments.size
  sectionHeader : ∀ i (hi : i < p.sections.sections.size) (hj : i < q.sections.sections.size),
    q.sections.sections[i].header = p.sections.sections[i].header
  segmentHeader : ∀ i (hi : i < p.segments.segments.size) (hj : i < q.segments.segments.size),
    q.segments.segments[i].header = p.segments.segments[i].header
  section_eq : ∀ i (hi : i < p.sections.sections.size) (hj : i < q.sections.sections.size),
    ¬p.sections.sections[i].IsCut length → q.sections.sections[i] = p.sections.sections[i]
  segment_eq : ∀ i (hi : i < p.segments.segments.size) (hj : i < q.segments.segments.size),
    ¬p.segments.segments[i].IsCut length → q.segments.segments[i] = p.segments.segments[i]
  section_resumes : ∀ i (hi : i < p.sections.sections.size) (hj : i < q.sections.sections.size),
    p.sections.sections[i].IsCut length →
      q.sections.sections[i].Resumes image q.header.elfClass
  segment_resumes : ∀ i (hi : i < p.segments.segments.size) (hj : i < q.segments.segments.size),
    p.segments.segments[i].IsCut length → q.segments.segments[i].Resumes image
  string : ∀ index offset, p.sections.Whole index length →
    q.sections.string index offset = p.sections.string index offset
  sectionName : (p.sections.nameIndex ≠ 0 → p.sections.Whole p.sections.nameIndex length) →
    ∀ i (hi : i < p.sections.sections.size) (hj : i < q.sections.sections.size),
      q.sections.sectionName q.sections.sections[i] = p.sections.sectionName p.sections.sections[i]
  byName : (p.sections.nameIndex ≠ 0 → p.sections.Whole p.sections.nameIndex length) →
    ∀ name, (q.sections.byName name).map (·.index) = (p.sections.byName name).map (·.index)
  symbolName : ∀ s : Symbol, p.sections.Whole s.link.toNat length →
    s.name q.sections = s.name p.sections
  indexOfName : ∀ s table, (s, table) ∈ p.sections.symbolTables →
    p.sections.Whole table.link.toNat length → ∀ name,
      table.indexOfName? q.sections name = table.indexOfName? p.sections name

section Objects

variable {a b : Image} {h : FileHeader}

/-- Both tables are found again, with the sections and segments that were not cut off. -/
theorem Object.ofHeader_extends (x : b.full.Extends a.full) {p : Object}
    (hp : ofHeader a h = .ok p) : ∃ q, ofHeader b h = .ok q ∧ q.Extends p a.length b := by
  obtain ⟨sections, hs, hp⟩ := bind_eq_ok_iff.1 hp
  obtain ⟨segments, hm, hp⟩ := bind_eq_ok_iff.1 hp
  obtain rfl := Except.ok.inj hp
  obtain ⟨count, nameIndex, rfl, hsections, hsection⟩ := SectionTable.parse_extends x hs
  obtain ⟨total, rfl, hsegments, hsegment⟩ := SegmentTable.parse_extends x hm
  refine ⟨{ header := h, sections := .ofFn count nameIndex (h.sectionAt b)
            segments := .ofFn total (h.segmentAt b) }, ?_, ?_⟩
  · rw [ofHeader, hsections, hsegments]
    rfl
  have hname : ∀ i < count, (h.sectionAt b i).header.name = (h.sectionAt a i).header.name :=
    fun i hi => congrArg SectionHeader.name (hsection i hi)
  have hwhole : ∀ {index}, (SectionTable.ofFn count nameIndex (h.sectionAt a)).Whole index
      a.length → index < count → h.sectionAt b index = h.sectionAt a index := by
    intro index whole hi
    have hcut := whole (by simpa using hi)
    rw [SectionTable.getElem_ofFn] at hcut
    exact FileHeader.sectionAt_extends x (hsection index hi) hcut
  refine
    { header := rfl
      sectionCount := SectionTable.size_ofFn.trans SectionTable.size_ofFn.symm
      nameIndex := rfl
      segmentCount := SegmentTable.size_ofFn.trans SegmentTable.size_ofFn.symm
      sectionHeader := fun i hi hj => ?_
      segmentHeader := fun i hi hj => ?_
      section_eq := fun i hi hj hcut => ?_
      segment_eq := fun i hi hj hcut => ?_
      section_resumes := fun i hi hj hcut => ?_
      segment_resumes := fun i hi hj hcut => ?_
      string := fun index offset whole => SectionTable.string_ofFn (hwhole whole) offset
      sectionName := fun whole i hi hj => ?_
      byName := fun whole name => ?_
      symbolName := fun s whole => SectionTable.name_symbol_ofFn (hwhole whole)
      indexOfName := fun s table hmem whole name => ?_ }
  · rw [SectionTable.getElem_ofFn, SectionTable.getElem_ofFn]
    exact hsection i (by simpa using hi)
  · rw [SegmentTable.getElem_ofFn, SegmentTable.getElem_ofFn]
    exact hsegment i (by simpa using hi)
  · rw [SectionTable.getElem_ofFn] at hcut ⊢
    rw [SectionTable.getElem_ofFn]
    exact FileHeader.sectionAt_extends x (hsection i (by simpa using hi)) hcut
  · rw [SegmentTable.getElem_ofFn] at hcut ⊢
    rw [SegmentTable.getElem_ofFn]
    exact FileHeader.segmentAt_extends x (hsegment i (by simpa using hi)) hcut
  · rw [SectionTable.getElem_ofFn] at hcut ⊢
    exact FileHeader.sectionAt_resumes (hsection i (by simpa using hi)) hcut
  · rw [SegmentTable.getElem_ofFn]
    exact Segment.resumes rfl
  · rw [SectionTable.getElem_ofFn, SectionTable.getElem_ofFn]
    exact SectionTable.sectionName_ofFn (fun h0 => hwhole (whole h0)) (hname i (by simpa using hi))
  · exact SectionTable.byName_ofFn (fun h0 => hwhole (whole h0)) hname (fun _ => rfl) name
  · obtain ⟨hs, hc⟩ := SectionTable.of_mem_symbolTables hmem
    obtain ⟨i, hi, rfl⟩ := Array.mem_iff_getElem.1 hs
    rw [SectionTable.getElem_ofFn] at hc
    obtain ⟨view, rfl⟩ := SectionHeader.symbols_of_contents hc
    refine SymbolTable.indexOfName?_congr (fun symbol hsymbol => ?_) name
    refine SectionTable.name_symbol_ofFn ?_
    rw [SymbolTable.link_ofView symbol hsymbol]
    exact hwhole whole

end Objects

theorem Image.append_extends (image : Image) (more : ByteArray) :
    (image.append more).full.Extends image.full where
  offset_eq := rfl
  order_eq := rfl
  bytes := by
    rw [toList_full, toList_full]
    exact ⟨more.data.toList, by simp [append]⟩

/-- A file that decodes does so with more bytes behind it, to an object that has everything the
first one has. -/
theorem parse_append {a : Image} {p : Object} (hp : (Object.parse a).1 = .ok p)
    (more : ByteArray) :
    ∃ q image, Object.parse (a.append more) = (.ok q, image) ∧ q.Extends p a.length image := by
  obtain ⟨hheader, fixed, hadopt, hobject⟩ := Object.parse_eq_ok_iff.1 hp
  have hheader' := FileHeader.parse_extends (a.append_extends more) hheader
  have hadopt' := Image.adopt_congr (show (a.append more).fixedOrder = a.fixedOrder from rfl) hadopt
  obtain rfl := Image.fixedOrder_of_adopt hadopt
  have x := Image.append_extends { a with fixedOrder := some p.header.order } more
  obtain ⟨q, hq, extends'⟩ := Object.ofHeader_extends x hobject
  refine ⟨q, _, (Object.parse_of_adopt hheader' hadopt').trans ?_, extends'⟩
  exact congrArg (·, _) hq

/-- A file that ends before the contents of its third section start. The second one holds names. -/
def cutOff : Image :=
  let header : FileHeader :=
    { ident := { elfClass := .elf32, encoding := .lsb, version := 1, osAbi := 0, abiVersion := 0 }
      type := 1, machine := 3, version := 1, entry := 0, programOffset := 0, sectionOffset := 52
      flags := 0, headerSize := 52, programEntrySize := 0, programCount := 0
      sectionEntrySize := 40, sectionCount := 3, nameIndex := 1 }
  let first : SectionHeader :=
    { name := 0, type := 0, flags := 0, address := 0, offset := 0, size := 0, link := 0, info := 0
      alignment := 0, entrySize := 0 }
  let names : SectionHeader := { first with name := 1, type := 3, offset := 172, size := 3 }
  let bytes := header.encode (List.replicate 7 0) ++ first.encode .little .elf32 ++
    names.encode .little .elf32 ++
    { first with type := 1, offset := 175, size := 2 : SectionHeader }.encode .little .elf32 ++
    [0, 97, 0]
  { bytes := ⟨bytes.toArray⟩ }

theorem parse_append_cutOff :
    ∃ p q image, (Object.parse cutOff).1 = .ok p ∧
      Object.parse (cutOff.append ⟨#[5, 6]⟩) = (.ok q, image) ∧ q.sections.size = 3 ∧
      q.sections.sections[1]? = p.sections.sections[1]? ∧
      (∀ offset, q.sections.string 1 offset = p.sections.string 1 offset) ∧
      ∀ hi : 2 < p.sections.sections.size, p.sections.sections[2].IsCut 175 ∧
        ∀ hj : 2 < q.sections.sections.size,
          q.sections.sections[2].Resumes image q.header.elfClass := by
  have hp := (Object.parse_eq (show cutOff.fixedOrder = none from rfl)
    (by decide +kernel)).trans (Guard.protect_eq_ok_iff.2 ⟨by decide +kernel, rfl⟩)
  obtain ⟨p, hp, hsize, hcut, hwhole⟩ : ∃ p, (Object.parse cutOff).1 = .ok p ∧
      p.sections.sections.size = 3 ∧
      (∀ hi : 2 < p.sections.sections.size, p.sections.sections[2].IsCut 175) ∧
      p.sections.Whole 1 175 := by
    exact ⟨_, hp, by decide +kernel, by decide +kernel, by decide +kernel⟩
  obtain ⟨q, image, hq, extends'⟩ := parse_append hp ⟨#[5, 6]⟩
  have hsize' : q.sections.sections.size = 3 := extends'.sectionCount.trans hsize
  refine ⟨p, q, image, hp, hq, hsize', ?_, fun offset => ?_, fun hi => ⟨hcut hi, fun hj => ?_⟩⟩
  · rw [getElem?_pos _ 1 (by omega), getElem?_pos _ 1 (by omega)]
    exact congrArg some (extends'.section_eq 1 _ _ (hwhole _))
  · exact extends'.string 1 offset hwhole
  · exact extends'.section_resumes 2 hi hj (hcut hi)

end ElfFormat
