import Mathlib.Data.List.Basic
import ElfFormat.Proofs.Contents
import ElfFormat.Proofs.NoteGrammar
import ElfFormat.Proofs.Tables

/-!
# Contents follow the type

What a section or a segment carries is settled by its type and by whether its range lies in the
file (`contents_follow_type`). A section that occupies no file never looks at its range; every other
record fails with its own range if that does not fit, and otherwise carries what its type announces,
decoded from exactly that range. `SectionHeader.Shows` and `ProgramHeader.Shows` list the types with
all that can become of each.

What is decoded stays in the range, down to the descriptors of notes (`View.LiesIn`), and so do the
places that the failures of notes name (`Error.IsNoteFault`). For notes this is an induction over
the records of the region (`Note.isNoteFault_of_readFrom`, `Note.subview_of_readFrom`).
-/

namespace ElfFormat

/-- The view is a range of the image, and lies in the `length` bytes at `offset`. -/
structure View.LiesIn (v : View) (image : Image) (offset length : Nat) : Prop where
  view_eq : image.view v.offset v.length = .ok v
  le_offset : offset ≤ v.offset
  end_le : v.offset + v.length ≤ offset + length

theorem View.liesIn_of_subview {image : Image} {view v : View} {offset length p m : Nat}
    (h : image.view offset length = .ok view) (hv : view.subview p m = .ok v) :
    v.LiesIn image offset length := by
  have hl := length_of_subview h
  have hm := length_of_subview hv
  obtain ⟨-, ho, -, -⟩ := subview_eq_ok_iff.1 h
  obtain ⟨hle, hp, -, -⟩ := subview_eq_ok_iff.1 hv
  have hzero : image.full.offset = 0 := rfl
  rw [hl] at hle
  have hplace : v.offset = offset + p := by omega
  refine ⟨?_, by omega, by omega⟩
  rw [hplace, hm]
  exact (subview_subview h hle).symm.trans hv

/-! ## Notes stay in their region -/

/-- What goes wrong with a note, and where in the region. -/
def Error.IsNoteFault (e : Error) (region : View) : Prop :=
  ∃ position, region.offset ≤ position ∧ position < region.offset + region.length ∧
    (e = .invalidString position ∨ ∃ reason, e = .malformedNote position reason)

namespace NoteHeader

variable {v : View} {start : Nat} {h : NoteHeader} {e : Error}

theorem isNoteFault_of_readNote (fits : start + size ≤ v.length)
    (he : h.readNote v start = .error e) : e.IsNoteFault v := by
  have hs : size = 12 := rfl
  rcases (readNote_eq_error_iff fits).1 he with hn | ⟨hn, hp, -⟩ | ⟨hn, -, hd⟩
  · exact ⟨_, by omega, by omega, .inr ⟨_, rfl⟩⟩
  · exact ⟨_, by omega, by omega, .inl rfl⟩
  · exact ⟨_, by omega, by omega, .inr ⟨_, rfl⟩⟩

theorem subview_of_readNote (fits : start + size ≤ v.length) {note : Note}
    (hr : h.readNote v start = .ok note) : ∃ p m, v.subview p m = .ok note.descriptor := by
  obtain ⟨-, hle, s, -, rfl⟩ := (readNote_eq_ok_iff fits).1 hr
  exact ⟨_, _, View.subview_eq_window hle⟩

end NoteHeader

namespace Note

variable {v : View}

/-- Whatever note fails, it fails in one of the ways in which notes do. -/
theorem isNoteFault_of_readFrom (start : Nat) {e : Error} (he : readFrom v start = .error e) :
    e.IsNoteFault v := by
  rw [readFrom] at he
  by_cases fits : start + NoteHeader.size ≤ v.length
  · rw [dif_pos fits, NoteHeader.run_fields fits] at he
    rcases bind_eq_error_iff.1 he with he | ⟨header, -, he⟩
    · cases he
    rcases bind_eq_error_iff.1 he with he | ⟨note, -, he⟩
    · exact NoteHeader.isNoteFault_of_readNote fits he
    rcases bind_eq_error_iff.1 he with he | ⟨notes, -, he⟩
    · have := header.start_lt_next fits
      exact isNoteFault_of_readFrom _ he
    · cases he
  · rw [dif_neg fits] at he
    cases he
termination_by v.length - start
decreasing_by
  have hs : NoteHeader.size = 12 := rfl
  omega

/-- The descriptors are cut out of the region, wherever the notes stand. -/
theorem subview_of_readFrom (start : Nat) {notes : List Note} (h : readFrom v start = .ok notes) :
    ∀ n ∈ notes, ∃ p m, v.subview p m = .ok n.descriptor := by
  rw [readFrom] at h
  by_cases fits : start + NoteHeader.size ≤ v.length
  · rw [dif_pos fits] at h
    obtain ⟨header, -, h⟩ := bind_eq_ok_iff.1 h
    obtain ⟨note, hr, h⟩ := bind_eq_ok_iff.1 h
    obtain ⟨rest, hrest, h⟩ := bind_eq_ok_iff.1 h
    obtain rfl := Except.ok.inj h
    have := header.start_lt_next fits
    exact List.forall_mem_cons.2
      ⟨NoteHeader.subview_of_readNote fits hr, subview_of_readFrom _ hrest⟩
  · rw [dif_neg fits] at h
    obtain rfl := Except.ok.inj h
    exact List.forall_mem_nil _
termination_by v.length - start
decreasing_by
  have hs : NoteHeader.size = 12 := rfl
  omega

end Note

/-! ## What a range carries -/

/-- The types of sections that are decoded further, if they occupy bytes of the file. -/
def SectionType.structured : List UInt32 :=
  [stringTable, symbolTable, dynamicSymbols, note]

/-- What can become of a section whose range of the image is the view, type by type. -/
inductive SectionHeader.Shows (h : SectionHeader) (image : Image) (c : Class) (view : View) :
    Except Error SectionContents → Prop where
  | strings (type : h.type = SectionType.stringTable) :
    Shows h image c view (.ok (.strings ⟨view⟩))
  | symbols (type : h.type = SectionType.symbolTable ∨ h.type = SectionType.dynamicSymbols)
    (entries : h.entrySize.toNat = 0 ∨ c.symbolSize ≤ h.entrySize.toNat) :
    Shows h image c view (.ok (.symbols (.ofView view c h.link)))
  | smallSymbols (type : h.type = SectionType.symbolTable ∨ h.type = SectionType.dynamicSymbols)
    (entries : 0 < h.entrySize.toNat ∧ h.entrySize.toNat < c.symbolSize) :
    Shows h image c view (.error (.invalidEntrySize "symbol" c.symbolSize h.entrySize.toNat))
  | notes (type : h.type = SectionType.note) {table : NoteTable}
    (decoded : NoteTable.parse view = .ok table) (view_eq : table.view = view)
    (inside : ∀ n ∈ table.notes, n.descriptor.LiesIn image h.offset.toNat h.size.toNat) :
    Shows h image c view (.ok (.notes table))
  | brokenNotes (type : h.type = SectionType.note) {e : Error}
    (failed : NoteTable.parse view = .error e) (fault : e.IsNoteFault view) :
    Shows h image c view (.error e)
  | raw (type : h.type ∉ SectionType.structured) : Shows h image c view (.ok (.raw view))

/-- What can become of a segment whose range of the image is the view, type by type. The path of an
interpreter ends at a NUL or with the range, and there must be a byte to start from. -/
inductive ProgramHeader.Shows (h : ProgramHeader) (image : Image) (view : View) :
    Except Error SegmentContents → Prop where
  | interpreter (type : h.type = SegmentType.interpreter) {path : String}
    (nonempty : 0 < view.length) (text : Utf8.encode path = view.toList.takeWhile (· ≠ 0)) :
    Shows h image view (.ok (.interpreter path))
  | brokenPath (type : h.type = SegmentType.interpreter) (nonempty : 0 < view.length)
    (foreign : ∀ path, Utf8.encode path ≠ view.toList.takeWhile (· ≠ 0)) :
    Shows h image view (.error (.invalidString view.offset))
  | noPath (type : h.type = SegmentType.interpreter) (empty : view.length = 0) :
    Shows h image view (.error (.outOfBounds 0 1 0))
  | notes (type : h.type = SegmentType.note) {table : NoteTable}
    (decoded : NoteTable.parse view = .ok table) (view_eq : table.view = view)
    (inside : ∀ n ∈ table.notes, n.descriptor.LiesIn image h.offset.toNat h.fileSize.toNat) :
    Shows h image view (.ok (.notes table))
  | brokenNotes (type : h.type = SegmentType.note) {e : Error}
    (failed : NoteTable.parse view = .error e) (fault : e.IsNoteFault view) :
    Shows h image view (.error e)
  | raw (type : h.type ∉ [SegmentType.interpreter, SegmentType.note]) :
    Shows h image view (.ok (.raw view))

/-- Notes of a range of an image have their descriptors there; if they cannot be read, the failure
is one of a note in the range. -/
theorem NoteTable.parse_cases {image : Image} {offset length : Nat} {view : View}
    (h : image.view offset length = .ok view) :
    (∃ table, parse view = .ok table ∧ table.view = view ∧
      ∀ n ∈ table.notes, n.descriptor.LiesIn image offset length) ∨
    ∃ e, parse view = .error e ∧ e.IsNoteFault view := by
  unfold parse
  rcases hn : Note.readFrom view 0 with e | notes
  · exact .inr ⟨e, rfl, Note.isNoteFault_of_readFrom 0 hn⟩
  · refine .inl ⟨_, rfl, rfl, fun n hm => ?_⟩
    obtain ⟨p, m, hp⟩ := Note.subview_of_readFrom 0 hn n hm
    exact View.liesIn_of_subview h hp

/-- By the form that the type announces; each form fails in its own ways. -/
theorem SectionHeader.shows_decode {h : SectionHeader} {image : Image} (c : Class) {view : View}
    (ht : SectionForm.ofType h.type ≠ .absent)
    (hr : image.view h.offset.toNat h.size.toNat = .ok view) :
    h.Shows image c view (h.decode c view) := by
  have ho := mt SectionForm.ofType_eq_absent_iff.2 ht
  unfold decode SectionForm.ofType
  rw [if_neg ho]
  by_cases hs : h.type = SectionType.stringTable
  · rw [if_pos hs]
    exact .strings hs
  rw [if_neg hs]
  by_cases hy : h.type = SectionType.symbolTable ∨ h.type = SectionType.dynamicSymbols
  · rw [if_pos hy]
    show h.Shows image c view ((SymbolTable.parse view c h.entrySize h.link).map .symbols)
    rw [SymbolTable.parse_eq]
    by_cases he : 0 < h.entrySize.toNat ∧ h.entrySize.toNat < c.symbolSize
    · rw [if_pos he]
      exact .smallSymbols hy he
    · rw [if_neg he]
      exact .symbols hy (by omega)
  rw [if_neg hy]
  by_cases hn : h.type = SectionType.note
  · rw [if_pos hn]
    show h.Shows image c view ((NoteTable.parse view).map .notes)
    obtain ⟨table, hp, hv, hi⟩ | ⟨e, hp, hf⟩ := NoteTable.parse_cases hr
    · rw [hp]
      exact .notes hn hp hv hi
    · rw [hp]
      exact .brokenNotes hn hp hf
  rw [if_neg hn]
  refine .raw ?_
  obtain ⟨hy, hd⟩ := not_or.1 hy
  simp [SectionType.structured, hs, hy, hd, hn]

theorem ProgramHeader.shows_decode {h : ProgramHeader} {image : Image} {view : View}
    (hr : image.view h.offset.toNat h.fileSize.toNat = .ok view) :
    h.Shows image view (h.decode view) := by
  unfold decode
  by_cases hi : h.type = SegmentType.interpreter
  · rw [if_pos hi, View.text_eq, List.drop_zero, ← View.length_toList, List.take_length,
      View.length_toList]
    by_cases hl : view.length ≤ 0
    · rw [if_pos hl, Nat.le_zero.1 hl]
      exact .noPath hi (Nat.le_zero.1 hl)
    rw [if_neg hl]
    rcases hp : Utf8.decode? (view.toList.takeWhile (· ≠ 0)) with _ | path
    · refine .brokenPath hi (Nat.not_le.1 hl) fun path he => ?_
      rw [← he, Utf8.decode?_encode] at hp
      cases hp
    · exact .interpreter hi (Nat.not_le.1 hl) (Utf8.decode?_eq_some_iff.1 hp)
  rw [if_neg hi]
  by_cases hn : h.type = SegmentType.note
  · rw [if_pos hn]
    obtain ⟨table, hp, hv, hi⟩ | ⟨e, hp, hf⟩ := NoteTable.parse_cases hr
    · rw [hp]
      exact .notes hn hp hv hi
    · rw [hp]
      exact .brokenNotes hn hp hf
  rw [if_neg hn]
  exact .raw (by simp [hi, hn])

/-! ## What a record carries -/

/-- The contents of the section are what its type announces, decoded from its range. -/
structure Section.FollowsType (s : Section) (image : Image) (c : Class) : Prop where
  absent : s.header.type = SectionType.null ∨ s.header.type = SectionType.noBits →
    s.contents = .ok .absent
  outside : ¬(s.header.type = SectionType.null ∨ s.header.type = SectionType.noBits) →
    image.length < s.header.offset.toNat + s.header.size.toNat →
      s.contents = .error
        (.outOfBounds s.header.offset.toNat s.header.size.toNat image.length)
  inside : ¬(s.header.type = SectionType.null ∨ s.header.type = SectionType.noBits) →
    s.header.offset.toNat + s.header.size.toNat ≤ image.length →
      ∃ view, image.view s.header.offset.toNat s.header.size.toNat = .ok view ∧
        s.header.Shows image c view s.contents
  view_iff : ∀ v, s.view? = some v ↔
    (∃ contents, s.contents = .ok contents ∧ contents ≠ .absent) ∧
      image.view s.header.offset.toNat s.header.size.toNat = .ok v

/-- The contents of the segment are what its type announces, decoded from its range. -/
structure Segment.FollowsType (s : Segment) (image : Image) : Prop where
  outside : image.length < s.header.offset.toNat + s.header.fileSize.toNat →
    s.contents = .error
      (.outOfBounds s.header.offset.toNat s.header.fileSize.toNat image.length)
  inside : s.header.offset.toNat + s.header.fileSize.toNat ≤ image.length →
    ∃ view, image.view s.header.offset.toNat s.header.fileSize.toNat = .ok view ∧
      s.header.Shows image view s.contents

/-- The symbol tables are those of the sections that announce and have one, in their order. -/
structure SectionTable.ListsSymbols (t : SectionTable) : Prop where
  sections : t.symbolTables.map (·.1) = t.sections.toList.filter fun s =>
    (s.header.type = SectionType.symbolTable ∨ s.header.type = SectionType.dynamicSymbols) ∧
      s.contents.isOk
  contents : ∀ s table, (s, table) ∈ t.symbolTables → s.contents = .ok (.symbols table)
  ordered : (t.symbolTables.map (·.1.index)).Pairwise (· < ·)

variable {image : Image} {c : Class}

namespace Section

variable {s : Section} (hs : s.contents = s.header.contents image c)
include hs

theorem contents_of_absent
    (ht : s.header.type = SectionType.null ∨ s.header.type = SectionType.noBits) :
    s.contents = .ok .absent :=
  hs.trans (SectionHeader.contents_of_absent (SectionForm.ofType_eq_absent_iff.2 ht) image c)

theorem contents_of_outside
    (ht : ¬(s.header.type = SectionType.null ∨ s.header.type = SectionType.noBits))
    (hlt : image.length < s.header.offset.toNat + s.header.size.toNat) :
    s.contents = .error
      (.outOfBounds s.header.offset.toNat s.header.size.toNat image.length) := by
  rw [hs]
  refine SectionHeader.contents_of_range c (mt SectionForm.ofType_eq_absent_iff.1 ht) ?_
  exact View.subview_eq_error_iff.2 ⟨hlt, rfl⟩

theorem shows_of_inside
    (ht : ¬(s.header.type = SectionType.null ∨ s.header.type = SectionType.noBits))
    (hle : s.header.offset.toNat + s.header.size.toNat ≤ image.length) :
    ∃ view, image.view s.header.offset.toNat s.header.size.toNat = .ok view ∧
      s.header.Shows image c view s.contents := by
  have hr := View.subview_eq_window (v := image.full) hle
  refine ⟨_, hr, ?_⟩
  rw [hs, SectionHeader.contents_eq_decode fun _ => hr]
  exact SectionHeader.shows_decode c (mt SectionForm.ofType_eq_absent_iff.1 ht) hr

theorem view?_eq_some_iff (v : View) :
    s.view? = some v ↔ (∃ contents, s.contents = .ok contents ∧ contents ≠ .absent) ∧
      image.view s.header.offset.toNat s.header.size.toNat = .ok v := by
  by_cases hle : s.header.offset.toNat + s.header.size.toNat ≤ image.length
  · have hr := View.subview_eq_window (v := image.full) hle
    rw [view?_iff_of_decode (hs.trans (SectionHeader.contents_eq_decode fun _ => hr)),
      show image.view _ _ = _ from hr, Except.ok.injEq, eq_comm]
  · -- There is no range to show, so the section has no contents either.
    have hr : image.view s.header.offset.toNat s.header.size.toNat = .error _ :=
      View.subview_eq_error_iff.2 ⟨Nat.not_le.1 hle, rfl⟩
    have hnone : s.view? = none := by
      unfold view?
      by_cases ht : s.header.type = SectionType.null ∨ s.header.type = SectionType.noBits
      · rw [contents_of_absent hs ht]
        rfl
      · rw [contents_of_outside hs ht (Nat.not_le.1 hle)]
    rw [hnone, hr]
    exact ⟨nofun, fun h => nomatch h.2⟩

theorem followsType : s.FollowsType image c where
  absent := contents_of_absent hs
  outside := contents_of_outside hs
  inside := shows_of_inside hs
  view_iff := view?_eq_some_iff hs

end Section

theorem Segment.followsType {s : Segment} (hs : s.contents = s.header.contents image) :
    s.FollowsType image := by
  refine ⟨fun hlt => ?_, fun hle => ?_⟩
  · rw [hs]
    exact ProgramHeader.contents_of_range (View.subview_eq_error_iff.2 ⟨hlt, rfl⟩)
  · have hr := View.subview_eq_window (v := image.full) hle
    refine ⟨_, hr, ?_⟩
    rw [hs, ProgramHeader.contents_eq_decode hr]
    exact ProgramHeader.shows_decode hr

/-! ## The symbol tables -/

/-- The form that the contents have. -/
def SectionContents.form : SectionContents → SectionForm
  | absent => .absent
  | strings _ => .strings
  | symbols _ => .symbols
  | notes _ => .notes
  | raw _ => .raw

theorem SectionForm.ofType_eq_symbols_iff {type : UInt32} :
    ofType type = .symbols ↔
      type = SectionType.symbolTable ∨ type = SectionType.dynamicSymbols := by
  unfold ofType SectionType.null SectionType.noBits SectionType.stringTable
    SectionType.symbolTable SectionType.dynamicSymbols
  grind

/-- Contents have the form that the type of their section announces. -/
theorem SectionHeader.form_of_contents {h : SectionHeader} {contents : SectionContents}
    (hc : h.contents image c = .ok contents) : contents.form = .ofType h.type := by
  unfold SectionHeader.contents at hc
  cases hf : SectionForm.ofType h.type with
  | absent =>
    rw [hf] at hc
    obtain rfl := Except.ok.inj hc
    rfl
  | strings | raw =>
    rw [hf] at hc
    obtain ⟨view, -, hc⟩ := bind_eq_ok_iff.1 hc
    obtain rfl := Except.ok.inj hc
    rfl
  | symbols | notes =>
    rw [hf] at hc
    obtain ⟨view, -, hc⟩ := bind_eq_ok_iff.1 hc
    obtain ⟨table, -, hc⟩ := bind_eq_ok_iff.1 hc
    obtain rfl := Except.ok.inj hc
    rfl

theorem SectionHeader.symbols_of_contents {h : SectionHeader} {table : SymbolTable}
    (hc : h.contents image c = .ok (.symbols table)) : ∃ view, table = .ofView view c h.link := by
  have hf : SectionForm.ofType h.type = .symbols := (form_of_contents hc).symm
  unfold SectionHeader.contents at hc
  rw [hf] at hc
  obtain ⟨view, -, hc⟩ := bind_eq_ok_iff.1 hc
  obtain ⟨table', ht, hc⟩ := bind_eq_ok_iff.1 hc
  obtain rfl := SectionContents.symbols.inj (Except.ok.inj hc)
  exact ⟨view, SymbolTable.eq_of_parse ht⟩

theorem Section.symbolTable?_eq_some_iff {s : Section} {table : SymbolTable} :
    s.symbolTable? = some table ↔ s.contents = .ok (.symbols table) := by
  unfold symbolTable?
  split
  · next hc => simp [hc]
  · next hc => exact ⟨nofun, fun h => absurd h (hc table)⟩

theorem Section.isSome_symbolTable?_iff {s : Section}
    (hs : s.contents = s.header.contents image c) :
    s.symbolTable?.isSome = true ↔ (s.header.type = SectionType.symbolTable ∨
      s.header.type = SectionType.dynamicSymbols) ∧ s.contents.isOk = true := by
  rw [← SectionForm.ofType_eq_symbols_iff]
  constructor
  · intro h
    obtain ⟨table, ht⟩ := Option.isSome_iff_exists.1 h
    rw [symbolTable?_eq_some_iff] at ht
    exact ⟨(SectionHeader.form_of_contents (hs.symm.trans ht)).symm, by rw [ht]; rfl⟩
  · rintro ⟨hf, hok⟩
    rcases hc : s.contents with e | contents
    · rw [hc] at hok
      cases hok
    · have hform := SectionHeader.form_of_contents (hs.symm.trans hc)
      rw [hf] at hform
      cases contents with
      | symbols table => rw [symbolTable?_eq_some_iff.2 hc]; rfl
      | absent | strings | notes | raw => cases hform

namespace SectionTable

variable {t : SectionTable}

theorem fst_symbolTables
    (hc : ∀ s ∈ t.sections.toList, s.contents = s.header.contents image c) :
    t.symbolTables.map (·.1) = t.sections.toList.filter fun s =>
      (s.header.type = SectionType.symbolTable ∨ s.header.type = SectionType.dynamicSymbols) ∧
        s.contents.isOk := by
  unfold symbolTables
  rw [List.map_filterMap, ← List.filterMap_eq_filter]
  refine List.filterMap_congr fun s hs => ?_
  have hsome := Section.isSome_symbolTable?_iff (hc s hs)
  rcases ht : s.symbolTable? with _ | table
  · refine (if_neg fun hp => ?_).symm
    have := hsome.2 (of_decide_eq_true hp)
    rw [ht] at this
    cases this
  · refine (if_pos (decide_eq_true (hsome.1 ?_))).symm
    rw [ht]
    rfl

theorem of_mem_symbolTables {s : Section} {table : SymbolTable}
    (h : (s, table) ∈ t.symbolTables) :
    s ∈ t.sections ∧ s.contents = .ok (.symbols table) := by
  obtain ⟨s', hm, hs⟩ := List.mem_filterMap.1 h
  obtain ⟨table', ht, he⟩ := Option.map_eq_some_iff.1 hs
  obtain ⟨rfl, rfl⟩ := Prod.mk.inj he
  exact ⟨Array.mem_toList_iff.1 hm, Section.symbolTable?_eq_some_iff.1 ht⟩

/-- A section is listed if its type announces symbols and they were decoded. -/
theorem listsSymbols (hc : ∀ s ∈ t.sections.toList, s.contents = s.header.contents image c)
    (hi : t.sections.toList.map (·.index) = List.range t.sections.size) : t.ListsSymbols := by
  refine ⟨fst_symbolTables hc, fun s table hm => (of_mem_symbolTables hm).2, ?_⟩
  have hsub : (t.symbolTables.map (·.1.index)).Sublist (List.range t.sections.size) := by
    rw [← hi, show t.symbolTables.map (·.1.index) = (t.symbolTables.map (·.1)).map (·.index) from
      List.map_map.symm, fst_symbolTables hc]
    exact List.filter_sublist.map _
  exact List.pairwise_lt_range.sublist hsub

end SectionTable

/-- In a table that decodes, each record carries what its type announces, decoded from its range if
that lies in the image, and the symbol tables are listed. -/
theorem contents_follow_type (image : Image) (header : FileHeader) :
    (∀ t, SectionTable.parse image header = .ok t →
      (∀ s ∈ t.sections, s.FollowsType image header.elfClass) ∧ t.ListsSymbols) ∧
    ∀ t, SegmentTable.parse image header = .ok t → ∀ s ∈ t.segments, s.FollowsType image := by
  refine ⟨fun t h => ?_, fun t h s hs => ?_⟩
  · obtain rfl := SectionTable.eq_of_parse h
    have hc : ∀ s ∈ (header.sectionTable image).sections,
        s.contents = s.header.contents image header.elfClass := by
      intro s hs
      obtain ⟨i, hi, rfl⟩ := Array.mem_iff_getElem.1 hs
      rw [FileHeader.getElem_sectionTable]
      rfl
    refine ⟨fun s hs => Section.followsType (hc s hs),
      SectionTable.listsSymbols (fun s hs => hc s (Array.mem_toList_iff.1 hs)) ?_⟩
    refine List.ext_getElem (by simp) fun i hi _ => ?_
    rw [List.getElem_map, List.getElem_range, Array.getElem_toList,
      FileHeader.getElem_sectionTable]
    rfl
  · rw [SegmentTable.parse_eq] at h
    obtain ⟨-, rfl⟩ := Guard.protect_eq_ok_iff.1 h
    obtain ⟨i, hi, rfl⟩ := Array.mem_iff_getElem.1 hs
    rw [FileHeader.getElem_segmentTable]
    exact Segment.followsType rfl

/-- An image with three section headers and a program header. All of them but the second section
header give ranges that leave the image. -/
def assorted : Image :=
  let first : SectionHeader :=
    { name := 0, type := 0, flags := 0, address := 0, offset := 0xfffffff0, size := 0xfffffff0
      link := 0, info := 0, alignment := 0, entrySize := 0 }
  let symbols : SectionHeader := { first with type := 11, offset := 0, size := 32, entrySize := 15 }
  let program : ProgramHeader :=
    { type := 0, flags := 0, offset := 150, virtualAddress := 0, physicalAddress := 0
      fileSize := 4, memorySize := 0, alignment := 0 }
  let bytes := [0] ++ first.encode .little .elf32 ++ symbols.encode .little .elf32 ++
    { first with type := 1 : SectionHeader }.encode .little .elf32 ++ program.encode .little .elf32
  { bytes := ⟨bytes.toArray⟩ }

/-- The header that describes both tables of `assorted`. -/
def assortedHeader : FileHeader where
  ident := { elfClass := .elf32, encoding := .lsb, version := 1, osAbi := 0, abiVersion := 0 }
  type := 1
  machine := 3
  version := 1
  entry := 0
  programOffset := 121
  sectionOffset := 1
  flags := 0
  headerSize := 52
  programEntrySize := 32
  programCount := 1
  sectionEntrySize := 40
  sectionCount := 3
  nameIndex := 0

theorem contents_follow_type_assorted :
    ∃ s t, SectionTable.parse assorted assortedHeader = .ok s ∧
      SegmentTable.parse assorted assortedHeader = .ok t ∧
      s.sections.toList.map (·.contents) =
        [.ok .absent, .error (.invalidEntrySize "symbol" 16 15),
          .error (.outOfBounds 0xfffffff0 0xfffffff0 153)] ∧
      t.segments.toList.map (·.contents) = [.error (.outOfBounds 150 4 153)] := by
  have hs := (@SectionTable.parse_eq assortedHeader assorted (by decide +kernel)).trans
    (Guard.protect_eq_ok_iff.2 ⟨by decide +kernel, rfl⟩)
  have ht := (SegmentTable.parse_eq assortedHeader assorted).trans
    (Guard.protect_eq_ok_iff.2 ⟨by decide +kernel, rfl⟩)
  have hl : (assortedHeader.sectionTable assorted).sections.toList =
      [assortedHeader.sectionAt assorted 0, assortedHeader.sectionAt assorted 1,
        assortedHeader.sectionAt assorted 2] := by rfl
  have hm : (assortedHeader.segmentTable assorted).segments.toList =
      [assortedHeader.segmentAt assorted 0] := by rfl
  obtain ⟨hsections, hsegments⟩ := contents_follow_type assorted assortedHeader
  replace hsections := (hsections _ hs).1
  replace hsegments := hsegments _ ht
  simp only [← Array.mem_toList_iff, hl, hm] at hsections hsegments
  have hfirst := (hsections _ (.head _)).absent (by decide +kernel)
  obtain ⟨view, -, hsecond⟩ :=
    (hsections _ (.tail _ (.head _))).inside (by decide +kernel) (by decide +kernel)
  have hthird := ((hsections _ (.tail _ (.tail _ (.head _)))).outside (by decide +kernel)
    (by decide +kernel)).trans (congrArg Except.error (show Error.outOfBounds _ _ _ =
      .outOfBounds 0xfffffff0 0xfffffff0 153 by decide +kernel))
  have hsegment := ((hsegments _ (.head _)).outside (by decide +kernel)).trans
    (congrArg Except.error (show Error.outOfBounds _ _ _ = .outOfBounds 150 4 153 by
      decide +kernel))
  refine ⟨_, _, hs, ht, ?_, ?_⟩
  · rw [hl, List.map_cons, List.map_cons, List.map_singleton, hfirst, hthird]
    generalize (assortedHeader.sectionAt assorted 1).contents = contents at hsecond ⊢
    cases hsecond with
    | smallSymbols =>
      rw [show (assortedHeader.sectionAt assorted 1).header.entrySize.toNat = 15 by decide +kernel]
      rfl
    | symbols _ entries => exact absurd entries (by decide +kernel)
    | strings type | notes type | brokenNotes type => exact absurd type (by decide +kernel)
    | raw type => exact absurd type (by decide +kernel)
  · rw [hm, List.map_singleton, hsegment]

end ElfFormat
