import ElfFormat.Proofs.Layout
import ElfFormat.Proofs.Window
import ElfFormat.Section
import ElfFormat.Segment

/-!
# Contents as they are decoded from a view

What a record carries depends on its range of the file only through the view of that range
(`SectionHeader.contents_eq_decode`, `ProgramHeader.contents_eq_decode`), and a section whose
contents were decoded from a view shows that view again (`Section.view?_iff_of_decode`). Where a
record needs its range and the image does not have it, that is the failure
(`SectionHeader.contents_of_range`).
-/

namespace ElfFormat

/-- What a section carries whose range is the view. -/
def SectionHeader.decode (h : SectionHeader) (c : Class) (view : View) :
    Except Error SectionContents :=
  match SectionForm.ofType h.type with
  | .absent => .ok .absent
  | .strings => .ok (.strings ⟨view⟩)
  | .symbols => (SymbolTable.parse view c h.entrySize h.link).map .symbols
  | .notes => (NoteTable.parse view).map .notes
  | .raw => .ok (.raw view)

/-- What a segment carries whose range is the view. -/
def ProgramHeader.decode (h : ProgramHeader) (view : View) : Except Error SegmentContents :=
  if h.type = SegmentType.interpreter then (view.text 0 view.length).map .interpreter
  else if h.type = SegmentType.note then (NoteTable.parse view).map .notes
  else .ok (.raw view)

/-- The range decides what a section carries, and only if its type has contents. -/
theorem SectionHeader.contents_eq_decode {h : SectionHeader} {image : Image} {c : Class}
    {view : View}
    (hr : SectionForm.ofType h.type ≠ .absent → h.range image = .ok view) :
    h.contents image c = h.decode c view := by
  rw [contents, decode]
  cases hf : SectionForm.ofType h.type with
  | absent => rfl
  | strings | raw =>
    rw [hr (by rw [hf]; nofun)]
    rfl
  | symbols =>
    rw [hr (by rw [hf]; nofun)]
    show SymbolTable.parse view c h.entrySize h.link >>= _ = _
    cases SymbolTable.parse view c h.entrySize h.link <;> rfl
  | notes =>
    rw [hr (by rw [hf]; nofun)]
    show NoteTable.parse view >>= _ = _
    cases NoteTable.parse view <;> rfl

theorem ProgramHeader.contents_eq_decode {h : ProgramHeader} {image : Image} {view : View}
    (hr : h.range image = .ok view) : h.contents image = h.decode view := by
  rw [contents, decode, hr]
  show (if _ then _ else if _ then _ else _) = _
  split
  · cases view.text 0 view.length <;> rfl
  · split
    · cases NoteTable.parse view <;> rfl
    · rfl

theorem SectionForm.ofType_eq_absent_iff {type : UInt32} :
    ofType type = .absent ↔ type = SectionType.null ∨ type = SectionType.noBits := by
  unfold ofType
  grind

theorem SectionHeader.contents_of_absent {h : SectionHeader}
    (ht : SectionForm.ofType h.type = .absent) (image : Image) (c : Class) :
    h.contents image c = .ok .absent := by
  rw [contents, ht]

theorem SectionHeader.contents_of_range {h : SectionHeader} {image : Image} {e : Error} (c : Class)
    (ht : SectionForm.ofType h.type ≠ .absent) (hr : h.range image = .error e) :
    h.contents image c = .error e := by
  rw [contents]
  cases hf : SectionForm.ofType h.type with
  | absent => exact absurd hf ht
  | strings | symbols | notes | raw =>
    rw [hr]
    rfl

theorem ProgramHeader.contents_of_range {h : ProgramHeader} {image : Image} {e : Error}
    (hr : h.range image = .error e) : h.contents image = .error e := by
  rw [contents, hr]
  rfl

/-- The symbols whose records fill the view, as far as they are whole. -/
def SymbolTable.ofView (v : View) (c : Class) (link : UInt32) : SymbolTable where
  view := v
  link := link
  symbols := ((List.range (v.length / c.symbolSize)).map fun i =>
    Symbol.ofView (v.window (i * c.symbolSize) c.symbolSize) link c).toArray

/-- An entry size that is declared too small is the only failure of a symbol table. -/
theorem SymbolTable.parse_eq (v : View) (c : Class) (entrySize : UInt64) (link : UInt32) :
    parse v c entrySize link =
      if 0 < entrySize.toNat ∧ entrySize.toNat < c.symbolSize then
        .error (.invalidEntrySize "symbol" c.symbolSize entrySize.toNat)
      else .ok (ofView v c link) := by
  have hpos : 0 < entrySize.toNat ↔ entrySize ≠ 0 := by
    rw [Nat.pos_iff_ne_zero, ne_eq, ne_eq, ← UInt64.toNat_inj]
    rfl
  unfold parse
  by_cases he : entrySize ≠ 0 ∧ entrySize.toNat < c.symbolSize
  · rw [if_pos he, if_pos ⟨hpos.2 he.1, he.2⟩]
  · rw [if_neg he, if_neg fun h => he ⟨hpos.1 h.1, h.2⟩]
    have hfit : ∀ i < v.length / c.symbolSize, i * c.symbolSize + c.symbolSize ≤ v.length :=
      fun i hi => Nat.le_trans (add_size_le_mul hi (Nat.le_refl _)) (Nat.div_mul_le_self _ _)
    rw [View.records_eq_ok hfit fun _ w hw => Symbol.parse_eq (Nat.le_of_eq hw.symm) link]
    rfl

theorem SymbolTable.eq_of_parse {v : View} {c : Class} {entrySize : UInt64} {link : UInt32}
    {t : SymbolTable} (h : parse v c entrySize link = .ok t) : t = ofView v c link := by
  rw [parse_eq] at h
  split at h
  · cases h
  · exact (Except.ok.inj h).symm

theorem SymbolTable.view_of_parse {v : View} {c : Class} {entrySize : UInt64} {link : UInt32}
    {t : SymbolTable} (h : parse v c entrySize link = .ok t) : t.view = v := by
  rw [eq_of_parse h]
  rfl

theorem SymbolTable.link_ofView {v : View} {c : Class} {link : UInt32} :
    ∀ s ∈ (ofView v c link).symbols, s.link = link := by
  intro s hs
  obtain ⟨i, -, rfl⟩ := List.mem_map.1 (List.mem_toArray.1 hs)
  cases c <;> rfl

theorem NoteTable.view_of_parse {v : View} {t : NoteTable} (h : parse v = .ok t) : t.view = v := by
  obtain ⟨notes, -, ht⟩ := bind_eq_ok_iff.1 h
  rw [← Except.ok.inj ht]

/-- Contents that were decoded from a view are contents of that view, if there are any. -/
theorem SectionHeader.view?_of_decode {h : SectionHeader} {c : Class} {view : View}
    {contents : SectionContents} (hd : h.decode c view = .ok contents)
    (hne : contents ≠ .absent) : contents.view? = some view := by
  rw [decode] at hd
  cases hf : SectionForm.ofType h.type <;> rw [hf] at hd
  case absent => exact absurd (Except.ok.inj hd).symm hne
  case strings | raw =>
    obtain rfl := Except.ok.inj hd
    rfl
  case symbols =>
    obtain ⟨table, ht, rfl⟩ := map_eq_ok_iff.1 hd
    exact congrArg some (SymbolTable.view_of_parse ht)
  case notes =>
    obtain ⟨table, ht, rfl⟩ := map_eq_ok_iff.1 hd
    exact congrArg some (NoteTable.view_of_parse ht)

/-- A section has its range as its view exactly if it has contents and they were decoded. -/
theorem Section.view?_iff_of_decode {s : Section} {h : SectionHeader} {c : Class} {view : View}
    (hs : s.contents = h.decode c view) (v : View) :
    s.view? = some v ↔
      (∃ contents, s.contents = .ok contents ∧ contents ≠ .absent) ∧ v = view := by
  unfold view?
  rcases hc : s.contents with e | contents
  · refine ⟨nofun, ?_⟩
    rintro ⟨⟨_, ⟨⟩, -⟩, -⟩
  · rw [hc] at hs
    by_cases hne : contents = .absent
    · subst hne
      refine ⟨nofun, ?_⟩
      rintro ⟨⟨_, ⟨⟩, hne⟩, -⟩
      exact absurd rfl hne
    · show contents.view? = some v ↔ _
      rw [SectionHeader.view?_of_decode hs.symm hne, Option.some.injEq]
      exact ⟨fun he => ⟨⟨contents, rfl, hne⟩, he.symm⟩, fun he => he.2.symm⟩

end ElfFormat
