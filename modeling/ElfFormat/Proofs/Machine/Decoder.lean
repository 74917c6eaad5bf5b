import ElfFormat.Proofs.Machine.Object

/-!
# The decoder on a machine

What may be asked of a decoded object, with any arguments, and the main result: in an image that a
machine can hold, decoding and every question about what was decoded are exact, so no operation
leaves its range, no range leaves the bytes that it is cut from, and a machine that wraps around on
overflow and one that stops give the same answers.
-/

namespace ElfFormat.Machine

variable {α β : Type}

/-- An element by its index, or how the index leaves the list. -/
def lookup (what : String) (l : List α) (index : UInt64) : Compute α :=
  match l[index.toNat]? with
  | some a => return a
  | none => fail (.indexOutOfRange what index.toNat l.length)

/-- The text at `offset` of a string table that covers the window. -/
def Window.string (w : Window) (offset : UInt64) : Compute String :=
  w.text offset (.ofNat maxWord)

/-- Whether a name can be read and is this one. -/
def isName (x : Compute String) (name : String) : Compute Bool := do
  return (← settle x).toOption == some name

/-- The window on the bytes of the section, if it has contents and they were decoded. -/
def Section.view? (s : Section) : Option Window :=
  match s.contents with
  | .ok (.strings view) | .ok (.raw view) => some view
  | .ok (.symbols table) => some table.view
  | .ok (.notes table) => some table.view
  | .ok .absent | .error _ => none

/-- The symbols of the section, if it carries some. -/
def Section.symbolTable? (s : Section) : Option SymbolTable :=
  match s.contents with
  | .ok (.symbols table) => some table
  | _ => none

/-- The notes of the section, if it carries some. -/
def Section.noteTable? (s : Section) : Option NoteTable :=
  match s.contents with
  | .ok (.notes table) => some table
  | _ => none

namespace SectionTable

/-- The section at an index. -/
def section? (t : SectionTable) (index : UInt64) : Compute Section :=
  lookup "section" t.sections index

/-- The window on the string table that the section at `index` is. -/
def stringTable (t : SectionTable) (index : UInt64) : Compute Window := do
  let s ← t.section? index
  match ← lift s.contents with
  | .strings view => return view
  | _ => fail (.notAStringTable index.toNat)

/-- The text at `offset` of the string table that the section at `index` is. -/
def string (t : SectionTable) (index offset : UInt64) : Compute String := do
  let table ← t.stringTable index
  table.string offset

/-- The name of a section. Without a section that holds names it is empty. -/
def sectionName (t : SectionTable) (s : Section) : Compute String :=
  if t.nameIndex = 0 then return "" else t.string t.nameIndex s.header.name.toUInt64

/-- The first section with this name. -/
def byName (t : SectionTable) (name : String) : Compute (Option Section) :=
  t.sections.findM? fun s => isName (t.sectionName s) name

/-- The sections that have a symbol table, with it. -/
def symbolTables (t : SectionTable) : List (Section × SymbolTable) :=
  t.sections.filterMap fun s => s.symbolTable?.map (s, ·)

end SectionTable

/-- The name of a symbol, from the string table that its link leads to. -/
def symbolName (sections : SectionTable) (s : Symbol) : Compute String :=
  if s.nameOffset = 0 then return ""
  else sections.string s.link.toUInt64 s.nameOffset.toUInt64

namespace SymbolTable

def symbol (t : SymbolTable) (index : UInt64) : Compute Symbol :=
  lookup "symbol" t.symbols index

/-- The first symbol with this name. Symbols without a name are passed over. -/
def byName (t : SymbolTable) (sections : SectionTable) (name : String) : Compute (Option Symbol) :=
  t.symbols.findM? fun s =>
    if s.nameOffset ≠ 0 then isName (symbolName sections s) name else return false

end SymbolTable

/-- Whether a segment covers an address. The unchecked difference is taken only where the address is
not below the segment. -/
def containsAddress (h : ProgramHeader) (address : UInt64) : Compute Bool :=
  if h.virtualAddress ≤ address then do return (← sub address h.virtualAddress) < h.memorySize
  else return false

/-- The path of the interpreter, if the segment names one. -/
def Segment.interpreter? (s : Segment) : Option String :=
  match s.contents with
  | .ok (.interpreter path) => some path
  | _ => none

def Segment.noteTable? (s : Segment) : Option NoteTable :=
  match s.contents with
  | .ok (.notes table) => some table
  | _ => none

namespace SegmentTable

def segment? (t : SegmentTable) (index : UInt64) : Compute Segment :=
  lookup "segment" t.segments index

/-- The path of the first segment that names an interpreter. -/
def interpreter? (t : SegmentTable) : Option String :=
  t.segments.findSome? (·.interpreter?)

/-- The first loaded segment that covers an address. -/
def byAddress (t : SegmentTable) (address : UInt64) : Compute (Option Segment) :=
  t.segments.findM? fun s =>
    if s.header.isLoad then containsAddress s.header address else return false

end SegmentTable

/-- Whether the note is the GNU build ID. -/
def Note.isBuildId (n : Note) : Bool :=
  n.name == "GNU" && n.type == 3

/-- The bytes of the first build ID of a table. -/
def NoteTable.buildId? (t : NoteTable) : Compute (Option (List UInt8)) :=
  match t.notes.find? (·.isBuildId) with
  | some n => do return some (← n.descriptor.bytes)
  | none => return none

/-- The note tables of all sections, and behind them those of all segments. -/
def Object.noteTables (o : Object) : List NoteTable :=
  o.sections.sections.filterMap (·.noteTable?) ++ o.segments.segments.filterMap (·.noteTable?)

/-- The first build ID of the file. -/
def Object.buildId? (o : Object) : Compute (Option (List UInt8)) :=
  o.noteTables.findSomeM? (·.buildId?)

/-! ## Exact answers -/

theorem getElem?_rel {R : α → β → Prop} : ∀ {l : List α} {m : List β}, List.Forall₂ R l m →
    ∀ index : Nat, Option.Rel R l[index]? m[index]?
  | _, _, .nil, _ => .none
  | _, _, .cons h _, 0 => .some h
  | _, _, .cons _ hs, index + 1 => getElem?_rel hs index

theorem find?_rel {R : α → β → Prop} {p : α → Bool} {q : β → Bool}
    (h : ∀ a b, R a b → p a = q b) : ∀ {l : List α} {m : List β}, List.Forall₂ R l m →
      Option.Rel R (l.find? p) (m.find? q)
  | _, _, .nil => .none
  | a :: l, b :: m, .cons hr hrs => by
    rw [List.find?_cons, List.find?_cons, h a b hr]
    cases q b with
    | true => exact .some hr
    | false => exact find?_rel h hrs

/-- A look-up that is described by what it does with an index inside and outside is exact. -/
theorem lookup_exact {R : α → β → Prop} {l : List α} {m : Array β} (h : List.Forall₂ R l m.toList)
    {what : String} {index : UInt64} {y : Except Error β}
    (found : ∀ b, m[index.toNat]? = some b → y = .ok b)
    (missing : m[index.toNat]? = none →
      y = .error (.indexOutOfRange what index.toNat m.size)) :
    Exact R (lookup what l index) y := by
  have hget := getElem?_rel h index.toNat
  rw [← Array.getElem?_toList] at found missing
  unfold lookup
  rw [h.length_eq, Array.length_toList]
  generalize l[index.toNat]? = x at hget ⊢
  generalize m.toList[index.toNat]? = z at hget found missing
  rcases hget with ⟨hr⟩ | _
  · rw [found _ rfl]
    exact .pure hr
  · rw [missing rfl]
    exact .fail _

/-- A name that cannot be decoded is not the one looked for, and no failure of the search. -/
theorem isName_exact {x : Compute String} {y : Except Error String} (h : Exact Eq x y)
    {name : String} {b : Bool} (hb : b = true ↔ y = .ok name) :
    Exact Eq (isName x name) (.ok b) := by
  refine h.settle.bind_ok fun r hr => ?_
  have hry : r = y := by
    rcases hr with ⟨rfl⟩ | _
    · rfl
    · rfl
  subst hry
  refine .pure (Bool.eq_iff_iff.2 ?_)
  rw [hb, beq_iff_eq, StringTable.toOption_eq_some_iff]

/-- A text is not limited in a string table; the largest word is no limit either. -/
theorem Window.Reads.string_exact {w : Window} {v : View} (hr : w.Reads v) (offset : UInt64) :
    Exact Eq (w.string offset) (StringTable.string ⟨v⟩ offset.toNat) := by
  have htext := hr.text_exact offset (.ofNat maxWord)
  have hs := hr.reaches
  have hl := v.length_toList
  have hmax : (UInt64.ofNat maxWord).toNat = 2 ^ 64 - 1 := rfl
  have hrest : (v.toList.drop offset.toNat).length ≤ v.length := by
    rw [List.length_drop]
    omega
  rw [View.text_eq, List.take_of_length_le (by omega)] at htext
  show Exact Eq _ (v.text offset.toNat v.length)
  rw [View.text_eq, List.take_of_length_le hrest]
  exact htext

/-- What is asked of a section has an answer exactly where its model has one, and the same. -/
structure Section.Answers (s : Section) (t : ElfFormat.Section) : Prop where
  view : Option.Rel Window.Reads s.view? t.view?
  symbolTable : Option.Rel SymbolTable.Reads s.symbolTable? t.symbolTable?
  noteTable : Option.Rel NoteTable.Reads s.noteTable? t.noteTable?

/-- The same of a segment. -/
structure Segment.Answers (s : Segment) (t : ElfFormat.Segment) : Prop where
  noteTable : Option.Rel NoteTable.Reads s.noteTable? t.noteTable?
  interpreter : s.interpreter? = t.interpreter?

/-- Each form of contents answers what it carries, and nothing else is answered. -/
theorem Section.Reads.answers {s : Section} {t : ElfFormat.Section} (h : s.Reads t) :
    s.Answers t := by
  obtain ⟨index, header, x⟩ := s
  obtain ⟨index', header', ⟨decoded⟩⟩ := t
  -- The contents of the model wait to be decoded; here they are a constant.
  obtain ⟨y, rfl⟩ : ∃ y, decoded = fun _ => y := ⟨decoded (), rfl⟩
  have hc : Settled SectionContents.Reads x y := h.contents
  rcases hc with ⟨⟨_⟩ | ⟨hw⟩ | ⟨ht⟩ | ⟨ht⟩ | ⟨hw⟩⟩ | e
  case result.absent => exact ⟨.none, .none, .none⟩
  case result.strings => exact ⟨.some hw, .none, .none⟩
  case result.symbols => exact ⟨.some ht.view, .some ht, .none⟩
  case result.notes => exact ⟨.some ht.view, .none, .some ht⟩
  case result.raw => exact ⟨.some hw, .none, .none⟩
  case failure => exact ⟨.none, .none, .none⟩

theorem Segment.Reads.answers {s : Segment} {t : ElfFormat.Segment} (h : s.Reads t) :
    s.Answers t := by
  obtain ⟨index, header, x⟩ := s
  obtain ⟨index', header', ⟨decoded⟩⟩ := t
  obtain ⟨y, rfl⟩ : ∃ y, decoded = fun _ => y := ⟨decoded (), rfl⟩
  have hc : Settled SegmentContents.Reads x y := h.contents
  rcases hc with ⟨⟨_⟩ | ⟨ht⟩ | ⟨hw⟩⟩ | e
  case result.interpreter => exact ⟨.none, rfl⟩
  case result.notes => exact ⟨.some ht, rfl⟩
  case result.raw => exact ⟨.none, rfl⟩
  case failure => exact ⟨.none, rfl⟩

namespace SectionTable.Reads

variable {t : SectionTable} {u : ElfFormat.SectionTable} (h : t.Reads u)
include h

theorem section_exact (index : UInt64) :
    Exact Section.Reads (t.section? index) (u.section? index.toNat) :=
  lookup_exact h.sections (fun s hs => by rw [ElfFormat.SectionTable.section?, hs])
    (fun hn => by rw [ElfFormat.SectionTable.section?, hn, ElfFormat.SectionTable.size])

theorem stringTable_exact (index : UInt64) :
    Exact (fun w s => w.Reads s.view) (t.stringTable index) (u.stringTable index.toNat) := by
  refine (h.section_exact index).bind fun s s' hs => ?_
  have hc := hs.contents
  generalize s.contents = x at hc ⊢
  generalize s'.contents = y at hc ⊢
  rcases hc with ⟨⟨_⟩ | ⟨hw⟩ | ⟨ht⟩ | ⟨ht⟩ | ⟨hw⟩⟩ | e
  case result.strings => exact .pure hw
  all_goals exact .fail _

theorem string_exact (index offset : UInt64) :
    Exact Eq (t.string index offset) (u.string index.toNat offset.toNat) :=
  (h.stringTable_exact index).bind fun _ _ hr => hr.string_exact offset

theorem nameIndex_eq_zero : t.nameIndex = 0 ↔ u.nameIndex = 0 := by
  rw [← h.nameIndex, ← UInt64.toNat_inj]
  rfl

/-- The index and the offset of a name are read as words, but are no more than 32 bits. -/
theorem sectionName_exact {s : Section} {s' : ElfFormat.Section} (hs : s.Reads s') :
    Exact Eq (t.sectionName s) (u.sectionName s') := by
  have hstring := h.string_exact t.nameIndex s.header.name.toUInt64
  rw [h.nameIndex, UInt32.toNat_toUInt64, hs.header] at hstring
  unfold sectionName ElfFormat.SectionTable.sectionName
  rw [hs.header]
  simp only [h.nameIndex_eq_zero]
  split
  · exact .pure rfl
  · exact hstring

theorem byName_exact (name : String) :
    Exact (Option.Rel Section.Reads) (t.byName name) (.ok (u.byName name)) := by
  refine Exact.findM? (fun s s' hs => ?_) h.sections
  exact isName_exact (h.sectionName_exact hs) ElfFormat.SectionTable.isNamed_iff

theorem symbolName_exact (s : Symbol) : Exact Eq (symbolName t s) (s.name u) := by
  have hstring := h.string_exact s.link.toUInt64 s.nameOffset.toUInt64
  rw [UInt32.toNat_toUInt64, UInt32.toNat_toUInt64] at hstring
  unfold symbolName Symbol.name
  split
  · exact .pure rfl
  · exact hstring

theorem symbolTables_reads :
    List.Forall₂ (fun a b => a.1.Reads b.1 ∧ a.2.Reads b.2) t.symbolTables u.symbolTables := by
  refine List.rel_filterMap (fun s s' hs => ?_) h.sections
  have ht := hs.answers.symbolTable
  generalize s.symbolTable? = x at ht ⊢
  generalize s'.symbolTable? = y at ht ⊢
  rcases ht with ⟨ht⟩ | _
  · exact .some ⟨hs, ht⟩
  · exact .none

end SectionTable.Reads

namespace SymbolTable.Reads

variable {t : SymbolTable} {u : ElfFormat.SymbolTable} (h : t.Reads u)
include h

theorem symbols_rel : List.Forall₂ Eq t.symbols u.symbols.toList := by
  rw [List.forall₂_eq_eq_eq]
  exact h.symbols

theorem symbol_exact (index : UInt64) :
    Exact Eq (t.symbol index) (u.symbol index.toNat) :=
  lookup_exact h.symbols_rel (fun s hs => by rw [ElfFormat.SymbolTable.symbol, hs])
    (fun hn => by rw [ElfFormat.SymbolTable.symbol, hn])

theorem byName_exact {sections : SectionTable} {sections' : ElfFormat.SectionTable}
    (hs : sections.Reads sections') (name : String) :
    Exact (Option.Rel Eq) (t.byName sections name)
      (.ok ((u.indexOfName? sections' name).bind (u.symbols[·]?))) := by
  have hfind : (u.indexOfName? sections' name).bind (u.symbols[·]?) =
      u.symbols.toList.find? fun s => s.nameOffset != 0 && s.isNamed sections' name := by
    rw [List.find?_eq_bind_findIdx?_getElem?]
    simp only [Array.getElem?_toList]
    rfl
  rw [hfind]
  refine Exact.findM? (fun s _ he => he ▸ ?_) h.symbols_rel
  by_cases h0 : s.nameOffset = 0
  · rw [if_neg (not_not.2 h0), h0]
    exact .pure rfl
  · rw [if_pos h0, bne_iff_ne.2 h0, Bool.true_and]
    exact isName_exact (hs.symbolName_exact s) Symbol.isNamed_iff

end SymbolTable.Reads

/-- The difference is not taken where it would leave the words. -/
theorem containsAddress_exact (h : ProgramHeader) (address : UInt64) :
    Exact Eq (containsAddress h address) (.ok (h.containsAddress address)) := by
  unfold containsAddress ProgramHeader.containsAddress
  split
  · next hle =>
    rw [sub_eq (UInt64.le_iff_toNat_le.1 hle), pure_bind, decide_eq_true hle, Bool.true_and]
    exact .pure rfl
  · next hlt =>
    rw [decide_eq_false hlt, Bool.false_and]
    exact .pure rfl

namespace SegmentTable.Reads

variable {t : SegmentTable} {u : ElfFormat.SegmentTable} (h : t.Reads u)
include h

theorem segment_exact (index : UInt64) :
    Exact Segment.Reads (t.segment? index) (u.segment? index.toNat) :=
  lookup_exact h.segments (fun s hs => by rw [ElfFormat.SegmentTable.segment?, hs])
    (fun hn => by rw [ElfFormat.SegmentTable.segment?, hn, ElfFormat.SegmentTable.size])

theorem interpreter_eq : t.interpreter? = u.interpreter? := by
  unfold interpreter? ElfFormat.SegmentTable.interpreter?
  obtain ⟨hs⟩ := h
  generalize t.segments = l at hs ⊢
  generalize u.segments.toList = m at hs ⊢
  induction hs with
  | nil => rfl
  | cons hs _ ih => rw [List.findSome?_cons, List.findSome?_cons, hs.answers.interpreter, ih]

theorem byAddress_exact (address : UInt64) :
    Exact (Option.Rel Segment.Reads) (t.byAddress address) (.ok (u.byAddress address)) := by
  refine Exact.findM? (fun s s' hs => ?_) h.segments
  rw [hs.header]
  cases s'.header.isLoad with
  | true => exact containsAddress_exact s'.header address
  | false => exact .pure rfl

end SegmentTable.Reads

theorem NoteTable.Reads.buildId_exact {t : NoteTable} {u : ElfFormat.NoteTable} (h : t.Reads u) :
    Exact Eq t.buildId? (.ok u.buildId?) := by
  have hfind : Option.Rel Note.Reads (t.notes.find? (·.isBuildId)) (u.notes.find? (·.isBuildId)) :=
    find?_rel (fun n m hn => by
      rw [Note.isBuildId, hn.name, hn.type]
      rfl) h.notes
  unfold buildId? ElfFormat.NoteTable.buildId?
  generalize t.notes.find? (·.isBuildId) = found at hfind ⊢
  generalize u.notes.find? (·.isBuildId) = found' at hfind ⊢
  rcases hfind with ⟨hn⟩ | _
  · simp only [hn.descriptor.bytes_eq, pure_bind]
    exact .pure rfl
  · exact .pure rfl

namespace Object.Reads

variable {o : Object} {p : ElfFormat.Object} (h : o.Reads p)
include h

theorem noteTables_reads : List.Forall₂ NoteTable.Reads o.noteTables p.noteTables :=
  List.rel_append (List.rel_filterMap (fun _ _ hs => hs.answers.noteTable) h.sections.sections)
    (List.rel_filterMap (fun _ _ hs => hs.answers.noteTable) h.segments.segments)

/-- The first build ID, in the notes of the sections and then in those of the segments. -/
theorem buildId_exact : Exact Eq o.buildId? (.ok p.buildId?) :=
  Exact.findSomeM? (fun _ _ ht => ht.buildId_exact) h.noteTables_reads

end Object.Reads

/-! ## The decoder -/

/-- Whatever is read from a window, at any place, is exact. -/
structure Window.Answers (w : Window) (v : View) : Prop where
  bytes : Exact Eq w.bytes (.ok v.toList)
  subview : ∀ offset length,
    Exact Window.Reads (w.subview offset length) (v.subview offset.toNat length.toNat)
  slice : ∀ offset length, Exact Eq (w.slice offset length) (v.slice offset.toNat length.toNat)
  u8 : ∀ offset, Exact Eq (w.u8 offset) (v.u8 offset.toNat)
  u16 : ∀ offset, Exact Eq (w.u16 offset) (v.u16 offset.toNat)
  u32 : ∀ offset, Exact Eq (w.u32 offset) (v.u32 offset.toNat)
  u64 : ∀ offset, Exact Eq (w.u64 offset) (v.u64 offset.toNat)
  word : ∀ c offset, Exact Eq (w.word c offset) (v.word c offset.toNat)
  text : ∀ offset limit, Exact Eq (w.text offset limit) (v.text offset.toNat limit.toNat)
  string : ∀ offset, Exact Eq (w.string offset) (StringTable.string ⟨v⟩ offset.toNat)
  strings : Exact (List.Forall₂ ReadsString) (strings w) (.ok (StringTable.strings ⟨v⟩))
  fileHeader : Exact Eq (fileHeader w) (FileHeader.parse v)
  sectionHeader : ∀ c, Exact Eq (sectionHeader w c) (SectionHeader.parse v c)
  programHeader : ∀ c, Exact Eq (programHeader w c) (ProgramHeader.parse v c)
  symbol : ∀ link c, Exact Eq (symbol w link c) (Symbol.parse v c link)
  symbolTable : ∀ c entrySize link, Exact SymbolTable.Reads (symbolTable w c entrySize link)
    (ElfFormat.SymbolTable.parse v c entrySize link)
  noteTable : Exact NoteTable.Reads (noteTable w) (ElfFormat.NoteTable.parse v)

/-- Every look-up in a section table is exact. -/
structure SectionTable.Answers (t : SectionTable) (u : ElfFormat.SectionTable) : Prop where
  byIndex : ∀ index, Exact Section.Reads (t.section? index) (u.section? index.toNat)
  stringTable : ∀ index,
    Exact (fun w s => w.Reads s.view) (t.stringTable index) (u.stringTable index.toNat)
  string : ∀ index offset, Exact Eq (t.string index offset) (u.string index.toNat offset.toNat)
  sectionName : ∀ s s', Section.Reads s s' → Exact Eq (t.sectionName s) (u.sectionName s')
  byName : ∀ name, Exact (Option.Rel Section.Reads) (t.byName name) (.ok (u.byName name))
  symbolName : ∀ s, Exact Eq (Machine.symbolName t s) (s.name u)
  symbolTables :
    List.Forall₂ (fun a b => a.1.Reads b.1 ∧ a.2.Reads b.2) t.symbolTables u.symbolTables

/-- Every look-up in a symbol table is exact, by name in any section table. -/
structure SymbolTable.Answers (t : SymbolTable) (u : ElfFormat.SymbolTable) : Prop where
  byIndex : ∀ index, Exact Eq (t.symbol index) (u.symbol index.toNat)
  byName : ∀ sections sections', SectionTable.Reads sections sections' → ∀ name,
    Exact (Option.Rel Eq) (t.byName sections name)
      (.ok ((u.indexOfName? sections' name).bind (u.symbols[·]?)))

/-- Every look-up in a segment table is exact. -/
structure SegmentTable.Answers (t : SegmentTable) (u : ElfFormat.SegmentTable) : Prop where
  byIndex : ∀ index, Exact Segment.Reads (t.segment? index) (u.segment? index.toNat)
  interpreter : t.interpreter? = u.interpreter?
  byAddress : ∀ address,
    Exact (Option.Rel Segment.Reads) (t.byAddress address) (.ok (u.byAddress address))

/-- Decoding the image, its tables for any header, and whatever is asked of the results. -/
structure Decodes (image : Image) : Prop where
  full : (Window.full image).Reads image.full
  object : Exact (fun a b => Settled Object.Reads a.1 b.1 ∧ a.2 = b.2) (object image)
    (.ok (ElfFormat.Object.parse image))
  sectionTable : ∀ header, Exact SectionTable.Reads (sectionTable image header)
    (ElfFormat.SectionTable.parse image header)
  segmentTable : ∀ header, Exact SegmentTable.Reads (segmentTable image header)
    (ElfFormat.SegmentTable.parse image header)
  ofWindow : ∀ w v, Window.Reads w v → w.Answers v
  ofSection : ∀ s t, Section.Reads s t → s.Answers t
  ofSegment : ∀ s t, Segment.Reads s t → s.Answers t
  ofSectionTable : ∀ t u, SectionTable.Reads t u → t.Answers u
  ofSymbolTable : ∀ t u, SymbolTable.Reads t u → t.Answers u
  ofNoteTable : ∀ t u, NoteTable.Reads t u → Exact Eq t.buildId? (.ok u.buildId?)
  ofSegmentTable : ∀ t u, SegmentTable.Reads t u → t.Answers u
  ofObject : ∀ o p, Object.Reads o p → Exact Eq o.buildId? (.ok p.buildId?)
  containsAddress : ∀ h address,
    Exact Eq (containsAddress h address) (.ok (h.containsAddress address))

theorem Window.Reads.answers {w : Window} {v : View} (hr : w.Reads v) : w.Answers v where
  bytes := by
    rw [hr.bytes_eq]
    exact .pure rfl
  subview := hr.subview_exact
  slice := hr.slice_exact
  u8 := hr.u8_exact
  u16 := hr.u16_exact
  u32 := hr.u32_exact
  u64 := hr.u64_exact
  word := hr.word_exact
  text := hr.text_exact
  string := hr.string_exact
  strings := strings_exact hr
  fileHeader := fileHeader_exact hr
  sectionHeader := sectionHeader_exact hr
  programHeader := programHeader_exact hr
  symbol := symbol_exact hr
  symbolTable := symbolTable_exact hr
  noteTable := noteTable_exact hr

/-- Whatever the machine does on overflow, it comes to the exact answers and never has to stop. -/
theorem decoder_exact {image : Image} (small : image.length < 2 ^ 63) : Decodes image where
  full := Window.full_reads small
  object := object_exact small
  sectionTable := sectionTable_exact small
  segmentTable := segmentTable_exact small
  ofWindow _ _ hr := hr.answers
  ofSection _ _ h := h.answers
  ofSegment _ _ h := h.answers
  ofSectionTable _ _ h := ⟨h.section_exact, h.stringTable_exact, h.string_exact,
    fun _ _ => h.sectionName_exact, h.byName_exact, h.symbolName_exact, h.symbolTables_reads⟩
  ofSymbolTable _ _ h := ⟨h.symbol_exact, fun _ _ => h.byName_exact⟩
  ofNoteTable _ _ h := h.buildId_exact
  ofSegmentTable _ _ h := ⟨h.segment_exact, h.interpreter_eq, h.byAddress_exact⟩
  ofObject _ _ h := h.buildId_exact
  containsAddress := containsAddress_exact

/-- A file of 52 bytes whose one section header stands inside the file header and describes the
first 12 bytes as a string table. -/
def selfDescribing : Image where
  bytes := ⟨#[0x7f, 0x45, 0x4c, 0x46, 1, 1, 1, 0, 0, 0, 0, 0, 0, 0, 0, 0, 3, 0, 0, 0, 1, 0, 0, 0, 0,
    0, 0, 0, 0, 0, 0, 0, 12, 0, 0, 0, 0, 0, 0, 0, 52, 0, 0, 0, 0, 0, 40, 0, 1, 0, 0, 0]⟩

theorem decoder_exact_selfDescribing :
    selfDescribing.length < 2 ^ 63 ∧
      ∃ wrapped stopped image, object selfDescribing .wraps = .ok (.ok wrapped, image) ∧
        object selfDescribing .stops = .ok (.ok stopped, image) ∧
        wrapped.sections.string 0 1 .wraps = .ok "ELF\x01\x01\x01" ∧
        stopped.sections.string 0 1 .stops = .ok "ELF\x01\x01\x01" := by
  have small : selfDescribing.length < 2 ^ 63 := by decide
  have hd := decoder_exact small
  have hp : ((ElfFormat.Object.parse selfDescribing).1.bind (·.sections.string 0 1)) =
      .ok "ELF\x01\x01\x01" := by decide +kernel
  obtain ⟨p, hparse, hstring⟩ := bind_eq_ok_iff.1 hp
  have run (mode : Overflow) : ∃ o, object selfDescribing mode =
      .ok (.ok o, (ElfFormat.Object.parse selfDescribing).2) ∧
        o.sections.string 0 1 mode = .ok "ELF\x01\x01\x01" := by
    obtain ⟨⟨r, image⟩, hrun, hr, rfl⟩ := hd.object.eq_ok mode
    simp only [hparse] at hr
    rcases hr with ⟨ho⟩
    have hs := (hd.ofSectionTable _ _ ho.sections).string 0 1
    rw [show p.sections.string (0 : UInt64).toNat (1 : UInt64).toNat = _ from hstring] at hs
    obtain ⟨s, hs, rfl⟩ := hs.eq_ok mode
    exact ⟨_, hrun, hs⟩
  obtain ⟨wrapped, hw, hws⟩ := run .wraps
  obtain ⟨stopped, hs, hss⟩ := run .stops
  exact ⟨small, wrapped, stopped, _, hw, hs, hws, hss⟩

end ElfFormat.Machine
