import ElfFormat.Note
import ElfFormat.Proofs.Machine.Record
import ElfFormat.Section
import ElfFormat.Segment
import ElfFormat.StringTable
import ElfFormat.Symbol.Table

/-!
# Contents on a machine

The loops over records, notes and strings, and the contents that they decode. A loop over notes or
strings goes on only from a position further on, which is no restriction: the position that it comes
to is the exact one (`note_exact`), and that lies behind the record.
-/

namespace ElfFormat.Machine

variable {α β : Type}

/-- Reads as many records of `size` bytes, each `stride` bytes behind the last. Where a record
starts is an unchecked product. -/
def Window.records (table : Window) (count stride size : UInt64)
    (read : UInt64 → Window → Compute α) : Compute (List α) :=
  (List.range count.toNat).mapM fun index => do
    let record ← table.subview (← mul (.ofNat index) stride) size
    read (.ofNat index) record

/-- Symbols and the window that they were read from. -/
structure SymbolTable where
  view : Window
  link : UInt32
  symbols : List Symbol

/-- Reads as many symbols as the window has room for. -/
def symbolTable (w : Window) (c : Class) (entrySize : UInt64) (link : UInt32) :
    Compute SymbolTable :=
  if entrySize ≠ 0 ∧ entrySize < symbolSize c then
    fail (.invalidEntrySize "symbol" (symbolSize c).toNat entrySize.toNat)
  else do
    let symbols ← w.records (w.length / symbolSize c) (symbolSize c) (symbolSize c)
      fun _ record => symbol record link c
    return { view := w, link, symbols }

/-- A note and where its record starts. -/
structure Note where
  name : String
  type : UInt32
  descriptor : Window
  offset : UInt64

/-- The three numbers at the front of a note. -/
def noteHeader (region : Window) (offset : UInt64) : Compute NoteHeader := do
  let nameSize ← region.u32 offset
  let descriptorSize ← region.u32 (← add offset 4)
  let type ← region.u32 (← add offset 8)
  return { nameSize, descriptorSize, type }

/-- The name of a note; a name of no bytes is not looked for. -/
def noteName (region : Window) (header : NoteHeader) (start : UInt64) : Compute String :=
  if 0 < header.nameSize.toUInt64 then region.text start header.nameSize.toUInt64 else return ""

/-- The end of a part and of the padding behind it, as far as the region goes. -/
def padded (region : Window) (start length : UInt64) : Compute UInt64 := do
  return min (← alignUp (← add start length) 4) region.length

/-- The note and where the next one starts. -/
def note (region : Window) (header : NoteHeader) (offset : UInt64) : Compute (Note × UInt64) := do
  let nameSize := header.nameSize.toUInt64
  let descriptorSize := header.descriptorSize.toUInt64
  let nameStart ← add offset 12
  let remaining ← sub region.length nameStart
  if remaining < nameSize then
    fail (.malformedNote (← add region.offset offset).toNat
      (NoteFault.name nameSize.toNat remaining.toNat).message)
  else
    let name ← noteName region header nameStart
    let descriptorStart ← padded region nameStart nameSize
    let remaining ← sub region.length descriptorStart
    if remaining < descriptorSize then
      fail (.malformedNote (← add region.offset offset).toNat
        (NoteFault.descriptor descriptorSize.toNat remaining.toNat).message)
    else
      let descriptor ← region.subview descriptorStart descriptorSize
      let next ← padded region descriptorStart descriptorSize
      return ({ name, type := header.type, descriptor, offset }, next)

/-- Reads notes from a position on, until less is left than a header takes. The next note has to
start behind this one. -/
def notesFrom (region : Window) (offset : UInt64) : Compute (List Note) := do
  let rest ← sub region.length offset
  if rest < 12 then
    -- What is left over is reported with its place and its size.
    if offset < region.length then
      discard (add region.offset offset)
      discard (sub region.length offset)
    return []
  else
    let header ← noteHeader region offset
    let (note, next) ← note region header offset
    if offset < next then
      let notes ← notesFrom region next
      return note :: notes
    else abort
termination_by 2 ^ 64 - offset.toNat
decreasing_by
  have := next.toNat_lt
  rename_i h
  have := UInt64.lt_iff_toNat_lt.1 h
  omega

/-- Notes and the window that they were read from. -/
structure NoteTable where
  view : Window
  notes : List Note

/-- Reads the window as a note region. -/
def noteTable (w : Window) : Compute NoteTable := do
  let notes ← notesFrom w 0
  return { view := w, notes }

/-- The strings from a position on, each with its offset. The last one may have no NUL. -/
def stringsFrom (bytes : List UInt8) (position : UInt64) : Compute (List (UInt64 × String)) :=
  if size bytes ≤ position then return []
  else do
    let rest ← cut bytes position (size bytes)
    let length := size (rest.takeWhile (· ≠ 0))
    let next ← add (← add position length) 1
    let run ← cut rest 0 length
    if position < next then
      let strings ← stringsFrom bytes next
      return (position, Utf8.decodeLossy run) :: strings
    else abort
termination_by 2 ^ 64 - position.toNat
decreasing_by
  have := next.toNat_lt
  rename_i h
  have := UInt64.lt_iff_toNat_lt.1 h
  omega

/-- Every string of a table that covers the window. -/
def strings (w : Window) : Compute (List (UInt64 × String)) := do
  stringsFrom (← w.bytes) 0

/-- What a section carries, with windows in place of views. -/
inductive SectionContents where
  | absent
  | strings (view : Window)
  | symbols (table : SymbolTable)
  | notes (table : NoteTable)
  | raw (view : Window)

/-- Decodes what a section carries, from the range that its header gives. -/
def sectionContents (image : Image) (c : Class) (h : SectionHeader) : Compute SectionContents :=
  match SectionForm.ofType h.type with
  | .absent => return .absent
  | .strings => do return .strings (← (Window.full image).subview h.offset h.size)
  | .symbols => do
    let view ← (Window.full image).subview h.offset h.size
    return .symbols (← symbolTable view c h.entrySize h.link)
  | .notes => do
    let view ← (Window.full image).subview h.offset h.size
    return .notes (← noteTable view)
  | .raw => do return .raw (← (Window.full image).subview h.offset h.size)

/-- What a segment carries, with windows in place of views. -/
inductive SegmentContents where
  | interpreter (path : String)
  | notes (table : NoteTable)
  | raw (view : Window)

/-- Decodes what a segment carries, from the range that its header gives. -/
def segmentContents (image : Image) (h : ProgramHeader) : Compute SegmentContents := do
  let view ← (Window.full image).subview h.offset h.fileSize
  if h.type = SegmentType.interpreter then return .interpreter (← view.text 0 view.length)
  else if h.type = SegmentType.note then return .notes (← noteTable view)
  else return .raw view

/-! ## What they stand for -/

/-- The note is the given one, and its descriptor the window on it. -/
structure Note.Reads (n : Note) (m : ElfFormat.Note) : Prop where
  name : n.name = m.name
  type : n.type = m.type
  descriptor : n.descriptor.Reads m.descriptor
  offset : n.offset.toNat = m.offset

/-- Note by note. -/
structure NoteTable.Reads (t : NoteTable) (u : ElfFormat.NoteTable) : Prop where
  view : t.view.Reads u.view
  notes : List.Forall₂ Note.Reads t.notes u.notes

/-- The symbols are the same, since they keep no windows. -/
structure SymbolTable.Reads (t : SymbolTable) (u : ElfFormat.SymbolTable) : Prop where
  view : t.view.Reads u.view
  link : t.link = u.link
  symbols : t.symbols = u.symbols.toList

/-- The contents have the same form and stand for the given ones. -/
inductive SectionContents.Reads : SectionContents → ElfFormat.SectionContents → Prop where
  | absent : Reads .absent .absent
  | strings {w : Window} {v : View} (h : w.Reads v) : Reads (.strings w) (.strings ⟨v⟩)
  | symbols {t : SymbolTable} {u : ElfFormat.SymbolTable} (h : t.Reads u) :
    Reads (.symbols t) (.symbols u)
  | notes {t : NoteTable} {u : ElfFormat.NoteTable} (h : t.Reads u) : Reads (.notes t) (.notes u)
  | raw {w : Window} {v : View} (h : w.Reads v) : Reads (.raw w) (.raw v)

/-- The same for what a segment carries. -/
inductive SegmentContents.Reads : SegmentContents → ElfFormat.SegmentContents → Prop where
  | interpreter (path : String) : Reads (.interpreter path) (.interpreter path)
  | notes {t : NoteTable} {u : ElfFormat.NoteTable} (h : t.Reads u) : Reads (.notes t) (.notes u)
  | raw {w : Window} {v : View} (h : w.Reads v) : Reads (.raw w) (.raw v)

section Exactness

variable {w : Window} {v : View} (hr : w.Reads v)
include hr

/-- The last record starts at less than count times stride, so no product overflows if that one does
not. -/
theorem records_exact {R : α → β → Prop} {count stride size : UInt64}
    {read : UInt64 → Window → Compute α} {read' : Nat → View → Except Error β}
    (small : count.toNat * stride.toNat < 2 ^ 64)
    (h : ∀ index w v, w.Reads v → Exact R (read index w) (read' index.toNat v)) :
    Exact (List.Forall₂ R) (w.records count stride size read)
      (v.records count.toNat stride.toNat size.toNat read') := by
  refine Exact.mapM fun index hi => ?_
  have hi := List.mem_range.1 hi
  have hn : (UInt64.ofNat index).toNat = index :=
    UInt64.toNat_ofNat_of_lt' (Nat.lt_trans hi count.toNat_lt)
  have hmul : (UInt64.ofNat index).toNat * stride.toNat < 2 ^ 64 := by
    rw [hn]
    exact Nat.lt_of_le_of_lt (Nat.mul_le_mul_right _ (Nat.le_of_lt hi)) small
  have hsub := hr.subview_exact (.ofNat index * stride) size
  rw [toNat_mul hmul, hn] at hsub
  rw [mul_eq hmul, pure_bind]
  refine hsub.bind fun record record' hrec => ?_
  have := h (.ofNat index) record record' hrec
  rwa [hn] at this

/-- The records fit into the view by the way that they are counted. -/
theorem symbolTable_exact (c : Class) (entrySize : UInt64) (link : UInt32) :
    Exact SymbolTable.Reads (symbolTable w c entrySize link)
      (ElfFormat.SymbolTable.parse v c entrySize link) := by
  unfold symbolTable ElfFormat.SymbolTable.parse
  simp only [UInt64.lt_iff_toNat_lt, toNat_symbolSize]
  split
  · exact .fail _
  · have hcount : (w.length / symbolSize c).toNat = v.length / c.symbolSize := by
      rw [UInt64.toNat_div, toNat_symbolSize, hr.length_eq]
    have hle := Nat.div_mul_le_self v.length c.symbolSize
    have hs := hr.reaches
    have hsmall : (w.length / symbolSize c).toNat * (symbolSize c).toNat < 2 ^ 64 := by
      rw [hcount, toNat_symbolSize]
      omega
    have hrecords : Exact (List.Forall₂ Eq)
        (w.records (w.length / symbolSize c) (symbolSize c) (symbolSize c)
          fun _ record => symbol record link c)
        (v.records (w.length / symbolSize c).toNat (symbolSize c).toNat (symbolSize c).toNat
          fun _ record => Symbol.parse record c link) :=
      records_exact hr hsmall fun _ _ _ h => symbol_exact h link c
    rw [hcount, toNat_symbolSize] at hrecords
    refine hrecords.bind fun symbols symbols' he => ?_
    rw [List.forall₂_eq_eq_eq] at he
    exact .pure ⟨hr, rfl, he⟩

theorem noteHeader_exact {offset : UInt64} (fits : offset.toNat + NoteHeader.size ≤ v.length) :
    Exact Eq (noteHeader w offset) (NoteHeader.fields.run v offset.toNat) := by
  have hs := hr.reaches
  have hsize : NoteHeader.size = 12 := rfl
  have h4 := toNat_add (show offset.toNat + (4 : UInt64).toNat < 2 ^ 64 by
    show offset.toNat + 4 < 2 ^ 64; omega)
  have h8 := toNat_add (show offset.toNat + (8 : UInt64).toNat < 2 ^ 64 by
    show offset.toNat + 8 < 2 ^ 64; omega)
  have hsecond := hr.u32_exact (offset + 4)
  have hthird := hr.u32_exact (offset + 8)
  rw [h4] at hsecond
  rw [h8] at hthird
  unfold noteHeader
  rw [add_eq (by show offset.toNat + 4 < 2 ^ 64; omega),
    add_eq (by show offset.toNat + 8 < 2 ^ 64; omega)]
  refine .next (hr.u32_exact offset) fun nameSize => ?_
  refine .next hsecond fun descriptorSize => ?_
  refine .next hthird fun type => ?_
  exact .pure rfl

theorem sub_length {x : UInt64} (h : x.toNat ≤ v.length) :
    ∃ rest, sub w.length x = pure rest ∧ rest.toNat = v.length - x.toNat := by
  rw [hr.length_eq] at h ⊢
  exact ⟨_, sub_eq h, UInt64.toNat_sub_of_le _ _ (UInt64.le_iff_toNat_le.2 h)⟩

/-- A part that ends in the view leaves room for the step of the alignment behind it. -/
theorem padded_eq {start length : UInt64} (h : start.toNat + length.toNat ≤ v.length) :
    ∃ stop, padded w start length = pure stop ∧
      stop.toNat = min (roundUp (start.toNat + length.toNat) 4) v.length := by
  have hs := hr.reaches
  have hsum := toNat_add (show start.toNat + length.toNat < 2 ^ 64 by omega)
  obtain ⟨aligned, ha, hn⟩ := alignUp_four (show (start + length).toNat + 4 < 2 ^ 64 by omega)
  refine ⟨min aligned w.length, ?_, ?_⟩
  · unfold padded
    rw [add_eq (by omega), pure_bind, ha, pure_bind]
  · rw [toNat_min, hn, hsum, hr.length_eq]

theorem noteName_exact (header : NoteHeader) {start : UInt64} {offset : Nat}
    (hstart : start.toNat = offset + NoteHeader.size) :
    Exact Eq (noteName w header start) (header.readName v offset) := by
  have htext := hr.text_exact start header.nameSize.toUInt64
  rw [hstart, UInt32.toNat_toUInt64] at htext
  have hpos : 0 < header.nameSize.toUInt64 ↔ header.nameSize ≠ 0 := by
    rw [UInt64.lt_iff_toNat_lt, UInt32.toNat_toUInt64, Ne, ← UInt32.toNat_inj]
    exact Nat.pos_iff_ne_zero
  unfold noteName NoteHeader.readName
  by_cases h0 : header.nameSize = 0
  · rw [if_neg (fun h => hpos.1 h h0), if_pos h0]
    exact .pure rfl
  · rw [if_pos (hpos.2 h0), if_neg h0]
    exact htext

/-- A note is exact together with the position behind it, which the loop goes on from. -/
theorem note_exact (header : NoteHeader) {offset : UInt64}
    (fits : offset.toNat + NoteHeader.size ≤ v.length) :
    Exact (fun p n => p.1.Reads n ∧ p.2.toNat = header.next offset.toNat v.length)
      (note w header offset) (header.readNote v offset.toNat) := by
  have hs := hr.reaches
  have hl := hr.length_eq
  have ho := hr.offset_eq
  have hsize : NoteHeader.size = 12 := rfl
  have hadd : offset.toNat + (12 : UInt64).toNat < 2 ^ 64 := by
    show offset.toNat + 12 < 2 ^ 64
    omega
  have hstart : (offset + 12).toNat = offset.toNat + NoteHeader.size := toNat_add hadd
  have hplace := toNat_add (show w.offset.toNat + offset.toNat < 2 ^ 64 by omega)
  obtain ⟨remaining, hsub, hremaining⟩ := sub_length hr (show (offset + 12).toNat ≤ _ by omega)
  unfold note NoteHeader.readNote
  simp only [add_eq hadd, hsub, add_eq (show w.offset.toNat + offset.toNat < 2 ^ 64 by omega),
    pure_bind, UInt64.lt_iff_toNat_lt, hremaining, hstart, UInt32.toNat_toUInt64, hplace, ← ho]
  split
  · exact .fail _
  next hname =>
  have hnameSize : header.nameSize.toUInt64.toNat = header.nameSize.toNat := UInt32.toNat_toUInt64 _
  refine (noteName_exact hr header hstart).bind fun name _ he => he ▸ ?_
  -- From here on the cursor may be clamped to the end of the region.
  obtain ⟨start, hpad, hdescriptor⟩ := padded_eq hr
    (show (offset + 12).toNat + header.nameSize.toUInt64.toNat ≤ _ by omega)
  have hdescriptor : start.toNat = header.descriptorStart offset.toNat v.length := by
    rw [hdescriptor, hstart, hnameSize]
    rfl
  have hle : header.descriptorStart offset.toNat v.length ≤ v.length := Nat.min_le_right _ _
  obtain ⟨remaining, hsub, hremaining⟩ := sub_length hr (show start.toNat ≤ _ by omega)
  simp only [hpad, hsub, pure_bind, hremaining, hdescriptor]
  split
  · exact .fail _
  next hdesc =>
  have hdescriptorSize : header.descriptorSize.toUInt64.toNat = header.descriptorSize.toNat :=
    UInt32.toNat_toUInt64 _
  have hview := hr.subview_exact start header.descriptorSize.toUInt64
  rw [hdescriptor, hdescriptorSize] at hview
  refine hview.bind fun descriptor _ hview => ?_
  obtain ⟨next, hpad, hnext⟩ := padded_eq hr
    (show start.toNat + header.descriptorSize.toUInt64.toNat ≤ _ by omega)
  rw [hpad, pure_bind]
  refine .pure ⟨⟨rfl, rfl, hview, rfl⟩, ?_⟩
  rw [hnext, hdescriptor, hdescriptorSize]
  rfl

/-- By induction on what is left of the region: the position behind a note is the exact one, and it
lies further on. -/
theorem notesFrom_exact {offset : UInt64} (inside : offset.toNat ≤ v.length) :
    Exact (List.Forall₂ Note.Reads) (notesFrom w offset)
      (ElfFormat.Note.readFrom v offset.toNat) := by
  have hs := hr.reaches
  have hl := hr.length_eq
  have hsize : NoteHeader.size = 12 := rfl
  have hle : offset.toNat ≤ w.length.toNat := hl ▸ inside
  have hrest : (w.length - offset).toNat = v.length - offset.toNat := by
    rw [UInt64.toNat_sub_of_le _ _ (UInt64.le_iff_toNat_le.2 hle), hl]
  rw [notesFrom, ElfFormat.Note.readFrom, sub_eq hle, pure_bind]
  simp only [UInt64.lt_iff_toNat_lt, hrest]
  by_cases hfit : offset.toNat + NoteHeader.size ≤ v.length
  · rw [if_neg (by show ¬_ < 12; omega), dif_pos hfit]
    refine (noteHeader_exact hr hfit).bind fun header _ he => he ▸ ?_
    refine (note_exact hr header hfit).bind fun p n hp => ?_
    obtain ⟨note, next⟩ := p
    obtain ⟨hnote, hnext⟩ := hp
    simp only [] at hnote hnext ⊢
    have hlt := header.start_lt_next hfit
    have hmin : header.next offset.toNat v.length ≤ v.length := Nat.min_le_right _ _
    rw [if_pos (by omega)]
    have hshorter : v.length - next.toNat < v.length - offset.toNat := by omega
    have ih := notesFrom_exact (show next.toNat ≤ v.length by omega)
    rw [hnext] at ih
    refine ih.bind fun notes notes' hnotes => ?_
    exact .pure (.cons hnote hnotes)
  · rw [if_pos (by show _ < 12; omega), dif_neg hfit]
    split
    · have ho := hr.offset_eq
      rw [add_eq (by omega)]
      exact .pure .nil
    · exact .pure .nil
termination_by v.length - offset.toNat

theorem noteTable_exact :
    Exact NoteTable.Reads (noteTable w) (ElfFormat.NoteTable.parse v) :=
  (notesFrom_exact hr (Nat.zero_le _)).bind fun _ _ hnotes => .pure ⟨hr, hnotes⟩

end Exactness

/-- An offset and the text there. -/
def ReadsString (s : UInt64 × String) (t : Nat × String) : Prop :=
  s.1.toNat = t.1 ∧ s.2 = t.2

/-- By induction on what is left of the table. Behind the last string the position may be one past
the end. -/
theorem stringsFrom_exact {bytes : List UInt8} (small : bytes.length < 2 ^ 63)
    (position : UInt64) :
    Exact (List.Forall₂ ReadsString) (stringsFrom bytes position)
      (.ok ((StringTable.runs position.toNat (bytes.drop position.toNat)).map fun (offset, run) =>
        (offset, Utf8.decodeLossy run))) := by
  have hsize := toNat_size (show bytes.length < 2 ^ 64 by omega)
  rw [stringsFrom, StringTable.runs]
  simp only [UInt64.le_iff_toNat_le, hsize]
  split
  · next hend =>
    rw [if_pos (List.drop_eq_nil_of_le hend)]
    exact .pure .nil
  · next hlt =>
    have hdrop : (bytes.drop position.toNat).length = bytes.length - position.toNat :=
      List.length_drop
    have hne : bytes.drop position.toNat ≠ [] := by
      intro hnil
      rw [hnil] at hdrop
      simp only [List.length_nil] at hdrop
      omega
    have hle := (@List.takeWhile_prefix _ (bytes.drop position.toNat) (· ≠ 0)).length_le
    rw [if_neg hne, cut_rest (by omega) (by omega), pure_bind, cut_run (by omega)]
    generalize (bytes.drop position.toNat).takeWhile (· ≠ 0) = run at hle ⊢
    have hn := toNat_size (show run.length < 2 ^ 64 by omega)
    have hadd := toNat_add (show position.toNat + (size run).toNat < 2 ^ 64 by omega)
    have hlt : (position + size run).toNat + (1 : UInt64).toNat < 2 ^ 64 := by
      show _ + 1 < _
      omega
    have hnext : (position + size run + 1).toNat = position.toNat + run.length + 1 := by
      rw [toNat_add hlt, hadd, hn]
      rfl
    rw [add_eq (by omega), pure_bind, add_eq hlt, pure_bind, pure_bind, if_pos (by
      rw [UInt64.lt_iff_toNat_lt]
      omega)]
    have hshorter : bytes.length - (position + size run + 1).toNat <
        bytes.length - position.toNat := by omega
    have ih := stringsFrom_exact small (position + size run + 1)
    rw [hnext, Nat.add_assoc, ← List.drop_drop] at ih
    refine ih.bind_ok fun strings hstrings => ?_
    exact .pure (.cons ⟨rfl, rfl⟩ hstrings)
termination_by bytes.length - position.toNat
decreasing_by exact hshorter

theorem strings_exact {w : Window} {v : View} (hr : w.Reads v) :
    Exact (List.Forall₂ ReadsString) (strings w) (.ok (StringTable.strings ⟨v⟩)) := by
  have hs := hr.reaches
  have hl := v.length_toList
  unfold strings
  rw [hr.bytes_eq, pure_bind]
  exact stringsFrom_exact (by omega) 0

theorem sectionContents_exact {image : Image} (small : image.length < 2 ^ 63) (c : Class)
    (h : SectionHeader) :
    Exact SectionContents.Reads (sectionContents image c h) (h.contents image c) := by
  have hview := (Window.full_reads small).subview_exact h.offset h.size
  unfold sectionContents SectionHeader.contents
  cases SectionForm.ofType h.type with
  | absent => exact .pure .absent
  | strings => exact hview.bind fun _ _ hr => .pure (.strings hr)
  | symbols =>
    refine hview.bind fun _ _ hr => ?_
    exact (symbolTable_exact hr c h.entrySize h.link).bind fun _ _ ht => .pure (.symbols ht)
  | notes =>
    refine hview.bind fun _ _ hr => ?_
    exact (noteTable_exact hr).bind fun _ _ ht => .pure (.notes ht)
  | raw => exact hview.bind fun _ _ hr => .pure (.raw hr)

theorem segmentContents_exact {image : Image} (small : image.length < 2 ^ 63) (h : ProgramHeader) :
    Exact SegmentContents.Reads (segmentContents image h) (h.contents image) := by
  unfold segmentContents ProgramHeader.contents
  refine ((Window.full_reads small).subview_exact h.offset h.fileSize).bind fun w v hr => ?_
  split
  · have htext := hr.text_exact 0 w.length
    rw [← hr.length_eq] at htext
    exact htext.bind fun path _ he => he ▸ .pure (.interpreter path)
  · split
    · exact (noteTable_exact hr).bind fun _ _ ht => .pure (.notes ht)
    · exact .pure (.raw hr)

end ElfFormat.Machine
