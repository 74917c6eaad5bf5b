import ElfFormat.Image
import ElfFormat.Note
import ElfFormat.Section.Header
import ElfFormat.StringTable
import ElfFormat.Symbol.Table

/-!
# Sections

A section is its header and what it carries in its range of the file. The type of a section decides
the form of its contents; a section that occupies no bytes of the file has none, whatever range its
header gives. If the contents cannot be decoded, the failure stays with the section. Sections may
share a range, so none is decoded before it is asked for; `Section.ext_contents` says that this is
all the difference it makes.
-/

namespace ElfFormat

/-- In which form a section carries its contents. -/
inductive SectionForm where
  /-- The section occupies no bytes of the file. -/
  | absent
  | strings
  | symbols
  | notes
  | raw
deriving DecidableEq, Repr

/-- The form that a type of section announces. -/
def SectionForm.ofType (type : UInt32) : SectionForm :=
  if type = SectionType.null ∨ type = SectionType.noBits then absent
  else if type = SectionType.stringTable then strings
  else if type = SectionType.symbolTable ∨ type = SectionType.dynamicSymbols then symbols
  else if type = SectionType.note then notes
  else raw

/-- What a section carries, decoded in the form that its type announces. -/
inductive SectionContents where
  | absent
  | strings (table : StringTable)
  | symbols (table : SymbolTable)
  | notes (table : NoteTable)
  | raw (view : View)
deriving DecidableEq

/-- The range of the file that the contents were decoded from. -/
def SectionContents.view? : SectionContents → Option View
  | absent => none
  | strings table => some table.view
  | symbols table => some table.view
  | notes table => some table.view
  | raw view => some view

namespace SectionHeader

/-- The range of the file that the header gives. -/
def range (h : SectionHeader) (image : Image) : Except Error View :=
  image.view h.offset.toNat h.size.toNat

/-- Decodes what the section carries. The range is looked at only if the type has contents. -/
def contents (h : SectionHeader) (image : Image) (c : Class) : Except Error SectionContents :=
  match SectionForm.ofType h.type with
  | .absent => .ok .absent
  | .strings => do return .strings ⟨← h.range image⟩
  | .symbols => do return .symbols (← SymbolTable.parse (← h.range image) c h.entrySize h.link)
  | .notes => do return .notes (← NoteTable.parse (← h.range image))
  | .raw => do return .raw (← h.range image)

end SectionHeader

/-- A section of a file. -/
structure Section where
  /-- The position in the section header table. -/
  index : Nat
  header : SectionHeader
  /-- The contents, which are decoded when they are first asked for. -/
  decoded : Thunk (Except Error SectionContents)

namespace Section

/-- What the section carries, or why that could not be decoded. -/
def contents (s : Section) : Except Error SectionContents :=
  s.decoded.get

/-- That the contents wait to be decoded tells no two sections apart. -/
theorem ext_contents {s t : Section} (hi : s.index = t.index) (hh : s.header = t.header)
    (hc : s.contents = t.contents) : s = t := by
  obtain ⟨si, sh, ⟨sd⟩⟩ := s
  obtain ⟨ti, th, ⟨td⟩⟩ := t
  obtain rfl : si = ti := hi
  obtain rfl : sh = th := hh
  obtain rfl : sd = td := funext fun _ => hc
  rfl

/-- The range of the file that the section occupies, if its contents were decoded. -/
def view? (s : Section) : Option View :=
  match s.contents with
  | .ok contents => contents.view?
  | .error _ => none

/-- The strings of the section, if it carries some. -/
def stringTable? (s : Section) : Option StringTable :=
  match s.contents with
  | .ok (.strings table) => some table
  | _ => none

/-- The symbols of the section, if it carries some. -/
def symbolTable? (s : Section) : Option SymbolTable :=
  match s.contents with
  | .ok (.symbols table) => some table
  | _ => none

/-- The notes of the section, if it carries some. -/
def noteTable? (s : Section) : Option NoteTable :=
  match s.contents with
  | .ok (.notes table) => some table
  | _ => none

end Section

end ElfFormat
