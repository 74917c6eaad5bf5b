import ElfFormat.Header
import ElfFormat.Section

/-!
# The section header table

The table is decoded as a whole or not at all: its own geometry must fit the image. A file with too
many sections for its header keeps their number, and the index of the section that names them, in
the first section header. `SectionHeader.initial` reads that record; the program header table keeps
its number there too.
-/

namespace ElfFormat

namespace SectionHeader

/-- The first record of the section header table, if the file has the table. -/
def initial (image : Image) (header : FileHeader) : Except Error (Option SectionHeader) :=
  if header.sectionOffset = 0 then .ok none
  else if header.sectionEntrySize.toNat < header.elfClass.sectionHeaderSize then
    .error (.invalidEntrySize "section header" header.elfClass.sectionHeaderSize
      header.sectionEntrySize.toNat)
  else do
    let record ← image.view header.sectionOffset.toNat header.elfClass.sectionHeaderSize
    let first ← SectionHeader.parse record header.elfClass
    return some first

end SectionHeader

namespace FileHeader

/-- The number of sections, given the first section header. -/
def sectionTotal (header : FileHeader) (first : SectionHeader) : Nat :=
  if header.sectionCount = 0 then first.size.toNat else header.sectionCount.toNat

/-- The index of the section that holds the section names, given the first section header. -/
def sectionNameIndex (header : FileHeader) (first : SectionHeader) : Nat :=
  if header.nameIndex = SectionIndex.extended then first.link.toNat else header.nameIndex.toNat

end FileHeader

/-- The largest number that 64 bits hold. -/
def maxWord : Nat :=
  2 ^ 64 - 1

/-- The sections of a file, in the order of the section header table. -/
structure SectionTable where
  sections : Array Section
  /-- The index of the section that holds the section names, or 0 if none does. -/
  nameIndex : Nat

namespace SectionTable

/-- Decodes one record of the table. -/
def readRecord (image : Image) (c : Class) (index : Nat) (record : View) :
    Except Error Section := do
  let h ← SectionHeader.parse record c
  return { index, header := h, decoded := .mk fun _ => h.contents image c }

/-- Decodes the table of a file whose first section header is known. A length that does not fit 64
bits counts as the largest one that does, which no image holds. -/
def read (image : Image) (header : FileHeader) (first : SectionHeader) :
    Except Error SectionTable := do
  let count := header.sectionTotal first
  let stride := header.sectionEntrySize.toNat
  let table ← image.view header.sectionOffset.toNat (min (count * stride) maxWord)
  let sections ← table.records count stride header.elfClass.sectionHeaderSize
    (readRecord image header.elfClass)
  return { sections := sections.toArray, nameIndex := header.sectionNameIndex first }

/-- Decodes the table that a file header describes. -/
def parse (image : Image) (header : FileHeader) : Except Error SectionTable := do
  match ← SectionHeader.initial image header with
  | none => return { sections := #[], nameIndex := 0 }
  | some first => read image header first

def size (t : SectionTable) : Nat :=
  t.sections.size

/-- The section at an index. -/
def section? (t : SectionTable) (index : Nat) : Except Error Section :=
  match t.sections[index]? with
  | some s => .ok s
  | none => .error (.indexOutOfRange "section" index t.size)

/-- The sections that have a symbol table, with it, in the order of the sections. -/
def symbolTables (t : SectionTable) : List (Section × SymbolTable) :=
  t.sections.toList.filterMap fun s => s.symbolTable?.map (s, ·)

end SectionTable

end ElfFormat
