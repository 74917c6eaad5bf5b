import ElfFormat.Section.Table
import ElfFormat.Segment

/-!
# The program header table

The table is decoded as a whole or not at all, as the section header table is. A file with too many
segments for its header keeps their number in the first section header.
-/

namespace ElfFormat

/-- The number of segments. A file that defers to its first section header but has none keeps the
number that its own header gives. -/
def FileHeader.segmentTotal (header : FileHeader) (image : Image) : Except Error Nat :=
  if header.programCount = extendedProgramCount then do
    match ← SectionHeader.initial image header with
    | some first => return first.info.toNat
    | none => return header.programCount.toNat
  else .ok header.programCount.toNat

/-- The segments of a file, in the order of the program header table. -/
structure SegmentTable where
  segments : Array Segment

namespace SegmentTable

/-- Decodes one record of the table. -/
def readRecord (image : Image) (c : Class) (index : Nat) (record : View) :
    Except Error Segment := do
  let h ← ProgramHeader.parse record c
  return { index, header := h, decoded := .mk fun _ => h.contents image }

/-- Decodes the table of a file of which the number of segments is known. -/
def read (image : Image) (header : FileHeader) (count : Nat) : Except Error SegmentTable := do
  let stride := header.programEntrySize.toNat
  let table ← image.view header.programOffset.toNat (count * stride)
  let segments ← table.records count stride header.elfClass.programHeaderSize
    (readRecord image header.elfClass)
  return { segments := segments.toArray }

/-- Decodes the table. Where the header gives none, there are no segments; a stride below the size
of a record is a failure before anything is read. -/
def parse (image : Image) (header : FileHeader) : Except Error SegmentTable :=
  let size := header.elfClass.programHeaderSize
  let stride := header.programEntrySize.toNat
  if header.programOffset = 0 ∨ header.programCount = 0 then .ok { segments := #[] }
  else if stride < size then .error (.invalidEntrySize "program header" size stride)
  else do
    let count ← header.segmentTotal image
    read image header count

def size (t : SegmentTable) : Nat :=
  t.segments.size

/-- The segment at an index. -/
def segment? (t : SegmentTable) (index : Nat) : Except Error Segment :=
  match t.segments[index]? with
  | some s => .ok s
  | none => .error (.indexOutOfRange "segment" index t.size)

/-- The path of the first interpreter that any segment names. -/
def interpreter? (t : SegmentTable) : Option String :=
  t.segments.toList.findSome? (·.interpreter?)

/-- The first loaded segment that occupies `address` in memory. -/
def byAddress (t : SegmentTable) (address : UInt64) : Option Segment :=
  t.segments.toList.find? fun s => s.header.isLoad && s.header.containsAddress address

end SegmentTable

end ElfFormat
