import ElfFormat.Image
import ElfFormat.Note
import ElfFormat.Segment.Header

/-!
# Segments

A segment is its program header and what it carries in its range of the file: the path of an
interpreter, notes, or bytes of no further form. If that cannot be decoded, the failure stays with
the segment. As with sections, nothing is decoded before it is asked for.
-/

namespace ElfFormat

/-- What a segment carries. -/
inductive SegmentContents where
  | interpreter (path : String)
  | notes (table : NoteTable)
  | raw (view : View)
deriving DecidableEq

namespace ProgramHeader

/-- The range of the file that the header gives. -/
def range (h : ProgramHeader) (image : Image) : Except Error View :=
  image.view h.offset.toNat h.fileSize.toNat

/-- Decodes what the segment carries. The range is looked at whatever the type is. -/
def contents (h : ProgramHeader) (image : Image) : Except Error SegmentContents := do
  let view ← h.range image
  if h.type = SegmentType.interpreter then return .interpreter (← view.text 0 view.length)
  else if h.type = SegmentType.note then return .notes (← NoteTable.parse view)
  else return .raw view

end ProgramHeader

/-- A segment of a file. -/
structure Segment where
  /-- The position in the program header table. -/
  index : Nat
  header : ProgramHeader
  /-- The contents, which are decoded when they are first asked for. -/
  decoded : Thunk (Except Error SegmentContents)

namespace Segment

/-- What the segment carries, or why that could not be decoded. -/
def contents (s : Segment) : Except Error SegmentContents :=
  s.decoded.get

/-- That the contents wait to be decoded tells no two segments apart. -/
theorem ext_contents {s t : Segment} (hi : s.index = t.index) (hh : s.header = t.header)
    (hc : s.contents = t.contents) : s = t := by
  obtain ⟨si, sh, ⟨sd⟩⟩ := s
  obtain ⟨ti, th, ⟨td⟩⟩ := t
  obtain rfl : si = ti := hi
  obtain rfl : sh = th := hh
  obtain rfl : sd = td := funext fun _ => hc
  rfl

/-- The path of the interpreter that the segment names. -/
def interpreter? (s : Segment) : Option String :=
  match s.contents with
  | .ok (.interpreter path) => some path
  | _ => none

/-- The notes of the segment, if it carries some. -/
def noteTable? (s : Segment) : Option NoteTable :=
  match s.contents with
  | .ok (.notes table) => some table
  | _ => none

end Segment

end ElfFormat
