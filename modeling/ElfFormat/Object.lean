import ElfFormat.Section.Names
import ElfFormat.Segment.Table

/-!
# Objects

An object is the decoded header of an image with its two tables. Decoding fixes the image's byte
order to the one that the header names, also when a table then turns out not to fit; an image whose
order is fixed to the other one is refused. `Object.parse` therefore gives back the image as well.
-/

namespace ElfFormat

/-- A decoded file: its header and both of its tables. -/
structure Object where
  header : FileHeader
  sections : SectionTable
  segments : SegmentTable

namespace Object

/-- Decodes both tables of an image in the order that the image has. -/
def ofHeader (image : Image) (header : FileHeader) : Except Error Object := do
  let sections ← SectionTable.parse image header
  let segments ← SegmentTable.parse image header
  return { header, sections, segments }

/-- Decodes an image: the object or what is wrong with it, and the image as it is afterwards. -/
def parse (image : Image) : Except Error Object × Image :=
  match FileHeader.parse image.full with
  | .error e => (.error e, image)
  | .ok header =>
    match image.adopt header.order with
    | .error e => (.error e, image)
    | .ok image => (ofHeader image header, image)

/-- The path of the interpreter that the first segment with one names. -/
def interpreter? (o : Object) : Option String :=
  o.segments.interpreter?

/-- Every decoded region of notes: those of the sections first. -/
def noteTables (o : Object) : List NoteTable :=
  o.sections.sections.toList.filterMap (·.noteTable?) ++
    o.segments.segments.toList.filterMap (·.noteTable?)

/-- The bytes that identify the build, from the first note that has them. -/
def buildId? (o : Object) : Option (List UInt8) :=
  o.noteTables.findSome? (·.buildId?)

end Object

end ElfFormat
