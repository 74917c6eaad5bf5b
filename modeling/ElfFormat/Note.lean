import ElfFormat.Alignment
import ElfFormat.Field
import ElfFormat.Names

/-!
# Notes

A note region holds records one behind the other: three 4-byte numbers (the size of the name, the
size of the descriptor and the type), the name, and the descriptor. Name and descriptor are each
followed by padding up to a multiple of 4, counted from the start of the region; the padding may be
missing at the region's end. Fewer than twelve bytes at the end are no record and are left alone.

The first record that does not fit makes the whole region fail. Each record is longer than its
header (`NoteHeader.start_lt_next`), so the reading ends.
-/

namespace ElfFormat

/-- What stands at the front of a note. -/
structure NoteHeader where
  nameSize : UInt32
  descriptorSize : UInt32
  type : UInt32
deriving DecidableEq, Repr

/-- A note as it was read from a region. -/
structure Note where
  /-- Who defines the type of the note. -/
  name : String
  type : UInt32
  descriptor : View
  /-- Where the record starts in its region. -/
  offset : Nat
deriving DecidableEq

/-- How a note can fail to fit into its region. -/
inductive NoteFault where
  | name (size remaining : Nat)
  | descriptor (size remaining : Nat)
deriving DecidableEq, Repr

/-- The fault in words, with the sizes in hexadecimal. -/
def NoteFault.message : NoteFault → String
  | name size remaining =>
    s!"name size {Hex.text size} exceeds remaining {Hex.text remaining} bytes"
  | descriptor size remaining =>
    s!"descriptor size {Hex.text size} exceeds remaining {Hex.text remaining} bytes"

namespace NoteHeader

/-- The size of a note header, which is the same in both classes. -/
def size : Nat := 12

/-- What the padding fills up to. -/
def padding : Nat := 4

/-- The three numbers in front of each note. -/
def fields : FieldReader NoteHeader := do
  let nameSize ← .u32
  let descriptorSize ← .u32
  let type ← .u32
  return { nameSize, descriptorSize, type }

/-- The header in bytes. -/
def encode (order : ByteOrder) (h : NoteHeader) : List UInt8 :=
  order.u32 h.nameSize ++ order.u32 h.descriptorSize ++ order.u32 h.type

/-- Where the descriptor starts, for a record at `start` in a region of `length` bytes. -/
def descriptorStart (h : NoteHeader) (start length : Nat) : Nat :=
  min (roundUp (start + size + h.nameSize.toNat) padding) length

/-- Where the next note starts: behind the padding of the descriptor, as far as the region goes. -/
def next (h : NoteHeader) (start length : Nat) : Nat :=
  min (roundUp (h.descriptorStart start length + h.descriptorSize.toNat) padding) length

theorem start_lt_next (h : NoteHeader) {start length : Nat} (fits : start + size ≤ length) :
    start < h.next start length := by
  have h1 := le_roundUp (start + size + h.nameSize.toNat) padding
  have h2 := le_roundUp (h.descriptorStart start length + h.descriptorSize.toNat) padding
  simp only [next]
  simp only [descriptorStart] at h2 ⊢
  have : size = 12 := rfl
  omega

/-- The text of the name: up to a NUL, if it has one; a name of no bytes is empty. -/
def readName (h : NoteHeader) (region : View) (start : Nat) : Except Error String :=
  if h.nameSize = 0 then .ok "" else region.text (start + size) h.nameSize.toNat

/-- The record that starts with this header at `start`. -/
def readNote (h : NoteHeader) (region : View) (start : Nat) : Except Error Note :=
  let behindHeader := region.length - (start + size)
  if behindHeader < h.nameSize.toNat then
    .error (.malformedNote (region.offset + start)
      (NoteFault.name h.nameSize.toNat behindHeader).message)
  else do
    let name ← h.readName region start
    let behindName := region.length - h.descriptorStart start region.length
    if behindName < h.descriptorSize.toNat then
      .error (.malformedNote (region.offset + start)
        (NoteFault.descriptor h.descriptorSize.toNat behindName).message)
    else
      let descriptor ← region.subview (h.descriptorStart start region.length)
        h.descriptorSize.toNat
      return { name, type := h.type, descriptor, offset := start }

end NoteHeader

namespace Note

/-- A note by which the GNU tools identify a build. -/
def isBuildId (n : Note) : Bool :=
  n.name == "GNU" && n.type == 3

/-- The name of the type, which depends on the owner. -/
def typeLabel (n : Note) : String :=
  (Names.noteTypes n.name).label n.type.toNat

/-- The records of a region from `start` on. -/
def readFrom (region : View) (start : Nat) : Except Error (List Note) :=
  if _fits : start + NoteHeader.size ≤ region.length then do
    let header ← NoteHeader.fields.run region start
    let note ← header.readNote region start
    let notes ← readFrom region (header.next start region.length)
    return note :: notes
  else return []
termination_by region.length - start
decreasing_by
  have := header.start_lt_next _fits
  have : NoteHeader.size = 12 := rfl
  omega

end Note

/-- The notes of a region, in their order. -/
structure NoteTable where
  view : View
  notes : List Note
deriving DecidableEq

namespace NoteTable

/-- Reads a view as a note region. One bad note is a failure of the whole. -/
def parse (v : View) : Except Error NoteTable := do
  let notes ← Note.readFrom v 0
  return { view := v, notes }

/-- The descriptor of the first note that identifies the build. -/
def buildId? (t : NoteTable) : Option (List UInt8) :=
  (t.notes.find? (·.isBuildId)).map (·.descriptor.toList)

end NoteTable

end ElfFormat
