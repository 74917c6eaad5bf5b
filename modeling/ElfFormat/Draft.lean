import ElfFormat.Alignment
import ElfFormat.Object

/-!
# Writing a file

A draft says what a file is to hold: its header's free fields, its sections and its segments. The
file is the header, the program headers, the data of each segment and of each section, the section
names, and the section headers. Everything but the names starts at a multiple of 8, behind zeros. In
front of the drafted sections stands the null section, and behind them the section that holds the
names.

Where each part starts depends on the lengths alone, so the headers are written with the final
offsets from the beginning.
-/

namespace ElfFormat

/-- A section that is to be written. Where its name and its data stand follows from the draft. -/
structure SectionDraft where
  name : String
  type : UInt32
  flags : UInt64 := 0
  address : UInt64 := 0
  link : UInt32 := 0
  info : UInt32 := 0
  alignment : UInt64 := 1
  entrySize : UInt64 := 0
  data : List UInt8 := []
  /-- The size that the header gives, where it is not that of the data. -/
  size : Option UInt64 := none

/-- A segment that is to be written. -/
structure SegmentDraft where
  type : UInt32
  flags : UInt32 := 0
  virtualAddress : UInt64 := 0
  physicalAddress : UInt64 := 0
  memorySize : UInt64 := 0
  alignment : UInt64 := 0
  data : List UInt8 := []

/-- A file that is to be written. -/
structure Draft where
  elfClass : Class
  encoding : Encoding
  osAbi : UInt8 := 0
  type : UInt16 := 1
  machine : UInt16 := 62
  entry : UInt64 := 0
  flags : UInt32 := 0
  sections : List SectionDraft := []
  segments : List SegmentDraft := []

namespace Draft

/-- What the parts of a file are aligned to. -/
def unit : Nat := 8

/-- The offsets of pieces of data that follow each other from `start` on, and the offset behind the
last one. -/
def offsets (start : Nat) : List (List UInt8) → List Nat × Nat
  | [] => ([], start)
  | piece :: pieces =>
    let here := roundUp start unit
    let (rest, behind) := offsets (here + piece.length) pieces
    (here :: rest, behind)

/-- Puts a piece behind what is written so far, at the next multiple of the unit. -/
def place (written piece : List UInt8) : List UInt8 :=
  written ++ List.replicate (roundUp written.length unit - written.length) 0 ++ piece

/-- The name of the section that holds the section names. -/
def nameOfNames : String := ".shstrtab"

/-- A name in a string table. -/
def nameBytes (name : String) : List UInt8 :=
  Utf8.encode name ++ [0]

/-- The bytes of the section name table. The first is the empty name of the null section. -/
def nameTable (d : Draft) : List UInt8 :=
  0 :: d.sections.flatMap (nameBytes ·.name) ++ nameBytes nameOfNames

/-- Where the names of sections stand whose names follow each other from `start` on, and the place
behind the last one. -/
def nameOffsets (start : Nat) : List SectionDraft → List Nat × Nat
  | [] => ([], start)
  | s :: sections =>
    let (rest, behind) := nameOffsets (start + (nameBytes s.name).length) sections
    (start :: rest, behind)

/-- Where the program header table starts; 0 if there is none. -/
def programOffset (d : Draft) : Nat :=
  if d.segments.isEmpty then 0 else roundUp d.elfClass.headerSize unit

/-- Where the data of the segments starts, up to padding. -/
def dataStart (d : Draft) : Nat :=
  if d.segments.isEmpty then d.elfClass.headerSize
  else d.programOffset + d.segments.length * d.elfClass.programHeaderSize

/-- Where the data of each segment starts, and where the last one ends. -/
def segmentOffsets (d : Draft) : List Nat × Nat :=
  offsets d.dataStart (d.segments.map (·.data))

/-- Where the data of each section starts, and where the last one ends. -/
def sectionOffsets (d : Draft) : List Nat × Nat :=
  offsets d.segmentOffsets.2 (d.sections.map (·.data))

/-- Where the names start. They follow the data without padding. -/
def nameTableOffset (d : Draft) : Nat :=
  d.sectionOffsets.2

/-- Where the section header table starts. It is the last part of the file. -/
def sectionTableOffset (d : Draft) : Nat :=
  roundUp (d.nameTableOffset + d.nameTable.length) unit

/-- The number of sections, with the null section and the one that holds the names. -/
def sectionTotal (d : Draft) : Nat :=
  d.sections.length + 2

/-- The file header, with the place, the number and the stride of the records of both tables. -/
def header (d : Draft) : FileHeader where
  ident := { elfClass := d.elfClass, encoding := d.encoding, version := 1, osAbi := d.osAbi,
             abiVersion := 0 }
  type := d.type
  machine := d.machine
  version := 1
  entry := d.entry
  programOffset := .ofNat d.programOffset
  sectionOffset := .ofNat d.sectionTableOffset
  flags := d.flags
  headerSize := .ofNat d.elfClass.headerSize
  programEntrySize := .ofNat d.elfClass.programHeaderSize
  programCount := .ofNat d.segments.length
  sectionEntrySize := .ofNat d.elfClass.sectionHeaderSize
  sectionCount := .ofNat d.sectionTotal
  nameIndex := .ofNat (d.sections.length + 1)

/-- The program header of a segment whose data starts at this offset. -/
def programHeader (s : SegmentDraft) (offset : Nat) : ProgramHeader where
  type := s.type
  flags := s.flags
  offset := .ofNat offset
  virtualAddress := s.virtualAddress
  physicalAddress := s.physicalAddress
  fileSize := .ofNat s.data.length
  memorySize := s.memorySize
  alignment := s.alignment

/-- The section header of a section whose name and data start at these offsets. -/
def sectionHeader (s : SectionDraft) (name offset : Nat) : SectionHeader where
  name := .ofNat name
  type := s.type
  flags := s.flags
  address := s.address
  offset := .ofNat offset
  size := s.size.getD (.ofNat s.data.length)
  link := s.link
  info := s.info
  alignment := s.alignment
  entrySize := s.entrySize

/-- The headers of all segments, in the order of the table. -/
def programHeaders (d : Draft) : List ProgramHeader :=
  List.zipWith programHeader d.segments d.segmentOffsets.1

/-- The header of the null section, which stands in front of all others. -/
def nullHeader : SectionHeader where
  name := 0
  type := SectionType.null
  flags := 0
  address := 0
  offset := 0
  size := 0
  link := 0
  info := 0
  alignment := 0
  entrySize := 0

/-- The header of the section that holds the section names. -/
def nameTableHeader (d : Draft) : SectionHeader where
  name := .ofNat (nameOffsets 1 d.sections).2
  type := SectionType.stringTable
  flags := 0
  address := 0
  offset := .ofNat d.nameTableOffset
  size := .ofNat d.nameTable.length
  link := 0
  info := 0
  alignment := 1
  entrySize := 0

/-- The headers of all sections, in the order of the table. -/
def sectionHeaders (d : Draft) : List SectionHeader :=
  let places := (nameOffsets 1 d.sections).1.zip d.sectionOffsets.1
  let drafted :=
    List.zipWith (fun s (name, offset) => sectionHeader s name offset) d.sections places
  nullHeader :: drafted ++ [d.nameTableHeader]

/-- The file: each part is placed behind what is written so far, which puts it where the headers
say. -/
def bytes (d : Draft) : List UInt8 :=
  let order := d.encoding.order
  let start := d.header.encode (List.replicate 7 0)
  let start :=
    if d.segments.isEmpty then start
    else place start (d.programHeaders.flatMap (·.encode order d.elfClass))
  let segments := d.segments.foldl (fun written s => place written s.data) start
  let sections := d.sections.foldl (fun written s => place written s.data) segments
  place (sections ++ d.nameTable) (d.sectionHeaders.flatMap (·.encode order d.elfClass))

end Draft

end ElfFormat
