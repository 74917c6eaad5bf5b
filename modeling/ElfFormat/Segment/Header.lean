import ElfFormat.Field
import ElfFormat.Names

/-!
# Program headers

One record of the program header table. The flags stand second in 64-bit files and second to last
in 32-bit files, which keeps the words of either aligned.
-/

namespace ElfFormat

/-- One record of the program header table. -/
structure ProgramHeader where
  type : UInt32
  flags : UInt32
  offset : UInt64
  virtualAddress : UInt64
  physicalAddress : UInt64
  fileSize : UInt64
  memorySize : UInt64
  alignment : UInt64
deriving DecidableEq, Repr

namespace ProgramHeader

/-- The fields of a record. The flags stand in another place in each class. -/
def fields : Class → FieldReader ProgramHeader
  | .elf32 => do
    let type ← .u32
    let offset ← .word .elf32
    let virtualAddress ← .word .elf32
    let physicalAddress ← .word .elf32
    let fileSize ← .word .elf32
    let memorySize ← .word .elf32
    let flags ← .u32
    let alignment ← .word .elf32
    return { type, flags, offset, virtualAddress, physicalAddress, fileSize, memorySize, alignment }
  | .elf64 => do
    let type ← .u32
    let flags ← .u32
    let offset ← .word .elf64
    let virtualAddress ← .word .elf64
    let physicalAddress ← .word .elf64
    let fileSize ← .word .elf64
    let memorySize ← .word .elf64
    let alignment ← .word .elf64
    return { type, flags, offset, virtualAddress, physicalAddress, fileSize, memorySize, alignment }

/-- Decodes the record at the front of a view. -/
def parse (v : View) (c : Class) : Except Error ProgramHeader :=
  (fields c).run v 0

/-- The record in bytes. -/
def encode (order : ByteOrder) (c : Class) (h : ProgramHeader) : List UInt8 :=
  let place := order.word c h.offset ++ order.word c h.virtualAddress ++
    order.word c h.physicalAddress ++ order.word c h.fileSize ++ order.word c h.memorySize
  match c with
  | .elf32 => order.u32 h.type ++ place ++ order.u32 h.flags ++ order.word c h.alignment
  | .elf64 => order.u32 h.type ++ order.u32 h.flags ++ place ++ order.word c h.alignment

/-- Whether the segment occupies `address` in memory. The distance from the segment's start is
compared, so a segment that reaches past the last address does not come round to the first. -/
def containsAddress (h : ProgramHeader) (address : UInt64) : Bool :=
  h.virtualAddress ≤ address && address - h.virtualAddress < h.memorySize

/-- The name of the type, or its number. -/
def typeLabel (h : ProgramHeader) : String :=
  Names.segmentTypes.label h.type.toNat

/-- Such as `0x00000005 (PF_X, PF_R)`. -/
def flagsText (h : ProgramHeader) : String :=
  Names.segmentFlags.text .enclosed h.flags.toNat

/-- Whether the segment is loaded into memory. -/
def isLoad (h : ProgramHeader) : Bool :=
  h.type == SegmentType.load

def isExecutable (h : ProgramHeader) : Bool :=
  h.flags.toNat.testBit 0

/-- Whether the running program may write to the segment. -/
def isWritable (h : ProgramHeader) : Bool :=
  h.flags.toNat.testBit 1

def isReadable (h : ProgramHeader) : Bool :=
  h.flags.toNat.testBit 2

end ProgramHeader

end ElfFormat
