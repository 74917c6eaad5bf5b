import ElfFormat.Field
import ElfFormat.Names

/-!
# Section headers

One record of the section header table. Its fields stand in the same order in both classes; only
the width of the words differs.
-/

namespace ElfFormat

/-- One record of the section header table. -/
structure SectionHeader where
  /-- Where the section's name starts in the section name table. -/
  name : UInt32
  type : UInt32
  flags : UInt64
  address : UInt64
  offset : UInt64
  size : UInt64
  link : UInt32
  info : UInt32
  alignment : UInt64
  entrySize : UInt64
deriving DecidableEq, Repr

namespace SectionHeader

/-- The fields of a record. The classes differ in the width of words only. -/
def fields (c : Class) : FieldReader SectionHeader := do
  let name ← .u32
  let type ← .u32
  let flags ← .word c
  let address ← .word c
  let offset ← .word c
  let size ← .word c
  let link ← .u32
  let info ← .u32
  let alignment ← .word c
  let entrySize ← .word c
  return { name, type, flags, address, offset, size, link, info, alignment, entrySize }

/-- Decodes the record at the front of a view. -/
def parse (v : View) (c : Class) : Except Error SectionHeader :=
  (fields c).run v 0

/-- The record in bytes. -/
def encode (order : ByteOrder) (c : Class) (h : SectionHeader) : List UInt8 :=
  order.u32 h.name ++ order.u32 h.type ++ order.word c h.flags ++ order.word c h.address ++
    order.word c h.offset ++ order.word c h.size ++ order.u32 h.link ++ order.u32 h.info ++
    order.word c h.alignment ++ order.word c h.entrySize

/-- The name of the type, or its number. -/
def typeLabel (h : SectionHeader) : String :=
  Names.sectionTypes.label h.type.toNat

/-- Such as `0x00000006 ALLOC,EXEC`. -/
def flagsText (h : SectionHeader) : String :=
  Names.sectionFlags.text .listed h.flags.toNat

/-- Whether the running program may write to the section. -/
def isWritable (h : SectionHeader) : Bool :=
  h.flags.toNat.testBit 0

def isExecutable (h : SectionHeader) : Bool :=
  h.flags.toNat.testBit 2

end SectionHeader

end ElfFormat
