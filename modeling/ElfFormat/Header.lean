import ElfFormat.Field
import ElfFormat.Names

/-!
# The file header

Sixteen bytes identify a file; what follows them is read in the class and the byte order that they
name, whatever order the image is in. `Ident.parse` reads the identification, `FileHeader.parse`
the whole header, and the two `encode` functions write them.
-/

namespace ElfFormat

/-- The identification at the front of a file, which says how the rest is to be read. -/
structure Ident where
  elfClass : Class
  encoding : Encoding
  version : UInt8
  osAbi : UInt8
  abiVersion : UInt8
deriving DecidableEq, Repr

namespace Ident

/-- The bytes that every file starts with. -/
def magic : List UInt8 :=
  [0x7f, 0x45, 0x4c, 0x46]

/-- Reads the identification. A view that is too small for the smallest header is refused before
anything in it is looked at. -/
def parse (v : View) : Except Error Ident :=
  if v.length < Class.elf32.headerSize then
    .error (.tooSmall Class.elf32.headerSize v.length)
  else do
    let start ← v.slice 0 4
    if start ≠ magic then .error .invalidMagic
    else
      return {
        elfClass := ← Class.ofByte (← v.u8 4)
        encoding := ← Encoding.ofByte (← v.u8 5)
        version := ← v.u8 6
        osAbi := ← v.u8 7
        abiVersion := ← v.u8 8 }

/-- The identification in bytes; the seven bytes of `padding` mean nothing. -/
def encode (ident : Ident) (padding : List UInt8) : List UInt8 :=
  magic ++ [ident.elfClass.toByte, ident.encoding.toByte, ident.version, ident.osAbi,
    ident.abiVersion] ++ padding

end Ident

/-- The file header with its identification. -/
structure FileHeader where
  ident : Ident
  type : UInt16
  machine : UInt16
  version : UInt32
  entry : UInt64
  /-- Where the program header table starts, or 0 if there is none. -/
  programOffset : UInt64
  /-- Where the section header table starts, or 0 if there is none. -/
  sectionOffset : UInt64
  flags : UInt32
  headerSize : UInt16
  programEntrySize : UInt16
  programCount : UInt16
  sectionEntrySize : UInt16
  sectionCount : UInt16
  /-- The index of the section that holds the section names. -/
  nameIndex : UInt16
deriving DecidableEq, Repr

namespace FileHeader

/-- The class that the identification announces. -/
def elfClass (h : FileHeader) : Class :=
  h.ident.elfClass

/-- The byte order that the identification announces. -/
def order (h : FileHeader) : ByteOrder :=
  h.ident.encoding.order

/-- The fields behind the identification. Only the three words in their middle depend on the
class. -/
def fields (ident : Ident) : FieldReader FileHeader := do
  let type ← .u16
  let machine ← .u16
  let version ← .u32
  let entry ← .word ident.elfClass
  let programOffset ← .word ident.elfClass
  let sectionOffset ← .word ident.elfClass
  let flags ← .u32
  let headerSize ← .u16
  let programEntrySize ← .u16
  let programCount ← .u16
  let sectionEntrySize ← .u16
  let sectionCount ← .u16
  let nameIndex ← .u16
  return { ident, type, machine, version, entry, programOffset, sectionOffset, flags, headerSize,
           programEntrySize, programCount, sectionEntrySize, sectionCount, nameIndex }

/-- Reads the header in the order that its own identification names. -/
def parse (v : View) : Except Error FileHeader := do
  let ident ← Ident.parse v
  if v.length < ident.elfClass.headerSize then
    .error (.tooSmall ident.elfClass.headerSize v.length)
  else (fields ident).run (v.inOrder ident.encoding.order) 16

/-- The header in bytes, in its own class and order. -/
def encode (h : FileHeader) (padding : List UInt8) : List UInt8 :=
  h.ident.encode padding ++ h.order.u16 h.type ++ h.order.u16 h.machine ++ h.order.u32 h.version ++
    h.order.word h.elfClass h.entry ++ h.order.word h.elfClass h.programOffset ++
    h.order.word h.elfClass h.sectionOffset ++ h.order.u32 h.flags ++ h.order.u16 h.headerSize ++
    h.order.u16 h.programEntrySize ++ h.order.u16 h.programCount ++
    h.order.u16 h.sectionEntrySize ++ h.order.u16 h.sectionCount ++ h.order.u16 h.nameIndex

/-- Position-independent executables have the type of shared objects. -/
def isPositionIndependent (h : FileHeader) : Bool :=
  h.type == ObjectType.sharedObject

/-- The name of the type of object, or its number. -/
def typeLabel (h : FileHeader) : String :=
  Names.objectTypes.label h.type.toNat

def machineLabel (h : FileHeader) : String :=
  Names.machines.label h.machine.toNat

/-- The name of the operating system interface, or its number. -/
def osAbiLabel (h : FileHeader) : String :=
  Names.osAbis.label h.ident.osAbi.toNat

end FileHeader

end ElfFormat
