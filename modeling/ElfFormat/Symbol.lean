import ElfFormat.Field
import ElfFormat.Names

/-!
# Symbols

One record of a symbol table. Binding and type share a byte, visibility is the low two bits of
another. The record does not say where its name is looked up or how wide it was; the symbol keeps
both with it.
-/

namespace ElfFormat

/-- One record of a symbol table, with what it takes to look up its name. -/
structure Symbol where
  /-- Where the symbol's name starts in its string table, or 0 if it has none. -/
  nameOffset : UInt32
  value : UInt64
  size : UInt64
  info : UInt8
  other : UInt8
  sectionIndex : UInt16
  /-- The section that holds the symbol's name. -/
  link : UInt32
  elfClass : Class
deriving DecidableEq, Repr

namespace Symbol

/-- The fields of a record. The wide record has its bytes and its index in front, so that its words
stand at multiples of 8. -/
def fields (link : UInt32) : Class → FieldReader Symbol
  | .elf32 => do
    let nameOffset ← .u32
    let value ← .word .elf32
    let size ← .word .elf32
    let info ← .u8
    let other ← .u8
    let sectionIndex ← .u16
    return { nameOffset, value, size, info, other, sectionIndex, link, elfClass := .elf32 }
  | .elf64 => do
    let nameOffset ← .u32
    let info ← .u8
    let other ← .u8
    let sectionIndex ← .u16
    let value ← .word .elf64
    let size ← .word .elf64
    return { nameOffset, value, size, info, other, sectionIndex, link, elfClass := .elf64 }

/-- Decodes the record at the front of a view. -/
def parse (v : View) (c : Class) (link : UInt32) : Except Error Symbol :=
  (fields link c).run v 0

/-- The record in bytes, in the symbol's own class. -/
def encode (order : ByteOrder) (s : Symbol) : List UInt8 :=
  let extent := order.word s.elfClass s.value ++ order.word s.elfClass s.size
  let marks := order.u8 s.info ++ order.u8 s.other ++ order.u16 s.sectionIndex
  match s.elfClass with
  | .elf32 => order.u32 s.nameOffset ++ extent ++ marks
  | .elf64 => order.u32 s.nameOffset ++ marks ++ extent

/-- Where the symbol is visible: the high half of `info`. -/
def binding (s : Symbol) : Nat :=
  s.info.toNat / 16

/-- What the symbol stands for: the low half of `info`. -/
def type (s : Symbol) : Nat :=
  s.info.toNat % 16

/-- How other files may see the symbol: the low two bits of `other`. -/
def visibility (s : Symbol) : Nat :=
  s.other.toNat % 4

/-- Whether the symbol is defined in another file. -/
def isUndefined (s : Symbol) : Bool :=
  s.sectionIndex == SectionIndex.undefined

/-- Weak symbols are global too. -/
def isGlobal (s : Symbol) : Bool :=
  s.binding == 1 || s.binding == 2

def isFunction (s : Symbol) : Bool :=
  s.type == 2

/-- The name of the binding. Those of operating systems and machines have none. -/
def bindingLabel (s : Symbol) : String :=
  (Names.symbolBindings.lookup s.binding).getD "NONE"

def typeLabel (s : Symbol) : String :=
  (Names.symbolTypes.lookup s.type).getD "(OTHER)"

/-- The name of the visibility. All four have one. -/
def visibilityLabel (s : Symbol) : String :=
  (Names.symbolVisibilities.lookup s.visibility).getD "(OTHER)"

/-- The index of the section that the symbol is defined in, or the word for an index that names
none. -/
def sectionLabel (s : Symbol) : String :=
  if s.isUndefined then "UNDEF"
  else if s.sectionIndex < SectionIndex.firstReserved then toString s.sectionIndex.toNat
  else (Names.reservedIndices.lookup s.sectionIndex.toNat).getD "OTHER"

end Symbol

end ElfFormat
