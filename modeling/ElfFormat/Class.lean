import ElfFormat.View

/-!
# Class and data encoding

The class of a file says how wide its words are and thereby how large its records are; its data
encoding says in which order its numbers stand. Each is one byte of the identification.
-/

namespace ElfFormat

/-- How wide the words of a file are. -/
inductive Class where
  | elf32
  | elf64
deriving DecidableEq, Repr

namespace Class

/-- Decodes the class byte of an identification; no other byte announces a class. -/
def ofByte (b : UInt8) : Except Error Class :=
  if b = 1 then .ok elf32 else if b = 2 then .ok elf64 else .error (.unsupportedClass b)

/-- The byte that announces the class. -/
def toByte : Class → UInt8
  | elf32 => 1
  | elf64 => 2

/-- How many bits an address has. -/
def bits : Class → Nat
  | elf32 => 32
  | elf64 => 64

/-- The number of bytes in a word. -/
def wordSize : Class → Nat
  | elf32 => 4
  | elf64 => 8

/-- The size of a file header, which is also the least size of a file of the class. -/
def headerSize : Class → Nat
  | elf32 => 52
  | elf64 => 64

/-- The size of a section header record, which is the least stride of their table too. -/
def sectionHeaderSize : Class → Nat
  | elf32 => 40
  | elf64 => 64

def programHeaderSize : Class → Nat
  | elf32 => 32
  | elf64 => 56

/-- The size of a symbol record. Symbols stand one behind the other at this distance. -/
def symbolSize : Class → Nat
  | elf32 => 16
  | elf64 => 24

/-- The name of the class in the specification. -/
def name : Class → String
  | elf32 => "ELFCLASS32"
  | elf64 => "ELFCLASS64"

@[simp]
theorem ofByte_toByte (c : Class) : ofByte c.toByte = .ok c := by
  cases c <;> rfl

theorem ofByte_eq_ok_iff {b : UInt8} {c : Class} : ofByte b = .ok c ↔ b = c.toByte := by
  constructor
  · intro h
    simp only [ofByte] at h
    split at h
    · next hb => cases h; exact hb
    · split at h
      · next hb => cases h; exact hb
      · cases h
  · rintro rfl
    exact ofByte_toByte c

end Class

/-- In which order the numbers of a file stand. -/
inductive Encoding where
  | lsb
  | msb
deriving DecidableEq, Repr

namespace Encoding

/-- Decodes the byte of the data encoding. -/
def ofByte (b : UInt8) : Except Error Encoding :=
  if b = 1 then .ok lsb else if b = 2 then .ok msb else .error (.unsupportedEncoding b)

/-- The byte that announces the encoding. -/
def toByte : Encoding → UInt8
  | lsb => 1
  | msb => 2

/-- The byte order that the encoding stands for. -/
def order : Encoding → ByteOrder
  | lsb => .little
  | msb => .big

def name : Encoding → String
  | lsb => "ELFDATA2LSB"
  | msb => "ELFDATA2MSB"

@[simp]
theorem ofByte_toByte (d : Encoding) : ofByte d.toByte = .ok d := by
  cases d <;> rfl

theorem ofByte_eq_ok_iff {b : UInt8} {d : Encoding} : ofByte b = .ok d ↔ b = d.toByte := by
  constructor
  · intro h
    simp only [ofByte] at h
    split at h
    · next hb => cases h; exact hb
    · split at h
      · next hb => cases h; exact hb
      · cases h
  · rintro rfl
    exact ofByte_toByte d

end Encoding

/-- The word of the class at `offset`, which has 64 bits wherever it is kept. -/
def View.word (v : View) (c : Class) (offset : Nat) : Except Error UInt64 :=
  (v.number offset c.wordSize).map UInt64.ofNat

end ElfFormat
