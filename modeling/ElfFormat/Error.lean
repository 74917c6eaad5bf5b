import ElfFormat.Text.Hex

/-!
# What can go wrong

Every failure is one of the causes below. `Error.kind` tells a caller whether to give up on a
file or only on one table or record, and `Error.message` is the wording.
-/

namespace ElfFormat

/-- Why a file cannot be loaded, or something in it not be decoded. -/
inductive Error where
  /-- The file is larger than the limit that the caller set. -/
  | fileTooLarge (limit found : Nat)
  /-- The operating system refused, in its own words. -/
  | system (reason : String)
  | invalidMagic
  | tooSmall (needed found : Nat)
  | unsupportedClass (value : UInt8)
  | unsupportedEncoding (value : UInt8)
  /-- The entries of a table are declared smaller than its records. -/
  | invalidEntrySize (table : String) (expected found : Nat)
  | byteOrderFixed
  | notAStringTable (index : Nat)
  /-- The bytes at an absolute offset are not UTF-8. -/
  | invalidString (offset : Nat)
  /-- A range does not fit into the `size` bytes it is taken from. -/
  | outOfBounds (offset length size : Nat)
  | indexOutOfRange (what : String) (index count : Nat)
  /-- The sizes that a note at an absolute offset declares do not fit its region. -/
  | malformedNote (offset : Nat) (reason : String)
deriving DecidableEq, Repr

namespace Error

/-- How much a failure spoils. -/
inductive Kind where
  /-- The file cannot be had. -/
  | io
  /-- The bytes are no ELF image that is supported. -/
  | format
  /-- A range or an index leaves its parent. -/
  | bounds
  /-- A record of variable length does not fit. -/
  | malformedRecord
deriving DecidableEq, Repr

/-- The group that the error belongs to. -/
def kind : Error → Kind
  | fileTooLarge .. | system _ => .io
  | invalidMagic | tooSmall .. | unsupportedClass _ | unsupportedEncoding _
  | invalidEntrySize .. | byteOrderFixed | notAStringTable _ | invalidString _ => .format
  | outOfBounds .. | indexOutOfRange .. => .bounds
  | malformedNote .. => .malformedRecord

/-- Sizes and indices are decimal; offsets, and the sizes beside them, hexadecimal. -/
def message : Error → String
  | fileTooLarge limit found =>
    s!"I/O error: File size of {found} bytes exceeds the maximum allowed size of {limit} bytes."
  | system reason => s!"I/O error: An underlying I/O error occurred: {reason}"
  | invalidMagic => "Invalid ELF magic"
  | tooSmall needed found => s!"Image too small: need {needed} bytes, found {found}"
  | unsupportedClass value => s!"Unsupported ELF class: {value}"
  | unsupportedEncoding value => s!"Unsupported ELF data encoding: {value}"
  | invalidEntrySize table expected found =>
    s!"Invalid {table} entry size: expected at least {expected}, got {found}"
  | byteOrderFixed => "Byte order already set for this image"
  | notAStringTable index => s!"Section {index} is not a string table"
  | invalidString offset => s!"String at offset {Hex.text offset} is not UTF-8"
  | outOfBounds offset length size =>
    s!"Range {Hex.text offset}+{Hex.text length} exceeds size {Hex.text size}"
  | indexOutOfRange what index count => s!"{what} index {index} out of range (count {count})"
  | malformedNote offset reason => s!"Malformed note at offset {Hex.text offset}: {reason}"

end Error

end ElfFormat
