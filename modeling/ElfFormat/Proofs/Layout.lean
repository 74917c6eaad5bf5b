import ElfFormat.Header
import ElfFormat.Section.Header
import ElfFormat.Segment.Header
import ElfFormat.Symbol

/-!
# Where the fields stand

Reading field by field comes to the same as looking each field up at its place, as long as the view
is long enough for the record. The places are those of the ELF specification; with `w` for the size
of a word, both classes share those of the file header and of section headers.

A field that is looked up and written again gives the bytes at its place (`encode_numberAt`), and
those of neighbouring fields join (`bytesAt_append`).
-/

namespace ElfFormat

theorem Class.toNat_ofNat {c : Class} {n : Nat} (h : n < 256 ^ c.wordSize) :
    (UInt64.ofNat n).toNat = n := by
  refine UInt64.toNat_ofNat_of_lt' (Nat.lt_of_lt_of_le h ?_)
  cases c <;> decide

theorem Class.fits_ofNat {c : Class} {n : Nat} (h : n < 256 ^ c.wordSize) :
    c.Fits (UInt64.ofNat n) := by
  unfold Fits
  rwa [Class.toNat_ofNat h]

namespace View

/-- The number that the `width` bytes from `offset` on stand for, or as many as there are. -/
def numberAt (v : View) (offset width : Nat) : Nat :=
  v.order.value ((v.toList.drop offset).take width)

/-- The byte at `offset`. -/
def u8At (v : View) (offset : Nat) : UInt8 :=
  .ofNat (v.numberAt offset 1)

def u16At (v : View) (offset : Nat) : UInt16 :=
  .ofNat (v.numberAt offset 2)

def u32At (v : View) (offset : Nat) : UInt32 :=
  .ofNat (v.numberAt offset 4)

/-- The word at `offset`, as wide as the class has it. -/
def wordAt (v : View) (c : Class) (offset : Nat) : UInt64 :=
  .ofNat (v.numberAt offset c.wordSize)

theorem numberAt_lt (v : View) (offset width : Nat) : v.numberAt offset width < 256 ^ width := by
  refine Nat.lt_of_lt_of_le (v.order.value_lt _) (Nat.pow_le_pow_right (by decide) ?_)
  rw [List.length_take]
  exact Nat.min_le_left _ _

theorem toNat_u32At (v : View) (offset : Nat) : (v.u32At offset).toNat = v.numberAt offset 4 :=
  UInt32.toNat_ofNat_of_lt' (v.numberAt_lt offset 4)

theorem toNat_u16At (v : View) (offset : Nat) : (v.u16At offset).toNat = v.numberAt offset 2 :=
  UInt16.toNat_ofNat_of_lt' (v.numberAt_lt offset 2)

theorem toNat_u8At (v : View) (offset : Nat) : (v.u8At offset).toNat = v.numberAt offset 1 :=
  UInt8.toNat_ofNat_of_lt' (v.numberAt_lt offset 1)

theorem toNat_wordAt (v : View) (c : Class) (offset : Nat) :
    (v.wordAt c offset).toNat = v.numberAt offset c.wordSize :=
  Class.toNat_ofNat (v.numberAt_lt offset c.wordSize)

theorem fits_wordAt (v : View) (c : Class) (offset : Nat) : c.Fits (v.wordAt c offset) :=
  Class.fits_ofNat (v.numberAt_lt offset c.wordSize)

theorem u8At_inOrder (v : View) (order : ByteOrder) (offset : Nat) :
    (v.inOrder order).u8At offset = v.u8At offset := by
  -- One byte is the same number from either end.
  have h : ∀ (o : ByteOrder) (l : List UInt8),
      o.value (l.take 1) = ByteOrder.littleEndian (l.take 1) := by
    rintro (_ | _) (_ | ⟨b, l⟩) <;> rfl
  unfold u8At numberAt
  rw [h, h, toList_inOrder]

theorem u8_eq {v : View} {offset : Nat} (h : offset + 1 ≤ v.length) :
    v.u8 offset = .ok (v.u8At offset) := by
  rw [u8, number_eq, if_pos h]
  rfl

/-- The `width` bytes from `offset` on, or as many as there are. -/
def bytesAt (v : View) (offset width : Nat) : List UInt8 :=
  (v.toList.drop offset).take width

theorem bytesAt_append (v : View) {offset width next : Nat} (h : offset + width = next)
    (more : Nat) : v.bytesAt offset width ++ v.bytesAt next more =
      v.bytesAt offset (width + more) := by
  subst h
  rw [bytesAt, bytesAt, bytesAt, List.take_add, List.drop_drop]

section Shared

variable {u v w : View} {n offset width : Nat}

theorem bytesAt_congr (h : v.toList.take n = w.toList.take n) (fits : offset + width ≤ n) :
    v.bytesAt offset width = w.bytesAt offset width := by
  have hfront (x : View) :
      x.bytesAt offset width = ((x.toList.take n).drop offset).take width := by
    rw [bytesAt, List.drop_take, List.take_take, Nat.min_eq_left (by omega)]
  rw [hfront v, hfront w, h]

theorem numberAt_congr (ho : v.order = w.order) (h : v.toList.take n = w.toList.take n)
    (fits : offset + width ≤ n) : v.numberAt offset width = w.numberAt offset width := by
  show v.order.value (v.bytesAt offset width) = w.order.value (w.bytesAt offset width)
  rw [ho, bytesAt_congr h fits]

theorem bytesAt_append_left (h : w.toList = u.toList ++ v.toList)
    (fits : offset + width ≤ u.length) : w.bytesAt offset width = u.bytesAt offset width := by
  refine bytesAt_congr ?_ fits
  rw [h, ← length_toList, List.take_left, List.take_length]

theorem bytesAt_append_right (h : w.toList = u.toList ++ v.toList) :
    w.bytesAt (u.length + offset) width = v.bytesAt offset width := by
  rw [bytesAt, bytesAt, h, ← length_toList, List.drop_length_add_append]

end Shared

section Written

variable {v : View} {offset : Nat}

/-- A number that was read is written back to its bytes. -/
theorem encode_numberAt {width : Nat} (h : offset + width ≤ v.length) :
    v.order.encode width (v.numberAt offset width) = v.bytesAt offset width := by
  have hl : (v.bytesAt offset width).length = width := by
    rw [bytesAt, List.length_take, List.length_drop, length_toList]
    omega
  have he := v.order.encode_value (v.bytesAt offset width)
  rwa [hl] at he

theorem u8_u8At (h : offset + 1 ≤ v.length) :
    v.order.u8 (v.u8At offset) = v.bytesAt offset 1 := by
  rw [← encode_numberAt h]
  cases v.order <;> rfl

theorem u16_u16At (h : offset + 2 ≤ v.length) :
    v.order.u16 (v.u16At offset) = v.bytesAt offset 2 := by
  rw [ByteOrder.u16, toNat_u16At, encode_numberAt h]

theorem u32_u32At (h : offset + 4 ≤ v.length) :
    v.order.u32 (v.u32At offset) = v.bytesAt offset 4 := by
  rw [ByteOrder.u32, toNat_u32At, encode_numberAt h]

theorem word_wordAt {c : Class} (h : offset + c.wordSize ≤ v.length) :
    v.order.word c (v.wordAt c offset) = v.bytesAt offset c.wordSize := by
  rw [ByteOrder.word, toNat_wordAt, encode_numberAt h]

end Written

end View

namespace FieldReader

variable {v : View} {position : Nat}

theorem number_of_le {width : Nat} (h : position + width ≤ v.length) :
    number width v position = .ok (v.numberAt position width, position + width) := by
  rw [number, View.number_eq, if_pos h]
  rfl

theorem u8_of_le (h : position + 1 ≤ v.length) :
    u8 v position = .ok (v.u8At position, position + 1) := by
  simp only [u8, bind_apply, number_of_le h]
  rfl

theorem u16_of_le (h : position + 2 ≤ v.length) :
    u16 v position = .ok (v.u16At position, position + 2) := by
  simp only [u16, bind_apply, number_of_le h]
  rfl

theorem u32_of_le (h : position + 4 ≤ v.length) :
    u32 v position = .ok (v.u32At position, position + 4) := by
  simp only [u32, bind_apply, number_of_le h]
  rfl

theorem word_of_le {c : Class} (h : position + c.wordSize ≤ v.length) :
    word c v position = .ok (v.wordAt c position, position + c.wordSize) := by
  simp only [word, bind_apply, number_of_le h]
  rfl

end FieldReader

namespace SectionHeader

/-- The record at the front of a view. -/
def ofView (v : View) (c : Class) : SectionHeader :=
  let w := c.wordSize
  { name := v.u32At 0
    type := v.u32At 4
    flags := v.wordAt c 8
    address := v.wordAt c (8 + w)
    offset := v.wordAt c (8 + 2 * w)
    size := v.wordAt c (8 + 3 * w)
    link := v.u32At (8 + 4 * w)
    info := v.u32At (12 + 4 * w)
    alignment := v.wordAt c (16 + 4 * w)
    entrySize := v.wordAt c (16 + 5 * w) }

/-- A record that fits is decoded field by field at its place. -/
theorem parse_eq {v : View} {c : Class} (h : c.sectionHeaderSize ≤ v.length) :
    parse v c = .ok (ofView v c) := by
  cases c <;> simp only [Class.sectionHeaderSize] at h <;>
    simp (disch := first | omega | (simp only [Class.wordSize]; omega)) only [parse,
      FieldReader.run, fields, FieldReader.bind_apply, FieldReader.u32_of_le,
      FieldReader.word_of_le] <;>
    rfl

end SectionHeader

namespace ProgramHeader

/-- The record at the front of a view. The flags stand where the words of the class are aligned. -/
def ofView (v : View) : Class → ProgramHeader
  | .elf32 =>
    { type := v.u32At 0
      offset := v.wordAt .elf32 4
      virtualAddress := v.wordAt .elf32 8
      physicalAddress := v.wordAt .elf32 12
      fileSize := v.wordAt .elf32 16
      memorySize := v.wordAt .elf32 20
      flags := v.u32At 24
      alignment := v.wordAt .elf32 28 }
  | .elf64 =>
    { type := v.u32At 0
      flags := v.u32At 4
      offset := v.wordAt .elf64 8
      virtualAddress := v.wordAt .elf64 16
      physicalAddress := v.wordAt .elf64 24
      fileSize := v.wordAt .elf64 32
      memorySize := v.wordAt .elf64 40
      alignment := v.wordAt .elf64 48 }

theorem parse_eq {v : View} {c : Class} (h : c.programHeaderSize ≤ v.length) :
    parse v c = .ok (ofView v c) := by
  cases c <;> simp only [Class.programHeaderSize] at h <;>
    simp (disch := first | omega | (simp only [Class.wordSize]; omega)) only [parse,
      FieldReader.run, fields, FieldReader.bind_apply, FieldReader.u32_of_le,
      FieldReader.word_of_le] <;>
    rfl

end ProgramHeader

namespace Symbol

/-- The record at the front of a view, for symbols that are named in the section `link`. -/
def ofView (v : View) (link : UInt32) : Class → Symbol
  | .elf32 =>
    { nameOffset := v.u32At 0
      value := v.wordAt .elf32 4
      size := v.wordAt .elf32 8
      info := v.u8At 12
      other := v.u8At 13
      sectionIndex := v.u16At 14
      link
      elfClass := .elf32 }
  | .elf64 =>
    { nameOffset := v.u32At 0
      info := v.u8At 4
      other := v.u8At 5
      sectionIndex := v.u16At 6
      value := v.wordAt .elf64 8
      size := v.wordAt .elf64 16
      link
      elfClass := .elf64 }

theorem parse_eq {v : View} {c : Class} (h : c.symbolSize ≤ v.length) (link : UInt32) :
    parse v c link = .ok (ofView v link c) := by
  cases c <;> simp only [Class.symbolSize] at h <;>
    simp (disch := first | omega | (simp only [Class.wordSize]; omega)) only [parse,
      FieldReader.run, fields, FieldReader.bind_apply, FieldReader.u8_of_le,
      FieldReader.u16_of_le, FieldReader.u32_of_le, FieldReader.word_of_le] <;>
    rfl

end Symbol

namespace Ident

/-- The identification of a file whose class and encoding are known. -/
def ofView (v : View) (c : Class) (d : Encoding) : Ident where
  elfClass := c
  encoding := d
  version := v.u8At 6
  osAbi := v.u8At 7
  abiVersion := v.u8At 8

/-- What is tested before the first number is read, in order. -/
theorem parse_eq (v : View) :
    parse v =
      if v.length < Class.elf32.headerSize then
        .error (.tooSmall Class.elf32.headerSize v.length)
      else if v.toList.take 4 ≠ magic then .error .invalidMagic
      else do
        let c ← Class.ofByte (v.u8At 4)
        let d ← Encoding.ofByte (v.u8At 5)
        return ofView v c d := by
  rw [parse]
  by_cases hl : v.length < Class.elf32.headerSize
  · rw [if_pos hl, if_pos hl]
  · have hm : 52 ≤ v.length := Nat.not_lt.1 hl
    have hs : v.slice 0 4 = .ok (v.toList.take 4) := by
      rw [View.slice_eq, if_pos (by omega), List.drop_zero]
    rw [if_neg hl, if_neg hl]
    simp (disch := omega) only [hs, View.u8_eq]
    rfl

/-- The identification has no order: it is read byte by byte. -/
theorem parse_inOrder (v : View) (order : ByteOrder) :
    parse (v.inOrder order) = parse v := by
  rw [parse_eq, parse_eq]
  unfold ofView
  simp only [View.u8At_inOrder, View.toList_inOrder, View.length_inOrder]

end Ident

namespace FileHeader

/-- The header of a file with this identification. -/
def ofView (v : View) (ident : Ident) : FileHeader :=
  let c := ident.elfClass
  let w := c.wordSize
  { ident
    type := v.u16At 16
    machine := v.u16At 18
    version := v.u32At 20
    entry := v.wordAt c 24
    programOffset := v.wordAt c (24 + w)
    sectionOffset := v.wordAt c (24 + 2 * w)
    flags := v.u32At (24 + 3 * w)
    headerSize := v.u16At (28 + 3 * w)
    programEntrySize := v.u16At (30 + 3 * w)
    programCount := v.u16At (32 + 3 * w)
    sectionEntrySize := v.u16At (34 + 3 * w)
    sectionCount := v.u16At (36 + 3 * w)
    nameIndex := v.u16At (38 + 3 * w) }

theorem fields_eq {v : View} {ident : Ident} (h : ident.elfClass.headerSize ≤ v.length) :
    (fields ident).run v 16 = .ok (ofView v ident) := by
  obtain ⟨c, d, version, osAbi, abiVersion⟩ := ident
  cases c <;> simp only [Class.headerSize] at h <;>
    simp (disch := first | omega | (simp only [Class.wordSize]; omega)) only [FieldReader.run,
      fields, FieldReader.bind_apply, FieldReader.u16_of_le, FieldReader.u32_of_le,
      FieldReader.word_of_le] <;>
    rfl

/-- The numbers of the header are read in the order that the identification names. -/
theorem parse_eq (v : View) :
    parse v =
      match Ident.parse v with
      | .error e => .error e
      | .ok ident =>
        if v.length < ident.elfClass.headerSize then
          .error (.tooSmall ident.elfClass.headerSize v.length)
        else .ok (ofView (v.inOrder ident.encoding.order) ident) := by
  rw [parse]
  rcases Ident.parse v with e | ident
  · rfl
  · show (if _ then _ else _) = if _ then _ else _
    split
    · rfl
    · next h => exact fields_eq (Nat.not_lt.1 h)

/-- The file header is read in the order that it announces, whatever order the view has. -/
theorem parse_inOrder (v : View) (order : ByteOrder) :
    parse (v.inOrder order) = parse v := by
  rw [parse_eq, parse_eq, Ident.parse_inOrder]
  rfl

end FileHeader

end ElfFormat
