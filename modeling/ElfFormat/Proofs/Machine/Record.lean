import ElfFormat.Header
import ElfFormat.Proofs.Machine.Window
import ElfFormat.Section.Header
import ElfFormat.Segment.Header
import ElfFormat.Symbol

/-!
# Records on a machine

A machine reads the fields of a record at places that are written into the program, one list of them
for each class. The places are the sums that reading field by field comes to (`Window.Reads.next`),
so a record is exact in windows of any length, down to the field that a short one fails on.
-/

namespace ElfFormat.Machine

/-- The sizes of the records are words on a machine. -/
def headerSize (c : Class) : UInt64 :=
  .ofNat c.headerSize

def sectionHeaderSize (c : Class) : UInt64 :=
  .ofNat c.sectionHeaderSize

def programHeaderSize (c : Class) : UInt64 :=
  .ofNat c.programHeaderSize

def symbolSize (c : Class) : UInt64 :=
  .ofNat c.symbolSize

/-- The identification, byte by byte. -/
def ident (w : Window) : Compute Ident :=
  if w.length < headerSize .elf32 then
    fail (.tooSmall (headerSize .elf32).toNat w.length.toNat)
  else do
    let start ← w.slice 0 4
    if start ≠ Ident.magic then fail .invalidMagic
    else
      let elfClass ← lift (Class.ofByte (← w.u8 4))
      let encoding ← lift (Encoding.ofByte (← w.u8 5))
      let version ← w.u8 6
      let osAbi ← w.u8 7
      let abiVersion ← w.u8 8
      return { elfClass, encoding, version, osAbi, abiVersion }

/-- The fields of the file header at their places, which are written out for each class, in the
order that the identification announces. -/
def headerFields (w : Window) (ident : Ident) : Compute FileHeader :=
  let order := ident.encoding.order
  match ident.elfClass with
  | .elf32 => do
    let type ← w.u16In order 16
    let machine ← w.u16In order 18
    let version ← w.u32In order 20
    let entry ← w.wordIn order .elf32 24
    let programOffset ← w.wordIn order .elf32 28
    let sectionOffset ← w.wordIn order .elf32 32
    let flags ← w.u32In order 36
    let headerSize ← w.u16In order 40
    let programEntrySize ← w.u16In order 42
    let programCount ← w.u16In order 44
    let sectionEntrySize ← w.u16In order 46
    let sectionCount ← w.u16In order 48
    let nameIndex ← w.u16In order 50
    return { ident, type, machine, version, entry, programOffset, sectionOffset, flags, headerSize,
             programEntrySize, programCount, sectionEntrySize, sectionCount, nameIndex }
  | .elf64 => do
    let type ← w.u16In order 16
    let machine ← w.u16In order 18
    let version ← w.u32In order 20
    let entry ← w.wordIn order .elf64 24
    let programOffset ← w.wordIn order .elf64 32
    let sectionOffset ← w.wordIn order .elf64 40
    let flags ← w.u32In order 48
    let headerSize ← w.u16In order 52
    let programEntrySize ← w.u16In order 54
    let programCount ← w.u16In order 56
    let sectionEntrySize ← w.u16In order 58
    let sectionCount ← w.u16In order 60
    let nameIndex ← w.u16In order 62
    return { ident, type, machine, version, entry, programOffset, sectionOffset, flags, headerSize,
             programEntrySize, programCount, sectionEntrySize, sectionCount, nameIndex }

/-- The file header, once the window is known to have room for it. -/
def fileHeader (w : Window) : Compute FileHeader := do
  let ident ← ident w
  if w.length < headerSize ident.elfClass then
    fail (.tooSmall (headerSize ident.elfClass).toNat w.length.toNat)
  else headerFields w ident

/-- The fields of a section header at their places. -/
def sectionHeader (w : Window) : Class → Compute SectionHeader
  | .elf32 => do
    let name ← w.u32 0
    let type ← w.u32 4
    let flags ← w.word .elf32 8
    let address ← w.word .elf32 12
    let offset ← w.word .elf32 16
    let size ← w.word .elf32 20
    let link ← w.u32 24
    let info ← w.u32 28
    let alignment ← w.word .elf32 32
    let entrySize ← w.word .elf32 36
    return { name, type, flags, address, offset, size, link, info, alignment, entrySize }
  | .elf64 => do
    let name ← w.u32 0
    let type ← w.u32 4
    let flags ← w.word .elf64 8
    let address ← w.word .elf64 16
    let offset ← w.word .elf64 24
    let size ← w.word .elf64 32
    let link ← w.u32 40
    let info ← w.u32 44
    let alignment ← w.word .elf64 48
    let entrySize ← w.word .elf64 56
    return { name, type, flags, address, offset, size, link, info, alignment, entrySize }

/-- The fields of a program header at their places. -/
def programHeader (w : Window) : Class → Compute ProgramHeader
  | .elf32 => do
    let type ← w.u32 0
    let offset ← w.word .elf32 4
    let virtualAddress ← w.word .elf32 8
    let physicalAddress ← w.word .elf32 12
    let fileSize ← w.word .elf32 16
    let memorySize ← w.word .elf32 20
    let flags ← w.u32 24
    let alignment ← w.word .elf32 28
    return { type, flags, offset, virtualAddress, physicalAddress, fileSize, memorySize, alignment }
  | .elf64 => do
    let type ← w.u32 0
    let flags ← w.u32 4
    let offset ← w.word .elf64 8
    let virtualAddress ← w.word .elf64 16
    let physicalAddress ← w.word .elf64 24
    let fileSize ← w.word .elf64 32
    let memorySize ← w.word .elf64 40
    let alignment ← w.word .elf64 48
    return { type, flags, offset, virtualAddress, physicalAddress, fileSize, memorySize, alignment }

/-- The fields of a symbol at their places. -/
def symbol (w : Window) (link : UInt32) : Class → Compute Symbol
  | .elf32 => do
    let nameOffset ← w.u32 0
    let value ← w.word .elf32 4
    let size ← w.word .elf32 8
    let info ← w.u8 12
    let other ← w.u8 13
    let sectionIndex ← w.u16 14
    return { nameOffset, value, size, info, other, sectionIndex, link, elfClass := .elf32 }
  | .elf64 => do
    let nameOffset ← w.u32 0
    let info ← w.u8 4
    let other ← w.u8 5
    let sectionIndex ← w.u16 6
    let value ← w.word .elf64 8
    let size ← w.word .elf64 16
    return { nameOffset, value, size, info, other, sectionIndex, link, elfClass := .elf64 }

/-! ## Fields in a row -/

/-- A field is read where the last one ended. -/
theorem Exact.next {α β γ : Type} {R : α → β → Prop} {x : Compute γ} {v : View}
    {position width : Nat} {make : Nat → γ} {f : γ → Compute α} {g : γ → FieldReader β}
    (hx : Exact Eq x ((v.number position width).map make))
    (h : ∀ a, Exact R (f a) ((g a).run v (position + width))) :
    Exact R (x >>= f)
      (((do return make (← .number width)) >>= g : FieldReader β).run v position) := by
  rw [FieldReader.run_next]
  exact hx.bind fun a b he => he ▸ h a

theorem toNat_headerSize (c : Class) : (headerSize c).toNat = c.headerSize := by
  cases c <;> rfl

theorem toNat_sectionHeaderSize (c : Class) :
    (sectionHeaderSize c).toNat = c.sectionHeaderSize := by
  cases c <;> rfl

theorem toNat_programHeaderSize (c : Class) :
    (programHeaderSize c).toNat = c.programHeaderSize := by
  cases c <;> rfl

theorem toNat_symbolSize (c : Class) : (symbolSize c).toNat = c.symbolSize := by
  cases c <;> rfl

variable {w : Window} {v : View} (hr : w.Reads v)
include hr

/-- The places of the fields are those that reading them in a row comes to. -/
theorem headerFields_exact (ident : Ident) :
    Exact Eq (headerFields w ident)
      ((FileHeader.fields ident).run (v.inOrder ident.encoding.order) 16) := by
  obtain ⟨c, d, version, osAbi, abiVersion⟩ := ident
  cases c <;>
    repeat' first
      | exact .pure rfl
      | refine .next (hr.u16In_exact _ _) fun _ => ?_
      | refine .next (hr.u32In_exact _ _) fun _ => ?_
      | refine .next (hr.wordIn_exact _ _ _) fun _ => ?_

theorem sectionHeader_exact (c : Class) :
    Exact Eq (sectionHeader w c) (SectionHeader.parse v c) := by
  cases c <;>
    repeat' first
      | exact .pure rfl
      | refine .next (hr.u32_exact _) fun _ => ?_
      | refine .next (hr.word_exact _ _) fun _ => ?_

theorem programHeader_exact (c : Class) :
    Exact Eq (programHeader w c) (ProgramHeader.parse v c) := by
  cases c <;>
    repeat' first
      | exact .pure rfl
      | refine .next (hr.u32_exact _) fun _ => ?_
      | refine .next (hr.word_exact _ _) fun _ => ?_

theorem symbol_exact (link : UInt32) (c : Class) :
    Exact Eq (symbol w link c) (Symbol.parse v c link) := by
  cases c <;>
    repeat' first
      | exact .pure rfl
      | refine .next (hr.u8_exact _) fun _ => ?_
      | refine .next (hr.u16_exact _) fun _ => ?_
      | refine .next (hr.u32_exact _) fun _ => ?_
      | refine .next (hr.word_exact _ _) fun _ => ?_

theorem length_lt_headerSize (c : Class) : w.length < headerSize c ↔ v.length < c.headerSize := by
  rw [UInt64.lt_iff_toNat_lt, toNat_headerSize, hr.length_eq]

/-- No byte of the identification is looked at in a file that is shorter than any header. -/
theorem ident_exact : Exact Eq (ident w) (Ident.parse v) := by
  unfold ident Ident.parse
  simp only [length_lt_headerSize hr, toNat_headerSize, ← hr.length_eq]
  split
  · exact .fail _
  · refine (hr.slice_exact 0 4).bind fun start _ he => ?_
    subst he
    split
    · exact .fail _
    · refine (hr.u8_exact 4).bind fun b _ he => he ▸ ?_
      refine (Exact.lift _).bind fun c _ he => he ▸ ?_
      refine (hr.u8_exact 5).bind fun b _ he => he ▸ ?_
      refine (Exact.lift _).bind fun d _ he => he ▸ ?_
      refine (hr.u8_exact 6).bind fun version _ he => he ▸ ?_
      refine (hr.u8_exact 7).bind fun osAbi _ he => he ▸ ?_
      refine (hr.u8_exact 8).bind fun abiVersion _ he => he ▸ ?_
      exact .pure rfl

/-- The size that a header needs depends on the class in it. -/
theorem fileHeader_exact : Exact Eq (fileHeader w) (FileHeader.parse v) := by
  unfold fileHeader FileHeader.parse
  refine (ident_exact hr).bind fun ident _ he => ?_
  subst he
  simp only [length_lt_headerSize hr, toNat_headerSize, ← hr.length_eq]
  split
  · exact .fail _
  · exact headerFields_exact hr ident

end ElfFormat.Machine
