import ElfFormat.Proofs.Codec
import ElfFormat.Proofs.Window

/-!
# Records and their bytes

Records of a fixed size and the byte strings of that size correspond one to one: a record that was
written is read back whatever follows it, and every byte string of the size is read as the one
record that it is the writing of (`Codec`). The second half is what makes the places of the fields
a partition: each field gives the bytes at its own place (`View.word_wordAt`), and the places join
up from the front of the record to its end (`encode_ofView`).

`record_codecs_exact` says so for the three records that tables are made of, in both classes and
both byte orders. Records whose words do not fit the class are no records of the class: a word that
was read from four bytes is below `2 ^ 32` (`View.fits_wordAt`).
-/

namespace ElfFormat

/-- Reading and writing undo each other between the records that fit and the byte strings of
`size` bytes, in either order of the bytes. -/
structure Codec {α : Type} (parse : View → Except Error α) (write : ByteOrder → α → List UInt8)
    (Fits : α → Prop) (size : Nat) : Prop where
  length_write : ∀ order a, Fits a → (write order a).length = size
  parse_write : ∀ (v : View) a rest, Fits a → v.toList = write v.order a ++ rest → parse v = .ok a
  write_parse : ∀ v : View, size ≤ v.length →
    ∃ a, parse v = .ok a ∧ Fits a ∧ write v.order a = v.toList.take size

namespace Codec

variable {α : Type} {parse : View → Except Error α} {write : ByteOrder → α → List UInt8}
  {Fits : α → Prop} {size : Nat}

/-- Only the bytes of the record and the order of the view are looked at. -/
theorem parse_congr (codec : Codec parse write Fits size) {v w : View} (ho : v.order = w.order)
    (hv : size ≤ v.length) (hb : v.toList.take size = w.toList.take size) : parse v = parse w := by
  obtain ⟨a, hparse, hfits, hwrite⟩ := codec.write_parse v hv
  rw [hparse, codec.parse_write w a (w.toList.drop size) hfits]
  rw [← ho, hwrite, hb, List.take_append_drop]

/-- No two records are written alike. -/
theorem eq_of_write (codec : Codec parse write Fits size) {a b : α} (ha : Fits a) (hb : Fits b)
    {order : ByteOrder} (h : write order a = write order b) : a = b := by
  let v := View.ofList 0 (write order a) order
  have hv : v.toList = write v.order a ++ [] := by simp [v, View.ofList, View.toList]
  have hparse := codec.parse_write v a [] ha hv
  rw [show write v.order a = write v.order b from h] at hv
  rw [codec.parse_write v b [] hb hv] at hparse
  exact (Except.ok.inj hparse).symm

end Codec

variable {v : View} {c : Class}

namespace SectionHeader

theorem fits_ofView (v : View) (c : Class) : (ofView v c).Fits c where
  flags := v.fits_wordAt c _
  address := v.fits_wordAt c _
  offset := v.fits_wordAt c _
  size := v.fits_wordAt c _
  alignment := v.fits_wordAt c _
  entrySize := v.fits_wordAt c _

theorem encode_ofView (h : c.sectionHeaderSize ≤ v.length) :
    (ofView v c).encode v.order c = v.toList.take c.sectionHeaderSize := by
  have hsize : 16 + 6 * c.wordSize = c.sectionHeaderSize := by cases c <;> rfl
  unfold encode ofView
  simp (disch := omega) only [View.u32_u32At, View.word_wordAt, View.bytesAt_append]
  show v.bytesAt 0 _ = v.bytesAt 0 _
  congr 1
  omega

theorem codec (c : Class) : Codec (parse · c) (fun order h => h.encode order c) (·.Fits c)
    c.sectionHeaderSize where
  length_write order h _ := h.length_encode order c
  parse_write v _ _ fits hv := (reads fits v.order).run_zero hv
  write_parse v hl := ⟨ofView v c, parse_eq hl, fits_ofView v c, encode_ofView hl⟩

end SectionHeader

namespace ProgramHeader

theorem fits_ofView (v : View) (c : Class) : (ofView v c).Fits c := by
  cases c <;> exact ⟨v.fits_wordAt _ _, v.fits_wordAt _ _, v.fits_wordAt _ _, v.fits_wordAt _ _,
    v.fits_wordAt _ _, v.fits_wordAt _ _⟩

theorem encode_ofView (h : c.programHeaderSize ≤ v.length) :
    (ofView v c).encode v.order c = v.toList.take c.programHeaderSize := by
  cases c with
  | elf32 =>
    have hl : 32 ≤ v.length := h
    simp (disch := first | omega | (simp only [Class.wordSize]; omega)) only [encode, ofView,
      View.u32_u32At, View.word_wordAt]
    simp (disch := omega) only [Class.wordSize, View.bytesAt_append]
    rfl
  | elf64 =>
    have hl : 56 ≤ v.length := h
    simp (disch := first | omega | (simp only [Class.wordSize]; omega)) only [encode, ofView,
      View.u32_u32At, View.word_wordAt]
    simp (disch := omega) only [Class.wordSize, View.bytesAt_append]
    rfl

theorem codec (c : Class) : Codec (parse · c) (fun order h => h.encode order c) (·.Fits c)
    c.programHeaderSize where
  length_write order h _ := h.length_encode order c
  parse_write v _ _ fits hv := (reads fits v.order).run_zero hv
  write_parse v hl := ⟨ofView v c, parse_eq hl, fits_ofView v c, encode_ofView hl⟩

end ProgramHeader

namespace Symbol

/-- The symbol is one of a table of this class whose names are in the section `link`, and its words
fit the class. -/
structure Belongs (s : Symbol) (c : Class) (link : UInt32) : Prop where
  elfClass : s.elfClass = c
  link : s.link = link
  fits : s.Fits

theorem belongs_ofView (v : View) (link : UInt32) (c : Class) :
    (ofView v link c).Belongs c link := by
  cases c <;> exact ⟨rfl, rfl, v.fits_wordAt _ _, v.fits_wordAt _ _⟩

theorem encode_ofView (h : c.symbolSize ≤ v.length) (link : UInt32) :
    (ofView v link c).encode v.order = v.toList.take c.symbolSize := by
  cases c with
  | elf32 =>
    have hl : 16 ≤ v.length := h
    simp (disch := first | omega | (simp only [Class.wordSize]; omega)) only [encode, ofView,
      View.u8_u8At, View.u16_u16At, View.u32_u32At, View.word_wordAt]
    simp (disch := omega) only [Class.wordSize, View.bytesAt_append]
    rfl
  | elf64 =>
    have hl : 24 ≤ v.length := h
    simp (disch := first | omega | (simp only [Class.wordSize]; omega)) only [encode, ofView,
      View.u8_u8At, View.u16_u16At, View.u32_u32At, View.word_wordAt]
    simp (disch := omega) only [Class.wordSize, View.bytesAt_append]
    rfl

/-- A symbol keeps the link and the class that it is read with, so both are given to be written. -/
theorem codec (c : Class) (link : UInt32) : Codec (parse · c link) (fun order s => s.encode order)
    (·.Belongs c link) c.symbolSize where
  length_write order s hs := by rw [s.length_encode, hs.elfClass]
  parse_write v _ _ hs hv := by
    obtain ⟨rfl, rfl, fits⟩ := hs
    exact (reads fits v.order).run_zero hv
  write_parse v hl := ⟨ofView v link c, parse_eq hl link, belongs_ofView v link c,
    encode_ofView hl link⟩

end Symbol

/-- In either class, section headers, program headers and symbols are what their bytes are, and
their bytes are what they are; the class and the link of a symbol are those that it is read with. -/
theorem record_codecs_exact (c : Class) :
    Codec (SectionHeader.parse · c) (fun order h => h.encode order c) (·.Fits c)
      c.sectionHeaderSize ∧
    Codec (ProgramHeader.parse · c) (fun order h => h.encode order c) (·.Fits c)
      c.programHeaderSize ∧
    ∀ link, Codec (Symbol.parse · c link) (fun order s => s.encode order) (·.Belongs c link)
      c.symbolSize :=
  ⟨SectionHeader.codec c, ProgramHeader.codec c, Symbol.codec c⟩

end ElfFormat
