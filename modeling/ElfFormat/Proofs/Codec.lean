import ElfFormat.Proofs.Layout

/-!
# Records that were written are read back

A field is read back wherever its bytes stand, and so is what is read from one field after the
other (`Reads.bind`). Each record follows from its fields in the order in which they are written,
once its words fit the class.
-/

namespace ElfFormat

namespace FieldReader

variable {α β : Type} {order : ByteOrder}

/-- Wherever these bytes stand, `a` is read from them, and the reader stands behind them. -/
def Reads (read : FieldReader α) (order : ByteOrder) (bytes : List UInt8) (a : α) : Prop :=
  ∀ (v : View) (front rest : List UInt8), v.order = order → v.toList = front ++ (bytes ++ rest) →
    read v front.length = .ok (a, front.length + bytes.length)

namespace Reads

variable {read : FieldReader α} {next : α → FieldReader β} {bytes more : List UInt8} {a : α} {b : β}

/-- Fields that are written one behind the other are read one behind the other. -/
theorem bind (h : Reads read order bytes a) (k : Reads (next a) order more b) :
    Reads (read >>= next) order (bytes ++ more) b := by
  intro v front rest ho hv
  have hr := h v front (more ++ rest) ho (by rw [hv, List.append_assoc])
  have hk := k v (front ++ bytes) rest ho (by simpa only [List.append_assoc] using hv)
  rw [List.length_append] at hk
  rw [bind_apply, hr, List.length_append, ← Nat.add_assoc]
  exact hk

theorem last {f : α → β} (h : Reads read order bytes a) :
    Reads (read >>= fun a => Pure.pure (f a)) order bytes (f a) := by
  intro v front rest ho hv
  rw [bind_apply, h v front rest ho hv]
  rfl

theorem number (order : ByteOrder) {width n : Nat} (h : n < 256 ^ width) :
    Reads (FieldReader.number width) order (order.encode width n) n := by
  intro v front rest ho hv
  have hn := number_append hv
  rw [ho, order.value_encode h] at hn
  rwa [order.length_encode] at hn ⊢

theorem u8 (x : UInt8) : Reads FieldReader.u8 order (order.u8 x) x := by
  have h := (number order (show x.toNat < 256 ^ 1 from x.toNat_lt)).last (f := UInt8.ofNat)
  have hx : order.encode 1 x.toNat = order.u8 x := by
    cases order <;> exact congrArg (fun b => [b]) UInt8.ofNat_toNat
  rwa [hx, UInt8.ofNat_toNat] at h

theorem u16 (x : UInt16) : Reads FieldReader.u16 order (order.u16 x) x := by
  have h := (number order (show x.toNat < 256 ^ 2 from x.toNat_lt)).last (f := UInt16.ofNat)
  rwa [UInt16.ofNat_toNat] at h

theorem u32 (x : UInt32) : Reads FieldReader.u32 order (order.u32 x) x := by
  have h := (number order (show x.toNat < 256 ^ 4 from x.toNat_lt)).last (f := UInt32.ofNat)
  rwa [UInt32.ofNat_toNat] at h

theorem word {c : Class} {x : UInt64} (fits : c.Fits x) :
    Reads (FieldReader.word c) order (order.word c x) x := by
  have h := (number order fits).last (f := UInt64.ofNat)
  rwa [UInt64.ofNat_toNat] at h

/-- A record that is written somewhere in a view is read at its place there. -/
theorem run {v : View} {front rest : List UInt8} (h : Reads read v.order bytes a)
    (hv : v.toList = front ++ (bytes ++ rest)) : read.run v front.length = .ok a := by
  rw [FieldReader.run, h v front rest rfl hv]
  rfl

theorem run_zero {v : View} {rest : List UInt8} (h : Reads read v.order bytes a)
    (hv : v.toList = bytes ++ rest) : read.run v 0 = .ok a := by
  have hv' : v.toList = [] ++ (bytes ++ rest) := hv
  exact h.run hv'

theorem eq_of_run {v : View} (h : Reads read v.order bytes a) (hv : v.toList = bytes)
    {a' : α} (hr : read.run v 0 = .ok a') : a' = a := by
  rw [h.run_zero (hv.trans (List.append_nil bytes).symm)] at hr
  exact (Except.ok.inj hr).symm

end Reads

end FieldReader

open FieldReader

/-- The words of the record fit the class. -/
structure SectionHeader.Fits (h : SectionHeader) (c : Class) : Prop where
  flags : c.Fits h.flags
  address : c.Fits h.address
  offset : c.Fits h.offset
  size : c.Fits h.size
  alignment : c.Fits h.alignment
  entrySize : c.Fits h.entrySize

theorem SectionHeader.reads {h : SectionHeader} {c : Class} (fits : h.Fits c)
    (order : ByteOrder) : Reads (fields c) order (h.encode order c) h := by
  unfold fields encode
  simp only [List.append_assoc]
  refine (Reads.u32 _).bind ((Reads.u32 _).bind ((Reads.word fits.flags).bind
    ((Reads.word fits.address).bind ((Reads.word fits.offset).bind ((Reads.word fits.size).bind
    ((Reads.u32 _).bind ((Reads.u32 _).bind ((Reads.word fits.alignment).bind ?_))))))))
  exact (Reads.word fits.entrySize).last

theorem SectionHeader.length_encode (h : SectionHeader) (order : ByteOrder) (c : Class) :
    (h.encode order c).length = c.sectionHeaderSize := by
  cases c <;> simp [encode, ByteOrder.u32, ByteOrder.word, Class.wordSize, Class.sectionHeaderSize]

/-- Looked up at its places, the record is the one that was written. -/
theorem SectionHeader.ofView_encode {h : SectionHeader} {c : Class} {v : View} {order : ByteOrder}
    (fits : h.Fits c) (ho : v.order = order) (hv : v.toList = h.encode order c) :
    ofView v c = h := by
  subst ho
  have hl : v.length = c.sectionHeaderSize := by
    rw [← View.length_toList, hv, length_encode]
  exact (reads fits v.order).eq_of_run hv (parse_eq (Nat.le_of_eq hl.symm))

/-- Every word of the header fits the class. -/
structure ProgramHeader.Fits (h : ProgramHeader) (c : Class) : Prop where
  offset : c.Fits h.offset
  virtualAddress : c.Fits h.virtualAddress
  physicalAddress : c.Fits h.physicalAddress
  fileSize : c.Fits h.fileSize
  memorySize : c.Fits h.memorySize
  alignment : c.Fits h.alignment

theorem ProgramHeader.reads {h : ProgramHeader} {c : Class} (fits : h.Fits c)
    (order : ByteOrder) : Reads (fields c) order (h.encode order c) h := by
  obtain ⟨ho, hv, hp, hf, hm, ha⟩ := fits
  cases c with
  | elf32 =>
    unfold fields encode
    simp only [List.append_assoc]
    refine (Reads.u32 _).bind ((Reads.word ho).bind ((Reads.word hv).bind ((Reads.word hp).bind
      ((Reads.word hf).bind ((Reads.word hm).bind ((Reads.u32 _).bind ?_))))))
    exact (Reads.word ha).last
  | elf64 =>
    unfold fields encode
    simp only [List.append_assoc]
    refine (Reads.u32 _).bind ((Reads.u32 _).bind ((Reads.word ho).bind ((Reads.word hv).bind
      ((Reads.word hp).bind ((Reads.word hf).bind ((Reads.word hm).bind ?_))))))
    exact (Reads.word ha).last

theorem ProgramHeader.length_encode (h : ProgramHeader) (order : ByteOrder) (c : Class) :
    (h.encode order c).length = c.programHeaderSize := by
  cases c <;> simp [encode, ByteOrder.u32, ByteOrder.word, Class.wordSize, Class.programHeaderSize]

theorem ProgramHeader.ofView_encode {h : ProgramHeader} {c : Class} {v : View} {order : ByteOrder}
    (fits : h.Fits c) (ho : v.order = order) (hv : v.toList = h.encode order c) :
    ofView v c = h := by
  subst ho
  have hl : v.length = c.programHeaderSize := by
    rw [← View.length_toList, hv, length_encode]
  exact (reads fits v.order).eq_of_run hv (parse_eq (Nat.le_of_eq hl.symm))

/-- The words of the symbol fit its own class. -/
structure Symbol.Fits (s : Symbol) : Prop where
  value : s.elfClass.Fits s.value
  size : s.elfClass.Fits s.size

theorem Symbol.reads {s : Symbol} (fits : s.Fits) (order : ByteOrder) :
    Reads (fields s.link s.elfClass) order (s.encode order) s := by
  obtain ⟨name, value, size, info, other, index, link, c⟩ := s
  obtain ⟨hv, hs⟩ := fits
  cases c with
  | elf32 =>
    unfold fields encode
    simp only [List.append_assoc]
    refine (Reads.u32 _).bind ((Reads.word hv).bind ((Reads.word hs).bind ((Reads.u8 _).bind
      ((Reads.u8 _).bind ?_))))
    exact (Reads.u16 _).last
  | elf64 =>
    unfold fields encode
    simp only [List.append_assoc]
    refine (Reads.u32 _).bind ((Reads.u8 _).bind ((Reads.u8 _).bind ((Reads.u16 _).bind
      ((Reads.word hv).bind ?_))))
    exact (Reads.word hs).last

theorem Symbol.length_encode (s : Symbol) (order : ByteOrder) :
    (s.encode order).length = s.elfClass.symbolSize := by
  rcases hc : s.elfClass <;>
    simp [encode, ByteOrder.u8, ByteOrder.u16, ByteOrder.u32, ByteOrder.word, hc, Class.wordSize,
      Class.symbolSize]

namespace FileHeader

/-- Every word of the header fits its class. -/
structure Fits (h : FileHeader) : Prop where
  entry : h.elfClass.Fits h.entry
  programOffset : h.elfClass.Fits h.programOffset
  sectionOffset : h.elfClass.Fits h.sectionOffset

variable {h : FileHeader} {v : View} {padding rest : List UInt8}

theorem reads (fits : h.Fits) :
    Reads (fields h.ident) h.order ((h.encode padding).drop (h.ident.encode padding).length) h := by
  obtain ⟨he, hp, hs⟩ := fits
  unfold fields encode
  simp only [List.append_assoc]
  rw [List.drop_left]
  refine (Reads.u16 _).bind ((Reads.u16 _).bind ((Reads.u32 _).bind ((Reads.word he).bind
    ((Reads.word hp).bind ((Reads.word hs).bind ((Reads.u32 _).bind ((Reads.u16 _).bind
    ((Reads.u16 _).bind ((Reads.u16 _).bind ((Reads.u16 _).bind ((Reads.u16 _).bind ?_)))))))))))
  exact (Reads.u16 _).last

theorem length_encode (h : FileHeader) (hp : padding.length = 7) :
    (h.encode padding).length = h.elfClass.headerSize := by
  rcases hc : h.elfClass <;>
    simp [encode, Ident.encode, Ident.magic, ByteOrder.u16, ByteOrder.u32, ByteOrder.word, hc, hp,
      Class.wordSize, Class.headerSize]

end FileHeader

theorem View.u8At_eq {v : View} {front rest : List UInt8} {b : UInt8}
    (hv : v.toList = front ++ b :: rest) : v.u8At front.length = b := by
  have hb : v.order.value [b] = b.toNat := by
    cases v.order <;> rfl
  rw [u8At, numberAt, hv, List.drop_left, List.take_succ_cons, List.take_zero, hb,
    UInt8.ofNat_toNat]

/-- An identification is read back, whatever stands in its padding and behind it. -/
theorem Ident.parse_encode {ident : Ident} {v : View} {padding rest : List UInt8}
    (hv : v.toList = ident.encode padding ++ rest) (hl : Class.elf32.headerSize ≤ v.length) :
    parse v = .ok ident := by
  unfold encode at hv
  simp only [List.append_assoc] at hv
  have hm : v.toList.take 4 = magic := by
    rw [hv]
    rfl
  have h4 : v.u8At 4 = ident.elfClass.toByte := @View.u8At_eq v magic _ _ hv
  have h5 : v.u8At 5 = ident.encoding.toByte :=
    @View.u8At_eq v (magic ++ [ident.elfClass.toByte]) _ _ hv
  have h6 : v.u8At 6 = ident.version :=
    @View.u8At_eq v (magic ++ [ident.elfClass.toByte, ident.encoding.toByte]) _ _ hv
  have h7 : v.u8At 7 = ident.osAbi :=
    @View.u8At_eq v (magic ++ [ident.elfClass.toByte, ident.encoding.toByte, ident.version]) _ _ hv
  have h8 : v.u8At 8 = ident.abiVersion :=
    @View.u8At_eq v (magic ++ [ident.elfClass.toByte, ident.encoding.toByte, ident.version,
      ident.osAbi]) _ _ hv
  rw [parse_eq, if_neg (Nat.not_lt.2 hl), if_neg (not_not_intro hm), h4, h5, Class.ofByte_toByte,
    Encoding.ofByte_toByte]
  show Except.ok (ofView v ident.elfClass ident.encoding) = _
  rw [ofView, h6, h7, h8]

namespace FileHeader

variable {h : FileHeader} {v : View} {padding rest : List UInt8}

/-- The header is read back whatever order the view is in. -/
theorem parse_encode (fits : h.Fits) (hp : padding.length = 7)
    (hv : v.toList = h.encode padding ++ rest) : parse v = .ok h := by
  have hl : h.elfClass.headerSize ≤ v.length := by
    rw [← View.length_toList, hv, List.length_append, length_encode h hp]
    exact Nat.le_add_right _ _
  have hl' : Class.elf32.headerSize ≤ v.length := by
    refine Nat.le_trans ?_ hl
    cases h.elfClass <;> decide
  have hsplit : h.encode padding =
      h.ident.encode padding ++ (h.encode padding).drop (h.ident.encode padding).length := by
    unfold encode
    simp only [List.append_assoc, List.drop_left]
  have hi : (h.ident.encode padding).length = 16 := by
    simp [Ident.encode, Ident.magic, hp]
  rw [hsplit, List.append_assoc] at hv
  have hr := @Reads.run _ _ _ _ (v.inOrder h.order) _ rest (reads fits) hv
  rw [hi] at hr
  rw [parse, Ident.parse_encode hv hl']
  show (if v.length < h.elfClass.headerSize then _ else _) = _
  rw [if_neg (Nat.not_lt.2 hl)]
  exact hr

end FileHeader

end ElfFormat
