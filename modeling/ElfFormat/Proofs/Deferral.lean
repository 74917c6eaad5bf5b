import ElfFormat.Proofs.Patch

/-!
# Moving numbers into the first section header

The number of sections, the index of the section that names them and the number of segments may
stand in the file header or, behind a marker there, in the first section header.
`FileHeader.deferral` is what is written to move some of them from the one to the other, and
`Deferral` all that is used of an image in which it was written: the patches are found where they
belong, and every range that they spare is as before. The header and the first record are then known
field by field (`parse_header`, `sectionHeaderAt_zero`), and every other record is read from bytes
that are as before (`agreeOn_section`).
-/

namespace ElfFormat

/-- The numbers of a file header that may stand in the first section header instead. -/
inductive Deferred where
  | sectionCount
  | nameIndex
  | programCount
deriving DecidableEq

namespace Deferred

/-- The number as the header gives it. -/
def number (h : FileHeader) : Deferred → UInt16
  | sectionCount => h.sectionCount
  | nameIndex => h.nameIndex
  | programCount => h.programCount

/-- What the file header has in place of the number. -/
def marker : Deferred → UInt16
  | sectionCount => 0
  | nameIndex => SectionIndex.extended
  | programCount => extendedProgramCount

/-- Where the number stands in the file header. -/
def position (c : Class) : Deferred → Nat
  | programCount => 32 + 3 * c.wordSize
  | sectionCount => 36 + 3 * c.wordSize
  | nameIndex => 38 + 3 * c.wordSize

/-- Where it stands in the first section header. -/
def recordPosition (c : Class) : Deferred → Nat
  | sectionCount => 8 + 3 * c.wordSize
  | nameIndex => 8 + 4 * c.wordSize
  | programCount => 12 + 4 * c.wordSize

/-- How many bytes the number takes in the first section header. -/
def recordWidth (c : Class) : Deferred → Nat
  | sectionCount => c.wordSize
  | nameIndex | programCount => 4

/-- Puts the mark into the file header. -/
def headerPatch (h : FileHeader) (d : Deferred) : Patch where
  position := d.position h.elfClass
  bytes := h.order.u16 d.marker

/-- Puts the number into the first section header. -/
def recordPatch (h : FileHeader) (d : Deferred) : Patch where
  position := h.sectionOffset.toNat + d.recordPosition h.elfClass
  bytes := h.order.encode (d.recordWidth h.elfClass) (d.number h).toNat

end Deferred

namespace FileHeader

/-- What is written to move some of the numbers into the first section header. -/
def deferral (h : FileHeader) (moved : List Deferred) : List Patch :=
  moved.flatMap fun d => [d.headerPatch h, d.recordPatch h]

/-- The header without the numbers that have moved. -/
def deferring (h : FileHeader) (moved : List Deferred) : FileHeader :=
  let left (d : Deferred) := if d ∈ moved then d.marker else d.number h
  { h with
    sectionCount := left .sectionCount
    nameIndex := left .nameIndex
    programCount := left .programCount }

end FileHeader

/-- The first section header with the numbers that have moved into it. -/
def SectionHeader.keeping (first : SectionHeader) (h : FileHeader) (moved : List Deferred) :
    SectionHeader :=
  { first with
    size := if .sectionCount ∈ moved then h.sectionCount.toUInt64 else first.size
    link := if .nameIndex ∈ moved then h.nameIndex.toUInt32 else first.link
    info := if .programCount ∈ moved then h.programCount.toUInt32 else first.info }

/-- The numbers have been moved from `a` to `b`. -/
structure Deferral (a b : Image) (h : FileHeader) (moved : List Deferred) : Prop where
  behind : h.elfClass.headerSize ≤ h.sectionOffset.toNat
  length_eq : b.length = a.length
  order_eq : b.order = a.order
  agreeOn : ∀ {offset length}, Patch.Spare (h.deferral moved) offset length →
    AgreeOn a b offset length
  written : ∀ p ∈ h.deferral moved,
    (b.full.toList.drop p.position).take p.bytes.length = p.bytes

variable {a b : Image} {h : FileHeader} {moved : List Deferred}

theorem View.numberAt_window {v : View} {start length offset width : Nat}
    (inside : offset + width ≤ length) :
    (v.window start length).numberAt offset width = v.numberAt (start + offset) width := by
  unfold numberAt
  rw [toList_window, List.drop_take, List.take_take, List.drop_drop, Nat.min_eq_left (by omega)]
  rfl

theorem numberAt_sectionRecord {image : Image} (ho : image.order = h.order) {offset width : Nat}
    (inside : offset + width ≤ h.elfClass.sectionHeaderSize) :
    (h.sectionRecord image.full 0).numberAt offset width =
      (image.full.inOrder h.order).numberAt (h.sectionOffset.toNat + offset) width := by
  have hfull : image.full.inOrder h.order = image.full := View.ext_toList rfl rfl ho.symm
  rw [FileHeader.sectionRecord, View.numberAt_window inside, hfull, Nat.zero_mul, Nat.add_zero]

theorem Class.sectionHeaderSize_eq (c : Class) : c.sectionHeaderSize = 16 + 6 * c.wordSize := by
  cases c <;> rfl

namespace Deferred

theorem mem_deferral {p : Patch} :
    p ∈ h.deferral moved ↔ ∃ d ∈ moved, p = d.headerPatch h ∨ p = d.recordPatch h := by
  simp [FileHeader.deferral]

@[simp]
theorem stop_headerPatch (d : Deferred) : (d.headerPatch h).stop = d.position h.elfClass + 2 := by
  simp [headerPatch, Patch.stop, ByteOrder.u16]

@[simp]
theorem stop_recordPatch (d : Deferred) :
    (d.recordPatch h).stop =
      h.sectionOffset.toNat + d.recordPosition h.elfClass + d.recordWidth h.elfClass := by
  simp [recordPatch, Patch.stop]

/-- A range is spared that ends before each field that is written, or starts behind it. -/
theorem spare_deferral {offset length : Nat}
    (header : ∀ d ∈ moved, offset + length ≤ d.position h.elfClass ∨
      d.position h.elfClass + 2 ≤ offset)
    (record : ∀ d ∈ moved,
      offset + length ≤ h.sectionOffset.toNat + d.recordPosition h.elfClass ∨
        h.sectionOffset.toNat + d.recordPosition h.elfClass + d.recordWidth h.elfClass ≤ offset) :
    Patch.Spare (h.deferral moved) offset length := by
  intro p hp k hk
  obtain ⟨d, hd, rfl | rfl⟩ := mem_deferral.1 hp
  · have := header d hd
    rw [Patch.Covers, stop_headerPatch]
    simp only [headerPatch]
    omega
  · have := record d hd
    rw [Patch.Covers, stop_recordPatch]
    simp only [recordPatch]
    omega

theorem position_lt (d : Deferred) (c : Class) : d.position c + 2 ≤ c.headerSize := by
  cases d <;> cases c <;> decide

theorem recordPosition_lt (d : Deferred) (c : Class) :
    d.recordPosition c + d.recordWidth c ≤ c.sectionHeaderSize := by
  cases d <;> cases c <;> decide

theorem number_lt (d : Deferred) (h : FileHeader) (c : Class) :
    (d.number h).toNat < 256 ^ d.recordWidth c := by
  refine Nat.lt_of_lt_of_le (d.number h).toNat_lt ?_
  cases d <;> cases c <;> decide

/-- No two of the numbers share bytes of the file header. -/
theorem position_apart {d d' : Deferred} (hd : d ≠ d') (c : Class) :
    d.position c + 2 ≤ d'.position c ∨ d'.position c + 2 ≤ d.position c := by
  cases d <;> cases d' <;> first | exact absurd rfl hd | (simp only [position]; omega)

/-- Nor do they share bytes of the first section header. -/
theorem recordPosition_apart {d d' : Deferred} (hd : d ≠ d') (c : Class) :
    d.recordPosition c + d.recordWidth c ≤ d'.recordPosition c ∨
      d'.recordPosition c + d'.recordWidth c ≤ d.recordPosition c := by
  cases d <;> cases d' <;>
    first | exact absurd rfl hd | (cases c <;> simp [recordPosition, recordWidth, Class.wordSize])

end Deferred

namespace Deferral

open Deferred

/-- No two of the patches run into each other. -/
theorem eq_or_spare (behind : h.elfClass.headerSize ≤ h.sectionOffset.toNat) {p q : Patch}
    (hp : p ∈ h.deferral moved) (hq : q ∈ h.deferral moved) :
    q = p ∨ Patch.Spare [q] p.position p.bytes.length := by
  have hspare : p.stop ≤ q.position ∨ q.stop ≤ p.position →
      Patch.Spare [q] p.position p.bytes.length := by
    intro hapart r hr k hk
    obtain rfl := List.mem_singleton.1 hr
    simp only [Patch.Covers, Patch.stop] at hapart ⊢
    omega
  obtain ⟨d, -, rfl | rfl⟩ := mem_deferral.1 hp <;> obtain ⟨d', -, rfl | rfl⟩ := mem_deferral.1 hq
  · by_cases hd : d = d'
    · exact .inl (by rw [hd])
    · refine .inr (hspare ?_)
      rw [stop_headerPatch, stop_headerPatch]
      exact position_apart hd _
  · have := d.position_lt h.elfClass
    refine .inr (hspare (.inl ?_))
    rw [stop_headerPatch]
    simp only [recordPatch]
    omega
  · have := d'.position_lt h.elfClass
    refine .inr (hspare (.inr ?_))
    rw [stop_headerPatch]
    simp only [recordPatch]
    omega
  · by_cases hd : d = d'
    · exact .inl (by rw [hd])
    · have := recordPosition_apart hd h.elfClass
      refine .inr (hspare ?_)
      rw [stop_recordPatch, stop_recordPatch]
      simp only [recordPatch]
      omega

/-- Writing the patches moves the numbers, since no patch touches another. -/
theorem of_patched (behind : h.elfClass.headerSize ≤ h.sectionOffset.toNat)
    (fits : h.sectionOffset.toNat + h.elfClass.sectionHeaderSize ≤ a.length)
    (moved : List Deferred) : Deferral a (a.patched (h.deferral moved)) h moved := by
  have hfit : ∀ p ∈ h.deferral moved, p.stop ≤ a.length := by
    intro p hp
    obtain ⟨d, -, rfl | rfl⟩ := mem_deferral.1 hp
    · have := d.position_lt h.elfClass
      rw [stop_headerPatch]
      omega
    · have := d.recordPosition_lt h.elfClass
      rw [stop_recordPatch]
      omega
  exact
    { behind := behind
      length_eq := Image.length_patched _ hfit
      order_eq := congrArg (·.getD .little) (Image.fixedOrder_patched _ a)
      agreeOn := Image.agreeOn_patched hfit
      written := fun p hp => Image.bytes_patched hfit hp fun q hq => eq_or_spare behind hp hq }

variable (H : Deferral a b h moved)
include H

theorem spare_header {offset width : Nat}
    (inside : offset + width ≤ h.elfClass.headerSize)
    (apart : ∀ d ∈ moved, offset + width ≤ d.position h.elfClass ∨
      d.position h.elfClass + 2 ≤ offset) : Patch.Spare (h.deferral moved) offset width := by
  have := H.behind
  exact spare_deferral apart fun d _ => by omega

theorem spare_record {offset width : Nat} (inside : h.sectionOffset.toNat ≤ offset)
    (apart : ∀ d ∈ moved, offset + width ≤ h.sectionOffset.toNat + d.recordPosition h.elfClass ∨
      h.sectionOffset.toNat + d.recordPosition h.elfClass + d.recordWidth h.elfClass ≤ offset) :
    Patch.Spare (h.deferral moved) offset width := by
  have := H.behind
  refine spare_deferral (fun d _ => ?_) apart
  have := d.position_lt h.elfClass
  omega

theorem numberAt_eq {offset width : Nat} (order : ByteOrder)
    (spare : Patch.Spare (h.deferral moved) offset width) :
    (b.full.inOrder order).numberAt offset width =
      (a.full.inOrder order).numberAt offset width := by
  unfold View.numberAt
  rw [View.toList_inOrder, View.toList_inOrder, (H.agreeOn spare).bytes_eq]
  rfl

theorem numberAt_of_mem {p : Patch} (hp : p ∈ h.deferral moved) {width n : Nat}
    (hb : p.bytes = h.order.encode width n) (hn : n < 256 ^ width) :
    (b.full.inOrder h.order).numberAt p.position width = n := by
  have hw := H.written p hp
  rw [hb, ByteOrder.length_encode] at hw
  unfold View.numberAt
  rw [View.toList_inOrder, hw]
  exact h.order.value_encode hn

/-! ## The file header -/

/-- Each number of the file header is replaced by its mark exactly if it has moved. -/
theorem u16At_position (d : Deferred) :
    (b.full.inOrder h.order).u16At (d.position h.elfClass) =
      if d ∈ moved then d.marker
      else (a.full.inOrder h.order).u16At (d.position h.elfClass) := by
  unfold View.u16At
  split
  · next hd =>
    have hn := H.numberAt_of_mem (mem_deferral.2 ⟨d, hd, .inl rfl⟩) rfl d.marker.toNat_lt
    rw [show d.position h.elfClass = (d.headerPatch h).position from rfl, hn, UInt16.ofNat_toNat]
  · next hd =>
    have hlt := d.position_lt h.elfClass
    rw [H.numberAt_eq h.order (H.spare_header hlt fun d' hd' =>
      position_apart (show d ≠ d' from fun he => hd (he ▸ hd')) _)]

theorem parse_ident : Ident.parse b.full = Ident.parse a.full := by
  have hspare : ∀ {offset width}, offset + width ≤ 16 →
      Patch.Spare (h.deferral moved) offset width := by
    intro offset width hle
    refine H.spare_header ?_ fun d _ => ?_
    · cases h.elfClass <;> simp only [Class.headerSize] <;> omega
    · refine .inl (Nat.le_trans hle ?_)
      cases d <;> cases h.elfClass <;> decide
  have hlength : b.full.length = a.full.length := H.length_eq
  have hmagic := (H.agreeOn (hspare (show 0 + 4 ≤ 16 by decide))).bytes_eq
  have hu8 : ∀ offset, offset + 1 ≤ 16 → b.full.u8At offset = a.full.u8At offset := by
    intro offset hle
    rw [← View.u8At_inOrder b.full .little, ← View.u8At_inOrder a.full .little]
    exact congrArg UInt8.ofNat (H.numberAt_eq .little (hspare hle))
  rw [List.drop_zero, List.drop_zero] at hmagic
  rw [Ident.parse_eq, Ident.parse_eq, hlength, hmagic, hu8 4 (by decide), hu8 5 (by decide)]
  unfold Ident.ofView
  rw [hu8 6 (by decide), hu8 7 (by decide), hu8 8 (by decide)]

/-- Field by field, the header is the one before without the numbers that have moved. -/
theorem ofView_header (hv : h = .ofView (a.full.inOrder h.order) h.ident) :
    FileHeader.ofView (b.full.inOrder h.order) h.ident = h.deferring moved := by
  have hn : ∀ {offset width}, offset + width ≤ 32 + 3 * h.ident.elfClass.wordSize ∨
      34 + 3 * h.ident.elfClass.wordSize ≤ offset ∧
        offset + width ≤ 36 + 3 * h.ident.elfClass.wordSize →
      (b.full.inOrder h.order).numberAt offset width =
        (a.full.inOrder h.order).numberAt offset width := by
    intro offset width hle
    refine H.numberAt_eq h.order (H.spare_header ?_ fun d _ => ?_)
    · unfold FileHeader.elfClass
      cases hc : h.ident.elfClass <;> simp only [hc, Class.wordSize, Class.headerSize] at hle ⊢ <;>
        omega
    · unfold FileHeader.elfClass
      cases d <;> simp only [position] <;> omega
  have hc := H.u16At_position .sectionCount
  have hi := H.u16At_position .nameIndex
  have hp := H.u16At_position .programCount
  have key : FileHeader.ofView (b.full.inOrder h.order) h.ident =
      (FileHeader.ofView (a.full.inOrder h.order) h.ident).deferring moved := by
    unfold FileHeader.ofView FileHeader.deferring
    simp only [FileHeader.elfClass, position] at hc hi hp
    simp only [hc, hi, hp, number]
    simp (disch := omega) only [View.u16At, View.u32At, View.wordAt, hn]
  rwa [← hv] at key

/-- The header is decoded with the marks in it. -/
theorem parse_header (ha : FileHeader.parse a.full = .ok h) :
    FileHeader.parse b.full = .ok (h.deferring moved) := by
  rw [FileHeader.parse_eq] at ha ⊢
  rw [H.parse_ident]
  rcases hi : Ident.parse a.full with e | ident
  · rw [hi] at ha
    cases ha
  · rw [hi] at ha
    have hlength : b.full.length = a.full.length := H.length_eq
    simp only [hlength] at ha ⊢
    split at ha
    · cases ha
    · next hl =>
      have hv := Except.ok.inj ha
      obtain rfl : ident = h.ident := congrArg FileHeader.ident hv
      rw [if_neg hl]
      exact congrArg Except.ok (H.ofView_header hv.symm)

/-! ## The section headers -/

/-- Each number is found in the first section header exactly if it has moved there. -/
theorem numberAt_recordPosition (d : Deferred) :
    (b.full.inOrder h.order).numberAt (h.sectionOffset.toNat + d.recordPosition h.elfClass)
        (d.recordWidth h.elfClass) =
      if d ∈ moved then (d.number h).toNat
      else (a.full.inOrder h.order).numberAt
        (h.sectionOffset.toNat + d.recordPosition h.elfClass) (d.recordWidth h.elfClass) := by
  split
  · next hd =>
    exact H.numberAt_of_mem (mem_deferral.2 ⟨d, hd, .inr rfl⟩) rfl (d.number_lt h _)
  · next hd =>
    refine H.numberAt_eq h.order (H.spare_record (Nat.le_add_right _ _) fun d' hd' => ?_)
    have := recordPosition_apart (show d ≠ d' from fun he => hd (he ▸ hd')) h.elfClass
    omega

/-- Field by field, the first record is the one before with the numbers that have moved. -/
theorem sectionHeaderAt_zero (ho : a.order = h.order) :
    (h.deferring moved).sectionHeaderAt b.full 0 =
      (h.sectionHeaderAt a.full 0).keeping h moved := by
  have hsize := h.elfClass.sectionHeaderSize_eq
  have hn : ∀ {offset width}, offset + width ≤ 8 + 3 * h.elfClass.wordSize ∨
      16 + 4 * h.elfClass.wordSize ≤ offset ∧ offset + width ≤ 16 + 6 * h.elfClass.wordSize →
      (h.sectionRecord b.full 0).numberAt offset width =
        (h.sectionRecord a.full 0).numberAt offset width := by
    intro offset width hle
    rw [numberAt_sectionRecord (H.order_eq.trans ho) (by omega),
      numberAt_sectionRecord ho (by omega)]
    refine H.numberAt_eq h.order (H.spare_record (Nat.le_add_right _ _) fun d _ => ?_)
    cases d <;> simp only [recordPosition, recordWidth] <;> omega
  have hd : ∀ d : Deferred, (h.sectionRecord b.full 0).numberAt (d.recordPosition h.elfClass)
        (d.recordWidth h.elfClass) =
      if d ∈ moved then (d.number h).toNat
      else (h.sectionRecord a.full 0).numberAt (d.recordPosition h.elfClass)
        (d.recordWidth h.elfClass) := by
    intro d
    have hlt := d.recordPosition_lt h.elfClass
    rw [numberAt_sectionRecord (H.order_eq.trans ho) hlt, numberAt_sectionRecord ho hlt]
    exact H.numberAt_recordPosition d
  have hcount := hd .sectionCount
  have hindex := hd .nameIndex
  have hprogram := hd .programCount
  simp only [recordPosition, recordWidth, number] at hcount hindex hprogram
  show SectionHeader.ofView (h.sectionRecord b.full 0) h.elfClass =
    (SectionHeader.ofView (h.sectionRecord a.full 0) h.elfClass).keeping h moved
  unfold SectionHeader.ofView SectionHeader.keeping
  simp only [View.u32At, View.wordAt, hcount, hindex, hprogram]
  simp (disch := omega) only [hn]
  simp only [apply_ite, UInt64.ofNat_uInt16ToNat, UInt32.ofNat_uInt16ToNat]

theorem agreeOn_section (hs : h.elfClass.sectionHeaderSize ≤ h.sectionEntrySize.toNat) {i : Nat}
    (hi : i ≠ 0) : AgreeOn a b (h.sectionOffset.toNat + i * h.sectionEntrySize.toNat)
      h.elfClass.sectionHeaderSize := by
  refine H.agreeOn (H.spare_record (Nat.le_add_right _ _) fun d _ => .inr ?_)
  have hlt := d.recordPosition_lt h.elfClass
  have hmul := Nat.le_mul_of_pos_left h.sectionEntrySize.toNat (Nat.pos_of_ne_zero hi)
  omega

end Deferral

end ElfFormat
