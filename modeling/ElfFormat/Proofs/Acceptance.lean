import ElfFormat.Proofs.Tables

/-!
# Which images decode

An image whose order is not fixed yet decodes exactly if its header is one and both of its tables
fit, and otherwise the first of ten tests that fails is what is reported
(`parse_decides`). The tests are on numbers of the file as they stand, with exact sums and products:
once the geometry of a table holds, no record of it can fail, and what a section or a segment
carries is not tested at all.
-/

namespace ElfFormat

/-! ## What the bytes of a file declare -/

namespace FileHeader

/-- The header at its places, in the class and the order that bytes 4 and 5 name. -/
def declared (file : View) : FileHeader :=
  let c : Class := if file.u8At 4 = 2 then .elf64 else .elf32
  let d : Encoding := if file.u8At 5 = 2 then .msb else .lsb
  .ofView (file.inOrder d.order) (.ofView file c d)

/-- What must hold for the header to be read. -/
def guards (file : View) : List Guard :=
  [ { holds := 52 ≤ file.length
      failure := .tooSmall 52 file.length },
    { holds := file.toList.take 4 = [0x7f, 0x45, 0x4c, 0x46]
      failure := .invalidMagic },
    { holds := file.u8At 4 = 1 ∨ file.u8At 4 = 2
      failure := .unsupportedClass (file.u8At 4) },
    { holds := file.u8At 5 = 1 ∨ file.u8At 5 = 2
      failure := .unsupportedEncoding (file.u8At 5) },
    { holds := file.u8At 4 = 2 → 64 ≤ file.length
      failure := .tooSmall 64 file.length } ]

/-- The view in the order that its own header names. -/
def declaredFile (file : View) : View :=
  file.inOrder (declared file).order

end FileHeader

theorem Class.ofByte_eq (b : UInt8) :
    Class.ofByte b =
      if b = 1 ∨ b = 2 then .ok (if b = 2 then .elf64 else .elf32)
      else .error (.unsupportedClass b) := by
  rw [ofByte]
  by_cases h1 : b = 1
  · subst h1
    rfl
  · by_cases h2 : b = 2 <;> simp [h1, h2]

theorem Encoding.ofByte_eq (b : UInt8) :
    Encoding.ofByte b =
      if b = 1 ∨ b = 2 then .ok (if b = 2 then .msb else .lsb)
      else .error (.unsupportedEncoding b) := by
  rw [ofByte]
  by_cases h1 : b = 1
  · subst h1
    rfl
  · by_cases h2 : b = 2 <;> simp [h1, h2]

/-- Decoding the header is a row of checks, and then what it declares. -/
theorem FileHeader.parse_eq_protect (file : View) :
    parse file = Guard.protect (guards file) (declared file) := by
  rw [parse_eq, Ident.parse_eq, guards]
  by_cases hl : file.length < Class.elf32.headerSize
  · rw [if_pos hl, Guard.protect_cons_of_not (decide_eq_false (Nat.not_le.2 hl))]
    rfl
  have hl' : 52 ≤ file.length := Nat.not_lt.1 hl
  rw [if_neg hl, Guard.protect_cons_of_holds (decide_eq_true hl')]
  by_cases hm : file.toList.take 4 = Ident.magic
  · rw [if_neg (not_not_intro hm), Guard.protect_cons_of_holds (decide_eq_true hm),
      Class.ofByte_eq, Encoding.ofByte_eq]
    by_cases hc : file.u8At 4 = 1 ∨ file.u8At 4 = 2
    · rw [if_pos hc, Guard.protect_cons_of_holds (decide_eq_true hc)]
      by_cases hd : file.u8At 5 = 1 ∨ file.u8At 5 = 2
      · rw [if_pos hd, Guard.protect_cons_of_holds (decide_eq_true hd), Guard.protect_single]
        by_cases h2 : file.u8At 4 = 2
        · rw [declared, if_pos h2]
          by_cases h64 : file.length < 64
          · have hg : ¬(file.u8At 4 = 2 → 64 ≤ file.length) := fun h => Nat.not_le.2 h64 (h h2)
            rw [if_neg hg]
            exact if_pos h64
          · have hg : file.u8At 4 = 2 → 64 ≤ file.length := fun _ => Nat.not_lt.1 h64
            rw [if_pos hg]
            exact if_neg h64
        · have hg : file.u8At 4 = 2 → 64 ≤ file.length := fun h => absurd h h2
          rw [declared, if_neg h2, if_pos hg]
          exact if_neg hl
      · rw [if_neg hd, Guard.protect_cons_of_not (decide_eq_false hd)]
        rfl
    · rw [if_neg hc, Guard.protect_cons_of_not (decide_eq_false hc)]
      rfl
  · rw [if_pos hm, Guard.protect_cons_of_not (decide_eq_false hm)]

/-! ## The geometry of the tables -/

namespace FileHeader

variable (header : FileHeader) (file : View)

/-- What must hold for both tables to be read. -/
def tableGuards : List Guard :=
  let c := header.elfClass
  let first := header.sectionHeaderAt file 0
  let sectionExtent := header.sectionTotal first * header.sectionEntrySize.toNat
  let programExtent := header.programTotal file * header.programEntrySize.toNat
  let noSections := header.sectionOffset = 0
  let noSegments := header.programOffset = 0 ∨ header.programCount = 0
  [ { holds := noSections ∨ c.sectionHeaderSize ≤ header.sectionEntrySize.toNat
      failure := .invalidEntrySize "section header" c.sectionHeaderSize
        header.sectionEntrySize.toNat },
    { holds := noSections ∨ header.sectionOffset.toNat + c.sectionHeaderSize ≤ file.length
      failure := .outOfBounds header.sectionOffset.toNat c.sectionHeaderSize file.length },
    { holds := noSections ∨ header.sectionOffset.toNat + sectionExtent ≤ file.length
      failure := .outOfBounds header.sectionOffset.toNat (min sectionExtent (2 ^ 64 - 1))
        file.length },
    { holds := noSegments ∨ c.programHeaderSize ≤ header.programEntrySize.toNat
      failure := .invalidEntrySize "program header" c.programHeaderSize
        header.programEntrySize.toNat },
    { holds := noSegments ∨ header.programOffset.toNat + programExtent ≤ file.length
      failure := .outOfBounds header.programOffset.toNat programExtent file.length } ]

end FileHeader

namespace Object

/-- The guards on the first section header are not needed a second time. -/
theorem ofHeader_eq {image : Image} (small : image.length < 2 ^ 64) (header : FileHeader) :
    ofHeader image header =
      Guard.protect (header.tableGuards image.full) (found image header) := by
  have hsplit : header.tableGuards image.full =
      header.sectionGuards image.full ++ (header.tableGuards image.full).drop 3 := rfl
  rw [ofHeader, SectionTable.parse_eq small, SegmentTable.parse_eq, hsplit,
    Guard.protect_append _ _ (header.sectionTable image)]
  rcases hs : Guard.protect (header.sectionGuards image.full) (header.sectionTable image)
    with e | sections
  · rfl
  obtain ⟨hg, rfl⟩ := Guard.protect_eq_ok_iff.1 hs
  show (Guard.protect (header.programGuards image.full) (header.segmentTable image) >>=
    fun segments => Except.ok (Object.mk header (header.sectionTable image) segments)) = _
  rw [Guard.protect_bind, FileHeader.programGuards]
  by_cases hp : header.programOffset = 0 ∨ header.programCount = 0
  · rw [if_pos hp]
    exact (Guard.protect_eq_ok_iff.2 ⟨by simp [FileHeader.tableGuards, hp], rfl⟩).symm
  -- The first section header was tested with the section header table.
  have hmid : ∀ g ∈ if header.programCount = extendedProgramCount then
      header.firstRecordGuards image.full else [], g.holds = true := by
    intro g hm
    split at hm
    · exact hg g (List.mem_append_left _ hm)
    · exact absurd hm List.not_mem_nil
  rw [if_neg hp, List.cons_append, FileHeader.tableGuards, List.drop_succ_cons,
    List.drop_succ_cons, List.drop_succ_cons, List.drop_zero]
  by_cases hs : header.elfClass.programHeaderSize ≤ header.programEntrySize.toNat
  · rw [Guard.protect_cons_of_holds (decide_eq_true hs), Guard.protect_append_of_holds hmid,
      Guard.protect_single, Guard.protect_cons_of_holds (decide_eq_true (Or.inr hs)),
      Guard.protect_single]
    simp only [hp, false_or]
    rfl
  · rw [Guard.protect_cons_of_not (decide_eq_false hs),
      Guard.protect_cons_of_not (decide_eq_false (not_or_intro hp hs))]

/-- The ten tests of decoding, in the order in which they are made. -/
def guards (file : View) : List Guard :=
  FileHeader.guards file ++
    (FileHeader.declared file).tableGuards (FileHeader.declaredFile file)

theorem parse_eq {image : Image} (unfixed : image.fixedOrder = none)
    (small : image.length < 2 ^ 64) :
    let header := FileHeader.declared image.full
    (parse image).1 = Guard.protect (guards image.full)
      (found { image with fixedOrder := some header.order } header) := by
  intro header
  have ha : image.adopt header.order = .ok { image with fixedOrder := some header.order } := by
    rw [Image.adopt, Image.fixOrder, unfixed]
    rfl
  have hp := FileHeader.parse_eq_protect image.full
  rw [guards, Guard.protect_append _ _ header]
  rcases hh : Guard.protect (FileHeader.guards image.full) header with e | h
  · rw [parse, hp, hh]
  obtain ⟨-, rfl⟩ := Guard.protect_eq_ok_iff.1 hh
  rw [parse_of_adopt (hp.trans hh) ha]
  have hs : { image with fixedOrder := some header.order : Image }.length < 2 ^ 64 := small
  exact ofHeader_eq hs header

/-- What an image must satisfy to decode: the identification, and the geometry of each table. -/
structure Decodable (file : View) : Prop where
  identified : 52 ≤ file.length ∧ file.toList.take 4 = [0x7f, 0x45, 0x4c, 0x46] ∧
    (file.u8At 4 = 1 ∨ file.u8At 4 = 2) ∧ (file.u8At 5 = 1 ∨ file.u8At 5 = 2) ∧
    (file.u8At 4 = 2 → 64 ≤ file.length)
  sections :
    let header := FileHeader.declared file
    let first := header.sectionHeaderAt (FileHeader.declaredFile file) 0
    let count := if header.sectionCount = 0 then first.size.toNat else header.sectionCount.toNat
    let size := header.elfClass.sectionHeaderSize
    let stride := header.sectionEntrySize.toNat
    header.sectionOffset = 0 ∨ size ≤ stride ∧ header.sectionOffset.toNat + size ≤ file.length ∧
      header.sectionOffset.toNat + count * stride ≤ file.length
  segments :
    let header := FileHeader.declared file
    let first := header.sectionHeaderAt (FileHeader.declaredFile file) 0
    let count :=
      if header.programCount = 0xffff then
        if header.sectionOffset = 0 then 65535 else first.info.toNat
      else header.programCount.toNat
    let stride := header.programEntrySize.toNat
    header.programOffset = 0 ∨ header.programCount = 0 ∨
      header.elfClass.programHeaderSize ≤ stride ∧
        header.programOffset.toNat + count * stride ≤ file.length

theorem programTotal_eq (header : FileHeader) (file : View) :
    header.programTotal file =
      if header.programCount = 0xffff then
        if header.sectionOffset = 0 then 65535 else (header.sectionHeaderAt file 0).info.toNat
      else header.programCount.toNat := by
  rw [FileHeader.programTotal]
  by_cases hc : header.programCount = extendedProgramCount
  · have hc' : header.programCount = 0xffff := hc
    rw [if_pos hc, if_pos hc', hc']
    rfl
  · exact (if_neg hc).trans (if_neg hc).symm

theorem guards_hold_iff (file : View) :
    (∀ g ∈ guards file, g.holds = true) ↔ Decodable file := by
  simp only [guards, FileHeader.guards, FileHeader.tableGuards, List.forall_mem_append,
    List.forall_mem_cons, decide_eq_true_eq, programTotal_eq]
  constructor
  · rintro ⟨⟨h1, h2, h3, h4, h5, -⟩, h6, h7, h8, h9, h10, -⟩
    refine ⟨⟨h1, h2, h3, h4, h5⟩, ?_, ?_⟩
    · by_cases h0 : (FileHeader.declared file).sectionOffset = 0
      · exact .inl h0
      · exact .inr ⟨h6.resolve_left h0, h7.resolve_left h0, h8.resolve_left h0⟩
    · by_cases h0 : (FileHeader.declared file).programOffset = 0 ∨
          (FileHeader.declared file).programCount = 0
      · exact h0.imp_right .inl
      · exact .inr (.inr ⟨h9.resolve_left h0, h10.resolve_left h0⟩)
  · rintro ⟨⟨h1, h2, h3, h4, h5⟩, hs, hp⟩
    have hp := or_assoc.2 hp
    exact ⟨⟨h1, h2, h3, h4, h5, nofun⟩, hs.imp_right (·.1), hs.imp_right (·.2.1),
      hs.imp_right (·.2.2), hp.imp_right (·.1), hp.imp_right (·.2), nofun⟩

end Object

/-- An image whose order is not fixed decodes exactly if it is `Decodable`, and what is reported
otherwise is the first of the ten tests that fails. -/
theorem parse_decides {image : Image} (unfixed : image.fixedOrder = none)
    (small : image.length < 2 ^ 63) :
    ((∃ o, (Object.parse image).1 = .ok o) ↔ Object.Decodable image.full) ∧
      ∀ e, (Object.parse image).1 = .error e ↔
        Guard.FirstFailure (Object.guards image.full) e := by
  have hp := Object.parse_eq unfixed (Nat.lt_trans small (by decide))
  refine ⟨?_, fun e => ?_⟩
  · rw [← Object.guards_hold_iff]
    constructor
    · rintro ⟨o, ho⟩
      exact (Guard.protect_eq_ok_iff.1 (hp.symm.trans ho)).1
    · exact fun hg => ⟨_, hp.trans (Guard.protect_eq_ok_iff.2 ⟨hg, rfl⟩)⟩
  · rw [hp]
    exact Guard.protect_eq_error_iff

/-- A file of 52 bytes whose first section header starts inside the file header, so that the number
of its sections is the offset of their table. -/
def overlapping : Image where
  bytes := ⟨#[0x7f, 0x45, 0x4c, 0x46, 1, 1, 1, 0, 0, 0, 0, 0, 0, 0, 0, 0, 1, 0, 3, 0, 1, 0, 0, 0, 0,
    0, 0, 0, 0, 0, 0, 0, 12, 0, 0, 0, 0, 0, 0, 0, 52, 0, 0, 0, 0, 0, 40, 0, 0, 0, 0, 0]⟩

theorem parse_decides_overlapping :
    overlapping.fixedOrder = none ∧ overlapping.length < 2 ^ 63 ∧
      (Object.parse overlapping).1 = .error (.outOfBounds 12 480 52) :=
  ⟨rfl, by decide, ((@parse_decides overlapping rfl (by decide)).2 _).2
    ⟨(Object.guards overlapping.full).take 7, _, (Object.guards overlapping.full).drop 8, rfl,
      by decide, by decide, rfl⟩⟩

end ElfFormat
