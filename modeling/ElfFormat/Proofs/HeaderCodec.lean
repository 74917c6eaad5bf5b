import ElfFormat.Proofs.Codec
import ElfFormat.Proofs.Window

/-!
# The file header and its bytes

A file header that was written is read back, whatever stands in its padding and behind it, and one
that was read is written again to the bytes that it was read from, except for the padding
(`FileHeader.encode_of_parse`). As for the records of the tables, each field gives the bytes at its
own place and the places join up; here they start behind the identification, which is in bytes and
not in numbers (`Ident.encode_ofView`, `FileHeader.encode_ofView`).

Nothing but the header and the length of the view is looked at (`FileHeader.parse_congr`). The order
that the view is in is not looked at either: the identification is read before any order is known,
and the numbers are read in the order that it names.
-/

namespace ElfFormat

namespace Ident

variable {v w : View} {ident : Ident}

/-- What is known of a view once its identification was read. -/
theorem parse_eq_ok_iff :
    parse v = .ok ident ↔ Class.elf32.headerSize ≤ v.length ∧ v.toList.take 4 = magic ∧
      v.u8At 4 = ident.elfClass.toByte ∧ v.u8At 5 = ident.encoding.toByte ∧
        ident = ofView v ident.elfClass ident.encoding := by
  rw [parse_eq]
  by_cases hl : v.length < Class.elf32.headerSize
  · rw [if_pos hl]
    exact ⟨nofun, fun h => absurd h.1 (Nat.not_le.2 hl)⟩
  by_cases hm : v.toList.take 4 = magic
  · rw [if_neg hl, if_neg (not_not_intro hm)]
    constructor
    · intro h
      obtain ⟨c, hc, h⟩ := bind_eq_ok_iff.1 h
      obtain ⟨d, hd, h⟩ := bind_eq_ok_iff.1 h
      obtain rfl := Except.ok.inj h
      exact ⟨Nat.not_lt.1 hl, hm, Class.ofByte_eq_ok_iff.1 hc, Encoding.ofByte_eq_ok_iff.1 hd, rfl⟩
    · rintro ⟨-, -, hc, hd, he⟩
      rw [hc, hd, Class.ofByte_toByte, Encoding.ofByte_toByte]
      exact congrArg Except.ok he.symm
  · rw [if_neg hl, if_pos hm]
    exact ⟨nofun, fun h => absurd h.2.1 hm⟩

theorem encode_ofView (h : parse v = .ok ident) (padding : List UInt8) :
    ident.encode padding = v.bytesAt 0 9 ++ padding := by
  obtain ⟨hl, hm, h4, h5, he⟩ := parse_eq_ok_iff.1 h
  have hs : Class.elf32.headerSize = 52 := rfl
  have hbyte : ∀ i, i + 1 ≤ 9 → [v.u8At i] = v.bytesAt i 1 := fun i hi =>
    View.u8_u8At (v := v) (by omega)
  have hmarks :
      magic ++ ([v.u8At 4] ++ ([v.u8At 5] ++ ([v.u8At 6] ++ ([v.u8At 7] ++ [v.u8At 8])))) =
        v.bytesAt 0 9 := by
    rw [hbyte 4 (by decide), hbyte 5 (by decide), hbyte 6 (by decide), hbyte 7 (by decide),
      hbyte 8 (by decide), show magic = v.bytesAt 0 4 from hm.symm]
    simp (disch := decide) only [View.bytesAt_append]
  rw [← hmarks, h4, h5, he]
  rfl

/-- The identification depends on its 16 bytes and on the size of the file. -/
theorem parse_congr (hl : v.length = w.length) (h : v.toList.take 16 = w.toList.take 16) :
    parse v = parse w := by
  -- The identification is the same in any order, so the orders may be taken to be the same.
  have hn : ∀ offset, offset + 1 ≤ 16 → (v.inOrder w.order).u8At offset = w.u8At offset :=
    fun offset fits => congrArg UInt8.ofNat (View.numberAt_congr rfl h fits)
  have hm : (v.inOrder w.order).toList.take 4 = w.toList.take 4 :=
    @View.bytesAt_congr _ _ 16 0 4 h (by decide)
  have hv : ∀ c d, ofView (v.inOrder w.order) c d = ofView w c d := by
    intro c d
    unfold ofView
    rw [hn 6 (by decide), hn 7 (by decide), hn 8 (by decide)]
  rw [← parse_inOrder v w.order, parse_eq, parse_eq, View.length_inOrder, hl, hm,
    hn 4 (by decide), hn 5 (by decide)]
  simp only [hv]

end Ident

namespace FileHeader

variable {v w : View} {h : FileHeader} {ident : Ident}

theorem parse_eq_ok_iff :
    parse v = .ok h ↔ Ident.parse v = .ok h.ident ∧ h.elfClass.headerSize ≤ v.length ∧
      h = ofView (v.inOrder h.order) h.ident := by
  rw [parse_eq]
  rcases hi : Ident.parse v with e | ident
  · exact ⟨nofun, nofun⟩
  · show (if v.length < ident.elfClass.headerSize then _ else _) = _ ↔ _
    split
    · next hl =>
      refine ⟨nofun, ?_⟩
      rintro ⟨⟨⟩, hle, -⟩
      exact absurd hle (Nat.not_le.2 hl)
    · next hl =>
      constructor
      · intro he
        obtain rfl := Except.ok.inj he
        exact ⟨rfl, Nat.not_lt.1 hl, rfl⟩
      · rintro ⟨⟨⟩, -, he⟩
        exact congrArg Except.ok he.symm

theorem fits_ofView (v : View) (ident : Ident) : (ofView v ident).Fits where
  entry := v.fits_wordAt _ _
  programOffset := v.fits_wordAt _ _
  sectionOffset := v.fits_wordAt _ _

/-- Behind the identification, the numbers are written to the bytes that they were read from. -/
theorem encode_ofView (ho : v.order = ident.encoding.order)
    (hl : ident.elfClass.headerSize ≤ v.length) (padding : List UInt8) :
    (ofView v ident).encode padding =
      ident.encode padding ++ v.bytesAt 16 (ident.elfClass.headerSize - 16) := by
  have hsize : 40 + 3 * ident.elfClass.wordSize = ident.elfClass.headerSize := by
    cases ident.elfClass <;> rfl
  have horder : (ofView v ident).order = v.order := ho.symm
  have hclass : (ofView v ident).elfClass = ident.elfClass := rfl
  unfold encode
  rw [horder, hclass]
  unfold ofView
  simp only [List.append_assoc]
  simp (disch := omega) only [View.u16_u16At, View.u32_u32At, View.word_wordAt, View.bytesAt_append]
  congr 2
  omega

/-- A decoded header is written back to its own bytes, its padding apart. -/
theorem encode_of_parse (hp : parse v = .ok h) {padding : List UInt8} (hpad : padding.length = 7) :
    (h.encode padding).take 9 = v.bytesAt 0 9 ∧
      (h.encode padding).drop 16 = v.bytesAt 16 (h.elfClass.headerSize - 16) := by
  obtain ⟨hi, hl, hv⟩ := parse_eq_ok_iff.1 hp
  have hident := Ident.encode_ofView hi padding
  have h16 : (h.ident.encode padding).length = 16 := by simp [Ident.encode, Ident.magic, hpad]
  have h9 : (v.bytesAt 0 9).length = 9 := by
    have := congrArg List.length hident
    rw [h16, List.length_append, hpad] at this
    omega
  have hencode : h.encode padding =
      h.ident.encode padding ++ v.bytesAt 16 (h.elfClass.headerSize - 16) := by
    have he := @encode_ofView (v.inOrder h.order) h.ident rfl hl padding
    rwa [← hv] at he
  refine ⟨?_, ?_⟩
  · rw [hencode, hident, List.append_assoc, List.take_left' h9]
  · rw [hencode, List.drop_left' h16]

theorem ofView_congr (ho : v.order = w.order)
    (h : v.toList.take ident.elfClass.headerSize = w.toList.take ident.elfClass.headerSize) :
    ofView v ident = ofView w ident := by
  have hsize : ident.elfClass.headerSize = 40 + 3 * ident.elfClass.wordSize := by
    cases ident.elfClass <;> rfl
  have hn : ∀ offset width, offset + width ≤ ident.elfClass.headerSize →
      v.numberAt offset width = w.numberAt offset width :=
    fun _ _ fits => View.numberAt_congr ho h fits
  unfold ofView
  simp (disch := omega) only [View.u16At, View.u32At, View.wordAt, hn]

/-- The header is decided by as many bytes as its class has, and by the length of the view. -/
theorem parse_congr (hl : v.length = w.length) (h16 : v.toList.take 16 = w.toList.take 16)
    (h : ∀ ident, Ident.parse v = .ok ident →
      v.toList.take ident.elfClass.headerSize = w.toList.take ident.elfClass.headerSize) :
    parse v = parse w := by
  rw [parse_eq, parse_eq, ← Ident.parse_congr hl h16, hl]
  rcases hi : Ident.parse v with e | ident
  · rfl
  · have hv := @ofView_congr (v.inOrder ident.encoding.order) (w.inOrder ident.encoding.order) ident
      rfl (h ident hi)
    simp only [hv]

end FileHeader

theorem View.u8At_of_getElem? {v : View} {i : Nat} {b : UInt8} (h : v.toList[i]? = some b) :
    v.u8At i = b := by
  obtain ⟨hi, hb⟩ := List.getElem?_eq_some_iff.1 h
  have hsplit : v.toList = v.toList.take i ++ b :: v.toList.drop (i + 1) := by
    rw [← hb, ← List.drop_eq_getElem_cons hi, List.take_append_drop]
  have hfront : (v.toList.take i).length = i := by
    rw [List.length_take, Nat.min_eq_left (Nat.le_of_lt hi)]
  have hu := View.u8At_eq hsplit
  rwa [hfront] at hu

/-- The identification fails as itself and succeeds as part of the header; headers are what their
bytes are, up to the padding; and the header is read from the first 64 bytes of the view, or from
52 if byte 4 names the smaller class. Views are in the order that their image has, so all of this
holds whatever that is. -/
theorem header_is_its_bytes :
    (∀ (v : View) (e : Error), Ident.parse v = .error e → FileHeader.parse v = .error e) ∧
    (∀ (v : View) (h : FileHeader), FileHeader.parse v = .ok h → Ident.parse v = .ok h.ident) ∧
    (∀ (h : FileHeader) (padding rest : List UInt8) (v : View), h.Fits → padding.length = 7 →
      v.toList = h.encode padding ++ rest →
        (h.encode padding).length = h.elfClass.headerSize ∧ FileHeader.parse v = .ok h) ∧
    (∀ (v : View) (h : FileHeader), FileHeader.parse v = .ok h →
      h.Fits ∧ h.elfClass.headerSize ≤ v.length ∧
        ∀ padding : List UInt8, padding.length = 7 →
          (h.encode padding).take 9 = v.toList.take 9 ∧
            (h.encode padding).drop 16 = (v.toList.take h.elfClass.headerSize).drop 16) ∧
    ∀ v w : View, v.length = w.length →
      (v.toList.take 64 = w.toList.take 64 ∨
        v.toList[4]? = some 1 ∧ v.toList.take 52 = w.toList.take 52) →
      Ident.parse v = Ident.parse w ∧ FileHeader.parse v = FileHeader.parse w := by
  have hclip : ∀ {v w : View} {n m : Nat}, v.toList.take n = w.toList.take n → m ≤ n →
      v.toList.take m = w.toList.take m := by
    intro v w n m h hle
    exact @View.bytesAt_congr v w n 0 m h (by omega)
  refine ⟨fun v e h => ?_, fun v h hp => (FileHeader.parse_eq_ok_iff.1 hp).1,
    fun h padding rest v fits hpad hv =>
      ⟨h.length_encode hpad, FileHeader.parse_encode fits hpad hv⟩,
    fun v h hp => ?_, fun v w hl h => ?_⟩
  · rw [FileHeader.parse_eq, h]
  · obtain ⟨-, hle, hv⟩ := FileHeader.parse_eq_ok_iff.1 hp
    refine ⟨?_, hle, fun padding hpad => ?_⟩
    · rw [hv]
      exact FileHeader.fits_ofView _ _
    · rw [List.drop_take]
      exact FileHeader.encode_of_parse hp hpad
  · rcases h with h64 | ⟨h4, h52⟩
    · refine ⟨Ident.parse_congr hl (hclip h64 (by decide)),
        FileHeader.parse_congr hl (hclip h64 (by decide)) fun ident _ => hclip h64 ?_⟩
      cases ident.elfClass <;> decide
    · refine ⟨Ident.parse_congr hl (hclip h52 (by decide)),
        FileHeader.parse_congr hl (hclip h52 (by decide)) fun ident hi => ?_⟩
      -- Byte 4 leaves only the class whose header has 52 bytes.
      have hc := (Ident.parse_eq_ok_iff.1 hi).2.2.1
      rw [View.u8At_of_getElem? h4] at hc
      rcases hclass : ident.elfClass with _ | _
      · exact h52
      · rw [hclass] at hc
        exact absurd hc (by decide)

/-- A header with the largest words of its class, most significant byte first. -/
def edgeHeader : FileHeader where
  ident := { elfClass := .elf32, encoding := .msb, version := 1, osAbi := 9, abiVersion := 255 }
  type := 0xff01
  machine := 0x0102
  version := 0x01020304
  entry := 0xffffffff
  programOffset := 0xfffffffe
  sectionOffset := 0x80000000
  flags := 0x05060708
  headerSize := 0x1112
  programEntrySize := 0x2122
  programCount := 0x3132
  sectionEntrySize := 0x4142
  sectionCount := 0x5152
  nameIndex := 0xffff

/-- It is read in its own order from a view in the other one, and byte 52 does not count. -/
theorem header_is_its_bytes_edgeHeader :
    let padding : List UInt8 := [1, 2, 3, 4, 5, 6, 7]
    let v := View.ofList 3 (edgeHeader.encode padding ++ [8]) .little
    let w := View.ofList 0 (edgeHeader.encode padding ++ [9]) .big
    edgeHeader.Fits ∧ FileHeader.parse v = .ok edgeHeader ∧
      FileHeader.parse w = .ok edgeHeader := by
  intro padding v w
  obtain ⟨-, -, hread, -, hlocal⟩ := header_is_its_bytes
  have fits : edgeHeader.Fits := ⟨by decide, by decide, by decide⟩
  obtain ⟨hsize, hv⟩ := hread edgeHeader padding [8] v fits rfl (View.toList_ofList ..)
  replace hsize : (edgeHeader.encode padding).length = 52 := hsize
  have hl : v.length = w.length := by
    rw [View.length_ofList, View.length_ofList, List.length_append, List.length_append, hsize]
    rfl
  have h4 : v.toList[4]? = some 1 := by decide +kernel
  have h52 : v.toList.take 52 = w.toList.take 52 := by
    rw [View.toList_ofList, View.toList_ofList, List.take_left' hsize, List.take_left' hsize]
  exact ⟨fits, hv, (hlocal v w hl (.inr ⟨h4, h52⟩)).2.symm.trans hv⟩

end ElfFormat
