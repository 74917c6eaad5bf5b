import ElfFormat.Text.Utf8

/-!
# Bytes that encode a text

Reading is the inverse of encoding: bytes are read as a text exactly if they are its encoding
(`decode?_eq_some_iff`), and a valid array is read here as it is read everywhere
(`fromUTF8?_eq`). For a single character that is `chunk_eq_some_iff`. Its two directions go through
the same four cases, by the number of bytes, and in each of them the bytes and the character's
number determine one another.
-/

namespace ElfFormat

namespace Utf8

theorem continuation_zero_eq_some_iff {low high : UInt8} {bits n : Nat} {bytes rest : List UInt8} :
    continuation 0 low high bits bytes = (some n, rest) ↔ bits = n ∧ bytes = rest := by
  simp [continuation]

theorem continuation_succ_eq_some_iff {more : Nat} {low high : UInt8} {bits n : Nat}
    {bytes rest : List UInt8} :
    continuation (more + 1) low high bits bytes = (some n, rest) ↔
      ∃ b tail, bytes = b :: tail ∧ (low.toNat ≤ b.toNat ∧ b.toNat ≤ high.toNat) ∧
        continuation more 0x80 0xBF (bits * 64 + (b.toNat - 0x80)) tail = (some n, rest) := by
  cases bytes with
  | nil => simp [continuation]
  | cons b tail =>
    simp only [continuation, UInt8.le_iff_toNat_le]
    constructor
    · split
      · next h => exact fun hc => ⟨b, tail, rfl, h, hc⟩
      · simp
    · rintro ⟨b', tail', ⟨⟩, h, hc⟩
      rw [if_pos h, hc]

/-- The table of lead bytes with its bounds as natural numbers. -/
theorem Lead.ofByte?_eq (b : UInt8) :
    Lead.ofByte? b =
      if b.toNat < 128 then some ⟨b.toNat, 0, 0x80, 0xBF⟩
      else if b.toNat < 194 then none
      else if b.toNat < 224 then some ⟨b.toNat - 192, 1, 0x80, 0xBF⟩
      else if b.toNat < 240 then
        some ⟨b.toNat - 224, 2, if b.toNat = 224 then 0xA0 else 0x80,
          if b.toNat = 237 then 0x9F else 0xBF⟩
      else if b.toNat < 245 then
        some ⟨b.toNat - 240, 3, if b.toNat = 240 then 0x90 else 0x80,
          if b.toNat = 244 then 0x8F else 0xBF⟩
      else none := by
  simp only [Lead.ofByte?, UInt8.lt_iff_toNat_lt, ← UInt8.toNat_inj, UInt8.reduceToNat]

theorem chunk_eq_some_iff_lead {b : UInt8} {rest rest' : List UInt8} {c : Char} :
    chunk b rest = (some c, rest') ↔
      ∃ lead n, Lead.ofByte? b = some lead ∧
        continuation lead.more lead.low lead.high lead.bits rest = (some n, rest') ∧
        Char.ofNat n = c := by
  simp only [chunk]
  cases Lead.ofByte? b with
  | none => simp
  | some lead =>
    simp only [Prod.ext_iff, Option.map_eq_some_iff, Option.some.injEq, exists_and_left,
      exists_eq_left']
    constructor
    · rintro ⟨⟨n, hn, hc⟩, hr⟩
      exact ⟨n, ⟨hn, hr⟩, hc⟩
    · rintro ⟨n, ⟨hn, hr⟩, hc⟩
      exact ⟨⟨n, hn, hc⟩, hr⟩

theorem toNat_ofNat {n : Nat} (h : n < 0xD800 ∨ 0xDFFF < n ∧ n < 0x110000) :
    (Char.ofNat n).val.toNat = n := by
  have h : n.isValidChar := h
  rw [Char.ofNat, dif_pos h]
  rfl

theorem ofNat_eq_iff {n : Nat} {b : UInt8} : UInt8.ofNat n = b ↔ n % 256 = b.toNat := by
  rw [← UInt8.toNat_inj, UInt8.toNat_ofNat']

theorem encode_of_chunk {b : UInt8} {rest rest' : List UInt8} {c : Char}
    (h : chunk b rest = (some c, rest')) : String.utf8EncodeChar c ++ rest' = b :: rest := by
  have hb := b.toNat_lt
  obtain ⟨lead, n, hl, hc, rfl⟩ := chunk_eq_some_iff_lead.1 h
  rw [Lead.ofByte?_eq] at hl
  split at hl
  · obtain rfl := Option.some.inj hl
    obtain ⟨rfl, rfl⟩ := continuation_zero_eq_some_iff.1 hc
    simp only [String.utf8EncodeChar, toNat_ofNat (n := b.toNat) (by omega)]
    rw [if_pos (by omega)]
    simp
  split at hl
  · exact nomatch hl
  split at hl
  · obtain rfl := Option.some.inj hl
    simp only [continuation_succ_eq_some_iff, continuation_zero_eq_some_iff,
      UInt8.reduceToNat] at hc
    obtain ⟨x, t, rfl, hx, hn, rfl⟩ := hc
    simp only [String.utf8EncodeChar, toNat_ofNat (n := n) (by omega)]
    rw [if_neg (by omega), if_pos (by omega)]
    simp only [List.cons_append, List.nil_append, List.cons.injEq, ofNat_eq_iff, and_true]
    omega
  split at hl
  · obtain rfl := Option.some.inj hl
    simp only [continuation_succ_eq_some_iff, continuation_zero_eq_some_iff,
      UInt8.reduceToNat] at hc
    obtain ⟨x, t, rfl, ⟨hlo, hhi⟩, y, t', rfl, hy, hn, rfl⟩ := hc
    have hx : 128 ≤ x.toNat ∧ x.toNat ≤ 191 ∧ (b.toNat = 224 → 160 ≤ x.toNat) ∧
        (b.toNat = 237 → x.toNat ≤ 159) := by
      split at hlo <;> split at hhi <;> simp at hlo hhi <;> omega
    simp only [String.utf8EncodeChar, toNat_ofNat (n := n) (by omega)]
    rw [if_neg (by omega), if_neg (by omega), if_pos (by omega)]
    simp only [List.cons_append, List.nil_append, List.cons.injEq, ofNat_eq_iff, and_true]
    omega
  split at hl
  · obtain rfl := Option.some.inj hl
    simp only [continuation_succ_eq_some_iff, continuation_zero_eq_some_iff,
      UInt8.reduceToNat] at hc
    obtain ⟨x, t, rfl, ⟨hlo, hhi⟩, y, t', rfl, hy, z, t'', rfl, hz, hn, rfl⟩ := hc
    have hx : 128 ≤ x.toNat ∧ x.toNat ≤ 191 ∧ (b.toNat = 240 → 144 ≤ x.toNat) ∧
        (b.toNat = 244 → x.toNat ≤ 143) := by
      split at hlo <;> split at hhi <;> simp at hlo hhi <;> omega
    simp only [String.utf8EncodeChar, toNat_ofNat (n := n) (by omega)]
    rw [if_neg (by omega), if_neg (by omega), if_neg (by omega)]
    simp only [List.cons_append, List.nil_append, List.cons.injEq, ofNat_eq_iff, and_true]
    omega
  · exact nomatch hl

theorem chunk_of_encode {b : UInt8} {rest rest' : List UInt8} {c : Char}
    (h : String.utf8EncodeChar c ++ rest' = b :: rest) : chunk b rest = (some c, rest') := by
  have hv : c.val.toNat < 0xD800 ∨ 0xDFFF < c.val.toNat ∧ c.val.toNat < 0x110000 := c.valid
  have hn : Char.ofNat c.val.toNat = c := Char.ofNat_toNat c
  rw [chunk_eq_some_iff_lead, Lead.ofByte?_eq]
  simp only [String.utf8EncodeChar] at h
  generalize c.val.toNat = n at hv hn h
  split at h
  · obtain ⟨hb, rfl⟩ := List.cons.inj h
    rw [ofNat_eq_iff] at hb
    refine ⟨_, n, if_pos (by omega), ?_, hn⟩
    rw [continuation_zero_eq_some_iff]
    exact ⟨show b.toNat = n by omega, rfl⟩
  split at h
  · simp only [List.cons_append, List.nil_append, List.cons.injEq, ofNat_eq_iff] at h
    obtain ⟨hb, rfl⟩ := h
    rw [if_neg (by omega), if_neg (by omega), if_pos (by omega)]
    refine ⟨_, n, rfl, ?_, hn⟩
    simp only [continuation_succ_eq_some_iff, continuation_zero_eq_some_iff]
    refine ⟨_, _, rfl, ?_, ?_, rfl⟩ <;> simp <;> omega
  split at h
  · simp only [List.cons_append, List.nil_append, List.cons.injEq, ofNat_eq_iff] at h
    obtain ⟨hb, rfl⟩ := h
    rw [if_neg (by omega), if_neg (by omega), if_neg (by omega), if_pos (by omega)]
    refine ⟨_, n, rfl, ?_, hn⟩
    simp only [continuation_succ_eq_some_iff, continuation_zero_eq_some_iff]
    refine ⟨_, _, rfl, ?_, _, _, rfl, ?_, ?_, rfl⟩
    · constructor <;> split <;> simp <;> omega
    all_goals (simp; omega)
  · simp only [List.cons_append, List.nil_append, List.cons.injEq, ofNat_eq_iff] at h
    obtain ⟨hb, rfl⟩ := h
    rw [if_neg (by omega), if_neg (by omega), if_neg (by omega), if_neg (by omega),
      if_pos (by omega)]
    refine ⟨_, n, rfl, ?_, hn⟩
    simp only [continuation_succ_eq_some_iff, continuation_zero_eq_some_iff]
    refine ⟨_, _, rfl, ?_, _, _, rfl, ?_, _, _, rfl, ?_, ?_, rfl⟩
    · constructor <;> split <;> simp <;> omega
    all_goals (simp; omega)

/-- The chunk in front is a character exactly if its encoding is in front. -/
theorem chunk_eq_some_iff {b : UInt8} {rest rest' : List UInt8} {c : Char} :
    chunk b rest = (some c, rest') ↔ String.utf8EncodeChar c ++ rest' = b :: rest :=
  ⟨encode_of_chunk, chunk_of_encode⟩

theorem chunks_flatMap_encode : ∀ cs : List Char,
    chunks (cs.flatMap String.utf8EncodeChar) = cs.map some
  | [] => by simp [chunks]
  | c :: cs => by
    rw [List.flatMap_cons]
    cases h : String.utf8EncodeChar c ++ cs.flatMap String.utf8EncodeChar with
    | nil => simp at h
    | cons b rest =>
      rw [chunks, chunk_eq_some_iff.2 h, chunks_flatMap_encode cs, List.map_cons]

theorem eq_flatMap_of_chunks (bytes : List UInt8) :
    ∀ {cs : List Char}, chunks bytes = cs.map some → bytes = cs.flatMap String.utf8EncodeChar := by
  fun_induction chunks bytes with
  | case1 =>
    intro cs h
    obtain rfl : cs = [] := by simpa using h.symm
    rfl
  | case2 b rest ih =>
    intro cs h
    cases cs with
    | nil => simp at h
    | cons c cs =>
      simp only [List.map_cons, List.cons.injEq] at h
      rw [List.flatMap_cons, ← ih h.2]
      exact (chunk_eq_some_iff.1 (Prod.ext h.1 rfl)).symm

/-- Bytes are read as a text exactly if they encode it. -/
theorem decode?_eq_some_iff {bytes : List UInt8} {s : String} :
    decode? bytes = some s ↔ encode s = bytes := by
  rw [decode?_eq_some_iff_chunks]
  constructor
  · exact fun h => (eq_flatMap_of_chunks bytes h).symm
  · rintro rfl
    exact chunks_flatMap_encode _

theorem decode?_encode (s : String) : decode? (encode s) = some s :=
  decode?_eq_some_iff.2 rfl

theorem encode_injective {s t : String} (h : encode s = encode t) : s = t := by
  have hd := decode?_encode s
  rw [h, decode?_encode] at hd
  exact (Option.some.inj hd).symm

theorem encode_eq_data (s : String) : encode s = s.toByteArray.data.toList := by
  rw [encode]
  conv => rhs; rw [← String.ofList_toList (s := s), String.toByteArray_ofList]
  rw [List.utf8Encode, List.data_toByteArray]

/-- The reader of valid arrays, in terms of their bytes. -/
theorem fromUTF8?_eq (bytes : ByteArray) : String.fromUTF8? bytes = decode? bytes.data.toList := by
  have hd : ∀ s : String, encode s = bytes.data.toList ↔ s.toByteArray = bytes := by
    intro s
    rw [encode_eq_data, Array.toList_inj]
    exact ⟨ByteArray.ext, congrArg _⟩
  rw [String.fromUTF8?]
  split
  · next h => exact (decode?_eq_some_iff.2 ((hd _).2 rfl)).symm
  · next h =>
    refine (Option.eq_none_iff_forall_ne_some.2 fun s hs => h ?_).symm
    rw [← (hd s).1 (decode?_eq_some_iff.1 hs)]
    exact s.isValidUTF8

end Utf8

end ElfFormat
