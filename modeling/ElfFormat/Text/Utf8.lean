/-!
# Text from bytes

A byte string is cut into chunks from the left. A chunk is either one encoded character or a
run that starts like a character and cannot be finished, as long as possible but at least one
byte. `decode?` accepts the strings all of whose chunks are characters; `decodeLossy` reads every
string, with U+FFFD in place of each other chunk. Both read the same chunks, so they agree
wherever `decode?` answers (`decodeLossy_of_decode?`).
-/

namespace ElfFormat

namespace Utf8

/-- What the first byte of an encoded character announces. The bounds on the byte after it rule
out overlong forms, surrogates and numbers past U+10FFFF. -/
structure Lead where
  /-- The bits of the character's number that the byte itself carries. -/
  bits : Nat
  more : Nat
  /-- The least value of the first continuation byte. -/
  low : UInt8
  /-- The greatest value of the first continuation byte. -/
  high : UInt8
deriving DecidableEq, Repr

/-- No character starts with a continuation byte, with `C0`, `C1` or with a byte above `F4`. -/
def Lead.ofByte? (b : UInt8) : Option Lead :=
  if b < 0x80 then some ⟨b.toNat, 0, 0x80, 0xBF⟩
  else if b < 0xC2 then none
  else if b < 0xE0 then some ⟨b.toNat - 0xC0, 1, 0x80, 0xBF⟩
  else if b < 0xF0 then
    some ⟨b.toNat - 0xE0, 2, if b = 0xE0 then 0xA0 else 0x80, if b = 0xED then 0x9F else 0xBF⟩
  else if b < 0xF5 then
    some ⟨b.toNat - 0xF0, 3, if b = 0xF0 then 0x90 else 0x80, if b = 0xF4 then 0x8F else 0xBF⟩
  else none

/-- Reads `more` continuation bytes onto `bits`, the first of them between `low` and `high`. Stops
before the first byte that does not fit. -/
def continuation (more : Nat) (low high : UInt8) (bits : Nat) (bytes : List UInt8) :
    Option Nat × List UInt8 :=
  match more, bytes with
  | 0, bytes => (some bits, bytes)
  | _ + 1, [] => (none, [])
  | more + 1, b :: rest =>
    if low ≤ b ∧ b ≤ high then
      continuation more 0x80 0xBF (bits * 64 + (b.toNat - 0x80)) rest
    else (none, b :: rest)

/-- The chunk that starts with `b`, and what is left behind it. -/
def chunk (b : UInt8) (rest : List UInt8) : Option Char × List UInt8 :=
  match Lead.ofByte? b with
  | none => (none, rest)
  | some lead =>
    let (number, rest) := continuation lead.more lead.low lead.high lead.bits rest
    (number.map Char.ofNat, rest)

theorem length_continuation_le (more : Nat) (low high : UInt8) (bits : Nat) (bytes : List UInt8) :
    (continuation more low high bits bytes).2.length ≤ bytes.length := by
  induction more generalizing low high bits bytes with
  | zero => simp [continuation]
  | succ more ih =>
    cases bytes with
    | nil => simp [continuation]
    | cons b rest =>
      simp only [continuation]
      split
      · exact Nat.le_succ_of_le (ih _ _ _ _)
      · exact Nat.le_refl _

theorem length_chunk_le (b : UInt8) (rest : List UInt8) :
    (chunk b rest).2.length ≤ rest.length := by
  simp only [chunk]
  split
  · exact Nat.le_refl _
  · exact length_continuation_le _ _ _ _ _

/-- The chunks of a byte string: a character, or `none` for a run that is none. -/
def chunks : List UInt8 → List (Option Char)
  | [] => []
  | b :: rest => (chunk b rest).1 :: chunks (chunk b rest).2
termination_by bytes => bytes.length
decreasing_by exact Nat.lt_succ_of_le (length_chunk_le b rest)

/-- The text that `bytes` encode, if they are valid throughout. -/
def decode? (bytes : List UInt8) : Option String :=
  ((chunks bytes).mapM id).map String.ofList

/-- The text of `bytes` with the replacement character for each run that encodes nothing. -/
def decodeLossy (bytes : List UInt8) : String :=
  String.ofList ((chunks bytes).map (·.getD '\uFFFD'))

/-- A text in bytes. -/
def encode (s : String) : List UInt8 :=
  s.toList.flatMap String.utf8EncodeChar

theorem mapM_id_eq_some_iff {α : Type} :
    ∀ {l : List (Option α)} {xs : List α}, l.mapM id = some xs ↔ l = xs.map some
  | [], xs => by cases xs <;> simp
  | none :: l, xs => by cases xs <;> simp
  | some x :: l, xs => by
    simp only [List.mapM_cons, id, Option.bind_eq_bind, Option.bind_some, Option.bind_eq_some_iff,
      mapM_id_eq_some_iff]
    cases xs <;> simp [and_left_comm]

theorem decode?_eq_some_iff_chunks {bytes : List UInt8} {s : String} :
    decode? bytes = some s ↔ chunks bytes = s.toList.map some := by
  rw [decode?, Option.map_eq_some_iff]
  simp only [mapM_id_eq_some_iff]
  constructor
  · rintro ⟨cs, hcs, rfl⟩
    rw [hcs, String.toList_ofList]
  · exact fun h => ⟨s.toList, h, String.ofList_toList⟩

theorem decodeLossy_of_decode? {bytes : List UInt8} {s : String} (h : decode? bytes = some s) :
    decodeLossy bytes = s := by
  rw [decodeLossy, decode?_eq_some_iff_chunks.1 h, List.map_map]
  exact (congrArg String.ofList (List.map_id _)).trans String.ofList_toList

end Utf8

end ElfFormat
