import ElfFormat.Text.Radix

/-!
# Decimal numbers in text

`Decimal.read?` takes the digits off the front of a text. There must be one, so what is left is
shorter (`length_of_read?`). A number that does not fit 64 bits is refused.
-/

namespace ElfFormat

namespace Decimal

/-- The value of a decimal digit. -/
def digit (c : Char) : Nat :=
  c.toNat - '0'.toNat

/-- The number that a row of digits stands for, if it fits 64 bits. -/
def word? (digits : List Char) : Option Nat :=
  Radix.word? 10 (digits.map digit)

/-- The number at the front of a text, and the text behind it. -/
def read? (cs : List Char) : Option (Nat × List Char) :=
  match cs.takeWhile Char.isDigit with
  | [] => none
  | digits => (word? digits).map (·, cs.dropWhile Char.isDigit)

theorem length_of_read? {cs rest : List Char} {n : Nat} (h : read? cs = some (n, rest)) :
    rest.length < cs.length := by
  simp only [read?] at h
  split at h
  · cases h
  · next hd =>
    obtain ⟨_, -, h⟩ := Option.map_eq_some_iff.1 h
    cases h
    have hs := congrArg List.length (List.takeWhile_append_dropWhile (p := Char.isDigit) (l := cs))
    rw [List.length_append] at hs
    have : (cs.takeWhile Char.isDigit).length ≠ 0 := by simpa using hd
    omega

end Decimal

end ElfFormat
