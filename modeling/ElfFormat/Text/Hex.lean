/-!
# Hexadecimal text

Numbers in messages and labels are written in lower-case hexadecimal behind `0x`.
-/

namespace ElfFormat

namespace Hex

/-- The digits of `n`, without leading zeros; zero is `0`. -/
def digits (n : Nat) : List Char :=
  Nat.toDigits 16 n

/-- Such as `0x2a`. -/
def text (n : Nat) : String :=
  "0x" ++ String.ofList (digits n)

/-- Zeros are put in front until there are at least `width` digits. -/
def padded (width n : Nat) : String :=
  "0x" ++ String.ofList (List.replicate (width - (digits n).length) '0' ++ digits n)

end Hex

end ElfFormat
