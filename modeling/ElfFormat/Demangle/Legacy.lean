import ElfFormat.Text.Counted
import ElfFormat.Text.Decimal

/-!
# The older scheme of Rust names

Such a name is `_ZN`, a row of elements and `E`; an element is its length in decimal and that many
characters. Some toolchains leave the first underscore out or put another in front. The last element
is a hash that is not shown. Characters that an assembler would not take are spelled out inside an
element: two dots stand for two colons, and a word between dollar signs for the character that it
names.
-/

namespace ElfFormat

namespace Demangle

namespace Legacy

/-- The elements up to the closing `E`, and the text behind it. -/
def elements? (cs : List Char) : Option (List (List Char) × List Char) :=
  match cs with
  | 'E' :: rest => some ([], rest)
  | cs =>
    match _hr : Decimal.read? cs with
    | none => none
    | some (n, rest) =>
      match _ht : Counted.take? n rest with
      | none => none
      | some (e, rest) => (elements? rest).map fun (es, rest) => (e :: es, rest)
termination_by cs.length
decreasing_by
  have := Decimal.length_of_read? _hr
  have := Counted.length_of_take? _ht
  omega

/-- A hash is an `h` with nothing but hexadecimal digits behind it. -/
def isHash : List Char → Bool
  | 'h' :: digits => digits.all fun c => c.isDigit || ('a' ≤ c && c ≤ 'f') || ('A' ≤ c && c ≤ 'F')
  | _ => false

/-- The path without the hash that ends it, if one does. -/
def withoutHash (es : List (List Char)) : List (List Char) :=
  match es.getLast? with
  | some e => if isHash e then es.dropLast else es
  | none => es

/-- The value of a hexadecimal digit in lower case. -/
def hexValue? (c : Char) : Option Nat :=
  if c.isDigit then some (c.toNat - '0'.toNat)
  else if 'a' ≤ c ∧ c ≤ 'f' then some (c.toNat - 'a'.toNat + 10)
  else none

/-- The character with a number given by its hexadecimal digits, if it is one that can be shown:
a scalar value and no control character. -/
def numbered? (digits : List Char) : Option Char := do
  let n ← Radix.word? 16 (← digits.mapM hexValue?)
  if digits ≠ [] ∧ n.isValidChar ∧ 0x20 ≤ n ∧ ¬(0x7f ≤ n ∧ n ≤ 0x9f) then some (Char.ofNat n)
  else none

/-- The character that a word between dollar signs names. -/
def escaped? : List Char → Option Char
  | ['S', 'P'] => some '@'
  | ['B', 'P'] => some '*'
  | ['R', 'F'] => some '&'
  | ['L', 'T'] => some '<'
  | ['G', 'T'] => some '>'
  | ['L', 'P'] => some '('
  | ['R', 'P'] => some ')'
  | ['C'] => some ','
  | 'u' :: digits => numbered? digits
  | _ => none

/-- Whether a character stands for itself wherever it is in an element. -/
def isPlain (c : Char) : Bool :=
  c != '.' && c != '$'

/-- An element as it is shown, in pieces: a piece is what was spelled out, or a run of plain
characters. A dollar sign that starts no known word ends the decoding, and the rest of the element
is kept as it stands. -/
def unescape (cs : List Char) : List (List Char) :=
  match cs with
  | [] => []
  | '.' :: '.' :: rest => [':', ':'] :: unescape rest
  | '.' :: rest => ['.'] :: unescape rest
  | '$' :: rest =>
    match _ : rest.dropWhile (· ≠ '$') with
    | [] => ['$' :: rest]
    | _ :: after =>
      match escaped? (rest.takeWhile (· ≠ '$')) with
      | some c => [c] :: unescape after
      | none => ['$' :: rest]
  | c :: rest => (c :: rest.takeWhile isPlain) :: unescape (rest.dropWhile isPlain)
termination_by cs.length
decreasing_by
  · simp only [List.length_cons]; omega
  · simp only [List.length_cons]; omega
  · next h =>
    have := (List.dropWhile_suffix (l := rest) (· ≠ '$')).length_le
    rw [h, List.length_cons] at this
    simp only [List.length_cons]; omega
  · have := (List.dropWhile_suffix (l := rest) isPlain).length_le
    simp only [List.length_cons]; omega

/-- An underscore in front of a leading dollar sign is not part of the element. -/
def showElement : List Char → List (List Char)
  | '_' :: '$' :: rest => unescape ('$' :: rest)
  | cs => unescape cs

/-- What follows the mark that opens a name of this scheme. -/
def body? (cs : List Char) : Option (List Char) :=
  match cs with
  | '_' :: 'Z' :: 'N' :: rest => some rest
  | 'Z' :: 'N' :: rest => some rest
  | '_' :: '_' :: 'Z' :: 'N' :: rest => some rest
  | _ => none

/-- The pieces of the name as it is shown, and the text behind its `E`. Only ASCII names are of this
scheme. -/
def read? (cs : List Char) : Option (List (List Char) × List Char) := do
  let body ← body? cs
  if body.any (fun c => 0x80 ≤ c.toNat) then none
  else
    let (es, rest) ← elements? body
    return (List.intercalate [[':', ':']] ((withoutHash es).map showElement), rest)

end Legacy

end Demangle

end ElfFormat
