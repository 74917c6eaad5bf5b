import ElfFormat.Text.Counted
import ElfFormat.Text.Decimal

/-!
# The newer scheme of Rust names

Such a name is `_R` and a path: a crate root, or an item in a parent path. Each has an identifier,
with its length in front. A disambiguator, which tells equal identifiers apart, is not shown. Only
plain paths are read here; generic arguments, impls and closures are not.
-/

namespace ElfFormat

namespace Demangle

namespace V0

/-- How deep paths and types may nest before a name is given up. -/
def maxDepth : Nat := 500

/-- The value of a digit to base 62: digits, then small letters, then capitals. -/
def digit62? (c : Char) : Option Nat :=
  if c.isDigit then some (c.toNat - '0'.toNat)
  else if c.isLower then some (c.toNat - 'a'.toNat + 10)
  else if c.isUpper then some (c.toNat - 'A'.toNat + 36)
  else none

/-- A disambiguator is `s`, digits to base 62 and `_`. The number it stands for is two more than
what its digits say, or one if there are no digits, and fits 64 bits. -/
def skipDisambiguator? : List Char → Option (List Char)
  | 's' :: rest =>
    match rest.dropWhile (· ≠ '_') with
    | [] => none
    | _ :: after => do
      let digits ← (rest.takeWhile (· ≠ '_')).mapM digit62?
      let n ← Radix.word? 62 digits
      if n + 2 < 2 ^ 64 then some after else none
  | cs => some cs

/-- The length in front of an identifier. A leading zero is the whole of it. -/
def length? : List Char → Option (Nat × List Char)
  | '0' :: rest => some (0, rest)
  | cs => Decimal.read? cs

/-- An identifier: its length, an underscore that may be left out, and its characters. -/
def identifier? (cs : List Char) : Option (List Char × List Char) := do
  let (n, rest) ← length? cs
  let rest := match rest with
    | '_' :: rest => rest
    | rest => rest
  Counted.take? n rest

/-- The identifiers of a path, outermost first, and the text behind the path. -/
def path? : Nat → List Char → Option (List (List Char) × List Char)
  | _ + 1, 'C' :: rest => do
    let (name, rest) ← identifier? (← skipDisambiguator? rest)
    return ([name], rest)
  | depth + 1, 'N' :: kind :: rest =>
    if kind.isLower then do
      let (names, rest) ← path? depth rest
      let (name, rest) ← identifier? (← skipDisambiguator? rest)
      return (if name = [] then names else names ++ [name], rest)
    else none
  | _, _ => none

/-- What follows the mark that opens a name of this scheme. -/
def body? (cs : List Char) : Option (List Char) :=
  match cs with
  | '_' :: 'R' :: rest => some rest
  | 'R' :: rest => some rest
  | '_' :: '_' :: 'R' :: rest => some rest
  | _ => none

/-- The pieces of the name as it is shown, and the text behind it. The path may be followed by
another, of the crate that instantiated the item, which is not shown. Only ASCII names are of this
scheme. -/
def read? (cs : List Char) : Option (List (List Char) × List Char) := do
  let body ← body? cs
  if body.any (fun c => 0x80 ≤ c.toNat) then none
  else
    let (names, rest) ← path? maxDepth body
    let shown := names.intersperse [':', ':']
    match rest with
    | c :: _ =>
      if c.isUpper then
        let (_, rest) ← path? maxDepth rest
        return (shown, rest)
      else return (shown, rest)
    | [] => return (shown, [])

end V0

end Demangle

end ElfFormat
