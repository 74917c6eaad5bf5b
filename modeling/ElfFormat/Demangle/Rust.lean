import ElfFormat.Demangle.Legacy
import ElfFormat.Demangle.V0

/-!
# Rust names

A name of either scheme may carry two kinds of additions. The last mark that an optimiser leaves,
`.llvm.` with a hash, is dropped before anything else; other words, each with a dot in front, are
kept behind the name as it is shown.

What is shown of a name is bounded (`length_bounded`), however long the name is.
-/

namespace ElfFormat

namespace Demangle

namespace Rust

/-- What stands before and behind the first occurrence of `mark`. -/
def splitAt? (mark : List Char) : List Char → Option (List Char × List Char)
  | [] => none
  | c :: cs =>
    if mark.isPrefixOf (c :: cs) then some ([], (c :: cs).drop mark.length)
    else (splitAt? mark cs).map fun (before, behind) => (c :: before, behind)

/-- Drops the mark of an optimiser, if all that is behind it can be a hash. -/
def withoutOptimiserMark (cs : List Char) : List Char :=
  match splitAt? ".llvm.".toList cs with
  | some (before, hash) =>
    if hash.all fun c => c.isDigit || ('A' ≤ c && c ≤ 'F') || c == '@' then before else cs
  | none => cs

/-- Whether a text may stand behind a name: nothing, or a dot and then printable ASCII without
blanks. -/
def isAddition : List Char → Bool
  | [] => true
  | '.' :: rest => rest.all fun c => '!' ≤ c && c ≤ '~'
  | _ => false

/-- The number of bytes that a text takes. -/
def byteLength : List Char → Nat
  | [] => 0
  | c :: cs => c.utf8Size + byteLength cs

theorem byteLength_append : ∀ cs ds : List Char,
    byteLength (cs ++ ds) = byteLength cs + byteLength ds
  | [], _ => (Nat.zero_add _).symm
  | c :: cs, ds => by
    rw [List.cons_append, byteLength, byteLength, byteLength_append cs ds, Nat.add_assoc]

/-- How many bytes of a name are shown. -/
def maxShown : Nat := 1000000

/-- The pieces that fit into `room` bytes one behind the other. A note stands for the first piece
that does not fit and for all behind it. -/
def bounded (room : Nat) : List (List Char) → List Char
  | [] => []
  | piece :: pieces =>
    if byteLength piece ≤ room then piece ++ bounded (room - byteLength piece) pieces
    else "\x7bsize limit reached\x7d".toList

theorem length_bounded :
    ∀ (room : Nat) (pieces : List (List Char)), byteLength (bounded room pieces) ≤ room + 20
  | _, [] => Nat.zero_le _
  | room, piece :: pieces => by
    unfold bounded
    split
    · next h =>
      have ih := length_bounded (room - byteLength piece) pieces
      rw [byteLength_append]
      omega
    · exact Nat.le_trans (by decide) (Nat.le_add_left 20 room)

/-- The name as it is shown, if it is of one of the two schemes. -/
def demangle? (name : String) : Option String := do
  let cs := withoutOptimiserMark name.toList
  let (pieces, rest) ← (Legacy.read? cs).or (V0.read? cs)
  if isAddition rest then return String.ofList (bounded maxShown pieces ++ rest) else none

end Rust

end Demangle

end ElfFormat
