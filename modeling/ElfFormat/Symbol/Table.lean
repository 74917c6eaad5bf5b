import ElfFormat.Symbol
import ElfFormat.Table

/-!
# Symbol tables

A symbol table is as many whole records as its view holds. The declared entry size only has to be
zero or large enough for a record; the records follow each other without gaps all the same, and a
rest that is no whole record is left alone.
-/

namespace ElfFormat

/-- The symbols of a section, in their order. -/
structure SymbolTable where
  view : View
  /-- The section that holds the symbols' names. -/
  link : UInt32
  symbols : Array Symbol
deriving DecidableEq

namespace SymbolTable

/-- Decodes a view as symbols of the class, as many as are whole. The declared entry size is no
stride: it is only refused where it is too small. -/
def parse (v : View) (c : Class) (entrySize : UInt64) (link : UInt32) :
    Except Error SymbolTable :=
  if entrySize ≠ 0 ∧ entrySize.toNat < c.symbolSize then
    .error (.invalidEntrySize "symbol" c.symbolSize entrySize.toNat)
  else do
    let symbols ← v.records (v.length / c.symbolSize) c.symbolSize c.symbolSize
      fun _ record => Symbol.parse record c link
    return { view := v, link, symbols := symbols.toArray }

/-- The symbol at an index. -/
def symbol (t : SymbolTable) (index : Nat) : Except Error Symbol :=
  match t.symbols[index]? with
  | some s => .ok s
  | none => .error (.indexOutOfRange "symbol" index t.symbols.size)

end SymbolTable

end ElfFormat
