import ElfFormat.View

/-!
# Tables of records

A table is a view that holds records at equal distances. `View.records` reads them in order.
-/

namespace ElfFormat

/-- The first `count` records of a table, of `size` bytes each, `stride` bytes from one start to the
next. The reader is told the position of the record that it reads. -/
def View.records {α : Type} (table : View) (count stride size : Nat)
    (read : Nat → View → Except Error α) : Except Error (List α) :=
  (List.range count).mapM fun index => do
    let record ← table.subview (index * stride) size
    read index record

end ElfFormat
