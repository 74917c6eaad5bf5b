import ElfFormat.View

/-!
# String tables

A string table is a view that holds texts, each ended by a NUL. A text may be looked up at any
offset, also inside another one. `StringTable.strings` lists the texts that start behind a NUL or
at the front; there is no text behind a NUL that ends the table. `StringTable.holds` compares
the text at an offset with a given one without reading it to its end (`holds_iff`).
-/

namespace ElfFormat

/-- A view that is read as strings with a NUL behind each. -/
structure StringTable where
  view : View
deriving DecidableEq

namespace StringTable

def length (t : StringTable) : Nat :=
  t.view.length

/-- The text from `offset` up to the next NUL or the end of the table. It need not start where a
string does. -/
def string (t : StringTable) (offset : Nat) : Except Error String :=
  t.view.text offset t.view.length

/-- Whether the text at `offset` is `s`. Only as many bytes are read as `s` has, and one more. -/
def holds (t : StringTable) (offset : Nat) (s : String) : Bool :=
  (t.view.text offset (s.utf8ByteSize + 1)).toOption == some s

theorem toOption_eq_some_iff {ε α : Type} {x : Except ε α} {a : α} :
    x.toOption = some a ↔ x = .ok a := by
  cases x <;> simp [Except.toOption]

theorem take_length_succ_eq_iff {α : Type} {l e : List α} :
    l.take (e.length + 1) = e ↔ l = e := by
  constructor
  · intro h
    have := congrArg List.length h
    rw [List.length_take] at this
    rwa [List.take_of_length_le (by omega)] at h
  · rintro rfl
    exact List.take_of_length_le (by omega)

theorem holds_iff {t : StringTable} {offset : Nat} {s : String} :
    t.holds offset s = true ↔ t.string offset = .ok s := by
  have hs : s.utf8ByteSize = (Utf8.encode s).length := by
    rw [Utf8.encode_eq_data, ← String.size_toByteArray]
    rfl
  rw [holds, beq_iff_eq, toOption_eq_some_iff, string, View.text_eq_ok_iff, View.text_eq_ok_iff, hs,
    ← List.take_takeWhile, take_length_succ_eq_iff,
    List.take_of_length_le (i := t.view.length) (by simp)]

/-- The runs of bytes between NULs, each with its position, where `bytes` starts at `start`. -/
def runs (start : Nat) (bytes : List UInt8) : List (Nat × List UInt8) :=
  if bytes = [] then []
  else
    let run := bytes.takeWhile (· ≠ 0)
    (start, run) :: runs (start + run.length + 1) (bytes.drop (run.length + 1))
termination_by bytes.length
decreasing_by
  have : bytes.length ≠ 0 := by simpa
  simp only [List.length_drop]
  omega

/-- Every text of the table with its offset. What is not UTF-8 is shown by replacements. -/
def strings (t : StringTable) : List (Nat × String) :=
  (runs 0 t.view.toList).map fun (offset, run) => (offset, Utf8.decodeLossy run)

end StringTable

end ElfFormat
