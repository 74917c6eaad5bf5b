import ElfFormat.Class

/-!
# Consecutive fields

The fields of a record follow each other without gaps, so a record is read by reading its fields
in file order, each from where the last one ended. The first field that does not fit is the one
that the failure names. A record is written by joining the encodings of its fields.

`number_append` is the step that a proof about a whole record repeats: a field behind what was read
so far is read back, and the reader stands behind it.
-/

namespace ElfFormat

/-- Reads fields of a view from a position on and ends at the position behind them. -/
def FieldReader (α : Type) : Type :=
  View → Nat → Except Error (α × Nat)

namespace FieldReader

instance : Monad FieldReader where
  pure a := fun _ position => .ok (a, position)
  bind read next := fun v position =>
    match read v position with
    | .ok (a, position) => next a v position
    | .error e => .error e

variable {α β : Type}

@[simp]
theorem pure_apply (a : α) (v : View) (position : Nat) :
    (pure a : FieldReader α) v position = .ok (a, position) :=
  rfl

@[simp]
theorem bind_apply (read : FieldReader α) (next : α → FieldReader β) (v : View) (position : Nat) :
    (read >>= next) v position =
      match read v position with
      | .ok (a, position) => next a v position
      | .error e => .error e :=
  rfl

/-- The next number of `width` bytes. -/
def number (width : Nat) : FieldReader Nat := fun v position =>
  (v.number position width).map (·, position + width)

/-- A field of one byte. -/
def u8 : FieldReader UInt8 := do return UInt8.ofNat (← number 1)

def u16 : FieldReader UInt16 := do return UInt16.ofNat (← number 2)

def u32 : FieldReader UInt32 := do return UInt32.ofNat (← number 4)

/-- A word of the class, widened to 64 bits. -/
def word (c : Class) : FieldReader UInt64 := do return UInt64.ofNat (← number c.wordSize)

/-- Reads from a position of a view and forgets where it ended. -/
def run (read : FieldReader α) (v : View) (position : Nat) : Except Error α :=
  (read v position).map (·.1)

end FieldReader

namespace ByteOrder

/-- One byte, which has no order. -/
def u8 (_ : ByteOrder) (x : UInt8) : List UInt8 := [x]

def u16 (order : ByteOrder) (x : UInt16) : List UInt8 := order.encode 2 x.toNat

def u32 (order : ByteOrder) (x : UInt32) : List UInt8 := order.encode 4 x.toNat

/-- A word of the class; a number that is too large loses its upper half. -/
def word (order : ByteOrder) (c : Class) (x : UInt64) : List UInt8 :=
  order.encode c.wordSize x.toNat

end ByteOrder

/-- The number can be written as a word of the class. -/
def Class.Fits (c : Class) (x : UInt64) : Prop :=
  x.toNat < 256 ^ c.wordSize

instance (c : Class) (x : UInt64) : Decidable (c.Fits x) :=
  inferInstanceAs (Decidable (x.toNat < _))

namespace FieldReader

/-- A field behind `front` is read back, and the reader stands behind the field. -/
theorem number_append {v : View} {front field rest : List UInt8}
    (h : v.toList = front ++ (field ++ rest)) :
    number field.length v front.length =
      .ok (v.order.value field, front.length + field.length) := by
  have hl := congrArg List.length h
  simp only [View.length_toList, List.length_append] at hl
  rw [number, View.number_eq, if_pos (by omega), h, List.drop_left, List.take_left]
  rfl

/-- A record is read by reading its first field and then the rest from behind it. -/
theorem run_next {α γ : Type} (width : Nat) (make : Nat → γ) (rest : γ → FieldReader α) (v : View)
    (position : Nat) :
    ((do return make (← number width)) >>= rest : FieldReader α).run v position =
      (v.number position width).map make >>= fun a => (rest a).run v (position + width) := by
  simp only [run, bind_apply, number]
  cases v.number position width <;> rfl

end FieldReader

end ElfFormat
