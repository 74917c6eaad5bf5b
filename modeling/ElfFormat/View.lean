import ElfFormat.ByteOrder
import ElfFormat.Bytes
import ElfFormat.Error
import ElfFormat.Text.Encoding

/-!
# Windows into an image

A view is a range of an image: where it starts, the bytes in it and the order in which its
numbers are read. Everything that looks at bytes goes through `View.subview`, the one place where
a range is checked; a range that ends past the view is refused, whatever lies behind it in the
image. Offsets and lengths are natural numbers, so no sum of them wraps.

`subview_subview` says that a window of a window is a window; `slice_eq`, `number_eq` and `text_eq`
say what is read in terms of the list of bytes in the view.
-/

namespace ElfFormat

/-- A range of an image, with its place there and the order that its numbers are read in. -/
structure View where
  /-- Where the range starts in the image. -/
  offset : Nat
  bytes : Bytes
  order : ByteOrder
deriving DecidableEq

namespace View

/-- The number of bytes in the view. -/
def length (v : View) : Nat :=
  v.bytes.size

/-- The bytes of the view. -/
def toList (v : View) : List UInt8 :=
  v.bytes.toList

/-- The same range with its numbers read in another order. -/
def inOrder (v : View) (order : ByteOrder) : View :=
  { v with order }

/-- The range of `length` bytes at `offset` of `v`. -/
def subview (v : View) (offset length : Nat) : Except Error View :=
  if offset + length ≤ v.length then
    .ok { v with offset := v.offset + offset, bytes := v.bytes.extract offset length }
  else .error (.outOfBounds offset length v.length)

/-- The bytes of a range of the view, or how the range leaves it. -/
def slice (v : View) (offset length : Nat) : Except Error (List UInt8) :=
  (v.subview offset length).map toList

/-- The number that the `width` bytes at `offset` stand for. -/
def number (v : View) (offset width : Nat) : Except Error Nat :=
  (v.slice offset width).map v.order.value

/-- The byte at `offset`. -/
def u8 (v : View) (offset : Nat) : Except Error UInt8 :=
  (v.number offset 1).map UInt8.ofNat

/-- The number in the two bytes from `offset` on. -/
def u16 (v : View) (offset : Nat) : Except Error UInt16 :=
  (v.number offset 2).map UInt16.ofNat

def u32 (v : View) (offset : Nat) : Except Error UInt32 :=
  (v.number offset 4).map UInt32.ofNat

def u64 (v : View) (offset : Nat) : Except Error UInt64 :=
  (v.number offset 8).map UInt64.ofNat

/-- The text at `offset`, of no more than `limit` bytes and none past the view. There must be a byte
at `offset`, if only the NUL. -/
def text (v : View) (offset limit : Nat) : Except Error String :=
  if v.length ≤ offset then .error (.outOfBounds offset 1 v.length)
  else
    match String.fromUTF8? ((v.bytes.extract offset limit).before 0).toArray with
    | some s => .ok s
    | none => .error (.invalidString (v.offset + offset))

/-- Such as `offset: 4, len: 4`, in the braces of a record. -/
def summary (v : View) : String :=
  s!"ByteView \x7b offset: {v.offset}, len: {v.length} \x7d"

@[simp]
theorem length_toList (v : View) : v.toList.length = v.length := by
  simp [toList, length]

@[simp]
theorem toList_inOrder (v : View) (order : ByteOrder) : (v.inOrder order).toList = v.toList :=
  rfl

@[simp]
theorem length_inOrder (v : View) (order : ByteOrder) : (v.inOrder order).length = v.length :=
  rfl

/-- Views of the same place and order are told apart by their bytes alone. -/
@[ext]
theorem ext_toList {v w : View} (ho : v.offset = w.offset) (hb : v.toList = w.toList)
    (hr : v.order = w.order) : v = w := by
  obtain ⟨vo, vb, vr⟩ := v
  obtain ⟨wo, wb, wr⟩ := w
  obtain rfl : vo = wo := ho
  obtain rfl : vr = wr := hr
  obtain rfl : vb = wb := Bytes.ext hb
  rfl

theorem subview_eq_ok_iff {v w : View} {offset length : Nat} :
    v.subview offset length = .ok w ↔
      offset + length ≤ v.length ∧ w.offset = v.offset + offset ∧
        w.toList = (v.toList.drop offset).take length ∧ w.order = v.order := by
  have hl := v.bytes.toList_extract offset length
  simp only [subview]
  split
  · next h =>
    constructor
    · rintro ⟨⟩
      exact ⟨h, rfl, hl, rfl⟩
    · rintro ⟨-, ho, hb, hr⟩
      exact congrArg Except.ok (ext_toList ho.symm (hl.trans hb.symm) hr.symm)
  · next h => simp [h]

theorem subview_eq_error_iff {v : View} {offset length : Nat} {e : Error} :
    v.subview offset length = .error e ↔
      v.length < offset + length ∧ e = .outOfBounds offset length v.length := by
  simp only [subview]
  split
  · next h => simp [Nat.not_lt.2 h]
  · next h => simp [Nat.not_le.1 h, eq_comm]

theorem length_of_subview {v w : View} {offset length : Nat}
    (h : v.subview offset length = .ok w) : w.length = length := by
  obtain ⟨hle, -, hb, -⟩ := subview_eq_ok_iff.1 h
  rw [← length_toList, hb, List.length_take, List.length_drop, length_toList]
  omega

/-- A window of a window is a window of the whole, at the sum of the offsets. -/
theorem subview_subview {v w : View} {o l : Nat} (h : v.subview o l = .ok w) {p m : Nat}
    (hm : p + m ≤ l) : w.subview p m = v.subview (o + p) m := by
  obtain ⟨hle, ho, hb, hr⟩ := subview_eq_ok_iff.1 h
  have hw := length_of_subview h
  obtain ⟨u, hu⟩ : ∃ u, w.subview p m = .ok u := ⟨_, if_pos (by omega)⟩
  rw [hu, eq_comm]
  obtain ⟨-, huo, hub, hur⟩ := subview_eq_ok_iff.1 hu
  refine subview_eq_ok_iff.2 ⟨by omega, by omega, ?_, by rw [hur, hr]⟩
  rw [hub, hb, List.drop_take, List.take_take, List.drop_drop]
  congr 1
  omega

theorem slice_eq (v : View) (offset length : Nat) :
    v.slice offset length =
      if offset + length ≤ v.length then .ok ((v.toList.drop offset).take length)
      else .error (.outOfBounds offset length v.length) := by
  split
  · next h =>
    have hs : v.subview offset length = .ok _ := if_pos h
    rw [slice, hs, Except.map, (subview_eq_ok_iff.1 hs).2.2.1]
  · next h => rw [slice, subview, if_neg h, Except.map]

theorem number_eq (v : View) (offset width : Nat) :
    v.number offset width =
      if offset + width ≤ v.length then .ok (v.order.value ((v.toList.drop offset).take width))
      else .error (.outOfBounds offset width v.length) := by
  rw [number, slice_eq]
  split <;> rfl

theorem text_eq (v : View) (offset limit : Nat) :
    v.text offset limit =
      if v.length ≤ offset then .error (.outOfBounds offset 1 v.length)
      else
        match Utf8.decode? (((v.toList.drop offset).take limit).takeWhile (· ≠ 0)) with
        | some s => .ok s
        | none => .error (.invalidString (v.offset + offset)) := by
  rw [text, Utf8.fromUTF8?_eq, Bytes.data_toArray, Bytes.toList_before, Bytes.toList_extract]
  rfl

theorem text_eq_ok_iff {v : View} {offset limit : Nat} {s : String} :
    v.text offset limit = .ok s ↔
      offset < v.length ∧
        ((v.toList.drop offset).take limit).takeWhile (· ≠ 0) = Utf8.encode s := by
  rw [text_eq]
  split
  · next h => simp [Nat.not_lt.2 h]
  · next h =>
    rw [eq_comm (b := Utf8.encode s), ← Utf8.decode?_eq_some_iff]
    cases Utf8.decode? _ <;> simp [Nat.not_le.1 h]

end View

end ElfFormat
