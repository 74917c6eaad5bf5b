import ElfFormat.View

/-!
# Images

An image is the bytes of one file and the byte order they are read in. The order is little-endian
until it is fixed, and it is fixed at most once: `Image.fixOrder` refuses a second time even for
the order that already holds, while `Image.adopt`, which a file header uses, accepts that one.
-/

namespace ElfFormat

/-- The bytes of a file and the order in which its numbers are read. -/
structure Image where
  bytes : ByteArray
  /-- The byte order, once it is fixed. -/
  fixedOrder : Option ByteOrder := none

instance : DecidableEq Image := fun a b =>
  decidable_of_iff (a.bytes.data = b.bytes.data ∧ a.fixedOrder = b.fixedOrder)
    (by cases a; cases b; simp [ByteArray.ext_iff])

namespace Image

/-- The size of the file. -/
def length (image : Image) : Nat :=
  image.bytes.size

/-- The order that views of the image read in; least significant first until another is fixed. -/
def order (image : Image) : ByteOrder :=
  image.fixedOrder.getD .little

/-- Whether the order is fixed, and cannot be fixed again. -/
def isOrderFixed (image : Image) : Bool :=
  image.fixedOrder.isSome

/-- Fixes the byte order, if nothing has fixed it yet. -/
def fixOrder (image : Image) (order : ByteOrder) : Except Error Image :=
  match image.fixedOrder with
  | none => .ok { image with fixedOrder := some order }
  | some _ => .error .byteOrderFixed

/-- Fixes the byte order, unless it is fixed to the other one. -/
def adopt (image : Image) (order : ByteOrder) : Except Error Image :=
  if image.fixedOrder = some order then .ok image else image.fixOrder order

/-- The whole file as a view, in the order of the moment. -/
def full (image : Image) : View where
  offset := 0
  bytes := .ofArray image.bytes
  order := image.order

/-- A range of the file, or how it leaves the file. -/
def view (image : Image) (offset length : Nat) : Except Error View :=
  image.full.subview offset length

/-- Such as `len: 13, order: Little, order_locked: false`, in the braces of a record. -/
def summary (image : Image) : String :=
  let order := image.order.name
  let fixed := image.isOrderFixed
  s!"ByteImage \x7b len: {image.length}, order: {order}, order_locked: {fixed} \x7d"

@[simp]
theorem length_full (image : Image) : image.full.length = image.length :=
  rfl

theorem bytes_of_fixOrder {image image' : Image} {order : ByteOrder}
    (h : image.fixOrder order = .ok image') :
    image.fixedOrder = none ∧ image' = { image with fixedOrder := some order } := by
  simp only [fixOrder] at h
  split at h
  · next hn => cases h; exact ⟨hn, rfl⟩
  · cases h

theorem fixedOrder_of_adopt {image image' : Image} {order : ByteOrder}
    (h : image.adopt order = .ok image') : image' = { image with fixedOrder := some order } := by
  simp only [adopt] at h
  split at h
  · next hs => cases h; rw [← hs]
  · exact (bytes_of_fixOrder h).2

end Image

end ElfFormat
