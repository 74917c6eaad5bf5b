import ElfFormat.Class
import ElfFormat.Proofs.Machine.Word
import ElfFormat.Proofs.Window

/-!
# Windows on a machine

A machine keeps a view as the bounds of a range of the image, and cuts the bytes out anew each time
that it reads. `Window.Reads` says which view a window stands for and that it lies in its image;
every window that is cut from such a window is one again (`subview_exact`), and every read, with any
arguments, is exact.
-/

namespace ElfFormat.Machine

/-- A view as a machine keeps it: the bounds of a range, and the image that it lies in. -/
structure Window where
  image : Image
  offset : UInt64
  length : UInt64

namespace Window

/-- The window on the whole image. -/
def full (image : Image) : Window where
  image := image
  offset := 0
  length := .ofNat image.length

/-- The order in which numbers are read from the window. -/
def order (w : Window) : ByteOrder :=
  w.image.order

/-- The bytes of the window, cut out of the image. -/
def bytes (w : Window) : Compute (List UInt8) := do
  cut w.image.bytes.data.toList w.offset (← add w.offset w.length)

/-- The failure of a range that leaves the window. -/
def outOfBounds (w : Window) (offset length : UInt64) : Error :=
  .outOfBounds offset.toNat length.toNat w.length.toNat

/-- The window on a range. The end of the range is a checked sum, but its place in the image is not:
it is behind a window that is known to lie there. -/
def subview (w : Window) (offset length : UInt64) : Compute Window :=
  match checkedAdd offset length with
  | none => fail (w.outOfBounds offset length)
  | some stop =>
    if w.length < stop then fail (w.outOfBounds offset length)
    else do return { w with offset := ← add w.offset offset, length := length }

/-- The bytes of a range, cut out of those of the window. -/
def slice (w : Window) (offset length : UInt64) : Compute (List UInt8) :=
  match (checkedAdd offset length).filter (· ≤ w.length) with
  | some stop => do cut (← w.bytes) offset stop
  | none => fail (w.outOfBounds offset length)

/-- The bytes of a field, copied to a place of its width. -/
def field (w : Window) (width offset : UInt64) : Compute (List UInt8) := do
  let bytes ← w.slice offset width
  if size bytes = width then return bytes else abort

/-- The byte at `offset`. -/
def u8 (w : Window) (offset : UInt64) : Compute UInt8 := do
  return .ofNat (w.order.value (← w.field 1 offset))

/-- The number of two bytes at `offset`, in an order of the caller's. -/
def u16In (w : Window) (order : ByteOrder) (offset : UInt64) : Compute UInt16 := do
  return .ofNat (order.value (← w.field 2 offset))

def u32In (w : Window) (order : ByteOrder) (offset : UInt64) : Compute UInt32 := do
  return .ofNat (order.value (← w.field 4 offset))

def u64In (w : Window) (order : ByteOrder) (offset : UInt64) : Compute UInt64 := do
  return .ofNat (order.value (← w.field 8 offset))

/-- The number of two bytes at `offset`, in the order of the window. -/
def u16 (w : Window) (offset : UInt64) : Compute UInt16 :=
  w.u16In w.order offset

def u32 (w : Window) (offset : UInt64) : Compute UInt32 :=
  w.u32In w.order offset

def u64 (w : Window) (offset : UInt64) : Compute UInt64 :=
  w.u64In w.order offset

/-- The word of a class, widened to 64 bits. -/
def wordIn (w : Window) (order : ByteOrder) (c : Class) (offset : UInt64) : Compute UInt64 :=
  match c with
  | .elf32 => do return (← w.u32In order offset).toUInt64
  | .elf64 => w.u64In order offset

/-- The word of a class, in the order of the window. -/
def word (w : Window) (c : Class) (offset : UInt64) : Compute UInt64 :=
  w.wordIn w.order c offset

/-- The text at `offset`, of `limit` bytes at most, up to a NUL. An invalid text is reported by its
place in the image. -/
def text (w : Window) (offset limit : UInt64) : Compute String :=
  if w.length ≤ offset then fail (w.outOfBounds offset 1)
  else do
    let bytes ← w.bytes
    let rest ← cut bytes offset (size bytes)
    let rest ← cut rest 0 (min (size rest) limit)
    let text ← cut rest 0 (size (rest.takeWhile (· ≠ 0)))
    match Utf8.decode? text with
    | some s => return s
    | none => fail (.invalidString (← add w.offset offset).toNat)

/-- The window lies in an image that a machine can hold, and stands for this view. -/
structure Reads (w : Window) (v : View) : Prop where
  small : w.image.length < 2 ^ 63
  inside : w.offset.toNat + w.length.toNat ≤ w.image.length
  view : v = w.image.full.window w.offset.toNat w.length.toNat

theorem full_reads {image : Image} (small : image.length < 2 ^ 63) :
    (full image).Reads image.full := by
  have hl : (UInt64.ofNat image.length).toNat = image.length :=
    UInt64.toNat_ofNat_of_lt' (Nat.lt_trans small (by decide))
  refine ⟨small, ?_, View.ext_toList rfl ?_ rfl⟩
  · show 0 + (UInt64.ofNat image.length).toNat ≤ image.length
    omega
  · have hle : image.full.toList.length ≤ image.length := Nat.le_of_eq (View.length_toList _)
    show _ = (image.full.window 0 (UInt64.ofNat image.length).toNat).toList
    rw [View.toList_window, hl, List.drop_zero, List.take_of_length_le hle]

namespace Reads

variable {w : Window} {v : View} (hr : w.Reads v)
include hr

theorem length_eq : v.length = w.length.toNat := by
  rw [hr.view]
  exact View.length_window hr.inside

theorem offset_eq : v.offset = w.offset.toNat := by
  rw [hr.view]
  exact Nat.zero_add _

theorem order_eq : v.order = w.order := by
  rw [hr.view]
  rfl

/-- Sums of a position in the view and a size of a field stay far below the end of the words. -/
theorem reaches : v.offset + v.length < 2 ^ 63 := by
  rw [hr.offset_eq, hr.length_eq]
  exact Nat.lt_of_le_of_lt hr.inside hr.small

theorem outOfBounds_eq (offset length : UInt64) :
    w.outOfBounds offset length = .outOfBounds offset.toNat length.toNat v.length := by
  rw [outOfBounds, hr.length_eq]

/-- The end of a window in its image is a word, so its bytes can be cut out. -/
theorem bytes_eq : w.bytes = pure v.toList := by
  have hi := hr.inside
  have hs := hr.small
  have hadd := toNat_add (show w.offset.toNat + w.length.toNat < 2 ^ 64 by omega)
  have hl : w.image.bytes.data.toList.length = w.image.length := rfl
  unfold bytes
  rw [add_eq (by omega), pure_bind, cut_eq (by omega) (by omega), hadd, Nat.add_sub_cancel_left,
    hr.view, View.toList_window, Image.toList_full]

/-- Only the sum that is checked can leave the words, and then the range leaves the view as well. -/
theorem subview_exact (offset length : UInt64) :
    Exact Reads (w.subview offset length) (v.subview offset.toNat length.toNat) := by
  have hi := hr.inside
  have hs := hr.small
  have hl := hr.length_eq
  unfold subview
  rw [View.subview_eq, hr.outOfBounds_eq]
  by_cases hfit : offset.toNat + length.toNat ≤ v.length
  · have hsum := toNat_add (show offset.toNat + length.toNat < 2 ^ 64 by omega)
    have hadd := toNat_add (show w.offset.toNat + offset.toNat < 2 ^ 64 by omega)
    rw [if_pos hfit, checkedAdd_eq (by omega)]
    simp only [UInt64.lt_iff_toNat_lt, hsum]
    rw [if_neg (by omega), add_eq (by omega), pure_bind]
    refine Exact.pure ⟨hs, ?_, ?_⟩
    · show (w.offset + offset).toNat + length.toNat ≤ w.image.length
      omega
    · show v.window offset.toNat length.toNat =
        w.image.full.window (w.offset + offset).toNat length.toNat
      rw [hadd, hr.view, View.window_window hi (by omega)]
  · rw [if_neg hfit]
    split
    · exact Exact.fail _
    · next stop hstop =>
      have hsum := toNat_checkedAdd hstop
      rw [if_pos (by rw [UInt64.lt_iff_toNat_lt]; omega)]
      exact Exact.fail _

theorem slice_exact (offset length : UInt64) :
    Exact Eq (w.slice offset length) (v.slice offset.toNat length.toNat) := by
  have hs := hr.reaches
  have hl := hr.length_eq
  unfold slice
  rw [View.slice_eq, hr.outOfBounds_eq]
  by_cases hfit : offset.toNat + length.toNat ≤ v.length
  · have hsum := toNat_add (show offset.toNat + length.toNat < 2 ^ 64 by omega)
    have hle : offset + length ≤ w.length := by
      rw [UInt64.le_iff_toNat_le, hsum]
      omega
    rw [if_pos hfit, checkedAdd_eq (by omega), Option.filter_some, if_pos (by simpa using hle)]
    simp only [hr.bytes_eq, pure_bind]
    rw [cut_eq (by omega) (by rw [View.length_toList]; omega), hsum, Nat.add_sub_cancel_left]
    exact Exact.pure rfl
  · rw [if_neg hfit]
    split
    · next stop hstop =>
      obtain ⟨hstop, hle⟩ := Option.filter_eq_some_iff.1 hstop
      have hsum := toNat_checkedAdd hstop
      have hle := UInt64.le_iff_toNat_le.1 (of_decide_eq_true hle)
      omega
    · exact Exact.fail _

/-- The bytes of a field have its width, so the copy to a place of that width does not stop. -/
theorem field_exact (width offset : UInt64) :
    Exact (fun a b => a = b ∧ b.length = width.toNat) (w.field width offset)
      (v.slice offset.toNat width.toNat) := by
  have hs := hr.reaches
  have h := hr.slice_exact offset width
  unfold field
  rw [View.slice_eq] at h ⊢
  split at h
  · next hfit =>
    rw [if_pos hfit]
    have hl : ((v.toList.drop offset.toNat).take width.toNat).length = width.toNat := by
      rw [List.length_take, List.length_drop, View.length_toList]
      omega
    refine h.bind_ok fun bytes he => ?_
    subst he
    rw [if_pos (UInt64.toNat_inj.1 ((toNat_size (by omega)).trans hl))]
    exact Exact.pure ⟨rfl, hl⟩
  · next hfit =>
    rw [if_neg hfit]
    exact h.bind_error

omit hr in
theorem map_number (v : View) (offset width : Nat) {α : Type} (f : Nat → α) :
    (v.number offset width).map f =
      (v.slice offset width).map fun bytes => f (v.order.value bytes) := by
  rw [View.number]
  cases v.slice offset width <;> rfl

theorem inOrder_exact {α : Type} (order : ByteOrder) (f : Nat → α) (width offset : UInt64) :
    Exact Eq (w.field width offset >>= fun bytes => pure (f (order.value bytes)))
      (((v.inOrder order).number offset.toNat width.toNat).map f) := by
  rw [map_number, show (v.inOrder order).slice = v.slice by
    funext o l; rw [View.slice_eq, View.slice_eq]; rfl]
  exact (hr.field_exact width offset).map fun a b h => by rw [h.1]; rfl

theorem u16In_exact (order : ByteOrder) (offset : UInt64) :
    Exact Eq (w.u16In order offset) ((v.inOrder order).u16 offset.toNat) :=
  hr.inOrder_exact order UInt16.ofNat 2 offset

theorem u32In_exact (order : ByteOrder) (offset : UInt64) :
    Exact Eq (w.u32In order offset) ((v.inOrder order).u32 offset.toNat) :=
  hr.inOrder_exact order UInt32.ofNat 4 offset

theorem u64In_exact (order : ByteOrder) (offset : UInt64) :
    Exact Eq (w.u64In order offset) ((v.inOrder order).u64 offset.toNat) :=
  hr.inOrder_exact order UInt64.ofNat 8 offset

/-- A word of the narrow class is widened after it was read, which does not change its value. -/
theorem wordIn_exact (order : ByteOrder) (c : Class) (offset : UInt64) :
    Exact Eq (w.wordIn order c offset) ((v.inOrder order).word c offset.toNat) := by
  cases c with
  | elf32 =>
    have hmap : (v.inOrder order).word .elf32 offset.toNat =
        ((v.inOrder order).u32 offset.toNat).map UInt32.toUInt64 := by
      show ((v.inOrder order).number offset.toNat 4).map UInt64.ofNat = _
      rw [View.u32, View.number_eq]
      split
      · have hlt := order.value_lt ((v.toList.drop offset.toNat).take 4)
        have hn := Nat.lt_of_lt_of_le hlt
          (Nat.pow_le_pow_right (by decide) (List.length_take_le 4 _))
        have ho := UInt64.ofNat_uInt32ToNat
          (.ofNat (order.value ((v.toList.drop offset.toNat).take 4)))
        rw [UInt32.toNat_ofNat_of_lt' hn] at ho
        exact congrArg Except.ok ho
      · rfl
    rw [hmap]
    exact (hr.u32In_exact order offset).map fun a b h => by rw [h]
  | elf64 => exact hr.u64In_exact order offset

theorem inOrder_order : v.inOrder w.order = v := by
  rw [← hr.order_eq]
  rfl

theorem u8_exact (offset : UInt64) : Exact Eq (w.u8 offset) (v.u8 offset.toNat) := by
  have h := hr.inOrder_exact w.order UInt8.ofNat 1 offset
  rwa [hr.inOrder_order] at h

theorem u16_exact (offset : UInt64) : Exact Eq (w.u16 offset) (v.u16 offset.toNat) := by
  have h := hr.u16In_exact w.order offset
  rwa [hr.inOrder_order] at h

theorem u32_exact (offset : UInt64) : Exact Eq (w.u32 offset) (v.u32 offset.toNat) := by
  have h := hr.u32In_exact w.order offset
  rwa [hr.inOrder_order] at h

theorem u64_exact (offset : UInt64) : Exact Eq (w.u64 offset) (v.u64 offset.toNat) := by
  have h := hr.u64In_exact w.order offset
  rwa [hr.inOrder_order] at h

theorem word_exact (c : Class) (offset : UInt64) :
    Exact Eq (w.word c offset) (v.word c offset.toNat) := by
  have h := hr.wordIn_exact w.order c offset
  rwa [hr.inOrder_order] at h

/-- A text ends within the view, and so does the place that an invalid one is reported by. -/
theorem text_exact (offset limit : UInt64) :
    Exact Eq (w.text offset limit) (v.text offset.toNat limit.toNat) := by
  have hs := hr.reaches
  have hl := hr.length_eq
  have ho := hr.offset_eq
  have hlist := v.length_toList
  unfold text
  rw [View.text_eq, hr.outOfBounds_eq]
  simp only [UInt64.le_iff_toNat_le, ← hl]
  split
  · exact Exact.fail _
  next hlt =>
  have hrest : (v.toList.drop offset.toNat).length ≤ v.length := by
    rw [List.length_drop]
    omega
  have hlimit := List.length_take_le' limit.toNat (v.toList.drop offset.toNat)
  rw [hr.bytes_eq, pure_bind, cut_rest (by omega) (by omega), pure_bind, cut_limit (by omega),
    pure_bind, cut_run (by omega), pure_bind]
  cases Utf8.decode? _ with
  | some s => exact Exact.pure rfl
  | none =>
    have hadd := toNat_add (show w.offset.toNat + offset.toNat < 2 ^ 64 by omega)
    simp only []
    rw [add_eq (by omega), pure_bind, hadd, ho]
    exact Exact.fail _

end Reads

end Window

end ElfFormat.Machine
