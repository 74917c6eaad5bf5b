import Mathlib.Algebra.GroupWithZero.Nat
import ElfFormat.Proofs.Machine.Decoder

/-!
# Ranges cut one out of the other

A view is reached from its image by cutting ranges, each out of the one before it (`View.subviews`).
However long the chain, what is reached is a range of every view on the way (`View.exists_window`),
so it could have been cut at once at the sum of the offsets (`View.subview_of_subviews`), and what
is read from it is read from the same bytes of the image. A range that ends past its view is
refused, whatever lies behind it.

A machine adds the offsets up in words and tests a range that it cuts and a range that it reads in
two different ways. Neither test lets a sum wrap, and both draw the line where natural numbers do
(`Machine.Window.Reads.subviews_exact`).
-/

namespace ElfFormat

/-! ## Digits to base 256 -/

namespace ByteOrder

/-- The bytes of a number, least significant first. -/
def ascending : ByteOrder → List UInt8 → List UInt8
  | little, bytes => bytes
  | big, bytes => bytes.reverse

/-- The digits of a number, each times its power of 256. -/
def digitSum (order : ByteOrder) (bytes : List UInt8) : Nat :=
  ((order.ascending bytes).mapIdx fun i b => b.toNat * 256 ^ i).sum

theorem mul_littleEndian : ∀ (bytes : List UInt8) (k : Nat),
    256 ^ k * littleEndian bytes = (bytes.mapIdx fun i b => b.toNat * 256 ^ (k + i)).sum
  | [], _ => rfl
  | b :: bytes, k => by
    have ih := mul_littleEndian bytes (k + 1)
    have hshift : ∀ i, k + 1 + i = k + (i + 1) := fun i => by omega
    simp only [hshift] at ih
    rw [List.mapIdx_cons, List.sum_cons, ← ih, littleEndian, Nat.mul_add, Nat.add_zero,
      ← Nat.mul_assoc, ← Nat.pow_succ, Nat.mul_comm b.toNat]

theorem value_eq_digitSum (order : ByteOrder) (bytes : List UInt8) :
    order.value bytes = order.digitSum bytes := by
  have h : ∀ l, littleEndian l = (l.mapIdx fun i b => b.toNat * 256 ^ i).sum := fun l => by
    have hl := mul_littleEndian l 0
    simpa only [Nat.pow_zero, Nat.one_mul, Nat.zero_add] using hl
  cases order <;> exact h _

end ByteOrder

/-! ## Chains -/

namespace View

/-- What is reached by cutting ranges, each out of the one before it. -/
def subviews (v : View) : List (Nat × Nat) → Except Error View
  | [] => .ok v
  | (offset, length) :: ranges => do
    let w ← v.subview offset length
    w.subviews ranges

variable {v w : View}

theorem subviews_append (v : View) : ∀ front back : List (Nat × Nat),
    v.subviews (front ++ back) = v.subviews front >>= (·.subviews back)
  | [], _ => rfl
  | (offset, length) :: front, back => by
    rw [List.cons_append, subviews, subviews]
    rcases v.subview offset length with e | w
    · rfl
    · exact subviews_append w front back

theorem window_all (v : View) : v.window 0 v.length = v := by
  refine ext_toList rfl ?_ rfl
  rw [toList_window, List.drop_zero, ← length_toList, List.take_length]

/-- What is reached is a range of what one started from. -/
theorem exists_window : ∀ {ranges : List (Nat × Nat)} {v : View}, v.subviews ranges = .ok w →
    ∃ p, p + w.length ≤ v.length ∧ w = v.window p w.length
  | [], v, h => by
    obtain rfl := Except.ok.inj h
    exact ⟨0, by omega, (window_all v).symm⟩
  | (offset, length) :: ranges, v, h => by
    obtain ⟨u, hu, h⟩ := bind_eq_ok_iff.1 h
    obtain ⟨hle, rfl⟩ := eq_window_of_subview hu
    obtain ⟨p, hp, hw⟩ := exists_window h
    rw [length_window hle] at hp
    refine ⟨offset + p, by omega, hw.trans (window_window hle hp)⟩

/-- The ranges could have been cut at once. -/
theorem subview_of_subviews : ∀ {ranges : List (Nat × Nat)} {v : View} (hne : ranges ≠ []),
    v.subviews ranges = .ok w →
      v.subview (ranges.map (·.1)).sum (ranges.getLast hne).2 = .ok w
  | [(offset, length)], v, _, h => by
    obtain ⟨u, hu, h⟩ := bind_eq_ok_iff.1 h
    obtain rfl := Except.ok.inj h
    exact hu
  | (offset, length) :: next :: ranges, v, _, h => by
    obtain ⟨u, hu, h⟩ := bind_eq_ok_iff.1 h
    have hlast := subview_of_subviews (List.cons_ne_nil next ranges) h
    have hle := (eq_window_of_subview hlast).1
    rw [length_of_subview hu] at hle
    rw [List.map_cons, List.sum_cons, List.getLast_cons (List.cons_ne_nil next ranges),
      ← subview_subview hu hle]
    exact hlast

/-- A view of an image is the range of the image that it says. -/
theorem eq_window_of_subviews {image : Image} {ranges : List (Nat × Nat)}
    (h : image.full.subviews ranges = .ok v) :
    v.offset + v.length ≤ image.length ∧ v = image.full.window v.offset v.length := by
  obtain ⟨p, hp, hv⟩ := exists_window h
  have ho : v.offset = p := by
    rw [hv]
    exact Nat.zero_add p
  rw [← ho] at hp hv
  exact ⟨hp, hv⟩

/-! ## What is read -/

/-- A field of `width` bytes is read from the view if it fits, as it is read from the whole image at
the same bytes; `Means` says what the bytes stand for. -/
structure ReadsAlike {α : Type} (v : View) (image : Image) (read : View → Nat → Except Error α)
    (width : Nat) (Means : List UInt8 → α → Prop) : Prop where
  outside : ∀ offset, v.length < offset + width →
    read v offset = .error (.outOfBounds offset width v.length)
  inside : ∀ offset, offset + width ≤ v.length → ∃ a, read v offset = .ok a ∧
    read image.full (v.offset + offset) = .ok a ∧
      Means ((image.bytes.data.toList.drop (v.offset + offset)).take width) a

section Reads

variable {image : Image} (hv : v = image.full.window v.offset v.length)
include hv

theorem toList_of_window :
    v.toList = (image.bytes.data.toList.drop v.offset).take v.length := by
  rw [← image.toList_full, ← toList_window, ← hv]

theorem drop_take_of_window {offset width : Nat} (fits : offset + width ≤ v.length) :
    (v.toList.drop offset).take width =
      (image.bytes.data.toList.drop (v.offset + offset)).take width := by
  rw [toList_of_window hv, List.drop_take, List.take_take, List.drop_drop,
    Nat.min_eq_left (by omega)]

variable (hle : v.offset + v.length ≤ image.length)
include hle

theorem slice_readsAlike (width : Nat) :
    v.ReadsAlike image (·.slice · width) width fun bytes a => a = bytes where
  outside offset hlt := by
    show v.slice offset width = _
    rw [slice_eq, if_neg (Nat.not_le.2 hlt)]
  inside offset fits := by
    refine ⟨_, ?_, ?_, rfl⟩
    · show v.slice offset width = _
      rw [slice_eq, if_pos fits, drop_take_of_window hv fits]
    · show image.full.slice (v.offset + offset) width = _
      rw [slice_eq, if_pos (by rw [Image.length_full]; omega), image.toList_full]

/-- A number is read alike in every type that holds it. -/
theorem number_readsAlike {α : Type} {width : Nat} {ofNat : Nat → α} {toNat : α → Nat}
    (hn : ∀ n < 256 ^ width, toNat (ofNat n) = n) :
    v.ReadsAlike image (fun v offset => (v.number offset width).map ofNat) width
      fun bytes a => toNat a = image.order.digitSum bytes := by
  have hs := slice_readsAlike hv hle width
  have ho : v.order = image.order := by
    rw [hv]
    rfl
  refine ⟨fun offset hlt => ?_, fun offset fits => ?_⟩
  · rw [number, hs.outside offset hlt]
    rfl
  · obtain ⟨_, hbytes, hwhole, rfl⟩ := hs.inside offset fits
    -- No more bytes are read than the type holds, so nothing is lost in it.
    have hlt : image.order.value ((image.bytes.data.toList.drop (v.offset + offset)).take width) <
        256 ^ width :=
      Nat.lt_of_lt_of_le (image.order.value_lt _)
        (Nat.pow_le_pow_right (by decide) (List.length_take_le _ _))
    refine ⟨_, ?_, ?_, (hn _ hlt).trans (image.order.value_eq_digitSum _)⟩
    · rw [number, hbytes, ho]
      rfl
    · rw [number, hwhole]
      rfl

end Reads

/-- What holds of a view that was cut out of an image by a chain of ranges. -/
structure CutFrom (v : View) (image : Image) (ranges : List (Nat × Nat)) : Prop where
  end_le : v.offset + v.length ≤ image.length
  toList_eq : v.toList = (image.bytes.data.toList.drop v.offset).take v.length
  subview_ok_iff : ∀ offset length,
    (∃ w, v.subview offset length = .ok w) ↔ offset + length ≤ v.length
  subview_error : ∀ offset length, v.length < offset + length →
    v.subview offset length = .error (.outOfBounds offset length v.length)
  /-- The whole chain is one range, at the sum of the offsets. -/
  at_once : ∀ hne : ranges ≠ [],
    image.view (ranges.map (·.1)).sum (ranges.getLast hne).2 = .ok v
  /-- The view covers no byte that a view on the way does not cover. -/
  nested : ∀ front back, ranges = front ++ back →
    ∃ u, image.full.subviews front = .ok u ∧ u.offset ≤ v.offset ∧
      v.offset + v.length ≤ u.offset + u.length
  slice : ∀ length, v.ReadsAlike image (·.slice · length) length fun bytes a => a = bytes
  u8 : v.ReadsAlike image u8 1 fun bytes x => x.toNat = image.order.digitSum bytes
  u16 : v.ReadsAlike image u16 2 fun bytes x => x.toNat = image.order.digitSum bytes
  u32 : v.ReadsAlike image u32 4 fun bytes x => x.toNat = image.order.digitSum bytes
  u64 : v.ReadsAlike image u64 8 fun bytes x => x.toNat = image.order.digitSum bytes

/-- What a chain leads to is one range of the image. -/
theorem cutFrom_of_subviews {image : Image} {ranges : List (Nat × Nat)}
    (h : image.full.subviews ranges = .ok v) : v.CutFrom image ranges := by
  obtain ⟨hle, hv⟩ := eq_window_of_subviews h
  exact
    { end_le := hle
      toList_eq := toList_of_window hv
      subview_ok_iff := fun offset length =>
        ⟨fun ⟨_, hw⟩ => (eq_window_of_subview hw).1, fun fits => ⟨_, subview_eq_window fits⟩⟩
      subview_error := fun offset length hlt => subview_eq_error_iff.2 ⟨hlt, rfl⟩
      at_once := fun hne => subview_of_subviews hne h
      nested := fun front back hr => by
        rw [hr, subviews_append] at h
        obtain ⟨u, hu, hback⟩ := bind_eq_ok_iff.1 h
        obtain ⟨p, hp, hw⟩ := exists_window hback
        have ho : v.offset = u.offset + p := by
          rw [hw]
          rfl
        exact ⟨u, hu, by omega, by omega⟩
      slice := slice_readsAlike hv hle
      u8 := number_readsAlike hv hle fun _ => UInt8.toNat_ofNat_of_lt'
      u16 := number_readsAlike hv hle fun _ => UInt16.toNat_ofNat_of_lt'
      u32 := number_readsAlike hv hle fun _ => UInt32.toNat_ofNat_of_lt'
      u64 := number_readsAlike hv hle fun _ => UInt64.toNat_ofNat_of_lt' }

end View

/-! ## Chains on a machine -/

namespace Machine.Window

/-- The window that a chain of ranges leads to, each within the last. -/
def subviews (w : Window) : List (UInt64 × UInt64) → Compute Window
  | [] => return w
  | (offset, length) :: ranges => do (← w.subview offset length).subviews ranges

/-- A chain of ranges comes to the same view in words as in natural numbers, or it is refused at the
same range. -/
theorem Reads.subviews_exact : ∀ (ranges : List (UInt64 × UInt64)) {w : Window} {v : View},
    w.Reads v →
      Exact Reads (w.subviews ranges) (v.subviews (ranges.map fun r => (r.1.toNat, r.2.toNat)))
  | [], _, _, hr => .pure hr
  | (offset, length) :: ranges, _, _, hr =>
    (hr.subview_exact offset length).bind fun _ _ hu => hu.subviews_exact ranges

end Machine.Window

/-- Every view that is reached by cutting is the range of the image that it says, it is read as the
image is, and it reaches no further than the views that it was cut from. In words, with offsets and
lengths up to the largest, every range that is cut and every read come to the same. -/
theorem views_nest (image : Image) :
    (∀ ranges v, image.full.subviews ranges = .ok v → v.CutFrom image ranges) ∧
    (image.length < 2 ^ 63 →
      (∀ ranges : List (UInt64 × UInt64),
        Machine.Exact Machine.Window.Reads ((Machine.Window.full image).subviews ranges)
          (image.full.subviews (ranges.map fun r => (r.1.toNat, r.2.toNat)))) ∧
      ∀ w v, Machine.Window.Reads w v → w.Answers v) :=
  ⟨fun _ _ => View.cutFrom_of_subviews, fun small =>
    ⟨fun ranges => (Machine.Window.full_reads small).subviews_exact ranges,
      fun _ _ hr => hr.answers⟩⟩

/-- Eight bytes, most significant first. -/
def countingImage : Image where
  bytes := ⟨#[0, 1, 2, 3, 4, 5, 6, 7]⟩
  fixedOrder := some .big

/-- Three bytes are cut out of six. The last one of the six is not read through them, and an offset
that would come back to their first byte if it wrapped is refused. -/
theorem views_nest_countingImage :
    ∃ v, countingImage.full.subviews [(1, 6), (2, 3)] = .ok v ∧
      countingImage.view 3 3 = .ok v ∧ (v.u16 1).map (·.toNat) = .ok 0x0405 ∧
      v.u16 2 = .error (.outOfBounds 2 2 3) ∧
      ∀ mode, ∃ w, (Machine.Window.full countingImage).subviews [(1, 6), (2, 3)] mode = .ok w ∧
        w.subview (0 - 3) 4 mode = .error (.failure (.outOfBounds (2 ^ 64 - 3) 4 3)) := by
  obtain ⟨hcut, hwords⟩ := views_nest countingImage
  obtain ⟨hchain, hanswers⟩ := hwords (by decide)
  obtain ⟨v, hv⟩ : ∃ v, countingImage.full.subviews [(1, 6), (2, 3)] = .ok v := ⟨_, rfl⟩
  have h := hcut _ v hv
  have hview : countingImage.view 3 3 = .ok v := h.at_once (List.cons_ne_nil _ _)
  have hl : v.length = 3 := View.length_of_subview hview
  have ho : v.offset = 3 := (View.subview_eq_ok_iff.1 hview).2.1
  obtain ⟨x, hx, -, hsum⟩ := h.u16.inside 1 (by omega)
  rw [ho] at hsum
  refine ⟨v, hv, hview, ?_, ?_, fun mode => ?_⟩
  · rw [hx]
    exact congrArg Except.ok hsum
  · have hout := h.u16.outside 2 (by omega)
    rwa [hl] at hout
  · have hw := hchain [(1, 6), (2, 3)]
    obtain ⟨w, hw, hr⟩ := Machine.Exact.eq_ok (b := v) (hv ▸ hw) mode
    have hs := (hanswers w v hr).subview (0 - 3) 4 mode
    rw [h.subview_error _ _ (by rw [hl]; decide), hl] at hs
    refine ⟨w, hw, ?_⟩
    generalize w.subview (0 - 3) 4 mode = r at hs
    cases hs
    rfl

end ElfFormat
