import ElfFormat.Object
import ElfFormat.Proofs.Layout

/-!
# Byte order over whole runs

An image is asked one thing after another, and two of the calls may fix its byte order: the one
that is made for it, and decoding an object. A call changes an image only if nothing has fixed the
order before it (`call_snd`), so what a run leaves behind is settled by the first call that fixes an
order at all (`after_eq`), whatever came before it and whatever follows.

Which order a call would fix depends on the bytes alone, because a header is read in its own order
and not in the image's (`parse_inOrder`).
-/

namespace ElfFormat

/-- What is asked of an image. -/
inductive Call where
  | fixOrder (order : ByteOrder)
  | decode
  | view (offset length : Nat)
  | slice (offset length : Nat)
  | number (offset width : Nat)
  | text (offset limit : Nat)
  | header
  | sections (header : FileHeader)
  | segments (header : FileHeader)

/-- What it answers. -/
inductive Answer where
  | fixed (result : Except Error Unit)
  | object (result : Except Error Object)
  | view (result : Except Error View)
  | bytes (result : Except Error (List UInt8))
  | number (result : Except Error Nat)
  | text (result : Except Error String)
  | header (result : Except Error FileHeader)
  | sections (result : Except Error SectionTable)
  | segments (result : Except Error SegmentTable)

/-- The answer to a call, and the image as it is afterwards. -/
def Image.call (image : Image) : Call → Answer × Image
  | .fixOrder order =>
    match image.fixOrder order with
    | .ok fixed => (.fixed (.ok ()), fixed)
    | .error e => (.fixed (.error e), image)
  | .decode => (Object.parse image).map .object id
  | .view offset length => (.view (image.view offset length), image)
  | .slice offset length => (.bytes (image.full.slice offset length), image)
  | .number offset width => (.number (image.full.number offset width), image)
  | .text offset limit => (.text (image.full.text offset limit), image)
  | .header => (.header (FileHeader.parse image.full), image)
  | .sections header => (.sections (SectionTable.parse image header), image)
  | .segments header => (.segments (SegmentTable.parse image header), image)

/-- The image after some calls. -/
def Image.after (image : Image) : List Call → Image
  | [] => image
  | call :: calls => (image.call call).2.after calls

/-- The order that a call fixes in an image with these bytes, if nothing has fixed it before. -/
def Call.fixes? (bytes : ByteArray) : Call → Option ByteOrder
  | fixOrder order => some order
  | decode => (FileHeader.parse { bytes : Image }.full).toOption.map (·.order)
  | _ => none

namespace Image

theorem parse_header (image : Image) :
    FileHeader.parse image.full = FileHeader.parse { bytes := image.bytes : Image }.full :=
  FileHeader.parse_inOrder { bytes := image.bytes : Image }.full image.order

end Image

/-- Decoding, case by case: the header is that of the bytes, and what has fixed the order before
decides what becomes of it. -/
theorem Object.parse_by_order (image : Image) :
    parse image =
      match FileHeader.parse { bytes := image.bytes : Image }.full, image.fixedOrder with
      | .error e, _ => (.error e, image)
      | .ok header, none =>
        let fixed := { image with fixedOrder := some header.order }
        (ofHeader fixed header, fixed)
      | .ok header, some order =>
        (if order = header.order then ofHeader image header else .error .byteOrderFixed,
          image) := by
  unfold parse
  rw [Image.parse_header]
  rcases FileHeader.parse { bytes := image.bytes : Image }.full with e | header
  · rfl
  obtain ⟨bytes, _ | order⟩ := image
  · rfl
  · unfold Image.adopt
    by_cases ho : order = header.order
    · subst ho
      simp only [↓reduceIte]
    · simp only [Option.some.injEq, ho, ↓reduceIte]
      rfl

namespace Image

theorem call_fixOrder (image : Image) (order : ByteOrder) :
    image.call (.fixOrder order) =
      if image.isOrderFixed then (.fixed (.error .byteOrderFixed), image)
      else (.fixed (.ok ()), { image with fixedOrder := some order }) := by
  obtain ⟨bytes, _ | fixed⟩ := image <;> rfl

theorem call_decode (image : Image) :
    image.call .decode =
      match FileHeader.parse { bytes := image.bytes : Image }.full, image.fixedOrder with
      | .error e, _ => (.object (.error e), image)
      | .ok header, none =>
        let fixed := { image with fixedOrder := some header.order }
        (.object (Object.ofHeader fixed header), fixed)
      | .ok header, some order =>
        (.object (if order = header.order then Object.ofHeader image header
          else .error .byteOrderFixed), image) := by
  unfold call
  rw [Object.parse_by_order]
  rcases FileHeader.parse { bytes := image.bytes : Image }.full with e | header
  · rfl
  · obtain ⟨bytes, _ | order⟩ := image <;> rfl

/-- A call changes an image only if it fixes an order and nothing has fixed one before. -/
theorem call_snd (image : Image) (call : Call) :
    (image.call call).2 =
      if image.isOrderFixed then image
      else { image with fixedOrder := call.fixes? image.bytes } := by
  have hsame : ∀ image : Image,
      (if image.isOrderFixed then image else { image with fixedOrder := none }) = image := by
    rintro ⟨bytes, _ | order⟩ <;> rfl
  cases call with
  | fixOrder order =>
    rw [call_fixOrder]
    split <;> rfl
  | decode =>
    rw [call_decode, Call.fixes?]
    rcases FileHeader.parse { bytes := image.bytes : Image }.full with e | header
    · exact (hsame image).symm
    · obtain ⟨bytes, _ | order⟩ := image <;> rfl
  | view | slice | number | text | header | sections | segments => exact (hsame image).symm

theorem after_of_isOrderFixed {image : Image} (h : image.isOrderFixed = true) :
    ∀ calls, image.after calls = image
  | [] => rfl
  | call :: calls => by
    have hc := call_snd image call
    rw [if_pos h] at hc
    rw [after, hc]
    exact after_of_isOrderFixed h calls

theorem bytes_after : ∀ (calls : List Call) (image : Image),
    (image.after calls).bytes = image.bytes
  | [], _ => rfl
  | call :: calls, image => by
    have hc : (image.call call).2.bytes = image.bytes := by
      rw [call_snd]
      split <;> rfl
    exact (bytes_after calls _).trans hc

/-- The first call that fixes an order settles it. -/
theorem after_eq (bytes : ByteArray) : ∀ calls : List Call,
    Image.after { bytes } calls = { bytes, fixedOrder := calls.findSome? (·.fixes? bytes) }
  | [] => rfl
  | call :: calls => by
    have hc : (Image.call { bytes } call).2 = { bytes, fixedOrder := call.fixes? bytes } :=
      call_snd { bytes } call
    rw [after, hc, List.findSome?_cons]
    rcases hf : call.fixes? bytes with _ | order
    · exact after_eq bytes calls
    · exact after_of_isOrderFixed rfl calls

end Image

/-- In every state that a run of calls reaches, the bytes are the ones that the run began with, and
the order is little-endian and not fixed until the first call that fixes it, and fixed to the order
of that call ever after. -/
theorem order_fixed_once (bytes : ByteArray) (history : List Call) :
    let image := Image.after { bytes } history
    let first := history.findSome? (·.fixes? bytes)
    (image.bytes = bytes ∧ image.order = first.getD .little ∧
      image.isOrderFixed = first.isSome) ∧
    (∀ call, (image.call call).2 =
      if image.isOrderFixed then image else { image with fixedOrder := call.fixes? bytes }) ∧
    (∀ order, image.call (.fixOrder order) =
      if image.isOrderFixed then (.fixed (.error .byteOrderFixed), image)
      else (.fixed (.ok ()), { image with fixedOrder := some order })) ∧
    (image.call .decode =
      match FileHeader.parse { bytes : Image }.full, image.fixedOrder with
      | .error e, _ => (.object (.error e), image)
      | .ok header, none =>
        let fixed := { image with fixedOrder := some header.order }
        (.object (Object.ofHeader fixed header), fixed)
      | .ok header, some order =>
        (.object (if order = header.order then Object.ofHeader image header
          else .error .byteOrderFixed), image)) ∧
    (image.isOrderFixed = true → ∀ more, image.after more = image) := by
  intro image first
  have he : image = { bytes, fixedOrder := first } := Image.after_eq bytes history
  have hb : image.bytes = bytes := congrArg Image.bytes he
  refine ⟨⟨hb, ?_, ?_⟩, fun call => ?_, Image.call_fixOrder image, ?_,
    Image.after_of_isOrderFixed⟩
  · rw [he]
    rfl
  · rw [he]
    rfl
  · simpa only [hb] using Image.call_snd image call
  · simpa only [hb] using Image.call_decode image

end ElfFormat
