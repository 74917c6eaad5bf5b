import ElfFormat.Proofs.Acceptance
import ElfFormat.Proofs.OrderRuns

/-!
# Decoding depends on the bytes alone

A header is read in the order that it names itself, the tables in the order of the image, which by
then is that of the header. So nothing that has happened to an image shows in what it decodes to
(`parse_of_permits`), unless it fixed the other order. Decoding leaves an image behind that permits
the order of its header, or one that never will; either way decoding it once more, whatever was
asked of it in between, gives the same answer and changes nothing (`parse_after`).
-/

namespace ElfFormat

/-- Nothing has fixed the order of the image to another one than its header names, if it has a
header. -/
def Image.Permits (image : Image) : Prop :=
  ∀ header, FileHeader.parse image.full = .ok header → ∀ order, image.fixedOrder = some order →
    order = header.order

namespace Object

/-- What the bytes of a file decode to, in the order that their header names. -/
def ofBytes (bytes : ByteArray) : Except Error Object := do
  let header ← FileHeader.parse { bytes : Image }.full
  ofHeader { bytes, fixedOrder := some header.order } header

theorem parse_of_error {image : Image} {e : Error}
    (h : FileHeader.parse { bytes := image.bytes : Image }.full = .error e) :
    parse image = (.error e, image) := by
  rw [parse_by_order, h]

/-- An image that permits the order of its header has that order afterwards, and decodes to what its
bytes do. -/
theorem parse_of_permits {image : Image} (permits : image.Permits) {header : FileHeader}
    (h : FileHeader.parse { bytes := image.bytes : Image }.full = .ok header) :
    parse image =
      (ofBytes image.bytes, { image with fixedOrder := some header.order }) := by
  have hb : ofBytes image.bytes =
      ofHeader { bytes := image.bytes, fixedOrder := some header.order } header := by
    rw [ofBytes, h]
    rfl
  have hp := permits header ((Image.parse_header image).trans h)
  rw [parse_by_order, h, hb]
  obtain ⟨bytes, _ | order⟩ := image
  · rfl
  · obtain rfl := hp order rfl
    simp only [↓reduceIte]

theorem fst_parse_of_permits {image : Image} (permits : image.Permits) :
    (parse image).1 = ofBytes image.bytes := by
  rcases h : FileHeader.parse { bytes := image.bytes : Image }.full with e | header
  · rw [parse_of_error h, ofBytes, h]
    rfl
  · rw [parse_of_permits permits h]

theorem isOrderFixed_of_parse {image : Image} {header : FileHeader}
    (h : FileHeader.parse { bytes := image.bytes : Image }.full = .ok header) :
    (parse image).2.isOrderFixed = true := by
  rw [parse_by_order, h]
  obtain ⟨bytes, _ | order⟩ := image <;> rfl

theorem parse_parse (image : Image) : parse (parse image).2 = parse image := by
  have hp := parse_by_order image
  rcases h : FileHeader.parse { bytes := image.bytes : Image }.full with e | header
  · rw [parse_of_error h]
    exact parse_of_error h
  rw [h] at hp
  obtain ⟨bytes, _ | order⟩ := image
  · rw [hp, parse_by_order, h]
    simp only [↓reduceIte]
  · rw [hp]
    exact hp

/-- Decoding what a decoded image has become gives the same answer and leaves the image as it is. -/
theorem parse_after (image : Image) (calls : List Call) :
    parse ((parse image).2.after calls) =
      ((parse image).1, (parse image).2.after calls) := by
  rcases h : FileHeader.parse { bytes := image.bytes : Image }.full with e | header
  · -- Whatever is fixed in between, the header still fails.
    rw [parse_of_error h]
    refine parse_of_error ?_
    rw [Image.bytes_after]
    exact h
  · rw [Image.after_of_isOrderFixed (isOrderFixed_of_parse h), parse_parse]

end Object

/-- Two images of the same bytes decode to the same object or fail with the same error, unless one
of them has the order fixed that the header does not name; and so does an image that was decoded
before, whatever has been asked of it since. -/
theorem outcome_of_bytes :
    (∀ a b : Image, a.bytes = b.bytes → a.Permits → b.Permits →
      (Object.parse a).1 = (Object.parse b).1 ∧
        ∀ header, FileHeader.parse a.full = .ok header →
          (Object.parse a).2 = (Object.parse b).2 ∧ (Object.parse a).2.order = header.order) ∧
    ∀ (image : Image) (calls : List Call),
      Object.parse ((Object.parse image).2.after calls) =
        ((Object.parse image).1, (Object.parse image).2.after calls) := by
  refine ⟨fun a b hbytes ha hb => ⟨?_, fun header h => ?_⟩, Object.parse_after⟩
  · rw [Object.fst_parse_of_permits ha, Object.fst_parse_of_permits hb, hbytes]
  · have ha' := (Image.parse_header a).symm.trans h
    have hb' := ha'
    rw [hbytes] at hb'
    rw [Object.parse_of_permits ha ha', Object.parse_of_permits hb hb', hbytes]
    exact ⟨rfl, rfl⟩

/-- The section header table of this file does not fit, so decoding it fails after it has fixed the
order. -/
theorem outcome_of_bytes_overlapping :
    let fixed := { overlapping with fixedOrder := some .little }
    (Object.parse overlapping).1 = .error (.outOfBounds 12 480 52) ∧
      (Object.parse fixed).1 = .error (.outOfBounds 12 480 52) ∧
      (Object.parse overlapping).2 = fixed ∧
      Object.parse fixed = (.error (.outOfBounds 12 480 52), fixed) := by
  intro fixed
  have hfirst : (Object.parse overlapping).1 = .error (.outOfBounds 12 480 52) :=
    (Object.parse_eq (show overlapping.fixedOrder = none from rfl) (by decide)).trans
      (Guard.protect_eq_error_iff.2 ⟨(Object.guards overlapping.full).take 7, _,
        (Object.guards overlapping.full).drop 8, rfl, by decide, by decide, rfl⟩)
  have hheader : FileHeader.parse overlapping.full = .ok (.declared overlapping.full) :=
    (FileHeader.parse_eq_protect _).trans (Guard.protect_eq_ok_iff.2 ⟨by decide, rfl⟩)
  have hunfixed : overlapping.Permits := fun _ _ _ ho => absurd ho nofun
  have hfixed : fixed.Permits := by
    intro header h order ho
    obtain rfl := Except.ok.inj (hheader.symm.trans h)
    obtain rfl := Option.some.inj ho
    decide
  obtain ⟨hbytes, hagain⟩ := outcome_of_bytes
  have hleft : (Object.parse overlapping).2 = fixed := by
    rw [Object.parse_of_permits hunfixed hheader]
    rfl
  have hparse := hagain overlapping []
  rw [hleft, hfirst] at hparse
  exact ⟨hfirst, (hbytes overlapping fixed rfl hunfixed hfixed).1.symm.trans hfirst, hleft, hparse⟩

end ElfFormat
