import ElfFormat.Proofs.Isolation

/-!
# Writing over the bytes of an image

A patch puts bytes in the place of others. Images before and after some patches agree on every range
that the patches spare (`agreeOn_patched`), and a patch that no other one runs into is found where
it was put (`bytes_patched`).
-/

namespace ElfFormat

/-- Bytes that are written over those of a file. -/
structure Patch where
  position : Nat
  bytes : List UInt8
deriving DecidableEq

namespace Patch

def stop (p : Patch) : Nat :=
  p.position + p.bytes.length

/-- The position is written over. -/
def Covers (p : Patch) (k : Nat) : Prop :=
  p.position ≤ k ∧ k < p.stop

instance (p : Patch) (k : Nat) : Decidable (p.Covers k) :=
  inferInstanceAs (Decidable (_ ∧ _))

/-- No byte of the range is written. -/
def Spare (patches : List Patch) (offset length : Nat) : Prop :=
  ∀ p ∈ patches, ∀ k < length, ¬p.Covers (offset + k)

instance (patches : List Patch) (offset length : Nat) : Decidable (Spare patches offset length) :=
  inferInstanceAs (Decidable (∀ p ∈ patches, ∀ k < length, _))

/-- The file with the patch written into it. -/
def apply (p : Patch) (image : Image) : Image :=
  let old := image.bytes.data.toList
  { image with bytes := ⟨(old.take p.position ++ (p.bytes ++ old.drop p.stop)).toArray⟩ }

variable {p : Patch} {image : Image}

theorem length_apply (fits : p.stop ≤ image.length) : (p.apply image).length = image.length := by
  have hl : p.position + p.bytes.length ≤ image.bytes.data.toList.length := fits
  show (_ ++ (_ ++ _) : List UInt8).length = image.bytes.data.toList.length
  simp only [List.length_append, List.length_take, List.length_drop, stop]
  omega

theorem getElem?_apply_of_not_covers (fits : p.stop ≤ image.length) {k : Nat} (h : ¬p.Covers k) :
    (p.apply image).bytes.data[k]? = image.bytes.data[k]? := by
  have hl : p.position + p.bytes.length ≤ image.bytes.data.toList.length := fits
  simp only [Covers, stop] at h
  simp only [apply, stop, ← Array.getElem?_toList]
  by_cases hk : k < p.position
  · rw [List.getElem?_append_left (by rw [List.length_take]; omega), List.getElem?_take_of_lt hk]
  · rw [List.getElem?_append_right (by rw [List.length_take]; omega), List.length_take,
      Nat.min_eq_left (by omega), List.getElem?_append_right (by omega), List.getElem?_drop]
    congr 1
    omega

theorem bytes_apply (fits : p.stop ≤ image.length) :
    ((p.apply image).full.toList.drop p.position).take p.bytes.length = p.bytes := by
  have hl : p.position + p.bytes.length ≤ image.bytes.data.toList.length := fits
  rw [Image.toList_full]
  simp only [apply]
  rw [List.drop_left' (by rw [List.length_take]; omega), List.take_left]

end Patch

/-- The image with the patches put into it, one after the other. -/
def Image.patched (image : Image) (patches : List Patch) : Image :=
  patches.foldl (fun image p => p.apply image) image

namespace Image

open Patch

theorem length_patched : ∀ (patches : List Patch) {image : Image},
    (∀ p ∈ patches, p.stop ≤ image.length) → (image.patched patches).length = image.length
  | [], _, _ => rfl
  | p :: patches, image, h => by
    obtain ⟨hp, h⟩ := List.forall_mem_cons.1 h
    have hl := length_apply hp
    exact (length_patched patches (by rwa [hl])).trans hl

theorem fixedOrder_patched : ∀ (patches : List Patch) (image : Image),
    (image.patched patches).fixedOrder = image.fixedOrder
  | [], _ => rfl
  | p :: patches, image => fixedOrder_patched patches (p.apply image)

theorem patched_inOrder (fixedOrder : Option ByteOrder) : ∀ (patches : List Patch) (image : Image),
    { image with fixedOrder }.patched patches = { image.patched patches with fixedOrder }
  | [], _ => rfl
  | p :: patches, image => patched_inOrder fixedOrder patches (p.apply image)

/-- A range that no patch touches is as before. -/
theorem agreeOn_patched {offset length : Nat} : ∀ {patches : List Patch} {image : Image},
    (∀ p ∈ patches, p.stop ≤ image.length) → Spare patches offset length →
      AgreeOn image (image.patched patches) offset length
  | [], _, _, _ => fun _ _ => rfl
  | p :: patches, image, h, hs => by
    obtain ⟨hp, h⟩ := List.forall_mem_cons.1 h
    obtain ⟨hsp, hs⟩ := List.forall_mem_cons.1 hs
    intro k hk
    have hstep := getElem?_apply_of_not_covers hp (hsp k hk)
    exact hstep.symm.trans (agreeOn_patched (by rwa [length_apply hp]) hs k hk)

/-- A patch is found in the image unless another one runs into it. -/
theorem bytes_patched {p : Patch} : ∀ {patches : List Patch} {image : Image},
    (∀ q ∈ patches, q.stop ≤ image.length) → p ∈ patches →
      (∀ q ∈ patches, q = p ∨ Spare [q] p.position p.bytes.length) →
        ((image.patched patches).full.toList.drop p.position).take p.bytes.length = p.bytes
  | q :: patches, image, h, hmem, happart => by
    obtain ⟨hq, h⟩ := List.forall_mem_cons.1 h
    have happart' := (List.forall_mem_cons.1 happart).2
    have hfit : ∀ r ∈ patches, r.stop ≤ (q.apply image).length := by rwa [length_apply hq]
    by_cases hp : p ∈ patches
    · exact @bytes_patched p patches (q.apply image) hfit hp happart'
    · obtain rfl : p = q := (List.mem_cons.1 hmem).resolve_right hp
      -- Nothing that comes after it touches the patch.
      have hspare : Spare patches p.position p.bytes.length := fun r hr =>
        (happart' r hr).resolve_left (fun he => hp (he ▸ hr)) r List.mem_cons_self
      exact ((agreeOn_patched hfit hspare).bytes_eq).symm.trans (bytes_apply hq)

end Image

end ElfFormat
