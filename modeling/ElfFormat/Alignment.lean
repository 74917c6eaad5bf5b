import ElfFormat.Arithmetic

/-!
# Alignment

`roundUp` is the least multiple of an alignment that is not below a value. `alignUp` computes it on
64-bit words with a mask; it is total, and for an alignment that is no power of two it is what the
mask gives.
-/

namespace ElfFormat

/-- The least multiple of `alignment` from `value` on; `value` itself if there is no alignment. -/
def roundUp (value alignment : Nat) : Nat :=
  if alignment = 0 then value else (value + (alignment - 1)) / alignment * alignment

/-- Clears the bits of the mask `alignment - 1` after stepping over them. -/
def alignUp (value alignment : UInt64) : UInt64 :=
  if alignment = 0 ∨ alignment = 1 then value
  else (value + alignment - 1) &&& ~~~(alignment - 1)

theorem le_roundUp (value alignment : Nat) : value ≤ roundUp value alignment := by
  simp only [roundUp]
  split
  · exact Nat.le_refl _
  · have h := Nat.div_add_mod (value + (alignment - 1)) alignment
    have hm := Nat.mod_lt (value + (alignment - 1)) (y := alignment) (by omega)
    rw [Nat.mul_comm] at h
    omega

theorem dvd_roundUp (value : Nat) {alignment : Nat} (h : alignment ≠ 0) :
    alignment ∣ roundUp value alignment := by
  rw [roundUp, if_neg h]
  exact Nat.dvd_mul_left _ _

theorem roundUp_add {start alignment : Nat} (h : alignment ∣ start) (position : Nat) :
    roundUp (start + position) alignment = start + roundUp position alignment := by
  obtain ⟨k, rfl⟩ := h
  by_cases hz : alignment = 0
  · rw [hz, Nat.zero_mul, Nat.zero_add, Nat.zero_add]
  · rw [roundUp, roundUp, if_neg hz, if_neg hz, Nat.add_assoc,
      Nat.mul_add_div (Nat.pos_of_ne_zero hz), Nat.add_mul, Nat.mul_comm alignment k]

end ElfFormat
