import ElfFormat.Alignment

/-!
# Alignment by masks

For an alignment that is a power of two the mask computes `roundUp`, as long as the step over the
lowest bits does not leave the word (`toNat_alignUp`).
-/

namespace ElfFormat

theorem toNat_ofNat_two_pow {k : Nat} (hk : k < 64) : (UInt64.ofNat (2 ^ k)).toNat = 2 ^ k :=
  UInt64.toNat_ofNat_of_lt' (Nat.pow_lt_pow_right (by decide) hk)

theorem one_le_ofNat_two_pow {k : Nat} (hk : k < 64) : (1 : UInt64) ≤ UInt64.ofNat (2 ^ k) := by
  rw [UInt64.le_iff_toNat_le, toNat_ofNat_two_pow hk]
  exact Nat.two_pow_pos k

theorem toNat_ofNat_two_pow_sub_one {k : Nat} (hk : k < 64) :
    (UInt64.ofNat (2 ^ k) - 1).toNat = 2 ^ k - 1 := by
  rw [UInt64.toNat_sub_of_le _ _ (one_le_ofNat_two_pow hk), toNat_ofNat_two_pow hk]
  rfl

/-- Of the powers of two only 1 is no alignment to round to. -/
theorem ofNat_two_pow_ne {k : Nat} (h0 : k ≠ 0) (hk : k < 64) :
    ¬(UInt64.ofNat (2 ^ k) = 0 ∨ UInt64.ofNat (2 ^ k) = 1) := by
  have hlt : 1 < 2 ^ k := Nat.one_lt_two_pow h0
  have hnat := toNat_ofNat_two_pow hk
  rintro (he | he) <;> rw [he] at hnat
  · exact Nat.ne_of_gt (Nat.two_pow_pos k) hnat.symm
  · exact Nat.ne_of_gt hlt hnat.symm

/-- Clearing the lowest bits leaves a multiple. -/
theorem toNat_and_not_mask (x : UInt64) {k : Nat} (hk : k < 64) :
    (x &&& ~~~(UInt64.ofNat (2 ^ k) - 1)).toNat = x.toNat / 2 ^ k * 2 ^ k := by
  have hpow : (2 : Nat) ^ k < 2 ^ 64 := Nat.pow_lt_pow_right (by decide) hk
  have hpos := Nat.two_pow_pos k
  have hnot : (~~~(UInt64.ofNat (2 ^ k) - 1)).toNat = 2 ^ 64 - (2 ^ k - 1 + 1) := by
    rw [UInt64.toNat_not, toNat_ofNat_two_pow_sub_one hk, show UInt64.size = 2 ^ 64 from rfl]
    omega
  rw [UInt64.toNat_and, hnot]
  refine Nat.eq_of_testBit_eq fun i => ?_
  rw [Nat.testBit_and, Nat.testBit_two_pow_sub_succ (by omega), Nat.testBit_two_pow_sub_one,
    Nat.testBit_mul_two_pow, Nat.testBit_div_two_pow]
  by_cases hi : k ≤ i
  · rw [Nat.sub_add_cancel hi]
    by_cases h64 : i < 64
    · simp [hi, h64, Nat.not_lt.2 hi]
    · have hx : x.toNat.testBit i = false :=
        Nat.testBit_lt_two_pow (Nat.lt_of_lt_of_le x.toNat_lt
          (Nat.pow_le_pow_right (by decide) (Nat.not_lt.1 h64)))
      simp [hx]
  · simp [hi, Nat.not_le.1 hi]

/-- The mask computes the multiple if the step that it takes stays in the word. -/
theorem toNat_alignUp {value : UInt64} {k : Nat} (hk : k < 64)
    (h : value.toNat + (2 ^ k - 1) < 2 ^ 64) :
    (alignUp value (.ofNat (2 ^ k))).toNat = roundUp value.toNat (2 ^ k) := by
  have hpos := Nat.two_pow_pos k
  unfold alignUp roundUp
  rw [if_neg (Nat.ne_of_gt hpos)]
  by_cases h0 : k = 0
  · subst h0
    simp
  · -- Only the sum with the mask has to fit, since the word before it may wrap around and back.
    have hstep : (value + UInt64.ofNat (2 ^ k) - 1).toNat = value.toNat + (2 ^ k - 1) := by
      rw [UInt64.sub_eq_add_neg, UInt64.add_assoc, ← UInt64.sub_eq_add_neg, UInt64.toNat_add,
        toNat_ofNat_two_pow_sub_one hk, Nat.mod_eq_of_lt h]
    rw [if_neg (ofNat_two_pow_ne h0 hk), toNat_and_not_mask _ hk, hstep]

end ElfFormat
