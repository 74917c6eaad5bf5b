import Mathlib.Order.Bounds.Defs
import ElfFormat.Proofs.Machine.Word

/-!
# Rounding up

What rounding comes to is the least multiple from a value on (`isLeast_roundUp`), and its laws are
those of a least element. The mask on words keeps them as long as that multiple is a word
(`toNat_alignUp`): a multiple is left alone, even the last one (`alignUp_of_dvd`), and what is
rounded may be moved by multiples before or after (`alignUp_add`). The last multiple is also where a
machine that stops on overflow cannot follow the mask (`Machine.alignUp_of_overflow`).
-/

namespace ElfFormat

variable {value v w alignment k : Nat}

/-! ## In natural numbers -/

theorem roundUp_lt (value : Nat) (h : alignment ≠ 0) :
    roundUp value alignment < value + alignment := by
  have hle := Nat.div_mul_le_self (value + (alignment - 1)) alignment
  rw [roundUp, if_neg h]
  omega

/-- A multiple from the value on is not less than what rounding gives, which is less than a step
above the value. -/
theorem roundUp_le {m : Nat} (h : alignment ≠ 0) (hm : alignment ∣ m) (hle : value ≤ m) :
    roundUp value alignment ≤ m := by
  have hlt := roundUp_lt value h
  exact Nat.le_of_lt_add_of_dvd (by omega) (dvd_roundUp value h) hm

theorem isLeast_roundUp (value : Nat) (h : alignment ≠ 0) :
    IsLeast {m | alignment ∣ m ∧ value ≤ m} (roundUp value alignment) :=
  ⟨⟨dvd_roundUp value h, le_roundUp _ _⟩, fun _ ⟨hm, hle⟩ => roundUp_le h hm hle⟩

theorem roundUp_of_dvd (h : alignment ≠ 0) (hv : alignment ∣ value) :
    roundUp value alignment = value :=
  Nat.le_antisymm (roundUp_le h hv (Nat.le_refl _)) (le_roundUp _ _)

theorem roundUp_mono (h : alignment ≠ 0) (hle : v ≤ w) :
    roundUp v alignment ≤ roundUp w alignment :=
  roundUp_le h (dvd_roundUp w h) (Nat.le_trans hle (le_roundUp _ _))

/-! ## In words -/

/-- A multiple that is a word has room for a step behind it, so the mask leaves it alone. -/
theorem alignUp_of_dvd {value : UInt64} (hk : k < 64) (h : 2 ^ k ∣ value.toNat) :
    alignUp value (.ofNat (2 ^ k)) = value := by
  have hpos := Nat.two_pow_pos k
  have hlt := value.toNat_lt
  have hword : 2 ^ k ∣ 2 ^ 64 := Nat.pow_dvd_pow 2 (Nat.le_of_lt hk)
  have hle : value.toNat + 2 ^ k ≤ 2 ^ 64 :=
    Nat.le_of_lt_add_of_dvd (by omega) (Nat.dvd_add h (Nat.dvd_refl _)) hword
  rw [← UInt64.toNat_inj, toNat_alignUp hk (by omega), roundUp_of_dvd (Nat.ne_of_gt hpos) h]

theorem alignUp_add {value : UInt64} {m : Nat} (hk : k < 64)
    (h : value.toNat + (m + 1) * 2 ^ k < 2 ^ 64) :
    (value + .ofNat (m * 2 ^ k)).toNat = value.toNat + m * 2 ^ k ∧
      alignUp (value + .ofNat (m * 2 ^ k)) (.ofNat (2 ^ k)) =
        alignUp value (.ofNat (2 ^ k)) + .ofNat (m * 2 ^ k) ∧
      (alignUp value (.ofNat (2 ^ k)) + .ofNat (m * 2 ^ k)).toNat =
        (alignUp value (.ofNat (2 ^ k))).toNat + m * 2 ^ k := by
  rw [Nat.succ_mul] at h
  have hpos := Nat.two_pow_pos k
  have hm : (UInt64.ofNat (m * 2 ^ k)).toNat = m * 2 ^ k :=
    UInt64.toNat_ofNat_of_lt' (show _ < 2 ^ 64 by omega)
  have hmoved : (value + .ofNat (m * 2 ^ k)).toNat = value.toNat + m * 2 ^ k := by
    rw [Machine.toNat_add (by rw [hm]; omega), hm]
  have hvalue : (alignUp value (.ofNat (2 ^ k))).toNat = roundUp value.toNat (2 ^ k) :=
    toNat_alignUp hk (by omega)
  have hlt := roundUp_lt value.toNat (Nat.ne_of_gt hpos)
  have hrounded : (alignUp value (.ofNat (2 ^ k)) + .ofNat (m * 2 ^ k)).toNat =
      (alignUp value (.ofNat (2 ^ k))).toNat + m * 2 ^ k := by
    rw [Machine.toNat_add (by rw [hm]; omega), hm]
  refine ⟨hmoved, ?_, hrounded⟩
  rw [← UInt64.toNat_inj, hrounded, toNat_alignUp hk (by omega), hmoved, hvalue, Nat.add_comm,
    roundUp_add (Nat.dvd_mul_left _ _), Nat.add_comm]

/-- For an alignment that is a power of two the mask gives the least multiple from a value on, and
on no machine does it overflow, if the sum of both is a word. Rounding again changes nothing, a
larger value is not rounded to less, and moving by multiples may be done before or after. Where the
sum is no word, as it may be when the rounded value is rounded again, a machine that stops on
overflow stops, and one that wraps around comes to what the mask gives. -/
theorem alignUp_gives_least_multiple :
    (∀ k < 64, ∀ value : UInt64, value.toNat + 2 ^ k ≤ 2 ^ 64 - 1 →
      IsLeast {m | 2 ^ k ∣ m ∧ value.toNat ≤ m} (alignUp value (.ofNat (2 ^ k))).toNat ∧
      Machine.alignUp value (.ofNat (2 ^ k)) = pure (alignUp value (.ofNat (2 ^ k))) ∧
      alignUp (alignUp value (.ofNat (2 ^ k))) (.ofNat (2 ^ k)) = alignUp value (.ofNat (2 ^ k)) ∧
      (alignUp value (.ofNat (2 ^ k))).toNat < value.toNat + 2 ^ k ∧
      ∀ smaller ≤ value, alignUp smaller (.ofNat (2 ^ k)) ≤ alignUp value (.ofNat (2 ^ k))) ∧
    (∀ k < 64, ∀ (value : UInt64) (m : Nat), value.toNat + (m + 1) * 2 ^ k ≤ 2 ^ 64 - 1 →
      (value + .ofNat (m * 2 ^ k)).toNat = value.toNat + m * 2 ^ k ∧
      alignUp (value + .ofNat (m * 2 ^ k)) (.ofNat (2 ^ k)) =
        alignUp value (.ofNat (2 ^ k)) + .ofNat (m * 2 ^ k) ∧
      (alignUp value (.ofNat (2 ^ k)) + .ofNat (m * 2 ^ k)).toNat =
        (alignUp value (.ofNat (2 ^ k))).toNat + m * 2 ^ k) ∧
    (∀ value, alignUp value 0 = value) ∧
    ∀ k < 64, k ≠ 0 → ∀ value : UInt64, 2 ^ 64 ≤ value.toNat + 2 ^ k →
      Machine.alignUp value (.ofNat (2 ^ k)) .wraps = .ok (alignUp value (.ofNat (2 ^ k))) ∧
      Machine.alignUp value (.ofNat (2 ^ k)) .stops = .error .abort := by
  refine ⟨fun k hk value h => ?_, fun k hk value m h => alignUp_add hk (by omega), fun _ => rfl,
    fun k hk h0 value h => Machine.alignUp_of_overflow h0 hk h⟩
  have hpos := Nat.two_pow_pos k
  have hne := Nat.ne_of_gt hpos
  have hnat : (alignUp value (.ofNat (2 ^ k))).toNat = roundUp value.toNat (2 ^ k) :=
    toNat_alignUp hk (by omega)
  rw [hnat]
  refine ⟨isLeast_roundUp _ hne, Machine.alignUp_eq hk (by omega), alignUp_of_dvd hk ?_,
    roundUp_lt _ hne, fun smaller hle => ?_⟩
  · rw [hnat]
    exact dvd_roundUp _ hne
  · have hle := UInt64.le_iff_toNat_le.1 hle
    rw [UInt64.le_iff_toNat_le, hnat, toNat_alignUp hk (by omega)]
    exact roundUp_mono hne hle

/-- The last value that an alignment to 8 takes comes to the last multiple of all. That stays what
it is although no step behind it is a word, but a machine that stops on overflow does not come so
far; and 5 comes to the same moved by 24 as before. -/
theorem alignUp_gives_least_multiple_topmost :
    let last : UInt64 := 0xfffffffffffffff7
    IsLeast {m | 2 ^ 3 ∣ m ∧ last.toNat ≤ m} 0xfffffffffffffff8 ∧
      alignUp 0xfffffffffffffff8 (.ofNat (2 ^ 3)) = 0xfffffffffffffff8 ∧
      Machine.alignUp 0xfffffffffffffff8 (.ofNat (2 ^ 3)) .stops = .error .abort ∧
      alignUp 0xfffffffffffffff1 (.ofNat (2 ^ 3)) ≤ 0xfffffffffffffff8 ∧
      alignUp (5 + .ofNat (3 * 2 ^ 3)) (.ofNat (2 ^ 3)) = 8 + .ofNat (3 * 2 ^ 3) := by
  intro last
  obtain ⟨hround, hmove, -, hoverflow⟩ := alignUp_gives_least_multiple
  obtain ⟨hleast, -, htwice, -, hmono⟩ := hround 3 (by decide) last (by decide)
  have hlast : alignUp last (.ofNat (2 ^ 3)) = 0xfffffffffffffff8 := by decide
  rw [hlast] at hleast htwice hmono
  have hstops := (hoverflow 3 (by decide) (by decide) 0xfffffffffffffff8 (by decide)).2
  exact ⟨hleast, htwice, hstops, hmono _ (by decide), (hmove 3 (by decide) 5 3 (by decide)).2.1⟩

end ElfFormat
