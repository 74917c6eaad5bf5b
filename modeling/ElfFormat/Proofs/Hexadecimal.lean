import Mathlib.Data.List.TakeWhile
import ElfFormat.Text.Hex
import ElfFormat.Text.Radix

/-!
# What hexadecimal texts say

`Hex.Writes` tells what digits are right for a number without writing any: they are of lower case,
they stand for the number, and there are as many as asked for and no more than needed. Those that
are written are right (`Hex.writes_padded`), and a number is read back from them whatever is behind,
as long as that does not go on with a digit (`Hex.Writes.read?_eq`).
-/

namespace ElfFormat

namespace Hex

/-- The digits, each at the position that is its value. -/
def alphabet : List Char := "0123456789abcdef".toList

/-- The number that digits stand for. -/
def value (ds : List Char) : Nat :=
  Radix.value 16 (ds.map fun c => alphabet.idxOf c)

/-- The digits stand for the number, in lower case. There are at least `width` of them, and more
only if none of them could be left out. -/
structure Writes (width n : Nat) (ds : List Char) : Prop where
  lower : ∀ c ∈ ds, c ∈ alphabet
  value_eq : value ds = n
  width_le : width ≤ ds.length
  minimal : width < ds.length → ds.head? ≠ some '0'

/-- The number at the front of a text, and the text behind it. -/
def read? : List Char → Option (Nat × List Char)
  | '0' :: 'x' :: cs =>
    some (value (cs.takeWhile (· ∈ alphabet)), cs.dropWhile (· ∈ alphabet))
  | _ => none

variable {width n m : Nat} {ds es : List Char}

theorem value_concat (ds : List Char) (c : Char) :
    value (ds ++ [c]) = value ds * 16 + alphabet.idxOf c := by
  unfold value
  rw [List.map_append, List.map_singleton, Radix.value_concat]

theorem value_zeros : ∀ (k : Nat) (ds : List Char), value (List.replicate k '0' ++ ds) = value ds
  | 0, _ => rfl
  | k + 1, ds => value_zeros k ds

theorem digitChar_mem : ∀ d < 16, d.digitChar ∈ alphabet ∧ alphabet.idxOf d.digitChar = d := by
  decide

theorem lower_digits (n : Nat) : ∀ c ∈ digits n, c ∈ alphabet := by
  induction n using Nat.strongRecOn with
  | ind n ih =>
    unfold digits at *
    by_cases hn : n < 16
    · rw [Nat.toDigits_of_lt_base hn]
      simpa using (digitChar_mem n hn).1
    · rw [Nat.toDigits_of_base_le (by decide) (Nat.not_lt.1 hn)]
      have hlast := (digitChar_mem (n % 16) (Nat.mod_lt _ (by decide))).1
      simpa [or_imp, forall_and, hlast] using ih (n / 16) (by omega)

/-- The digits of a number say its value. -/
theorem value_digits (n : Nat) : value (digits n) = n := by
  induction n using Nat.strongRecOn with
  | ind n ih =>
    unfold digits at *
    by_cases hn : n < 16
    · rw [Nat.toDigits_of_lt_base hn]
      simp [value, Radix.value, (digitChar_mem n hn).2]
    · rw [Nat.toDigits_of_base_le (by decide) (Nat.not_lt.1 hn), value_concat,
        ih (n / 16) (by omega), (digitChar_mem (n % 16) (Nat.mod_lt _ (by decide))).2]
      omega

/-- Zeros are put in front only up to the width. -/
theorem writes_padded (h : 0 < width) (n : Nat) :
    Writes width n (List.replicate (width - (digits n).length) '0' ++ digits n) := by
  refine ⟨fun c hc => ?_, by rw [value_zeros, value_digits], by simp; omega, fun hlt => ?_⟩
  · rcases List.mem_append.1 hc with hz | hd
    · rw [(List.mem_replicate.1 hz).2]
      decide
    · exact lower_digits n c hd
  · have hlong : width < (digits n).length := by
      simp at hlt
      omega
    rw [Nat.sub_eq_zero_of_le (Nat.le_of_lt hlong)]
    refine Radix.head?_toDigits (by decide) (Nat.pos_of_ne_zero ?_)
    rintro rfl
    have hone : (digits 0).length = 1 := rfl
    omega

theorem writes_digits (n : Nat) : Writes 1 n (digits n) := by
  have hpos : 0 < (digits n).length := Nat.length_toDigits_pos
  have h := writes_padded Nat.one_pos n
  rwa [Nat.sub_eq_zero_of_le hpos] at h

namespace Writes

theorem read?_eq (h : Writes width n ds) {rest : List Char} (hr : ∀ c ∈ rest.head?, c ∉ alphabet) :
    Hex.read? ('0' :: 'x' :: (ds ++ rest)) = some (n, rest) := by
  have hlower : ∀ c ∈ ds, decide (c ∈ alphabet) = true := by simpa using h.lower
  have hrest : rest.takeWhile (· ∈ alphabet) = [] ∧ rest.dropWhile (· ∈ alphabet) = rest := by
    cases rest with
    | nil => exact ⟨rfl, rfl⟩
    | cons c rest => simp [hr c rfl]
  rw [Hex.read?, List.takeWhile_append_of_pos hlower, List.dropWhile_append_of_pos hlower,
    hrest.1, hrest.2, List.append_nil, h.value_eq]

end Writes

end Hex
end ElfFormat
