import ElfFormat.Arithmetic

/-!
# Numbers in digits

`Radix.value` is the number that digits to a base stand for. `Radix.word?` is that number if it
fits 64 bits (`word?_eq_some_iff`). It gives up at the first digit at which it does not fit, so a
long row of digits makes no large number.
-/

namespace ElfFormat

namespace Radix

/-- The number that digits stand for, the most significant first. -/
def value (base : Nat) (digits : List Nat) : Nat :=
  digits.foldl (fun n d => n * base + d) 0

/-- The number that digits stand for, if it fits 64 bits. -/
def word? (base : Nat) (digits : List Nat) : Option Nat :=
  digits.foldlM (fun n d => if n * base + d < 2 ^ 64 then some (n * base + d) else none) 0

theorem le_foldl {base : Nat} (hb : 0 < base) :
    ∀ (digits : List Nat) (n : Nat), n ≤ digits.foldl (fun n d => n * base + d) n
  | [], _ => Nat.le_refl _
  | d :: digits, n => by
    have h := le_foldl hb digits (n * base + d)
    have hn : n ≤ n * base := Nat.le_mul_of_pos_right n hb
    rw [List.foldl_cons]
    omega

theorem foldlM_eq_some_iff {base : Nat} (hb : 0 < base) :
    ∀ (digits : List Nat) (n m : Nat), n < 2 ^ 64 →
      (digits.foldlM (fun n d => if n * base + d < 2 ^ 64 then some (n * base + d) else none) n
          = some m ↔
        digits.foldl (fun n d => n * base + d) n = m ∧ m < 2 ^ 64)
  | [], n, m, hn => by
    constructor
    · rintro ⟨⟩
      exact ⟨rfl, hn⟩
    · rintro ⟨rfl, -⟩
      rfl
  | d :: digits, n, m, hn => by
    rw [List.foldlM_cons, List.foldl_cons]
    by_cases h : n * base + d < 2 ^ 64
    · rw [if_pos h]
      exact foldlM_eq_some_iff hb digits (n * base + d) m h
    · rw [if_neg h]
      have hle := le_foldl hb digits (n * base + d)
      constructor
      · rintro ⟨⟩
      · rintro ⟨rfl, hm⟩
        omega

theorem word?_eq_some_iff {base : Nat} (hb : 0 < base) {digits : List Nat} {n : Nat} :
    word? base digits = some n ↔ value base digits = n ∧ n < 2 ^ 64 :=
  foldlM_eq_some_iff hb digits 0 n (by decide)

theorem value_concat (base : Nat) (digits : List Nat) (d : Nat) :
    value base (digits ++ [d]) = value base digits * base + d := by
  simp [value]

/-- No zero leads the digits of a positive number. -/
theorem head?_toDigits {base n : Nat} (hb : 1 < base) (h : 0 < n) :
    (Nat.toDigits base n).head? ≠ some '0' := by
  induction n using Nat.strongRecOn with
  | ind n ih =>
    by_cases hn : n < base
    · rw [Nat.toDigits_of_lt_base hn, List.head?_cons, ne_eq, Option.some.injEq,
        Nat.digitChar_eq_zero]
      exact Nat.ne_of_gt h
    · have hle := Nat.not_lt.1 hn
      have hhead := ih (n / base) (Nat.div_lt_self h hb) (Nat.div_pos hle (Nat.zero_lt_of_lt hb))
      rw [Nat.toDigits_of_base_le hb hle]
      cases hds : Nat.toDigits base (n / base) with
      | nil => exact absurd hds Nat.toDigits_ne_nil
      | cons d ds =>
        rw [hds] at hhead
        exact hhead

end Radix

end ElfFormat
