import Mathlib.Data.List.Basic

/-!
# The first match

A search through a list gives the element that satisfies a condition and stands in front of all
others that do (`IsFirst`). That says more than membership: what is in front of it was passed over,
and nothing behind it has a part in the answer. The searches of the standard library are brought to
this form here, under a condition that the tested one comes to on the elements of the list.
-/

namespace ElfFormat

/-- The element at position `i` satisfies `P`, and none in front of it does. -/
structure IsFirst {α : Type} (l : List α) (P : α → Prop) (i : Nat) (a : α) : Prop where
  get_eq : l[i]? = some a
  holds : P a
  before : ∀ j < i, ∀ b, l[j]? = some b → ¬P b

namespace IsFirst

variable {α : Type} {l : List α} {P Q : α → Prop} {i j : Nat} {a b : α}

theorem mem (h : IsFirst l P i a) : a ∈ l :=
  List.mem_of_getElem? h.get_eq

/-- No match stands in front of the first. -/
theorem le (h : IsFirst l P i a) (hb : l[j]? = some b) (hp : P b) : i ≤ j :=
  Nat.le_of_not_lt fun hlt => h.before j hlt b hb hp

theorem congr (hpq : ∀ a ∈ l, P a ↔ Q a) (h : IsFirst l P i a) : IsFirst l Q i a where
  get_eq := h.get_eq
  holds := (hpq a h.mem).1 h.holds
  before j hj b hb hq := h.before j hj b hb ((hpq b (List.mem_of_getElem? hb)).2 hq)

end IsFirst

/-- Along an order in which the list is sorted, the first match of the list is the least one. -/
theorem exists_isFirst_iff_of_pairwise {α : Type} {l : List α} {P : α → Prop} {R : α → α → Prop}
    (hl : l.Pairwise R) (hasymm : ∀ a b, R a b → ¬R b a) {a : α} :
    (∃ i, IsFirst l P i a) ↔ a ∈ l ∧ P a ∧ ∀ b ∈ l, R b a → ¬P b := by
  rw [List.pairwise_iff_getElem] at hl
  constructor
  · rintro ⟨i, hfirst⟩
    refine ⟨hfirst.mem, hfirst.holds, fun b hb hba hp => ?_⟩
    obtain ⟨hi, rfl⟩ := List.getElem?_eq_some_iff.1 hfirst.get_eq
    obtain ⟨j, hj, rfl⟩ := List.mem_iff_getElem.1 hb
    -- No match stands in front of the first, and what stands behind it is greater.
    rcases Nat.eq_or_lt_of_le (hfirst.le (List.getElem?_eq_getElem hj) hp) with rfl | hlt
    · exact hasymm _ _ hba hba
    · exact hasymm _ _ hba (hl _ _ hi hj hlt)
  · rintro ⟨ha, hp, hbefore⟩
    obtain ⟨i, hi, rfl⟩ := List.mem_iff_getElem.1 ha
    refine ⟨i, List.getElem?_eq_getElem hi, hp, fun j hj b hb => ?_⟩
    obtain ⟨hlt, rfl⟩ := List.getElem?_eq_some_iff.1 hb
    exact hbefore _ (List.getElem_mem hlt) (hl _ _ hlt hi hj)

section Search

variable {α β : Type} {l : List α} {p : α → Bool} {P : α → Prop}

theorem findIdx?_eq_some_iff_isFirst (h : ∀ a ∈ l, p a = true ↔ P a) {i : Nat} :
    l.findIdx? p = some i ↔ ∃ a, IsFirst l P i a := by
  rw [List.findIdx?_eq_some_iff_getElem]
  constructor
  · rintro ⟨hi, hp, hbefore⟩
    refine ⟨l[i], List.getElem?_eq_getElem hi, (h _ (List.getElem_mem hi)).1 hp, ?_⟩
    intro j hj b hb
    obtain ⟨hlt, rfl⟩ := List.getElem?_eq_some_iff.1 hb
    exact mt (h _ (List.getElem_mem hlt)).2 (hbefore j hj)
  · rintro ⟨a, hget, hp, hbefore⟩
    obtain ⟨hi, rfl⟩ := List.getElem?_eq_some_iff.1 hget
    refine ⟨hi, (h _ (List.getElem_mem hi)).2 hp, fun j hj hq => ?_⟩
    have hlt : j < l.length := Nat.lt_trans hj hi
    exact hbefore j hj _ (List.getElem?_eq_getElem hlt) ((h _ (List.getElem_mem hlt)).1 hq)

theorem find?_eq_some_iff_isFirst (h : ∀ a ∈ l, p a = true ↔ P a) {a : α} :
    l.find? p = some a ↔ ∃ i, IsFirst l P i a := by
  rw [List.find?_eq_bind_findIdx?_getElem?, Option.bind_eq_some_iff]
  simp only [findIdx?_eq_some_iff_isFirst h]
  constructor
  · rintro ⟨i, ⟨b, hfirst⟩, hget⟩
    obtain rfl := Option.some.inj (hfirst.get_eq.symm.trans hget)
    exact ⟨i, hfirst⟩
  · rintro ⟨i, hfirst⟩
    exact ⟨i, ⟨a, hfirst⟩, hfirst.get_eq⟩

theorem find?_eq_none_iff_forall (h : ∀ a ∈ l, p a = true ↔ P a) :
    l.find? p = none ↔ ∀ a ∈ l, ¬P a := by
  rw [List.find?_eq_none]
  exact forall₂_congr fun a ha => not_congr (h a ha)

/-- A search for a value stops at the first element that gives one. -/
theorem findSome?_eq_some_iff_isFirst {f : α → Option β} {b : β} :
    l.findSome? f = some b ↔ ∃ i a, IsFirst l (fun a => ∃ b, f a = some b) i a ∧ f a = some b := by
  rw [List.findSome?_eq_some_iff]
  constructor
  · rintro ⟨front, a, back, rfl, ha, hfront⟩
    refine ⟨front.length, a, ⟨by simp, ⟨b, ha⟩, ?_⟩, ha⟩
    rintro j hj c hc ⟨d, hd⟩
    rw [List.getElem?_append_left hj] at hc
    rw [hfront c (List.mem_of_getElem? hc)] at hd
    cases hd
  · rintro ⟨i, a, hfirst, ha⟩
    obtain ⟨hi, rfl⟩ := List.getElem?_eq_some_iff.1 hfirst.get_eq
    refine ⟨l.take i, l[i], l.drop (i + 1), ?_, ha, fun c hc => ?_⟩
    · rw [← List.drop_eq_getElem_cons hi, List.take_append_drop]
    · obtain ⟨j, hj, rfl⟩ := List.mem_take_iff_getElem.1 hc
      refine Option.eq_none_iff_forall_ne_some.2 fun d hd => ?_
      exact hfirst.before j (by omega) _ (List.getElem?_eq_getElem (by omega)) ⟨d, hd⟩

end Search

end ElfFormat
