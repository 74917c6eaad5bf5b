import ElfFormat.Error

/-!
# Guards

A guard is a condition with the failure that is raised where it does not hold. Decoding is a row of
guards in front of a result: the first of them that does not hold decides (`protect_eq_error_iff`),
and if there is none the result comes through (`protect_eq_ok_iff`).
-/

namespace ElfFormat

/-- A condition that is checked, and the failure if it does not hold. -/
structure Guard where
  holds : Bool
  failure : Error

namespace Guard

variable {α β : Type}

/-- A result behind guards. -/
def protect : List Guard → α → Except Error α
  | [], a => .ok a
  | g :: guards, a => if g.holds then protect guards a else .error g.failure

/-- The first guard that does not hold raises `e`. -/
def FirstFailure (guards : List Guard) (e : Error) : Prop :=
  ∃ before g after, guards = before ++ g :: after ∧ (∀ h ∈ before, h.holds = true) ∧
    g.holds = false ∧ g.failure = e

theorem protect_cons_of_holds {g : Guard} (h : g.holds = true) (guards : List Guard) (a : α) :
    protect (g :: guards) a = protect guards a := by
  rw [protect, if_pos h]

theorem protect_cons_of_not {g : Guard} (h : g.holds = false) (guards : List Guard) (a : α) :
    protect (g :: guards) a = .error g.failure := by
  rw [protect, if_neg (by rw [h]; decide)]

theorem protect_single (p : Prop) [Decidable p] (e : Error) (a : α) :
    protect [{ holds := p, failure := e }] a = if p then .ok a else .error e := by
  by_cases h : p <;> simp [protect, h]

/-- The later checks are made only if the earlier ones hold. -/
theorem protect_append : ∀ (guards guards' : List Guard) (a : α) (b : β),
    protect (guards ++ guards') b =
      match protect guards a with
      | .ok _ => protect guards' b
      | .error e => .error e
  | [], _, _, _ => rfl
  | g :: guards, guards', a, b => by
    rw [List.cons_append]
    by_cases h : g.holds = true
    · rw [protect_cons_of_holds h, protect_cons_of_holds h]
      exact protect_append guards guards' a b
    · have h := eq_false_of_ne_true h
      rw [protect_cons_of_not h, protect_cons_of_not h]

theorem protect_append_of_holds : ∀ {guards : List Guard}, (∀ g ∈ guards, g.holds = true) →
    ∀ (guards' : List Guard) (a : α), protect (guards ++ guards') a = protect guards' a
  | [], _, _, _ => rfl
  | g :: guards, h, guards', a => by
    obtain ⟨hg, h⟩ := List.forall_mem_cons.1 h
    rw [List.cons_append, protect_cons_of_holds hg]
    exact protect_append_of_holds h guards' a

/-- What is done with the result afterwards does not move the guards. -/
theorem protect_bind : ∀ (guards : List Guard) (a : α) (f : α → β),
    (protect guards a >>= fun a => .ok (f a)) = protect guards (f a)
  | [], _, _ => rfl
  | g :: guards, a, f => by
    by_cases h : g.holds = true
    · rw [protect_cons_of_holds h, protect_cons_of_holds h]
      exact protect_bind guards a f
    · have h := eq_false_of_ne_true h
      rw [protect_cons_of_not h, protect_cons_of_not h]
      rfl

theorem protect_eq_ok_iff {a b : α} : ∀ {guards : List Guard},
    protect guards a = .ok b ↔ (∀ g ∈ guards, g.holds = true) ∧ a = b
  | [] => by simp [protect]
  | g :: guards => by
    by_cases h : g.holds = true
    · rw [protect_cons_of_holds h, protect_eq_ok_iff, List.forall_mem_cons]
      simp [h]
    · rw [protect_cons_of_not (eq_false_of_ne_true h), List.forall_mem_cons]
      simp [h]

/-- The failure is that of the first check that does not hold. -/
theorem protect_eq_error_iff {a : α} {e : Error} : ∀ {guards : List Guard},
    protect guards a = .error e ↔ FirstFailure guards e
  | [] => by simp [protect, FirstFailure]
  | g :: guards => by
    by_cases h : g.holds = true
    · rw [protect_cons_of_holds h, protect_eq_error_iff]
      constructor
      · rintro ⟨before, g', after, rfl, hb, hg, he⟩
        exact ⟨g :: before, g', after, rfl, List.forall_mem_cons.2 ⟨h, hb⟩, hg, he⟩
      · rintro ⟨before, g', after, heq, hb, hg, he⟩
        rcases before with _ | ⟨f, before⟩
        · obtain ⟨rfl, rfl⟩ := List.cons.inj heq
          rw [h] at hg
          cases hg
        · obtain ⟨rfl, rfl⟩ := List.cons.inj heq
          exact ⟨before, g', after, rfl, (List.forall_mem_cons.1 hb).2, hg, he⟩
    · have hf := eq_false_of_ne_true h
      rw [protect_cons_of_not hf, Except.error.injEq]
      constructor
      · exact fun he => ⟨[], g, guards, rfl, nofun, hf, he⟩
      · rintro ⟨before, g', after, heq, hb, -, he⟩
        rcases before with _ | ⟨f, before⟩
        · obtain ⟨rfl, -⟩ := List.cons.inj heq
          exact he
        · obtain ⟨rfl, -⟩ := List.cons.inj heq
          exact absurd (hb g List.mem_cons_self) h

end Guard

end ElfFormat
