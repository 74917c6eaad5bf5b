import Mathlib.Data.List.Forall2
import ElfFormat.Error
import ElfFormat.Proofs.Alignment

/-!
# Computing with machine words

A machine computes offsets and lengths in words of 64 bits. Where a sum, a difference or a product
leaves their range, a program that does not check goes on with the lower half or stops, depending on
how it was built; where a range leaves the bytes that it is cut from, it always stops. `Compute` is
a computation in either kind of machine.

`Exact` says that it comes to neither: whatever the machine does on overflow, the computation has
the result that natural numbers give, or fails for the same reason. Computations in sequence are
exact if each is (`Exact.bind`), so a program is exact if every single operation stays within its
range (`add_eq`, `sub_eq`, `mul_eq`).
-/

namespace ElfFormat.Machine

/-- What a machine does with a result that does not fit into a word. -/
inductive Overflow where
  | wraps
  | stops

/-- How a computation ends without a result. -/
inductive Fault where
  | failure (e : Error)
  /-- Something was not checked that should have been. -/
  | abort

/-- A computation that may fail or stop, on a machine of either kind. -/
abbrev Compute := ReaderT Overflow (Except Fault)

variable {α β γ δ ι : Type}

/-- Ends with a failure that the program reports. -/
def fail (e : Error) : Compute α := fun _ => .error (.failure e)

/-- Ends because something was not checked. -/
def abort : Compute α := fun _ => .error .abort

/-- Goes on with what is left of a result that does not fit into a word, or stops. -/
def overflow (rest : UInt64) : Compute UInt64
  | .wraps => .ok rest
  | .stops => .error .abort

/-- A sum that the program does not check. -/
def add (a b : UInt64) : Compute UInt64 :=
  if a.toNat + b.toNat < 2 ^ 64 then pure (a + b) else overflow (a + b)

/-- A difference that the program does not check. -/
def sub (a b : UInt64) : Compute UInt64 :=
  if b.toNat ≤ a.toNat then pure (a - b) else overflow (a - b)

/-- A product that the program does not check. -/
def mul (a b : UInt64) : Compute UInt64 :=
  if a.toNat * b.toNat < 2 ^ 64 then pure (a * b) else overflow (a * b)

/-- A sum that the program checks, so that it is told where it does not fit. -/
def checkedAdd (a b : UInt64) : Option UInt64 :=
  if a.toNat + b.toNat < 2 ^ 64 then some (a + b) else none

/-- A product that the program checks. -/
def checkedMul (a b : UInt64) : Option UInt64 :=
  if a.toNat * b.toNat < 2 ^ 64 then some (a * b) else none

/-- Rounds up by a mask, with the step over the lowest bits taken in two unchecked operations. -/
def alignUp (value alignment : UInt64) : Compute UInt64 :=
  if alignment = 0 ∨ alignment = 1 then pure value
  else do
    let past ← sub (← add value alignment) 1
    let mask ← sub alignment 1
    return past &&& ~~~mask

/-- A step that computes nothing. -/
def lift : Except Error α → Compute α
  | .ok a => pure a
  | .error e => fail e

/-- The number of elements, as a machine counts them. -/
def size (l : List α) : UInt64 := .ofNat l.length

/-- The bytes from `start` up to `stop`. -/
def cut (bytes : List UInt8) (start stop : UInt64) : Compute (List UInt8) :=
  if start.toNat ≤ stop.toNat ∧ stop.toNat ≤ bytes.length then
    pure ((bytes.drop start.toNat).take (stop.toNat - start.toNat))
  else abort

/-- Keeps a failure as a value. -/
def settle (x : Compute α) : Compute (Except Error α) := fun mode =>
  match x mode with
  | .ok a => .ok (.ok a)
  | .error (.failure e) => .ok (.error e)
  | .error .abort => .error .abort

/-! ## Operations within their range -/

theorem toNat_add {a b : UInt64} (h : a.toNat + b.toNat < 2 ^ 64) :
    (a + b).toNat = a.toNat + b.toNat := by
  rw [UInt64.toNat_add, Nat.mod_eq_of_lt h]

theorem toNat_mul {a b : UInt64} (h : a.toNat * b.toNat < 2 ^ 64) :
    (a * b).toNat = a.toNat * b.toNat := by
  rw [UInt64.toNat_mul, Nat.mod_eq_of_lt h]

theorem toNat_size {l : List α} (h : l.length < 2 ^ 64) : (size l).toNat = l.length :=
  UInt64.toNat_ofNat_of_lt' h

theorem add_eq {a b : UInt64} (h : a.toNat + b.toNat < 2 ^ 64) : add a b = pure (a + b) :=
  if_pos h

theorem sub_eq {a b : UInt64} (h : b.toNat ≤ a.toNat) : sub a b = pure (a - b) :=
  if_pos h

theorem sub_wraps (a b : UInt64) : sub a b .wraps = .ok (a - b) := by
  unfold sub
  split <;> rfl

theorem mul_eq {a b : UInt64} (h : a.toNat * b.toNat < 2 ^ 64) : mul a b = pure (a * b) :=
  if_pos h

theorem checkedAdd_eq {a b : UInt64} (h : a.toNat + b.toNat < 2 ^ 64) :
    checkedAdd a b = some (a + b) :=
  if_pos h

theorem toNat_checkedAdd {a b c : UInt64} (h : checkedAdd a b = some c) :
    c.toNat = a.toNat + b.toNat := by
  unfold checkedAdd at h
  split at h
  · next hlt =>
    obtain rfl := Option.some.inj h
    exact toNat_add hlt
  · cases h

theorem toNat_min (a b : UInt64) : (min a b).toNat = min a.toNat b.toNat := by
  rw [show min a b = if a ≤ b then a else b from rfl, Nat.min_def]
  simp only [UInt64.le_iff_toNat_le]
  split <;> rfl

theorem cut_eq {bytes : List UInt8} {start stop : UInt64} (h : start.toNat ≤ stop.toNat)
    (hs : stop.toNat ≤ bytes.length) :
    cut bytes start stop = pure ((bytes.drop start.toNat).take (stop.toNat - start.toNat)) :=
  if_pos ⟨h, hs⟩

theorem cut_front {bytes : List UInt8} {stop : UInt64} (hs : stop.toNat ≤ bytes.length) :
    cut bytes 0 stop = pure (bytes.take stop.toNat) :=
  cut_eq (Nat.zero_le _) hs

theorem cut_rest {bytes : List UInt8} {start : UInt64} (hl : bytes.length < 2 ^ 64)
    (hs : start.toNat ≤ bytes.length) :
    cut bytes start (size bytes) = pure (bytes.drop start.toNat) := by
  have hsize := toNat_size hl
  rw [cut_eq (by omega) (by omega), hsize, List.take_of_length_le (Nat.le_of_eq List.length_drop)]

/-- As many bytes as a limit allows, which may be more than there are. -/
theorem cut_limit {bytes : List UInt8} (hl : bytes.length < 2 ^ 64) (limit : UInt64) :
    cut bytes 0 (min (size bytes) limit) = pure (bytes.take limit.toNat) := by
  have hmin := toNat_min (size bytes) limit
  rw [toNat_size hl] at hmin
  rw [cut_front (by omega), hmin, Nat.min_comm, ← List.take_eq_take_min]

theorem cut_run {bytes : List UInt8} (hl : bytes.length < 2 ^ 64) :
    cut bytes 0 (size (bytes.takeWhile (· ≠ 0))) = pure (bytes.takeWhile (· ≠ 0)) := by
  have hrun := @List.takeWhile_prefix _ bytes (· ≠ 0)
  have hle := hrun.length_le
  have hsize := toNat_size (Nat.lt_of_le_of_lt hle hl)
  rw [cut_front (by omega), hsize, ← List.prefix_iff_eq_take.1 hrun]

/-- Neither step leaves the word if the sum of value and alignment is one. -/
theorem alignUp_eq {value : UInt64} {k : Nat} (hk : k < 64) (h : value.toNat + 2 ^ k < 2 ^ 64) :
    alignUp value (.ofNat (2 ^ k)) = pure (ElfFormat.alignUp value (.ofNat (2 ^ k))) := by
  have hn := toNat_ofNat_two_pow hk
  have hadd : value.toNat + (UInt64.ofNat (2 ^ k)).toNat < 2 ^ 64 := by rwa [hn]
  have hone : (1 : UInt64).toNat ≤ (UInt64.ofNat (2 ^ k)).toNat := one_le_ofNat_two_pow hk
  have hone' : (1 : UInt64).toNat ≤ (value + UInt64.ofNat (2 ^ k)).toNat := by
    rw [toNat_add hadd]
    exact Nat.le_trans hone (Nat.le_add_left _ _)
  unfold alignUp ElfFormat.alignUp
  split
  · rfl
  · rw [add_eq hadd, pure_bind, sub_eq hone', pure_bind, sub_eq hone, pure_bind]

/-- Where the sum is no word, the kind of the machine matters: rounding wraps around and back, or
stops. -/
theorem alignUp_of_overflow {value : UInt64} {k : Nat} (h0 : k ≠ 0) (hk : k < 64)
    (h : 2 ^ 64 ≤ value.toNat + 2 ^ k) :
    alignUp value (.ofNat (2 ^ k)) .wraps = .ok (ElfFormat.alignUp value (.ofNat (2 ^ k))) ∧
      alignUp value (.ofNat (2 ^ k)) .stops = .error .abort := by
  have hadd : add value (.ofNat (2 ^ k)) = overflow (value + .ofNat (2 ^ k)) :=
    if_neg (by rw [toNat_ofNat_two_pow hk]; exact Nat.not_lt.2 h)
  have hne := ofNat_two_pow_ne h0 hk
  unfold alignUp ElfFormat.alignUp
  rw [if_neg hne, if_neg hne, hadd, sub_eq (one_le_ofNat_two_pow hk)]
  refine ⟨?_, rfl⟩
  -- A sum of 2 ^ 64 is 0 here, so taking 1 from it wraps around once more.
  show (sub (value + .ofNat (2 ^ k)) 1 .wraps).bind _ = _
  rw [sub_wraps]
  rfl

theorem alignUp_four {value : UInt64} (h : value.toNat + 4 < 2 ^ 64) :
    ∃ aligned, alignUp value 4 = pure aligned ∧ aligned.toNat = roundUp value.toNat 4 :=
  ⟨_, alignUp_eq (k := 2) (by decide) h, toNat_alignUp (k := 2) (by decide) (by omega)⟩

/-! ## Exact computations -/

/-- An outcome is a result that stands for the given one, or the same failure. -/
inductive Meets (R : α → β → Prop) : Except Fault α → Except Error β → Prop where
  | result {a : α} {b : β} (h : R a b) : Meets R (.ok a) (.ok b)
  | failure (e : Error) : Meets R (.error (.failure e)) (.error e)

/-- The same with a failure that is kept as a value. -/
inductive Settled (R : α → β → Prop) : Except Error α → Except Error β → Prop where
  | result {a : α} {b : β} (h : R a b) : Settled R (.ok a) (.ok b)
  | failure (e : Error) : Settled R (.error e) (.error e)

/-- Whatever the machine does on overflow, the computation comes to what natural numbers give. -/
def Exact (R : α → β → Prop) (x : Compute α) (y : Except Error β) : Prop :=
  ∀ mode, Meets R (x mode) y

variable {R : α → β → Prop} {S : γ → δ → Prop}

namespace Exact

theorem pure {a : α} {b : β} (h : R a b) : Exact R (pure a) (.ok b) :=
  fun _ => .result h

theorem fail (e : Error) : Exact R (fail e) (.error e) :=
  fun _ => .failure e

theorem lift (y : Except Error α) : Exact Eq (lift y) y := by
  rcases y with e | a
  · exact Exact.fail e
  · exact Exact.pure rfl

/-- A program is exact if each of its operations is. -/
theorem bind {x : Compute α} {y : Except Error β} {f : α → Compute γ} {g : β → Except Error δ}
    (hx : Exact R x y) (hf : ∀ a b, R a b → Exact S (f a) (g b)) :
    Exact S (x >>= f) (y >>= g) := by
  intro mode
  have h := hx mode
  show Meets S (x mode >>= fun a => f a mode) (y >>= g)
  generalize x mode = r at h ⊢
  rcases h with ⟨hr⟩ | e
  · exact hf _ _ hr mode
  · exact .failure e

/-- What comes behind a failure is not looked at. -/
theorem bind_error {x : Compute α} {e : Error} {f : α → Compute γ}
    (hx : Exact R x (.error e : Except Error β)) :
    Exact S (x >>= f) (.error e : Except Error δ) := by
  intro mode
  have h := hx mode
  show Meets S (x mode >>= fun a => f a mode) (.error e)
  generalize x mode = r at h ⊢
  rcases h with _ | _
  exact .failure e

/-- A step that always succeeds need not be a step of the exact computation. -/
theorem bind_ok {x : Compute α} {b : β} {f : α → Compute γ} {z : Except Error δ}
    (hx : Exact R x (.ok b)) (hf : ∀ a, R a b → Exact S (f a) z) : Exact S (x >>= f) z := by
  intro mode
  have h := hx mode
  show Meets S (x mode >>= fun a => f a mode) z
  generalize x mode = r at h ⊢
  rcases h with ⟨hr⟩
  exact hf _ hr mode

theorem map {x : Compute α} {y : Except Error β} {f : α → γ} {g : β → δ} (hx : Exact R x y)
    (h : ∀ a b, R a b → S (f a) (g b)) : Exact S (x >>= fun a => Pure.pure (f a)) (y.map g) := by
  rcases y with e | b
  · exact hx.bind fun a b hr => Exact.pure (h a b hr)
  · exact hx.bind fun a b hr => Exact.pure (h a b hr)

/-- An exact computation has its result on every machine. -/
theorem eq_ok {x : Compute α} {b : β} (h : Exact R x (.ok b)) (mode : Overflow) :
    ∃ a, x mode = .ok a ∧ R a b := by
  have h := h mode
  generalize x mode = r at h ⊢
  rcases h with ⟨hr⟩
  exact ⟨_, rfl, hr⟩

theorem eq_error {x : Compute α} {e : Error} (h : Exact R x (.error e)) (mode : Overflow) :
    x mode = .error (.failure e) := by
  have h := h mode
  generalize x mode = r at h ⊢
  rcases h with _ | _
  rfl

/-- A loop is exact if every turn is, and its results stand for each other one by one. -/
theorem mapM {f : ι → Compute α} {g : ι → Except Error β} : ∀ {l : List ι},
    (∀ i ∈ l, Exact R (f i) (g i)) → Exact (List.Forall₂ R) (l.mapM f) (l.mapM g)
  | [], _ => Exact.pure .nil
  | i :: l, h => by
    rw [List.mapM_cons, List.mapM_cons]
    refine (h i List.mem_cons_self).bind fun a b hr => ?_
    refine (mapM fun j hj => h j (List.mem_cons_of_mem i hj)).bind fun as bs hrs => ?_
    exact Exact.pure (.cons hr hrs)

theorem findM? {p : α → Compute Bool} {q : β → Bool}
    (h : ∀ a b, R a b → Exact Eq (p a) (.ok (q b))) :
    ∀ {l : List α} {m : List β}, List.Forall₂ R l m →
      Exact (Option.Rel R) (l.findM? p) (.ok (m.find? q))
  | _, _, .nil => Exact.pure .none
  | a :: l, b :: m, .cons hr hrs => by
    rw [List.findM?, List.find?_cons]
    refine (h a b hr).bind_ok fun found he => ?_
    rw [he]
    cases q b with
    | true => exact Exact.pure (.some hr)
    | false => exact findM? h hrs

theorem findSomeM? {f : α → Compute (Option γ)} {g : β → Option γ}
    (h : ∀ a b, R a b → Exact Eq (f a) (.ok (g b))) :
    ∀ {l : List α} {m : List β}, List.Forall₂ R l m →
      Exact Eq (l.findSomeM? f) (.ok (m.findSome? g))
  | _, _, .nil => Exact.pure rfl
  | a :: l, b :: m, .cons hr hrs => by
    rw [List.findSomeM?, List.findSome?_cons]
    refine (h a b hr).bind_ok fun found he => ?_
    rw [he]
    cases g b with
    | some c => exact Exact.pure rfl
    | none => exact findSomeM? h hrs

/-- To keep a failure as a value does not make it another failure. -/
theorem settle {x : Compute α} {y : Except Error β} (h : Exact R x y) :
    Exact (Settled R) (settle x) (.ok y) := by
  intro mode
  have h := h mode
  unfold Machine.settle
  generalize x mode = r at h ⊢
  rcases h with ⟨hr⟩ | e
  · exact .result (.result hr)
  · exact .result (.failure e)

end Exact

end ElfFormat.Machine
