/-!
# Byte strings

A byte string is a part of an array of bytes, and cutting it copies none of them. Where the bytes
are stored does not count: byte strings with the same bytes are equal (`Bytes.ext`), so all that
can be said about one is said by its list of bytes. `get?_eq`, `toList_extract` and `toList_before`
do that.
-/

namespace ElfFormat

namespace Bytes

/-- A part of an array of bytes. -/
structure Part where
  storage : ByteArray
  start : Nat
  size : Nat
  start_add_size_le : start + size ≤ storage.size

namespace Part

/-- The bytes in an array of their own. -/
def toArray (p : Part) : ByteArray :=
  p.storage.extract p.start (p.start + p.size)

/-- The bytes of the part, as a list. -/
def toList (p : Part) : List UInt8 :=
  p.toArray.data.toList

/-- The byte at a position of the part, without copying the part. -/
def get? (p : Part) (i : Nat) : Option UInt8 :=
  if h : i < p.size then
    some (p.storage.get (p.start + i) (by have := p.start_add_size_le; omega))
  else none

/-- The `length` bytes at `offset`, or as many of them as there are. -/
def extract (p : Part) (offset length : Nat) : Part where
  storage := p.storage
  start := p.start + min offset p.size
  size := min length (p.size - offset)
  start_add_size_le := by have := p.start_add_size_le; omega

/-- The position of the first `b` from position `i` on, or the size if there is none. -/
def positionFrom (p : Part) (b : UInt8) (i : Nat) : Nat :=
  if h : i < p.size then
    if p.storage.get (p.start + i) (by have := p.start_add_size_le; omega) = b then i
    else p.positionFrom b (i + 1)
  else p.size
termination_by p.size - i

/-- The bytes in front of the first `b`, or all of them if there is none. -/
def before (p : Part) (b : UInt8) : Part :=
  p.extract 0 (p.positionFrom b 0)

theorem toList_eq (p : Part) : p.toList = (p.storage.data.toList.drop p.start).take p.size := by
  simp [toList, toArray, List.extract_eq_take_drop]

theorem length_toList (p : Part) : p.toList.length = p.size := by
  have h : p.start + p.size ≤ p.storage.data.toList.length := p.start_add_size_le
  rw [toList_eq, List.length_take, List.length_drop]
  omega

theorem get?_eq (p : Part) (i : Nat) : p.get? i = p.toList[i]? := by
  by_cases h : i < p.size
  · have hs : p.start + i < p.storage.data.toList.length := by
      have : p.start + p.size ≤ p.storage.data.toList.length := p.start_add_size_le
      omega
    rw [get?, dif_pos h, toList_eq, List.getElem?_take_of_lt h, List.getElem?_drop,
      List.getElem?_eq_getElem hs]
    rfl
  · rw [get?, dif_neg h]
    exact (List.getElem?_eq_none (by rw [length_toList]; omega)).symm

theorem toList_extract (p : Part) (offset length : Nat) :
    (p.extract offset length).toList = (p.toList.drop offset).take length := by
  simp only [toList_eq, extract, List.drop_take, List.drop_drop, List.take_take]
  by_cases h : offset ≤ p.size
  · rw [Nat.min_eq_left h]
  · have hz : p.size - offset = 0 := by omega
    simp [hz]

theorem positionFrom_eq (p : Part) (b : UInt8) (i : Nat) (hi : i ≤ p.size) :
    p.positionFrom b i = i + ((p.toList.drop i).takeWhile (· ≠ b)).length := by
  rw [positionFrom]
  by_cases h : i < p.size
  · have hl : i < p.toList.length := by rw [length_toList]; exact h
    have hg := p.get?_eq i
    rw [get?, dif_pos h, List.getElem?_eq_getElem hl, Option.some.injEq] at hg
    rw [dif_pos h, hg, List.drop_eq_getElem_cons hl, List.takeWhile_cons]
    by_cases hb : p.toList[i] = b
    · rw [if_pos hb]
      simp [hb]
    · rw [if_neg hb, positionFrom_eq p b (i + 1) h, if_pos (by simpa using hb), List.length_cons]
      omega
  · rw [dif_neg h, List.drop_eq_nil_of_le (by rw [length_toList]; omega)]
    exact Nat.le_antisymm (Nat.not_lt.1 h) hi
termination_by p.size - i

theorem toList_before (p : Part) (b : UInt8) :
    (p.before b).toList = p.toList.takeWhile (· ≠ b) := by
  rw [before, toList_extract, positionFrom_eq p b 0 (Nat.zero_le _), List.drop_zero, Nat.zero_add]
  exact (List.prefix_iff_eq_take.1 (List.takeWhile_prefix _)).symm

/-- Parts are alike if they hold the same bytes. -/
def setoid : Setoid Part where
  r p q := p.toList = q.toList
  iseqv := ⟨fun _ => rfl, Eq.symm, Eq.trans⟩

end Part

end Bytes

/-- A byte string: a part of an array, of which only the bytes count. -/
def Bytes : Type :=
  Quotient Bytes.Part.setoid

namespace Bytes

/-- A whole array, as the part of itself that covers it. -/
def ofArray (bytes : ByteArray) : Bytes :=
  Quotient.mk Part.setoid
    { storage := bytes, start := 0, size := bytes.size, start_add_size_le := by simp }

/-- The bytes in an array of their own. -/
def toArray : Bytes → ByteArray :=
  Quotient.lift Part.toArray fun _ _ h => ByteArray.ext (Array.toList_inj.1 h)

/-- The bytes as a list, whatever part they are stored as. -/
def toList (bytes : Bytes) : List UInt8 :=
  bytes.toArray.data.toList

/-- The number of bytes, which all parts that stand for them have. -/
def size : Bytes → Nat :=
  Quotient.lift Part.size fun p q h => by
    rw [← p.length_toList, ← q.length_toList]
    exact congrArg List.length h

/-- The byte at a position. All parts that stand for the same bytes have the same one there. -/
def get? (bytes : Bytes) (i : Nat) : Option UInt8 :=
  Quotient.lift (Part.get? · i) (fun p q h => by
    simp only [Part.get?_eq]
    exact congrArg (·[i]?) h) bytes

/-- The `length` bytes at `offset`, or as many of them as there are. -/
def extract (bytes : Bytes) (offset length : Nat) : Bytes :=
  Quotient.lift (fun p => Quotient.mk Part.setoid (p.extract offset length)) (fun p q h => by
    apply Quotient.sound
    show (p.extract offset length).toList = (q.extract offset length).toList
    rw [Part.toList_extract, Part.toList_extract]
    exact congrArg (fun l => (l.drop offset).take length) h) bytes

/-- The bytes in front of the first `b`, or all of them if there is none. -/
def before (bytes : Bytes) (b : UInt8) : Bytes :=
  Quotient.lift (fun p => Quotient.mk Part.setoid (p.before b)) (fun p q h => by
    apply Quotient.sound
    show (p.before b).toList = (q.before b).toList
    rw [Part.toList_before, Part.toList_before]
    exact congrArg _ h) bytes

@[ext]
theorem ext {a b : Bytes} (h : a.toList = b.toList) : a = b := by
  induction a using Quotient.ind
  induction b using Quotient.ind
  exact Quotient.sound h

instance : DecidableEq Bytes := fun a b =>
  decidable_of_iff (a.toList = b.toList) ⟨ext, congrArg toList⟩

@[simp]
theorem toList_ofArray (bytes : ByteArray) : (ofArray bytes).toList = bytes.data.toList := by
  show Part.toList _ = _
  rw [Part.toList_eq, List.drop_zero]
  exact List.take_of_length_le (Nat.le_refl _)

theorem data_toArray (bytes : Bytes) : bytes.toArray.data.toList = bytes.toList :=
  rfl

@[simp]
theorem length_toList (bytes : Bytes) : bytes.toList.length = bytes.size := by
  induction bytes using Quotient.ind
  exact Part.length_toList _

theorem get?_eq (bytes : Bytes) (i : Nat) : bytes.get? i = bytes.toList[i]? := by
  induction bytes using Quotient.ind
  exact Part.get?_eq _ i

@[simp]
theorem toList_extract (bytes : Bytes) (offset length : Nat) :
    (bytes.extract offset length).toList = (bytes.toList.drop offset).take length := by
  induction bytes using Quotient.ind
  exact Part.toList_extract _ offset length

@[simp]
theorem toList_before (bytes : Bytes) (b : UInt8) :
    (bytes.before b).toList = bytes.toList.takeWhile (· ≠ b) := by
  induction bytes using Quotient.ind
  exact Part.toList_before _ b

end Bytes

end ElfFormat
