import ElfFormat.Arithmetic

/-!
# Byte order

A number of `width` bytes stands in an image either least significant byte first or most
significant byte first. `ByteOrder.value` reads such a number and `ByteOrder.encode` writes it;
`value_encode` and `encode_value` say that each undoes the other on numbers that fit the width.
-/

namespace ElfFormat

/-- Which end of a multi-byte number comes first. -/
inductive ByteOrder where
  | little
  | big
deriving DecidableEq, Repr

namespace ByteOrder

/-- What the order is called in messages and listings. -/
def name : ByteOrder → String
  | little => "Little"
  | big => "Big"

/-- The number whose digits to base 256 are `bytes`, least significant first. -/
def littleEndian : List UInt8 → Nat
  | [] => 0
  | b :: bytes => b.toNat + 256 * littleEndian bytes

/-- The `width` lowest digits of `n` to base 256, least significant first. -/
def littleEndianBytes : Nat → Nat → List UInt8
  | 0, _ => []
  | width + 1, n => UInt8.ofNat n :: littleEndianBytes width (n / 256)

/-- The number that `bytes` stand for in this order. -/
def value : ByteOrder → List UInt8 → Nat
  | little, bytes => littleEndian bytes
  | big, bytes => littleEndian bytes.reverse

/-- The `width` bytes that stand for `n` in this order. -/
def encode : ByteOrder → Nat → Nat → List UInt8
  | little, width, n => littleEndianBytes width n
  | big, width, n => (littleEndianBytes width n).reverse

theorem littleEndian_lt : ∀ bytes : List UInt8, littleEndian bytes < 256 ^ bytes.length
  | [] => by decide
  | b :: bytes => by
    have hb := b.toNat_lt
    have ih := littleEndian_lt bytes
    simp only [littleEndian, List.length_cons, Nat.pow_succ]
    omega

@[simp]
theorem length_littleEndianBytes : ∀ width n : Nat, (littleEndianBytes width n).length = width
  | 0, _ => rfl
  | width + 1, n => by simp [littleEndianBytes, length_littleEndianBytes width]

theorem littleEndian_littleEndianBytes :
    ∀ width n : Nat, n < 256 ^ width → littleEndian (littleEndianBytes width n) = n
  | 0, n, h => by simp at h; simp [littleEndianBytes, littleEndian, h]
  | width + 1, n, h => by
    have hq : n / 256 < 256 ^ width := by rw [Nat.pow_succ] at h; omega
    simp only [littleEndianBytes, littleEndian, littleEndian_littleEndianBytes width _ hq,
      UInt8.toNat_ofNat']
    omega

theorem littleEndianBytes_littleEndian :
    ∀ bytes : List UInt8, littleEndianBytes bytes.length (littleEndian bytes) = bytes
  | [] => rfl
  | b :: bytes => by
    have hb := b.toNat_lt
    have hq : (b.toNat + 256 * littleEndian bytes) / 256 = littleEndian bytes := by omega
    have hr : UInt8.ofNat (b.toNat + 256 * littleEndian bytes) = b := by
      apply UInt8.toNat_inj.1
      rw [UInt8.toNat_ofNat']
      omega
    simp only [littleEndian, List.length_cons, littleEndianBytes, hq, hr,
      littleEndianBytes_littleEndian bytes]

@[simp]
theorem length_encode (order : ByteOrder) (width n : Nat) :
    (order.encode width n).length = width := by
  cases order <;> simp [encode]

theorem value_lt (order : ByteOrder) (bytes : List UInt8) :
    order.value bytes < 256 ^ bytes.length := by
  cases order with
  | little => exact littleEndian_lt bytes
  | big => simpa [value] using littleEndian_lt bytes.reverse

theorem value_encode (order : ByteOrder) {width n : Nat} (h : n < 256 ^ width) :
    order.value (order.encode width n) = n := by
  cases order <;> simp [value, encode, littleEndian_littleEndianBytes width n h]

theorem encode_value (order : ByteOrder) (bytes : List UInt8) :
    order.encode bytes.length (order.value bytes) = bytes := by
  cases order with
  | little => exact littleEndianBytes_littleEndian bytes
  | big =>
    have h := littleEndianBytes_littleEndian bytes.reverse
    rw [List.length_reverse] at h
    simp [value, encode, h]

end ByteOrder

end ElfFormat
