import Mathlib.Data.List.Basic
import Mathlib.Tactic.Ring

/-!
# Little-endian byte strings

Fixed-width little-endian encodings of natural numbers. `littleEndian_inj` says
which numbers share an encoding.
-/

namespace DnaPow.Std

/-- A byte string. -/
abbrev Bytes := List UInt8

/-- The low `width` bytes of `value`, least significant first. -/
def littleEndian : (width : Nat) → (value : Nat) → Bytes
  | 0, _ => []
  | width + 1, value => UInt8.ofNat (value % 256) :: littleEndian width (value / 256)

/-- The number a little-endian byte string denotes. -/
def ofLittleEndian : Bytes → Nat
  | [] => 0
  | byte :: rest => byte.toNat + 256 * ofLittleEndian rest

/-- The length of strings of one size, one after the other. -/
theorem length_flatMap_of_forall {α : Type*} {encode : α → Bytes} {size : Nat} {items : List α}
    (sizes : ∀ item ∈ items, (encode item).length = size) :
    (items.flatMap encode).length = size * items.length := by
  rw [List.length_flatMap, List.map_eq_replicate_iff.mpr sizes, List.sum_replicate_nat,
    Nat.mul_comm]

@[simp] theorem littleEndian_length (width value : Nat) :
    (littleEndian width value).length = width := by
  induction width generalizing value with
  | zero => rfl
  | succ width ih => simp [littleEndian, ih]

theorem ofLittleEndian_lt (bytes : Bytes) : ofLittleEndian bytes < 256 ^ bytes.length := by
  induction bytes with
  | nil => simp [ofLittleEndian]
  | cons byte bytes ih =>
    have := byte.toNat_lt
    rw [ofLittleEndian, List.length_cons, pow_succ]
    omega

/-- A byte string is the encoding of the number it denotes. -/
theorem littleEndian_ofLittleEndian (bytes : Bytes) :
    littleEndian bytes.length (ofLittleEndian bytes) = bytes := by
  induction bytes with
  | nil => rfl
  | cons byte bytes ih =>
    have small := byte.toNat_lt
    have low : (byte.toNat + 256 * ofLittleEndian bytes) % 256 = byte.toNat := by omega
    have high : (byte.toNat + 256 * ofLittleEndian bytes) / 256 = ofLittleEndian bytes := by omega
    rw [List.length_cons, ofLittleEndian, littleEndian, low, high, ih, UInt8.ofNat_toNat]

/-- Reading back an encoding gives the value modulo the width. -/
theorem ofLittleEndian_littleEndian (width value : Nat) :
    ofLittleEndian (littleEndian width value) = value % 256 ^ width := by
  induction width generalizing value with
  | zero => simp [littleEndian, ofLittleEndian, Nat.mod_one]
  | succ width ih =>
    simp only [littleEndian, ofLittleEndian, ih]
    have low : (UInt8.ofNat (value % 256)).toNat = value % 256 := by simp
    rw [low, pow_succ', Nat.mod_mul]

/-- Two values with one encoding agree modulo the width. -/
theorem littleEndian_inj {width first second : Nat}
    (same : littleEndian width first = littleEndian width second) :
    first % 256 ^ width = second % 256 ^ width := by
  rw [← ofLittleEndian_littleEndian, same, ofLittleEndian_littleEndian]

end DnaPow.Std
