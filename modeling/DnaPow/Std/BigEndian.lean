import DnaPow.Std.Bytes
import Mathlib.Data.Nat.Log

/-!
# Big-endian byte strings

Numbers as byte strings with the most significant byte first: of a fixed width, and of the least
width. `byteLength_le_iff` says how many bytes a number needs.
-/

namespace DnaPow.Std

/-- The low `width` bytes of `value`, most significant first. -/
def bigEndian (width value : Nat) : Bytes := (littleEndian width value).reverse

/-- The number a big-endian byte string denotes. -/
def ofBigEndian (bytes : Bytes) : Nat := ofLittleEndian bytes.reverse

/-- The number of bytes of a number without leading zeros. -/
def byteLength (value : Nat) : Nat := if value = 0 then 0 else value.log2 / 8 + 1

/-- The bytes of a number without leading zeros. -/
def minimalBytes (value : Nat) : Bytes := bigEndian (byteLength value) value

variable {bytes : Bytes} {width value : Nat}

@[simp] theorem bigEndian_length (width value : Nat) : (bigEndian width value).length = width := by
  simp [bigEndian]

theorem ofBigEndian_lt (length : bytes.length = width) : ofBigEndian bytes < 256 ^ width := by
  simpa [ofBigEndian, length] using ofLittleEndian_lt bytes.reverse

theorem bigEndian_ofBigEndian (length : bytes.length = width) :
    bigEndian width (ofBigEndian bytes) = bytes := by
  rw [bigEndian, ofBigEndian, ← length, ← List.length_reverse, littleEndian_ofLittleEndian,
    List.reverse_reverse]

theorem ofBigEndian_bigEndian (small : value < 256 ^ width) :
    ofBigEndian (bigEndian width value) = value := by
  rw [ofBigEndian, bigEndian, List.reverse_reverse, ofLittleEndian_littleEndian,
    Nat.mod_eq_of_lt small]

theorem ofLittleEndian_append (low high : Bytes) :
    ofLittleEndian (low ++ high) = ofLittleEndian low + 256 ^ low.length * ofLittleEndian high := by
  induction low with
  | nil => simp [ofLittleEndian]
  | cons byte low ih =>
    rw [List.cons_append, ofLittleEndian, ih, ofLittleEndian, List.length_cons, pow_succ]
    ring

theorem ofBigEndian_append (high low : Bytes) :
    ofBigEndian (high ++ low) = ofBigEndian high * 256 ^ low.length + ofBigEndian low := by
  rw [ofBigEndian, List.reverse_append, ofLittleEndian_append, List.length_reverse, ofBigEndian,
    ofBigEndian]
  ring

theorem ofBigEndian_cons (byte : UInt8) (bytes : Bytes) :
    ofBigEndian (byte :: bytes) = byte.toNat * 256 ^ bytes.length + ofBigEndian bytes := by
  have one : ofBigEndian [byte] = byte.toNat := by simp [ofBigEndian, ofLittleEndian]
  rw [← one, ← ofBigEndian_append]
  rfl

/-- A number needs no more bytes than a string that denotes it has. -/
theorem byteLength_le_iff : byteLength value ≤ width ↔ value < 256 ^ width := by
  have power : (256 : Nat) ^ width = 2 ^ (8 * width) := by
    rw [pow_mul]
    rfl
  rw [byteLength, power]
  split
  case isTrue zero => simp [zero]
  case isFalse nonzero =>
    rw [← Nat.log2_lt nonzero]
    omega

@[simp] theorem length_minimalBytes (value : Nat) :
    (minimalBytes value).length = byteLength value :=
  bigEndian_length _ _

theorem ofBigEndian_minimalBytes (value : Nat) : ofBigEndian (minimalBytes value) = value :=
  ofBigEndian_bigEndian (byteLength_le_iff.mp (Nat.le_refl _))

/-- A string that does not start with zero is the least one. -/
theorem minimalBytes_ofBigEndian {first : UInt8} (nonzero : first ≠ 0) (rest : Bytes) :
    minimalBytes (ofBigEndian (first :: rest)) = first :: rest := by
  have positive : 0 < first.toNat := by
    rw [Nat.pos_iff_ne_zero]
    exact fun zero => nonzero (UInt8.toNat_inj.mp zero)
  have value := ofBigEndian_cons first rest
  have large : 256 ^ rest.length ≤ ofBigEndian (first :: rest) := by
    rw [value]
    calc 256 ^ rest.length ≤ first.toNat * 256 ^ rest.length := Nat.le_mul_of_pos_left _ positive
      _ ≤ first.toNat * 256 ^ rest.length + ofBigEndian rest := Nat.le_add_right _ _
  have length : byteLength (ofBigEndian (first :: rest)) = (first :: rest).length := by
    apply Nat.le_antisymm (byteLength_le_iff.mpr (ofBigEndian_lt rfl))
    rw [List.length_cons, Nat.succ_le_iff]
    exact Nat.lt_of_not_le fun short => Nat.not_lt.mpr large (byteLength_le_iff.mp short)
  rw [minimalBytes, length, bigEndian_ofBigEndian rfl]

/-- Leading zeros fill the least string up to a fixed width. -/
theorem replicate_append_minimalBytes (small : value < 256 ^ width) :
    List.replicate (width - byteLength value) 0 ++ minimalBytes value = bigEndian width value := by
  have fits := byteLength_le_iff.mpr small
  have denotes : ofBigEndian (List.replicate (width - byteLength value) 0 ++ minimalBytes value) =
      value := by
    have zeros : ∀ count, ofBigEndian (List.replicate count 0) = 0 := by
      intro count
      induction count with
      | zero => rfl
      | succ count ih => rw [List.replicate_succ, ofBigEndian_cons, ih]; simp
    rw [ofBigEndian_append, zeros, ofBigEndian_minimalBytes, Nat.zero_mul, Nat.zero_add]
  have length : (List.replicate (width - byteLength value) 0 ++ minimalBytes value).length =
      width := by
    rw [List.length_append, List.length_replicate, length_minimalBytes]
    omega
  rw [← bigEndian_ofBigEndian length, denotes]

/-- A wider string has more zeros in front. -/
theorem bigEndian_add (small : value < 256 ^ width) (extra : Nat) :
    bigEndian (extra + width) value = List.replicate extra 0 ++ bigEndian width value := by
  have fits := byteLength_le_iff.mpr small
  have wide : value < 256 ^ (extra + width) :=
    Nat.lt_of_lt_of_le small (Nat.pow_le_pow_right (by decide) (Nat.le_add_left _ _))
  rw [← replicate_append_minimalBytes small, ← replicate_append_minimalBytes wide,
    ← List.append_assoc, List.replicate_append_replicate,
    show extra + width - byteLength value = extra + (width - byteLength value) by omega]

end DnaPow.Std
