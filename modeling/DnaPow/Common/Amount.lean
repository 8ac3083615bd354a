import Mathlib.Tactic.FieldSimp
import DnaPow.Common.Serialization
import DnaPow.Std.Decimal

/-!
# Amounts as text

`Fixed64.String` writes an amount with eight decimals, or with none if they are all
zero, and `StringToFixed64` reads one. The reader counts the decimals from the point to
the end of the text. A text without a point is treated as if the point stood before its
first byte, so that an integer of nine bytes has too many decimals.
-/

namespace DnaPow.Common

open DnaPow.Std

/-- The errors of `StringToFixed64`. -/
inductive AmountError where
  | unsupportedPrecision
  | number (reason : NumError)
  deriving DecidableEq, Repr

/-- `Fixed64.String`. The absolute value of the least amount wraps to itself, and is
right as an unsigned number. -/
def Fixed64.string (amount : Fixed64) : Bytes :=
  let value := if amount < 0 then (-amount).toUInt64 else amount.toUInt64
  let fraction := value % 100000000
  let s := formatUint fraction.toNat
  (if amount < 0 then [45] else []) ++ formatUint (value / 100000000).toNat ++
    if 0 < fraction then 46 :: (List.replicate (8 - s.length) 48 ++ s) else []

/-- `StringToFixed64`. The index is -1 if there is no point. -/
def stringToFixed64 (s : Bytes) : Outcome AmountError Fixed64 :=
  let di : Int := (s.findIdx? (· = 46)).elim (-1) fun index => (index : Int)
  if 9 < s.length - di then .error .unsupportedPrecision
  else
    let buffer :=
      if di = -1 then s ++ List.replicate 8 48
      else s.take di.toNat ++ s.drop (di.toNat + 1) ++
        List.replicate (8 - (s.length - di - 1)).toNat 48
    match parseInt buffer with
    | .ok value => .ok (Int64.ofInt value)
    | .error reason => .error (.number reason)
    | .panic => .panic

/-! ## Decimal texts -/

/-- A decimal number as it is written: a sign or none, digits, and up to eight decimals
after a point, if there is one. -/
structure Decimal where
  sign : Sign
  whole : Bytes
  fraction : Option Bytes
  digits : ∀ byte ∈ whole ++ fraction.getD [], IsDigit byte
  precision : (fraction.getD []).length ≤ 8

namespace Decimal

variable (decimal : Decimal)

def decimals : Bytes := decimal.fraction.getD []

def text : Bytes :=
  decimal.sign.written ++ (decimal.whole ++ decimal.fraction.elim [] (46 :: ·))

/-- The rational number that is meant. -/
def value : ℚ :=
  decimal.sign.factor *
    (decimalValue decimal.whole + decimalValue decimal.decimals / 10 ^ decimal.decimals.length)

/-- The digits of the number with all eight decimals. -/
def padded : Bytes :=
  decimal.whole ++ decimal.decimals ++ List.replicate (8 - decimal.decimals.length) 48

/-- The number in units of the eighth decimal. -/
def units : Int := decimal.sign.factor * decimalValue decimal.padded

theorem value_mul : decimal.value * 10 ^ 8 = decimal.units := by
  have precise : decimal.decimals.length ≤ 8 := decimal.precision
  have shift : (10 : ℚ) ^ 8 = 10 ^ decimal.decimals.length * 10 ^ (8 - decimal.decimals.length) := by
    rw [← pow_add, Nat.add_sub_cancel' precise]
  rw [value, units, padded, decimalValue_append, decimalValue_append, decimalValue_zeros,
    List.length_replicate, shift]
  push_cast
  field_simp
  ring

theorem point_not_mem : (46 : UInt8) ∉ decimal.sign.written ++ decimal.whole := by
  intro member
  rcases List.mem_append.mp member with inSign | inWhole
  · cases sign : decimal.sign <;> simp [sign, Sign.written] at inSign
  · exact absurd (decimal.digits 46 (List.mem_append_left _ inWhole)) (by decide)

theorem isDigit_padded : ∀ byte ∈ decimal.padded, IsDigit byte := by
  intro byte member
  rcases List.mem_append.mp member with written | zero
  · exact decimal.digits byte written
  · rw [List.eq_of_mem_replicate zero]
    decide

theorem padded_ne_nil : decimal.padded ≠ [] := by
  intro empty
  have length := congrArg List.length empty
  simp only [padded, List.length_append, List.length_replicate, List.length_nil] at length
  omega

/-- Reading a decimal: an integer must have less than nine bytes, and there must be room
for the number. -/
theorem stringToFixed64_text : stringToFixed64 decimal.text =
    if decimal.fraction = none ∧ 9 ≤ decimal.text.length then .error .unsupportedPrecision
    else if -2 ^ 63 ≤ decimal.units ∧ decimal.units < 2 ^ 63 then .ok (Int64.ofInt decimal.units)
    else .error (.number .range) := by
  have read := parseInt_eq decimal.sign decimal.padded_ne_nil decimal.isDigit_padded
  change _ = if -2 ^ 63 ≤ decimal.units ∧ decimal.units < 2 ^ 63 then
    Outcome.ok decimal.units else _ at read
  have absent : ∀ byte ∈ decimal.sign.written ++ decimal.whole, ¬ byte = 46 := by
    rintro byte member rfl
    exact decimal.point_not_mem member
  cases fraction : decimal.fraction with
  | none =>
    have buffer : decimal.text ++ List.replicate 8 48 = decimal.sign.written ++ decimal.padded := by
      simp [text, padded, decimals, fraction]
    have index : decimal.text.findIdx? (· = 46) = none := by
      rw [List.findIdx?_eq_none_iff]
      intro byte member
      exact decide_eq_false (absent byte (by simpa [text, fraction] using member))
    simp only [stringToFixed64, index, Option.elim_none, true_and]
    by_cases long : 9 ≤ decimal.text.length
    · rw [if_pos (by omega), if_pos long]
    · rw [if_neg (by omega), if_neg long, if_pos trivial, buffer, read]
      split_ifs <;> rfl
  | some decimals =>
    have precise : decimals.length ≤ 8 := by simpa [fraction] using decimal.precision
    have isText : decimal.text = decimal.sign.written ++ decimal.whole ++ 46 :: decimals := by
      simp [text, fraction]
    have isPadded : decimal.sign.written ++ decimal.padded = decimal.sign.written ++ decimal.whole ++
        decimals ++ List.replicate (8 - decimals.length) 48 := by
      simp [padded, Decimal.decimals, fraction]
    rw [isPadded] at read
    rw [isText]
    generalize decimal.sign.written ++ decimal.whole = before at read absent
    have notFound : before.findIdx? (· = 46) = none := by
      rw [List.findIdx?_eq_none_iff]
      exact fun byte member => decide_eq_false (absent byte member)
    have index : (before ++ 46 :: decimals).findIdx? (· = 46) = some before.length := by
      simp [List.findIdx?_append, notFound, List.findIdx?_cons]
    have length : ((before ++ 46 :: decimals).length : Int) - before.length =
        decimals.length + 1 := by
      simp only [List.length_append, List.length_cons]
      omega
    have zeros : (8 - ((decimals.length : Int) + 1 - 1)).toNat = 8 - decimals.length := by omega
    have rest : (before ++ 46 :: decimals).drop (before.length + 1) = decimals := by
      rw [List.drop_length_add_append, List.drop_one, List.tail_cons]
    simp only [stringToFixed64, index, Option.elim_some, length, zeros, Int.toNat_natCast,
      List.take_left, rest, reduceCtorEq, false_and, if_false]
    have short : ¬ (9 : Int) < decimals.length + 1 := by omega
    rw [if_neg short, read]
    split_ifs <;> rfl

end Decimal

/-! ## Amounts -/

theorem toNat_magnitude (amount : Fixed64) :
    (if amount < 0 then (-amount).toUInt64 else amount.toUInt64).toNat = amount.toInt.natAbs := by
  have range := amount.toBitVec.isLt
  have cond := BitVec.toInt_eq_toNat_cond amount.toBitVec
  have value : amount.toInt = amount.toBitVec.toInt := rfl
  split
  · next negative =>
    have below : amount.toInt < 0 := Int64.lt_iff_toInt_lt.mp negative
    change (-amount.toBitVec).toNat = _
    rw [BitVec.toNat_neg]
    omega
  · next positive =>
    have above : ¬ amount.toInt < 0 := fun below => positive (Int64.lt_iff_toInt_lt.mpr below)
    change amount.toBitVec.toNat = _
    omega

/-- The digits of the decimals, with the zeros before them. -/
def eightDecimals (fraction : Nat) : Bytes :=
  List.replicate (8 - (formatUint fraction).length) 48 ++ formatUint fraction

theorem length_eightDecimals {fraction : Nat} (small : fraction < 10 ^ 8) :
    (eightDecimals fraction).length = 8 := by
  have short := (length_formatUint_le (by decide : 0 < 8)).mpr small
  simp only [eightDecimals, List.length_append, List.length_replicate]
  omega

theorem decimalValue_eightDecimals (fraction : Nat) :
    decimalValue (eightDecimals fraction) = fraction := by
  rw [eightDecimals, decimalValue_append, decimalValue_zeros, decimalValue_formatUint]
  omega

theorem isDigit_eightDecimals {fraction : Nat} {byte : UInt8}
    (member : byte ∈ eightDecimals fraction) : IsDigit byte := by
  rcases List.mem_append.mp member with zero | digit
  · rw [List.eq_of_mem_replicate zero]
    decide
  · exact isDigit_of_mem_formatUint digit

/-- The decimal number that is written for an amount. -/
def Decimal.ofAmount (amount : Fixed64) : Decimal where
  sign := if amount < 0 then .minus else .absent
  whole := formatUint (amount.toInt.natAbs / 10 ^ 8)
  fraction :=
    if amount.toInt.natAbs % 10 ^ 8 = 0 then none
    else some (eightDecimals (amount.toInt.natAbs % 10 ^ 8))
  digits := by
    intro byte member
    rcases List.mem_append.mp member with whole | decimals
    · exact isDigit_of_mem_formatUint whole
    · split at decimals
      · cases decimals
      · exact isDigit_eightDecimals decimals
  precision := by
    split
    · exact Nat.zero_le 8
    · exact (length_eightDecimals (Nat.mod_lt _ (by decide))).le

section Amounts

variable (amount : Fixed64)

theorem text_ofAmount : (Decimal.ofAmount amount).text = amount.string := by
  have magnitude := toNat_magnitude amount
  simp only [Fixed64.string, Decimal.text, Decimal.ofAmount]
  generalize (if amount < 0 then (-amount).toUInt64 else amount.toUInt64) = value at magnitude
  have whole : (value / 100000000).toNat = amount.toInt.natAbs / 10 ^ 8 := by
    rw [UInt64.toNat_div, magnitude]
    rfl
  have fraction : (value % 100000000).toNat = amount.toInt.natAbs % 10 ^ 8 := by
    rw [UInt64.toNat_mod, magnitude]
    rfl
  have positive : 0 < value % 100000000 ↔ ¬ amount.toInt.natAbs % 10 ^ 8 = 0 := by
    rw [UInt64.lt_iff_toNat_lt, fraction]
    exact Nat.pos_iff_ne_zero
  rw [whole, fraction, List.append_assoc]
  congr 1
  · split <;> rfl
  · congr 1
    by_cases zero : amount.toInt.natAbs % 10 ^ 8 = 0
    · rw [if_pos zero, if_neg fun above => positive.mp above zero, Option.elim_none]
    · rw [if_neg zero, if_pos (positive.mpr zero), Option.elim_some]
      rfl

theorem units_ofAmount : (Decimal.ofAmount amount).units = amount.toInt := by
  have parts := Nat.div_add_mod amount.toInt.natAbs (10 ^ 8)
  have magnitude : decimalValue (Decimal.ofAmount amount).padded = amount.toInt.natAbs := by
    rw [Decimal.padded, decimalValue_append, decimalValue_append, decimalValue_zeros,
      List.length_replicate]
    simp only [Decimal.ofAmount, Decimal.decimals, decimalValue_formatUint]
    split
    · next zero => simp only [Option.getD_none, decimalValue_nil, List.length_nil]; omega
    · rw [Option.getD_some, length_eightDecimals (Nat.mod_lt _ (by decide)),
        decimalValue_eightDecimals]
      omega
  rw [Decimal.units, magnitude, Decimal.ofAmount]
  dsimp only
  have below : amount < 0 ↔ amount.toInt < 0 := Int64.lt_iff_toInt_lt
  by_cases negative : amount < 0
  · have := below.mp negative
    rw [if_pos negative, Sign.factor]
    omega
  · have := mt below.mpr negative
    rw [if_neg negative, Sign.factor]
    · omega
    · rintro ⟨⟩

/-- An amount is written with a point if it has decimals, and with few enough bytes if it
is small. -/
theorem accepted_ofAmount :
    ¬ ((Decimal.ofAmount amount).fraction = none ∧ 9 ≤ (Decimal.ofAmount amount).text.length) ↔
      amount.toInt % 10 ^ 8 ≠ 0 ∨ -10 ^ 15 < amount.toInt ∧ amount.toInt < 10 ^ 16 := by
  by_cases zero : amount.toInt.natAbs % 10 ^ 8 = 0
  · have below : amount < 0 ↔ amount.toInt < 0 := Int64.lt_iff_toInt_lt
    have short (width : Nat) (positive : 0 < width) :=
      @length_formatUint_le (amount.toInt.natAbs / 10 ^ 8) width positive
    have seven := short 7 (by decide)
    have eight := short 8 (by decide)
    have written : (Decimal.ofAmount amount).text.length = (if amount < 0 then 1 else 0) +
        (formatUint (amount.toInt.natAbs / 10 ^ 8)).length := by
      simp only [Decimal.text, Decimal.ofAmount, if_pos zero, Option.elim_none, List.append_nil,
        List.length_append]
      split <;> rfl
    have none : (Decimal.ofAmount amount).fraction = none := if_pos zero
    rw [written]
    simp only [none, true_and]
    by_cases negative : amount < 0
    · rw [if_pos negative]
      have := below.mp negative
      omega
    · rw [if_neg negative]
      have := mt below.mpr negative
      omega
  · have some : (Decimal.ofAmount amount).fraction =
        some (eightDecimals (amount.toInt.natAbs % 10 ^ 8)) := if_neg zero
    simp only [some, reduceCtorEq, false_and, not_false_eq_true, true_iff]
    omega

/-- The amounts that are read back from their text; and every decimal number that is read
is read exactly. -/
theorem stringToFixed64_string_iff (decimal : Decimal) :
    (stringToFixed64 amount.string = .ok amount ↔
      amount.toInt % 10 ^ 8 ≠ 0 ∨ -10 ^ 15 < amount.toInt ∧ amount.toInt < 10 ^ 16) ∧
    ∀ result, stringToFixed64 decimal.text = .ok result →
      (result.toInt : ℚ) = decimal.value * 10 ^ 8 := by
  constructor
  · rw [← accepted_ofAmount, ← text_ofAmount, Decimal.stringToFixed64_text, units_ofAmount]
    have room : -2 ^ 63 ≤ amount.toInt ∧ amount.toInt < 2 ^ 63 := ⟨amount.le_toInt, amount.toInt_lt⟩
    rw [if_pos room, Int64.ofInt_toInt]
    split
    · next refused => simp [refused]
    · next accepted => exact iff_of_true rfl accepted
  · intro result read
    rw [Decimal.stringToFixed64_text] at read
    split at read
    · cases read
    · split at read
      · next room =>
          cases read
          rw [Int64.toInt_ofInt_of_le room.1 room.2, decimal.value_mul]
      · cases read

/-- One hundred million is written as an integer of nine digits. -/
theorem stringToFixed64_string_fails :
    stringToFixed64 (Fixed64.string 10000000000000000) = .error .unsupportedPrecision := by
  decide +kernel

end Amounts

end DnaPow.Common
