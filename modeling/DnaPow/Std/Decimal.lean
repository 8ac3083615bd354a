import Mathlib.Data.FinEnum
import Mathlib.Data.Nat.Digits.Lemmas
import DnaPow.Std.Action
import DnaPow.Std.Bytes

/-!
# Decimal numerals

Numerals as byte strings: what a string of digits denotes, the numeral of a number, and
the parsers of unsigned and signed 64-bit numbers. A parser stops at the first byte that
is no digit, or at the first digit that the number has no room for.
-/

namespace DnaPow.Std

/-- The bytes `0` to `9`. -/
def IsDigit (byte : UInt8) : Prop := 48 ≤ byte ∧ byte ≤ 57

instance (byte : UInt8) : Decidable (IsDigit byte) := instDecidableAnd

/-- The value of a digit. -/
def digitValue (byte : UInt8) : Nat := byte.toNat - 48

/-- What a string of digits denotes. -/
def decimalValue (text : Bytes) : Nat :=
  text.foldl (fun value byte => value * 10 + digitValue byte) 0

/-- The digits of a number, and a single one for zero. -/
def formatUint (number : Nat) : Bytes :=
  if number = 0 then [48]
  else (Nat.digits 10 number).reverse.map fun digit => UInt8.ofNat (48 + digit)

/-- Why a string does not parse. -/
inductive NumError where
  | invalid
  | range
  deriving DecidableEq, Repr

/-- Read digits on from a value below 2^64. -/
def parseDigits (value : Nat) : Bytes → Outcome NumError Nat
  | [] => .ok value
  | byte :: text =>
      if IsDigit byte then
        if value * 10 + digitValue byte < 2 ^ 64 then
          parseDigits (value * 10 + digitValue byte) text
        else .error .range
      else .error .invalid

/-- Unsigned numbers of 64 bits. -/
def parseUint : Bytes → Outcome NumError Nat
  | [] => .error .invalid
  | byte :: text => parseDigits 0 (byte :: text)

/-- A number of 64 bits with its sign. -/
def signed (negative : Bool) (value : Nat) : Outcome NumError Int :=
  if negative then
    if value ≤ 2 ^ 63 then .ok (-value) else .error .range
  else if value < 2 ^ 63 then .ok value else .error .range

/-- Signed numbers of 64 bits, with a sign or without. -/
def parseInt (text : Bytes) : Outcome NumError Int :=
  match text with
  | 43 :: digits => parseUint digits >>= signed false
  | 45 :: digits => parseUint digits >>= signed true
  | digits => parseUint digits >>= signed false

/-- Natural numbers of any size. -/
def parseNatural (text : Bytes) : Option Nat :=
  if text ≠ [] ∧ ∀ byte ∈ text, IsDigit byte then some (decimalValue text) else none

/-- Integers of any size, with a sign or without. -/
def parseInteger (text : Bytes) : Option Int :=
  match text with
  | 43 :: digits => (parseNatural digits).map fun value => (value : Int)
  | 45 :: digits => (parseNatural digits).map fun value => -(value : Int)
  | digits => (parseNatural digits).map fun value => (value : Int)

/-- The signs a numeral may have. -/
inductive Sign where
  | absent
  | plus
  | minus
  deriving DecidableEq, Repr

/-- The sign as it is written. -/
def Sign.written : Sign → Bytes
  | .absent => []
  | .plus => [43]
  | .minus => [45]

/-- The sign as a factor. -/
def Sign.factor : Sign → Int
  | .minus => -1
  | _ => 1

/-! ## Values -/

section Values

variable {text other : Bytes}

@[simp] theorem decimalValue_nil : decimalValue [] = 0 := rfl

theorem foldl_digits (start : Nat) (text : Bytes) :
    text.foldl (fun value byte => value * 10 + digitValue byte) start =
      start * 10 ^ text.length + decimalValue text := by
  induction text generalizing start with
  | nil => simp
  | cons byte text ih =>
    have rest : decimalValue (byte :: text) =
        digitValue byte * 10 ^ text.length + decimalValue text := by
      rw [decimalValue, List.foldl_cons, ih, Nat.zero_mul, Nat.zero_add]
    rw [List.foldl_cons, ih, rest, List.length_cons]
    ring

/-- The digits after the first ones weigh less. -/
theorem decimalValue_append (text other : Bytes) :
    decimalValue (text ++ other) = decimalValue text * 10 ^ other.length + decimalValue other := by
  rw [decimalValue, List.foldl_append, foldl_digits]
  rfl

theorem decimalValue_zeros (count : Nat) : decimalValue (List.replicate count 48) = 0 := by
  induction count with
  | zero => rfl
  | succ count ih =>
    rw [List.replicate_succ', decimalValue_append, ih]
    rfl

end Values

/-! ## The numeral of a number -/

section Format

variable {number : Nat}

theorem ofNat_digit {digit : Nat} (small : digit < 10) :
    IsDigit (UInt8.ofNat (48 + digit)) ∧ digitValue (UInt8.ofNat (48 + digit)) = digit := by
  have all : ∀ digit : Fin 10, IsDigit (UInt8.ofNat (48 + digit.val)) ∧
      digitValue (UInt8.ofNat (48 + digit.val)) = digit.val := by decide
  exact all ⟨digit, small⟩

theorem isDigit_of_mem_formatUint {byte : UInt8} (member : byte ∈ formatUint number) :
    IsDigit byte := by
  rw [formatUint] at member
  split at member
  · rw [List.mem_singleton.mp member]
    decide
  · obtain ⟨digit, isDigit, rfl⟩ := List.mem_map.mp member
    exact (ofNat_digit (Nat.digits_lt_base (by decide) (List.mem_reverse.mp isDigit))).1

/-- Digits, lowest first, denote what their numeral denotes. -/
theorem decimalValue_map_reverse {digits : List Nat} (small : ∀ digit ∈ digits, digit < 10) :
    decimalValue (digits.reverse.map fun digit => UInt8.ofNat (48 + digit)) =
      Nat.ofDigits 10 digits := by
  induction digits with
  | nil => rfl
  | cons digit digits ih =>
    have value := (ofNat_digit (small digit List.mem_cons_self)).2
    rw [List.reverse_cons, List.map_append, decimalValue_append,
      ih fun other member => small other (List.mem_cons_of_mem _ member), Nat.ofDigits_cons]
    simp only [decimalValue, List.map_cons, List.map_nil, List.foldl_cons, List.foldl_nil, value,
      List.length_singleton]
    ring

theorem decimalValue_formatUint (number : Nat) : decimalValue (formatUint number) = number := by
  rw [formatUint]
  split
  · next zero => rw [zero]; rfl
  · rw [decimalValue_map_reverse fun _ => Nat.digits_lt_base (by decide), Nat.ofDigits_digits]

theorem formatUint_ne_nil (number : Nat) : formatUint number ≠ [] := by
  rw [formatUint]
  split
  · exact List.cons_ne_nil _ _
  · next positive =>
    simpa [Nat.digits_eq_nil_iff_eq_zero] using positive

/-- A numeral has no more digits than its number needs. -/
theorem length_formatUint_le {width : Nat} (positive : 0 < width) :
    (formatUint number).length ≤ width ↔ number < 10 ^ width := by
  rw [formatUint]
  split
  · next zero =>
    rw [zero, List.length_singleton]
    exact ⟨fun _ => by positivity, fun _ => positive⟩
  · rw [List.length_map, List.length_reverse, Nat.digits_length_le_iff (by decide)]

end Format

/-! ## Parsing -/

section Parse

variable {text : Bytes}

/-- Digits are read to their value, if there is room for it. -/
theorem parseDigits_eq {value : Nat} (digits : ∀ byte ∈ text, IsDigit byte)
    (small : value < 2 ^ 64) :
    parseDigits value text =
      if value * 10 ^ text.length + decimalValue text < 2 ^ 64 then
        .ok (value * 10 ^ text.length + decimalValue text)
      else .error .range := by
  induction text generalizing value with
  | nil =>
    rw [parseDigits, List.length_nil, pow_zero, mul_one, decimalValue_nil, Nat.add_zero,
      if_pos small]
  | cons byte text ih =>
    have total : value * 10 ^ (byte :: text).length + decimalValue (byte :: text) =
        (value * 10 + digitValue byte) * 10 ^ text.length + decimalValue text := by
      rw [← foldl_digits, List.foldl_cons, foldl_digits]
    rw [parseDigits, if_pos (digits byte List.mem_cons_self), total]
    split
    · next room => exact ih (fun other member => digits other (List.mem_cons_of_mem _ member)) room
    · next noRoom =>
      have grows : value * 10 + digitValue byte ≤
          (value * 10 + digitValue byte) * 10 ^ text.length :=
        Nat.le_mul_of_pos_right _ (by positivity)
      rw [if_neg (by omega)]

theorem parseUint_eq (nonempty : text ≠ []) (digits : ∀ byte ∈ text, IsDigit byte) :
    parseUint text =
      if decimalValue text < 2 ^ 64 then .ok (decimalValue text) else .error .range := by
  obtain ⟨byte, rest, rfl⟩ := List.exists_cons_of_ne_nil nonempty
  rw [parseUint, parseDigits_eq digits (by decide), Nat.zero_mul, Nat.zero_add]

theorem signed_eq (sign : Sign) (value : Nat) : signed (sign = .minus) value =
    if -2 ^ 63 ≤ sign.factor * value ∧ sign.factor * value < 2 ^ 63 then
      .ok (sign.factor * value)
    else .error .range := by
  cases sign <;> simp only [signed, Sign.factor, one_mul, neg_mul, decide_true, decide_false,
    reduceCtorEq, if_true, if_false, Bool.false_eq_true] <;> split_ifs <;> first | rfl | omega

/-- A signed numeral is read to its value, if there is room for it. -/
theorem parseInt_eq (sign : Sign) (nonempty : text ≠ []) (digits : ∀ byte ∈ text, IsDigit byte) :
    parseInt (sign.written ++ text) =
      if -2 ^ 63 ≤ sign.factor * decimalValue text ∧ sign.factor * decimalValue text < 2 ^ 63 then
        .ok (sign.factor * decimalValue text)
      else .error .range := by
  have read : parseInt (sign.written ++ text) = parseUint text >>= signed (sign = .minus) := by
    cases sign with
    | plus => rfl
    | minus => rfl
    | absent =>
      obtain ⟨byte, rest, rfl⟩ := List.exists_cons_of_ne_nil nonempty
      have isDigit := digits byte List.mem_cons_self
      have notPlus : byte ≠ 43 := by rintro rfl; exact absurd isDigit (by decide)
      have notMinus : byte ≠ 45 := by rintro rfl; exact absurd isDigit (by decide)
      simp [parseInt, Sign.written, notPlus, notMinus]
  rw [read, parseUint_eq nonempty digits]
  by_cases room : decimalValue text < 2 ^ 64
  · rw [if_pos room, Outcome.bind_ok, signed_eq]
  · rw [if_neg room, Outcome.bind_error, if_neg]
    cases sign <;> simp only [Sign.factor, one_mul, neg_mul] <;> omega

theorem parseNatural_formatUint (number : Nat) : parseNatural (formatUint number) = some number := by
  have digits : ∀ byte ∈ formatUint number, IsDigit byte := fun _ => isDigit_of_mem_formatUint
  rw [parseNatural, if_pos ⟨formatUint_ne_nil number, digits⟩, decimalValue_formatUint]

theorem parseInteger_formatUint (number : Nat) : parseInteger (formatUint number) = some number := by
  have natural := parseNatural_formatUint number
  obtain ⟨byte, rest, format⟩ := List.exists_cons_of_ne_nil (formatUint_ne_nil number)
  have isDigit : IsDigit byte :=
    @isDigit_of_mem_formatUint number byte (by rw [format]; exact List.mem_cons_self)
  have notPlus : byte ≠ 43 := by rintro rfl; exact absurd isDigit (by decide)
  have notMinus : byte ≠ 45 := by rintro rfl; exact absurd isDigit (by decide)
  rw [format] at natural ⊢
  simp [parseInteger, notPlus, notMinus, natural]

end Parse

end DnaPow.Std
