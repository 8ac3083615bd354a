import DnaPow.Crypto.Curve
import DnaPow.Std.Action
import DnaPow.Std.BigEndian
import DnaPow.Std.Blocks

/-!
# The coding of public keys

`EncodePoint` writes a point with one or both coordinates, and `DecodePoint` reads it back. A
compressed point is completed by a square root modulo the prime. What is read is checked in this
form only: both coordinates of the other form are taken as they are.
-/

namespace DnaPow.Crypto

open DnaPow.Std

/-- `PubKey`. A coordinate may be nil. -/
structure PubKey where
  X : Option Nat
  Y : Option Nat
  deriving DecidableEq

inductive PointError where
  | nilData
  | format
  | compression
  deriving DecidableEq, Repr

def isEven (k : Nat) : Bool := k % 2 = 0

/-! ## Writing -/

/-- `EncodePoint`. A number that is too long for its place panics. -/
def PubKey.encodePoint (key : PubKey) (isCompressed : Bool) : Outcome PointError Bytes :=
  match key.X, key.Y with
  | some x, some y =>
      let xBytes := minimalBytes x
      let yBytes := minimalBytes y
      if 33 < xBytes.length ∨ (isCompressed = false ∧ 65 < yBytes.length) then .panic
      else
        let blank : Bytes :=
          if isCompressed then List.replicate 33 0
          else (copyAt (List.replicate 65 0) (65 - yBytes.length) yBytes).1
        let encodedData := (copyAt blank (33 - xBytes.length) xBytes).1
        let flag : UInt8 := if isCompressed then (if isEven y then 0x02 else 0x03) else 0x04
        .ok (flag :: encodedData.tail)
  | _, _ => .ok [0]

/-! ## Reading -/

section Read

variable (curve : CurveParams)

/-- `curveSqrt`. The second bit of the prime is set, so that only the first branch is taken. -/
def curveSqrt (ySquare : Nat) : Option Nat :=
  let tmp2 := powMod ySquare (curve.P / 4 + 1) curve.P
  let tmp3 := powMod tmp2 2 curve.P
  if tmp3 = ySquare then some tmp2 else none

/-- The right-hand side of the equation, reduced after each step. -/
def rightHandSide (xCoord : Nat) : Nat :=
  let ySquare : Int := powMod xCoord 2 curve.P
  let ySquare := (ySquare + -3) % curve.P
  let ySquare := ySquare * xCoord % curve.P
  let ySquare := (ySquare + curve.B) % curve.P
  ySquare.toNat

/-- `deCompress`. -/
def deCompress (yTilde : Nat) (xValue : Bytes) : Outcome PointError PubKey :=
  let xCoord := ofBigEndian xValue
  match curveSqrt curve (rightHandSide curve xCoord) with
  | none => .error .compression
  | some yValue =>
      let yCoord :=
        if (isEven yValue ∧ 0 ≠ yTilde) ∨ (¬ isEven yValue ∧ 1 ≠ yTilde) then curve.P - yValue
        else yValue
      .ok ⟨some xCoord, some yCoord⟩

/-- The length of a coordinate in bytes. -/
def expectedLength : Nat := (curve.P.log2 + 1 + 7) / 8

/-- `DecodePoint`, where the data may be nil and has no spare capacity. -/
def decodePoint : Option Bytes → Outcome PointError PubKey
  | none => .error .nilData
  | some [] => .panic
  | some (tag :: rest) =>
      if tag = 0x00 then .ok ⟨none, none⟩
      else if tag = 0x02 ∨ tag = 0x03 then
        if (tag :: rest).length ≠ expectedLength curve + 1 then .error .format
        else if rest.length < 32 then .panic
        else deCompress curve (tag.toNat % 2) (rest.take 32)
      else if tag = 0x04 ∨ tag = 0x06 ∨ tag = 0x07 then
        if rest.length < 64 then .panic
        else .ok ⟨some (ofBigEndian (rest.take 32)), some (ofBigEndian ((rest.drop 32).take 32))⟩
      else .error .format

end Read

/-! ## Encodings -/

section Encode

variable {x y : Nat}

/-- Copied to the end of an array of zeros, the bytes of a number give its fixed-width form. -/
theorem copyAt_zeros {width : Nat} (small : x < 256 ^ width) :
    (copyAt (List.replicate width 0) (width - (minimalBytes x).length) (minimalBytes x)).1 =
      bigEndian width x := by
  have fits := byteLength_le_iff.mpr small
  rw [copyAt_of_fits (by simp; omega), ← replicate_append_minimalBytes small, length_minimalBytes,
    List.take_replicate, Nat.min_eq_left (Nat.sub_le _ _), List.drop_replicate,
    show width - (width - byteLength x + byteLength x) = 0 by omega, List.replicate_zero,
    List.append_nil]

theorem encodePoint_compressed (small : x < 256 ^ 32) (y : Nat) :
    PubKey.encodePoint ⟨some x, some y⟩ true =
      .ok ((if isEven y then 0x02 else 0x03) :: bigEndian 32 x) := by
  have length : byteLength x ≤ 32 := byteLength_le_iff.mpr small
  have wide : x < 256 ^ 33 := Nat.lt_trans small (by decide)
  have fits : ¬ (33 < (minimalBytes x).length ∨ (true = false ∧ 65 < (minimalBytes y).length)) := by
    rw [length_minimalBytes]
    rintro (long | ⟨impossible, -⟩)
    · omega
    · cases impossible
  have data : bigEndian 33 x = 0 :: bigEndian 32 x := bigEndian_add small 1
  simp only [PubKey.encodePoint, if_neg fits, if_true, copyAt_zeros wide, data, List.tail_cons]

theorem encodePoint_uncompressed (xSmall : x < 256 ^ 32) (ySmall : y < 256 ^ 32) :
    PubKey.encodePoint ⟨some x, some y⟩ false =
      .ok (0x04 :: (bigEndian 32 x ++ bigEndian 32 y)) := by
  have xLength : byteLength x ≤ 32 := byteLength_le_iff.mpr xSmall
  have yLength : byteLength y ≤ 32 := byteLength_le_iff.mpr ySmall
  have wide : y < 256 ^ 65 := Nat.lt_trans ySmall (by decide)
  have fits : ¬ (33 < (minimalBytes x).length ∨ (True ∧ 65 < (minimalBytes y).length)) := by
    rw [length_minimalBytes, length_minimalBytes]
    omega
  have blank : bigEndian 65 y = List.replicate 33 0 ++ bigEndian 32 y := bigEndian_add ySmall 33
  have data : (copyAt (bigEndian 65 y) (33 - (minimalBytes x).length) (minimalBytes x)).1 =
      0 :: (bigEndian 32 x ++ bigEndian 32 y) := by
    have first : (bigEndian 65 y).take (33 - byteLength x) =
        0 :: List.replicate (32 - byteLength x) 0 := by
      rw [blank, List.take_append_of_le_length (by simp), List.take_replicate,
        Nat.min_eq_left (Nat.sub_le _ _), ← List.replicate_succ]
      congr 1
      omega
    have last : (bigEndian 65 y).drop (33 - byteLength x + byteLength x) = bigEndian 32 y := by
      rw [Nat.sub_add_cancel (by omega), blank, List.drop_append, List.length_replicate]
      simp
    rw [copyAt_of_fits (by simp; omega), length_minimalBytes, first, last,
      ← replicate_append_minimalBytes xSmall]
    rfl
  simp only [PubKey.encodePoint, Bool.false_eq_true, if_false, copyAt_zeros wide, data,
    List.tail_cons, if_neg fits]

end Encode

/-! ## Square roots -/

section Roots

variable {curve : CurveParams} {root square x y : Nat}

theorem rightHandSide_lt (x : Nat) : rightHandSide curve x < curve.P :=
  toNat_emod_lt curve.pos _

theorem rightHandSide_cast (x : Nat) :
    (rightHandSide curve x : ZMod curve.P) = (x : ZMod curve.P) ^ 3 - 3 * x + curve.B := by
  rw [rightHandSide, toNat_emod_cast curve.pos]
  push_cast [ZMod.intCast_mod, powMod_cast]
  ring

theorem onCurve_iff : curve.OnCurve x y ↔ (y : ZMod curve.P) ^ 2 = rightHandSide curve x := by
  rw [CurveParams.OnCurve, ← ZMod.intCast_eq_intCast_iff, rightHandSide_cast]
  push_cast
  rfl

theorem curveSqrt_eq_some_iff (reduced : square < curve.P) :
    curveSqrt curve square = some root ↔
      root = powMod square (curve.P / 4 + 1) curve.P ∧ (root : ZMod curve.P) ^ 2 = square := by
  have test : powMod (powMod square (curve.P / 4 + 1) curve.P) 2 curve.P = square ↔
      (powMod square (curve.P / 4 + 1) curve.P : ZMod curve.P) ^ 2 = square := by
    rw [← cast_inj_of_lt (powMod_lt curve.pos _ _) reduced, powMod_cast]
  simp only [curveSqrt, test]
  split
  case isTrue found =>
    rw [Option.some.injEq]
    constructor
    · rintro rfl
      exact ⟨rfl, found⟩
    · exact fun matching => matching.1.symm
  case isFalse missed =>
    constructor
    · intro impossible
      cases impossible
    · rintro ⟨rfl, found⟩
      exact absurd found missed

/-- A root is found for every square. -/
theorem curveSqrt_of_sq (reduced : square < curve.P) (root : (y : ZMod curve.P) ^ 2 = square) :
    ∃ value, curveSqrt curve square = some value ∧ value < curve.P ∧
      (value : ZMod curve.P) ^ 2 = square := by
  have squared : (powMod square (curve.P / 4 + 1) curve.P : ZMod curve.P) ^ 2 = square := by
    rw [powMod_cast, ← root, sq_pow_quarter curve.residue]
  exact ⟨_, (curveSqrt_eq_some_iff reduced).mpr ⟨rfl, squared⟩, powMod_lt curve.pos _ _, squared⟩

theorem curveSqrt_eq_none (noPoint : ∀ y, ¬ curve.OnCurve x y) :
    curveSqrt curve (rightHandSide curve x) = none := by
  rw [Option.eq_none_iff_forall_not_mem]
  intro root found
  have squared := ((curveSqrt_eq_some_iff (rightHandSide_lt x)).mp found).2
  exact noPoint root (onCurve_iff.mpr squared)

/-- Of the two roots of a square one is odd and one is even. -/
theorem root_unique (left : x < curve.P) (right : y < curve.P)
    (same : (x : ZMod curve.P) ^ 2 = (y : ZMod curve.P) ^ 2) (parity : x % 2 = y % 2) : x = y := by
  rcases sq_eq_sq_iff_eq_or_eq_neg.mp same with equal | opposite
  · exact (cast_inj_of_lt left right).mp equal
  · have zero : ((x + y : Nat) : ZMod curve.P) = 0 := by
      rw [Nat.cast_add, opposite, neg_add_cancel]
    have residue := curve.residue
    obtain ⟨count, multiple⟩ := (ZMod.natCast_eq_zero_iff _ _).mp zero
    have few : count < 2 := by
      by_contra many
      have large : curve.P * 2 ≤ curve.P * count := Nat.mul_le_mul_left _ (by omega)
      omega
    interval_cases count <;> omega

/-- `deCompress` completes the point by the root of the given parity. Only zero has none that is
odd, and the prime stands for it. -/
theorem deCompress_of_onCurve {tilde : Nat} {xValue : Bytes} (bit : tilde < 2)
    (onCurve : curve.OnCurve (ofBigEndian xValue) y) :
    ∃ z, deCompress curve tilde xValue = .ok ⟨some (ofBigEndian xValue), some z⟩ ∧
      curve.OnCurve (ofBigEndian xValue) z ∧ z % 2 = tilde ∧
      (z < curve.P ∨ z = curve.P ∧ tilde = 1 ∧ curve.OnCurve (ofBigEndian xValue) 0) := by
  obtain ⟨value, found, reduced, squared⟩ :=
    curveSqrt_of_sq (rightHandSide_lt _) (onCurve_iff.mp onCurve)
  have flip : ((isEven value ∧ 0 ≠ tilde) ∨ (¬ isEven value ∧ 1 ≠ tilde)) ↔ value % 2 ≠ tilde := by
    simp only [isEven, decide_eq_true_eq]
    omega
  have residue := curve.residue
  simp only [deCompress, found, flip]
  refine ⟨_, rfl, ?_⟩
  split
  case isTrue other =>
    have negated : ((curve.P - value : Nat) : ZMod curve.P) ^ 2 =
        rightHandSide curve (ofBigEndian xValue) := by
      rw [Nat.cast_sub (Nat.le_of_lt reduced), ZMod.natCast_self, zero_sub, neg_sq, squared]
    refine ⟨onCurve_iff.mpr negated, by omega, ?_⟩
    rcases Nat.eq_zero_or_pos value with rfl | positive
    · exact .inr ⟨Nat.sub_zero _, by omega, onCurve_iff.mpr squared⟩
    · exact .inl (by omega)
  case isFalse matching =>
    exact ⟨onCurve_iff.mpr squared, by omega, .inl reduced⟩

end Roots

/-! ## Compressed points -/

section Compressed

variable {curve : CurveParams} {rest : Bytes} {tag : UInt8}

theorem expectedLength_eq (curve : CurveParams) : expectedLength curve = 32 := by
  have nonzero : curve.P ≠ 0 := curve.pos.ne'
  have least := (Nat.le_log2 nonzero).mpr curve.least
  have most := (Nat.log2_lt nonzero).mpr curve.most
  rw [expectedLength]
  omega

theorem CurveParams.lt_256_pow {value : Nat} (reduced : value < curve.P) : value < 256 ^ 32 :=
  Nat.lt_trans reduced curve.most

/-- `DecodePoint` on data in the compressed form. -/
theorem decodePoint_compressed (compressed : tag = 0x02 ∨ tag = 0x03) (length : rest.length = 32) :
    decodePoint curve (some (tag :: rest)) = deCompress curve (tag.toNat % 2) rest := by
  have notZero : tag ≠ 0x00 := by rcases compressed with rfl | rfl <;> decide
  rw [decodePoint, if_neg notZero, if_pos compressed, List.length_cons, expectedLength_eq, length,
    if_neg (by decide), if_neg (by decide), List.take_of_length_le (Nat.le_of_eq length)]

theorem eq_zero_of_onCurve {x y : Nat} (reduced : y < curve.P) (onCurve : curve.OnCurve x y)
    (zero : curve.OnCurve x 0) : y = 0 := by
  rw [onCurve_iff] at onCurve zero
  have same : (y : ZMod curve.P) ^ 2 = ((0 : Nat) : ZMod curve.P) ^ 2 := onCurve.trans zero.symm
  exact (cast_inj_of_lt reduced curve.pos).mp (by simpa using same)

/-- The root that a point is completed by is its ordinate. -/
theorem completed_eq {x y z : Nat} (yReduced : y < curve.P) (onCurve : curve.OnCurve x y)
    (completed : curve.OnCurve x z) (parity : z % 2 = y % 2)
    (range : z < curve.P ∨ z = curve.P ∧ y % 2 = 1 ∧ curve.OnCurve x 0) : z = y := by
  rcases range with reduced | ⟨-, odd, zero⟩
  · rw [onCurve_iff] at onCurve completed
    exact root_unique reduced yReduced (completed.trans onCurve.symm) parity
  · have isZero := eq_zero_of_onCurve yReduced onCurve zero
    omega

/-- A point of the curve is read back from its compressed form, and an abscissa that belongs to no
point is refused. -/
theorem decodePoint_encodePoint (curve : CurveParams) (x y : Nat) (xReduced : x < curve.P)
    (yReduced : y < curve.P) (onCurve : curve.OnCurve x y) :
    (∃ data, PubKey.encodePoint ⟨some x, some y⟩ true = .ok data ∧
      decodePoint curve (some data) = .ok ⟨some x, some y⟩) ∧
    ∀ yTilde xValue, ofBigEndian xValue < curve.P →
      (∀ y, ¬ curve.OnCurve (ofBigEndian xValue) y) →
      deCompress curve yTilde xValue = .error .compression := by
  constructor
  · refine ⟨_, encodePoint_compressed (CurveParams.lt_256_pow xReduced) y, ?_⟩
    have value := ofBigEndian_bigEndian (CurveParams.lt_256_pow xReduced)
    have compressed : (if isEven y then 0x02 else 0x03 : UInt8) = 0x02 ∨
        (if isEven y then 0x02 else 0x03 : UInt8) = 0x03 := by
      cases isEven y <;> decide
    have tilde : (if isEven y then 0x02 else 0x03 : UInt8).toNat % 2 = y % 2 := by
      by_cases even : y % 2 = 0
      · simp [isEven, even]
      · simp [isEven, even]
        omega
    obtain ⟨z, completed, zOnCurve, parity, range⟩ := deCompress_of_onCurve
      (Nat.mod_lt y (by decide : 0 < 2)) (value.symm ▸ onCurve)
    rw [value] at completed zOnCurve range
    rw [decodePoint_compressed compressed (bigEndian_length _ _), tilde, completed,
      completed_eq yReduced onCurve zOnCurve parity range]
  · intro yTilde xValue _ noPoint
    simp only [deCompress, curveSqrt_eq_none noPoint]

/-- The base point of P-256. -/
theorem decodePoint_encodePoint_base :
    ∃ data, PubKey.encodePoint
        ⟨some 0x6b17d1f2e12c4247f8bce6e563a440f277037d812deb33a0f4a13945d898c296,
          some 0x4fe342e2fe1a7f9b8ee7eb4a7c0f9e162bce33576b315ececbb6406837bf51f5⟩ true = .ok data ∧
      decodePoint p256 (some data) = .ok
        ⟨some 0x6b17d1f2e12c4247f8bce6e563a440f277037d812deb33a0f4a13945d898c296,
          some 0x4fe342e2fe1a7f9b8ee7eb4a7c0f9e162bce33576b315ececbb6406837bf51f5⟩ :=
  (decodePoint_encodePoint p256 _ _ (by decide +kernel) (by decide +kernel)
    (by decide +kernel)).1

end Compressed

/-! ## What is accepted -/

/-- Whether data is in the compressed form. -/
def isCompressedForm (data : Bytes) : Bool := data.head? = some 0x02 ∨ data.head? = some 0x03

/-- What is expected of `DecodePoint`: it returns, and a key that it returns is a point of the curve
and is written again as the data. -/
structure Validates (curve : CurveParams) (data : Option Bytes) : Prop where
  returns : decodePoint curve data ≠ .panic
  valid : ∀ key, decodePoint curve data = .ok key → ∃ x y, key = ⟨some x, some y⟩ ∧
    x < curve.P ∧ y < curve.P ∧ curve.OnCurve x y ∧
    ∃ bytes, data = some bytes ∧ key.encodePoint (isCompressedForm bytes) = .ok bytes

/-- The data for which `DecodePoint` does what is expected. -/
def Proper (curve : CurveParams) : Option Bytes → Prop
  | none => True
  | some [] => False
  | some (tag :: rest) =>
      if tag = 0x00 then False
      else if tag = 0x02 ∨ tag = 0x03 then
        -- No other length is read, and the abscissa must be reduced and not that of an odd zero.
        rest.length = 32 → (∃ y, curve.OnCurve (ofBigEndian rest) y) →
          ofBigEndian rest < curve.P ∧ (curve.OnCurve (ofBigEndian rest) 0 → tag = 0x02)
      else if tag = 0x04 ∨ tag = 0x06 ∨ tag = 0x07 then
        tag = 0x04 ∧ rest.length = 64 ∧ ofBigEndian (rest.take 32) < curve.P ∧
          ofBigEndian (rest.drop 32) < curve.P ∧
          curve.OnCurve (ofBigEndian (rest.take 32)) (ofBigEndian (rest.drop 32))
      else True

section Accepted

variable {curve : CurveParams} {tag : UInt8} {rest : Bytes}

theorem validates_of_error {data : Option Bytes} {reason : PointError}
    (refused : decodePoint curve data = .error reason) : Validates curve data :=
  ⟨by rw [refused]; simp, fun key accepted => by rw [refused] at accepted; cases accepted⟩

theorem not_validates_of_panic {data : Option Bytes}
    (panics : decodePoint curve data = .panic) : ¬ Validates curve data :=
  fun validates => validates.returns panics

/-- Which keys that are returned are as expected. -/
theorem validates_of_ok_iff {bytes : Bytes} {x y : Nat}
    (accepted : decodePoint curve (some bytes) = .ok ⟨some x, some y⟩) :
    Validates curve (some bytes) ↔ x < curve.P ∧ y < curve.P ∧ curve.OnCurve x y ∧
      PubKey.encodePoint ⟨some x, some y⟩ (isCompressedForm bytes) = .ok bytes := by
  constructor
  · intro validates
    obtain ⟨x', y', same, xReduced, yReduced, onCurve, bytes', data, written⟩ :=
      validates.valid _ accepted
    cases same
    cases data
    exact ⟨xReduced, yReduced, onCurve, written⟩
  · rintro ⟨xReduced, yReduced, onCurve, written⟩
    refine ⟨by rw [accepted]; simp, fun key returned => ?_⟩
    rw [accepted] at returned
    cases returned
    exact ⟨x, y, rfl, xReduced, yReduced, onCurve, bytes, rfl, written⟩

theorem validates_compressed_iff (compressed : tag = 0x02 ∨ tag = 0x03) :
    Validates curve (some (tag :: rest)) ↔
      (rest.length = 32 → (∃ y, curve.OnCurve (ofBigEndian rest) y) →
        ofBigEndian rest < curve.P ∧ (curve.OnCurve (ofBigEndian rest) 0 → tag = 0x02)) := by
  have notZero : tag ≠ 0x00 := by rcases compressed with rfl | rfl <;> decide
  by_cases length : rest.length = 32
  case neg =>
    have refused : decodePoint curve (some (tag :: rest)) = .error .format := by
      rw [decodePoint, if_neg notZero, if_pos compressed, List.length_cons, expectedLength_eq,
        if_pos (by omega)]
    exact iff_of_true (validates_of_error refused) fun same => absurd same length
  have read : decodePoint curve (some (tag :: rest)) = deCompress curve (tag.toNat % 2) rest :=
    decodePoint_compressed compressed length
  by_cases point : ∃ y, curve.OnCurve (ofBigEndian rest) y
  case neg =>
    have refused : decodePoint curve (some (tag :: rest)) = .error .compression := by
      rw [read]
      simp only [deCompress, curveSqrt_eq_none (not_exists.mp point)]
    exact iff_of_true (validates_of_error refused) fun _ some => absurd some point
  obtain ⟨y, onCurve⟩ := point
  obtain ⟨z, completed, zOnCurve, parity, range⟩ :=
    deCompress_of_onCurve (Nat.mod_lt tag.toNat (by decide : 0 < 2)) onCurve
  rw [validates_of_ok_iff (read.trans completed)]
  have even : tag = 0x02 ↔ tag.toNat % 2 = 0 := by rcases compressed with rfl | rfl <;> decide
  have form : isCompressedForm (tag :: rest) = true := by
    rcases compressed with rfl | rfl <;> rfl
  have written : PubKey.encodePoint ⟨some (ofBigEndian rest), some z⟩
      (isCompressedForm (tag :: rest)) = .ok (tag :: rest) := by
    have flag : (if isEven z then 0x02 else 0x03 : UInt8) = tag := by
      rcases compressed with rfl | rfl
      · simp [isEven, parity]
      · simp [isEven, parity]
    rw [form, encodePoint_compressed (ofBigEndian_lt length), bigEndian_ofBigEndian length, flag]
  constructor
  · rintro ⟨xReduced, zReduced, -, -⟩ - -
    refine ⟨xReduced, fun zero => ?_⟩
    have isZero := eq_zero_of_onCurve zReduced zOnCurve zero
    rw [even, ← parity, isZero]
  · intro proper
    obtain ⟨xReduced, zero⟩ := proper length ⟨y, onCurve⟩
    refine ⟨xReduced, ?_, zOnCurve, written⟩
    rcases range with reduced | ⟨-, odd, onCurve⟩
    · exact reduced
    · have := even.mp (zero onCurve)
      omega

theorem validates_uncompressed_iff (uncompressed : tag = 0x04 ∨ tag = 0x06 ∨ tag = 0x07) :
    Validates curve (some (tag :: rest)) ↔
      tag = 0x04 ∧ rest.length = 64 ∧ ofBigEndian (rest.take 32) < curve.P ∧
        ofBigEndian (rest.drop 32) < curve.P ∧
        curve.OnCurve (ofBigEndian (rest.take 32)) (ofBigEndian (rest.drop 32)) := by
  have notZero : tag ≠ 0x00 := by rcases uncompressed with rfl | rfl | rfl <;> decide
  have notCompressed : ¬ (tag = 0x02 ∨ tag = 0x03) := by
    rcases uncompressed with rfl | rfl | rfl <;> decide
  by_cases short : rest.length < 64
  case pos =>
    have panics : decodePoint curve (some (tag :: rest)) = .panic := by
      rw [decodePoint, if_neg notZero, if_neg notCompressed, if_pos uncompressed, if_pos short]
    refine iff_of_false (not_validates_of_panic panics) ?_
    rintro ⟨-, length, -⟩
    omega
  have accepted : decodePoint curve (some (tag :: rest)) =
      .ok ⟨some (ofBigEndian (rest.take 32)), some (ofBigEndian ((rest.drop 32).take 32))⟩ := by
    rw [decodePoint, if_neg notZero, if_neg notCompressed, if_pos uncompressed, if_neg short]
  have form : isCompressedForm (tag :: rest) = false := by
    rcases uncompressed with rfl | rfl | rfl <;> rfl
  have first : (rest.take 32).length = 32 := by
    rw [List.length_take]
    omega
  have second : ((rest.drop 32).take 32).length = 32 := by
    rw [List.length_take, List.length_drop]
    omega
  rw [validates_of_ok_iff accepted, form,
    encodePoint_uncompressed (ofBigEndian_lt first) (ofBigEndian_lt second),
    bigEndian_ofBigEndian first, bigEndian_ofBigEndian second, Outcome.ok.injEq, List.cons.injEq]
  constructor
  · rintro ⟨xReduced, yReduced, onCurve, flag, written⟩
    have length : rest.length = 64 := by
      rw [← written, List.length_append, first, second]
    have all : (rest.drop 32).take 32 = rest.drop 32 :=
      List.take_of_length_le (by rw [List.length_drop]; omega)
    rw [all] at yReduced onCurve
    exact ⟨flag.symm, length, xReduced, yReduced, onCurve⟩
  · rintro ⟨flag, length, xReduced, yReduced, onCurve⟩
    have all : (rest.drop 32).take 32 = rest.drop 32 :=
      List.take_of_length_le (by rw [List.length_drop]; omega)
    rw [all]
    exact ⟨xReduced, yReduced, onCurve, flag.symm, List.take_append_drop 32 rest⟩

/-- `DecodePoint` does what is expected for the proper data, and for no other. -/
theorem validates_iff (curve : CurveParams) (data : Option Bytes) :
    Validates curve data ↔ Proper curve data := by
  rcases data with _ | _ | ⟨tag, rest⟩
  · exact iff_of_true (validates_of_error rfl) True.intro
  · exact iff_of_false (not_validates_of_panic rfl) not_false
  · rw [Proper]
    split_ifs with zero compressed uncompressed
    · have accepted : decodePoint curve (some (tag :: rest)) = .ok ⟨none, none⟩ := by
        rw [decodePoint, if_pos zero]
      refine iff_of_false (fun validates => ?_) not_false
      obtain ⟨x, y, same, -⟩ := validates.valid _ accepted
      cases same
    · exact validates_compressed_iff compressed
    · exact validates_uncompressed_iff uncompressed
    · have refused : decodePoint curve (some (tag :: rest)) = .error .format := by
        rw [decodePoint, if_neg zero, if_neg compressed, if_neg uncompressed]
      exact iff_of_true (validates_of_error refused) True.intro

theorem decodePoint_empty : ¬ Validates p256 (some []) := not_validates_of_panic rfl

end Accepted

end DnaPow.Crypto
