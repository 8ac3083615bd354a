import DnaPow.Common.Serialization
import DnaPow.Std.BigEndian
import DnaPow.Std.Decimal

/-!
# Addresses

An address is the base58 text of the decimal text of a number, whose bytes are a version, the
program hash and a checksum. `ToScriptHash` cuts the hash out of the bytes before it checks
anything, and panics when there are too few of them or no number at all.
-/

namespace DnaPow.Common

open DnaPow.Std

/-- The base58 codec: every decimal text has an encoding that is decoded to it. What it decodes
from other texts is not said. -/
structure Base58 where
  encode : Bytes → Option Bytes
  decode : Bytes → Option Bytes
  decodes : ∀ number, ∃ text, encode (formatUint number) = some text ∧
    decode text = some (formatUint number)

inductive AddressError where
  | encode
  | decode
  | length
  | verify
  deriving DecidableEq, Repr

section Address

variable (crypto : Primitives) (base58 : Base58)

/-- The bytes of an address: version, hash and checksum. -/
def addressBytes (hash : Uint160) : Bytes :=
  let data := 33 :: hash.toArray
  data ++ (crypto.doubleSha256 data).toArray.take 4

/-- `ToAddress`. -/
def Uint160.toAddress (hash : Uint160) : Outcome AddressError Bytes :=
  let bi := formatUint (ofBigEndian (addressBytes crypto hash))
  Outcome.ofOption .encode (base58.encode bi)

/-- `x.Bytes()[1:21]`, where `x` is nil if the text is not a number. `Bytes` is of the absolute
value and has no spare capacity. -/
def hashBytes (decoded : Bytes) : Outcome AddressError Bytes :=
  match parseInteger decoded with
  | none => .panic
  | some x =>
      let bytes := minimalBytes x.natAbs
      if bytes.length < 21 then .panic else .ok ((bytes.take 21).drop 1)

/-- `ToScriptHash`. -/
def toScriptHash (address : Bytes) : Outcome AddressError Uint160 := do
  let decoded ← Outcome.ofOption .decode (base58.decode address)
  let bytes ← hashBytes decoded
  let ph ← Outcome.ofOption .length (uint160ParseFromBytes bytes)
  let addr ← ph.toAddress crypto base58
  if addr ≠ address then .error .verify else .ok ph

/-- The text decodes to a number that needs more than twenty bytes, or not at all. -/
def LongNumber (address : Bytes) : Prop :=
  ∀ decoded, base58.decode address = some decoded →
    ∃ x, parseInteger decoded = some x ∧ 256 ^ 20 ≤ x.natAbs

end Address

/-! ## Parsing -/

section Parse

variable {crypto : Primitives} {base58 : Base58} {hash : Uint160} {address decoded bytes : Bytes}

theorem uint160ParseFromBytes_toArray (hash : Uint160) :
    uint160ParseFromBytes hash.toArray = some hash := by
  have length : hash.toArray.length = 20 := littleEndian_length _ _
  have small : hash.toNat < 256 ^ 20 := hash.isLt
  rw [uint160ParseFromBytes, if_pos length, Uint160.toArray, ofLittleEndian_littleEndian,
    Nat.mod_eq_of_lt small, BitVec.ofNat_toNat, BitVec.setWidth_eq]

theorem toAddress_ne_panic : hash.toAddress crypto base58 ≠ .panic :=
  Outcome.ofOption_ne_panic

/-- An address decodes to the number that its bytes denote. -/
theorem decode_of_toAddress (encoded : hash.toAddress crypto base58 = .ok address) :
    base58.decode address = some (formatUint (ofBigEndian (addressBytes crypto hash))) := by
  obtain ⟨text, encodes, decodes⟩ := base58.decodes (ofBigEndian (addressBytes crypto hash))
  have same : text = address := by
    rw [Uint160.toAddress, encodes] at encoded
    exact Outcome.ok.inj encoded
  rw [← same, decodes]

/-- The bytes of a long enough number are cut to those of a hash. -/
theorem hashBytes_eq_ok_iff : hashBytes decoded = .ok bytes ↔
    ∃ x, parseInteger decoded = some x ∧ 256 ^ 20 ≤ x.natAbs ∧
      ((minimalBytes x.natAbs).take 21).drop 1 = bytes := by
  have short : ∀ x : Int, (minimalBytes x.natAbs).length < 21 ↔ x.natAbs < 256 ^ 20 := by
    intro x
    rw [length_minimalBytes, Nat.lt_succ_iff, byteLength_le_iff]
  rw [hashBytes]
  cases parseInteger decoded with
  | none => simp
  | some x =>
    simp only [short, Option.some.injEq, exists_eq_left']
    split
    case isTrue small => simp only [reduceCtorEq, Nat.not_le.mpr small, false_and]
    case isFalse large => simp only [Outcome.ok.injEq, Nat.not_lt.mp large, true_and]

theorem hashBytes_ne_panic_iff : hashBytes decoded ≠ .panic ↔
    ∃ x, parseInteger decoded = some x ∧ 256 ^ 20 ≤ x.natAbs := by
  have ends : hashBytes decoded ≠ .panic ↔ ∃ bytes, hashBytes decoded = .ok bytes := by
    rw [hashBytes]
    cases parseInteger decoded with
    | none => simp
    | some x =>
      dsimp only
      split <;> simp
  rw [ends]
  simp only [hashBytes_eq_ok_iff]
  constructor
  · rintro ⟨bytes, x, read, large, -⟩
    exact ⟨x, read, large⟩
  · rintro ⟨x, read, large⟩
    exact ⟨_, x, read, large, rfl⟩

/-- What `hashBytes` cuts out of the bytes of an address. -/
theorem hashBytes_addressBytes (crypto : Primitives) (hash : Uint160) :
    hashBytes (formatUint (ofBigEndian (addressBytes crypto hash))) = .ok hash.toArray := by
  have length : hash.toArray.length = 20 := littleEndian_length _ _
  have parts : addressBytes crypto hash = 33 :: (hash.toArray ++
      (crypto.doubleSha256 (33 :: hash.toArray)).toArray.take 4) := rfl
  have bytes : minimalBytes (ofBigEndian (addressBytes crypto hash)) = addressBytes crypto hash := by
    rw [parts, minimalBytes_ofBigEndian (by decide)]
  have needed : (addressBytes crypto hash).length = 25 := by
    simp [parts, length]
  have large : 256 ^ 20 ≤ ofBigEndian (addressBytes crypto hash) := by
    apply Nat.le_of_not_lt
    intro small
    have fits := byteLength_le_iff.mpr small
    rw [← length_minimalBytes, bytes, needed] at fits
    omega
  rw [hashBytes_eq_ok_iff]
  refine ⟨_, parseInteger_formatUint _, ?_⟩
  rw [Int.natAbs_natCast]
  refine ⟨large, ?_⟩
  rw [bytes, parts, List.take_succ_cons, List.drop_succ_cons, List.drop_zero,
    ← length, List.take_left]

/-- `ToScriptHash` accepts the address of a hash and nothing else. -/
theorem toScriptHash_eq_ok_iff :
    toScriptHash crypto base58 address = .ok hash ↔ hash.toAddress crypto base58 = .ok address := by
  constructor
  · intro accepted
    simp only [toScriptHash, Outcome.bind_eq_ok] at accepted
    obtain ⟨-, -, -, -, ph, -, addr, encoded, verified⟩ := accepted
    by_cases same : addr = address
    · rw [if_neg (not_not.mpr same)] at verified
      rw [← Outcome.ok.inj verified, encoded, same]
    · rw [if_pos same] at verified
      cases verified
  · intro encoded
    rw [toScriptHash, decode_of_toAddress encoded, Outcome.ofOption, Outcome.bind_ok,
      hashBytes_addressBytes, Outcome.bind_ok, uint160ParseFromBytes_toArray, Outcome.ofOption,
      Outcome.bind_ok, encoded, Outcome.bind_ok, if_neg (not_not.mpr rfl)]

theorem toScriptHash_ne_panic_iff :
    toScriptHash crypto base58 address ≠ .panic ↔ LongNumber base58 address := by
  have rest : ∀ bytes, (do
      let ph ← Outcome.ofOption .length (uint160ParseFromBytes bytes)
      let addr ← Uint160.toAddress crypto base58 ph
      if addr ≠ address then .error .verify else .ok ph) ≠ Outcome.panic := by
    intro bytes panics
    rcases Outcome.bind_eq_panic.mp panics with early | ⟨ph, -, panics⟩
    · exact Outcome.ofOption_ne_panic early
    rcases Outcome.bind_eq_panic.mp panics with early | ⟨addr, -, panics⟩
    · exact toAddress_ne_panic early
    · split at panics <;> cases panics
  rw [toScriptHash, LongNumber]
  cases base58.decode address with
  | none => simp [Outcome.ofOption]
  | some decoded =>
    simp only [Outcome.ofOption, Outcome.bind_ok, Option.some.injEq, forall_eq',
      ← hashBytes_ne_panic_iff]
    rw [ne_eq, Outcome.bind_eq_panic, not_or]
    apply and_iff_left
    rintro ⟨bytes, -, panics⟩
    exact rest bytes panics

/-- Parsing an address is total and exact for the texts that decode to a number of more than
twenty bytes, and for those that do not decode. -/
theorem toScriptHash_exact_iff (crypto : Primitives) (base58 : Base58) (address : Bytes) :
    (toScriptHash crypto base58 address ≠ .panic ∧
      ∀ hash, toScriptHash crypto base58 address = .ok hash ↔
        Uint160.toAddress crypto base58 hash = .ok address) ↔ LongNumber base58 address := by
  rw [toScriptHash_ne_panic_iff]
  exact and_iff_left fun hash => toScriptHash_eq_ok_iff

/-- The digits of base58: no zero, no capital `I` or `O`, no small `l`. -/
def base58Alphabet : Bytes :=
  (List.range' 49 9 ++ List.range' 65 8 ++ List.range' 74 5 ++ List.range' 80 11 ++
    List.range' 97 11 ++ List.range' 109 14).map UInt8.ofNat

theorem base58Alphabet_digit : ∀ digit < 58,
    base58Alphabet.getD digit 0 ∈ base58Alphabet ∧
      base58Alphabet.idxOf (base58Alphabet.getD digit 0) = digit := by
  decide +kernel

/-- The positional codec. -/
def Base58.positional : Base58 where
  encode text :=
    (parseNatural text).map fun number =>
      (Nat.digits 58 number).reverse.map fun digit => base58Alphabet.getD digit 0
  decode text :=
    if ∀ byte ∈ text, byte ∈ base58Alphabet then
      some (formatUint (Nat.ofDigits 58 (text.reverse.map fun byte => base58Alphabet.idxOf byte)))
    else none
  decodes := by
    intro number
    have digit : ∀ digit ∈ (Nat.digits 58 number).reverse,
        base58Alphabet.getD digit 0 ∈ base58Alphabet ∧
          base58Alphabet.idxOf (base58Alphabet.getD digit 0) = digit := fun digit member =>
      base58Alphabet_digit digit (Nat.digits_lt_base (by decide) (List.mem_reverse.mp member))
    have back : ((Nat.digits 58 number).reverse.map fun digit => base58Alphabet.getD digit 0).map
        (fun byte => base58Alphabet.idxOf byte) = (Nat.digits 58 number).reverse := by
      rw [List.map_map]
      exact (List.map_congr_left fun d member => (digit d member).2).trans (List.map_id _)
    refine ⟨_, by rw [parseNatural_formatUint]; rfl, ?_⟩
    have digits : ∀ byte ∈ (Nat.digits 58 number).reverse.map fun digit =>
        base58Alphabet.getD digit 0, byte ∈ base58Alphabet := by
      intro byte member
      obtain ⟨d, listed, rfl⟩ := List.mem_map.mp member
      exact (digit d listed).1
    rw [if_pos digits, List.map_reverse, back, List.reverse_reverse, Nat.ofDigits_digits]

/-- The text `2` stands for the number one. -/
theorem toScriptHash_short :
    toScriptHash Primitives.polynomial Base58.positional [50] = .panic := by
  decide +kernel

end Parse

end DnaPow.Common
