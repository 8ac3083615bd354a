import DnaPow.Core.MultiSig
import DnaPow.Core.MultiSigGrammar

/-!
# The scripts of the two kinds of contracts

What the tests of `ContractKind` say about the scripts that the builder makes, for
keys that are points of the curve.
-/

namespace DnaPow.Core

open DnaPow.Std Common Vm

variable {number : Nat}

/-- The script of a multi-signature contract with its keys in the given order. -/
def multiSigCode (m : Nat) (keys : List PubKey) : Bytes :=
  pushNumber m ++ keys.flatMap (fun key => pushData key.encodePoint) ++
    pushNumber keys.length ++ [0xae]

theorem createMultiSigRedeemScript_eq_multiSigCode {ε : Type} {sorter : KeySort} {m : Nat}
    {pubkeys : List PubKey} {code : Bytes} (inside : 1 ≤ m ∧ m ≤ pubkeys.length)
    (few : pubkeys.length ≤ 24)
    (created : createMultiSigRedeemScript (ε := ε) sorter m pubkeys = .ok code) :
    code = multiSigCode m (sorter.sort pubkeys) := by
  rw [createMultiSigRedeemScript, if_neg (not_not.mpr ⟨inside.1, inside.2, few⟩)] at created
  split_ifs at created
  rw [← Outcome.ok.inj created, multiSigCode, (sorter.perm pubkeys).length_eq]

/-- Small numbers take one byte. -/
theorem pushNumber_small (positive : 1 ≤ number) (small : number ≤ 16) :
    pushNumber number = [UInt8.ofNat (0x50 + number)] := by
  have all : ∀ number : Fin 17, 1 ≤ number.val →
      pushNumber (number.val : Int) = [UInt8.ofNat (0x50 + number.val)] := by decide
  exact all ⟨number, by omega⟩ positive

/-- Numbers above 16 take two bytes. -/
theorem pushNumber_large (large : 17 ≤ number) (few : number ≤ 24) :
    pushNumber number = [1, UInt8.ofNat number] := by
  have all : ∀ number : Fin 25, 17 ≤ number.val →
      pushNumber (number.val : Int) = [1, UInt8.ofNat number.val] := by decide
  exact all ⟨number, by omega⟩ large

theorem length_pushNumber (positive : 1 ≤ number) (few : number ≤ 24) :
    (pushNumber number).length = if number ≤ 16 then 1 else 2 := by
  split
  · next small => rw [pushNumber_small positive small]; rfl
  · next large => rw [pushNumber_large (by omega) few]; rfl

theorem numberPush_pushNumber (positive : 1 ≤ number) (few : number ≤ 24) :
    NumberPush number (pushNumber number) := by
  by_cases small : number ≤ 16
  · rw [pushNumber_small positive small]
    exact .small positive small
  · rw [pushNumber_large (by omega) few]
    have push := NumberPush.oneByte (UInt8.ofNat number)
    rwa [UInt8.toNat_ofNat_of_lt' (show number < 256 by omega)] at push

/-- The push of a key. -/
theorem pushData_encodePoint {key : PubKey} (finite : key ≠ .infinity) :
    pushData key.encodePoint = 33 :: key.encodePoint ∧ key.encodePoint.length = 33 := by
  cases key with
  | infinity => exact absurd rfl finite
  | point x y =>
    have length : (PubKey.point x y).encodePoint.length = 33 := by simp [PubKey.encodePoint]
    exact ⟨by rw [pushData, if_pos (by omega), length]; rfl, length⟩

section Keys

variable {keys : List PubKey} (finite : ∀ key ∈ keys, key ≠ .infinity)
include finite

theorem length_keys : (keys.flatMap fun key => pushData key.encodePoint).length =
    34 * keys.length := by
  apply length_flatMap_of_forall
  intro key member
  obtain ⟨push, length⟩ := pushData_encodePoint (finite key member)
  rw [push, List.length_cons, length]

theorem keyHashes_keys (crypto : Primitives) :
    keyHashes crypto keys.length (keys.flatMap fun key => pushData key.encodePoint) =
      keys.map fun key => crypto.toCodeHash (createSignatureRedeemScript key) := by
  induction keys with
  | nil => rfl
  | cons key keys ih =>
    obtain ⟨push, length⟩ := pushData_encodePoint (finite key List.mem_cons_self)
    have size : (pushData key.encodePoint).length = 34 := by rw [push, List.length_cons, length]
    rw [List.length_cons, keyHashes, List.flatMap_cons, List.take_left' size,
      List.drop_left' size, ih fun other member => finite other (List.mem_cons_of_mem _ member)]
    rfl

end Keys

theorem length_multiSigCode {m : Nat} {keys : List PubKey}
    (finite : ∀ key ∈ keys, key ≠ .infinity) :
    (multiSigCode m keys).length =
      (pushNumber m).length + 34 * keys.length + (pushNumber keys.length).length + 1 := by
  simp only [multiSigCode, List.length_append, length_keys finite, List.length_singleton]

/-! ## Standard contracts -/

theorem isStandard_redeemScript {key : PubKey} (finite : key ≠ .infinity) :
    isStandard (createSignatureRedeemScript key) = true := by
  obtain ⟨push, length⟩ := pushData_encodePoint finite
  have code : createSignatureRedeemScript key = 33 :: key.encodePoint ++ [0xac] := by
    rw [createSignatureRedeemScript, push]
  simp [isStandard, code, length]

section MultiSig

variable {m : Nat} {keys : List PubKey} (inside : 1 ≤ m ∧ m ≤ keys.length)
  (few : keys.length ≤ 24) (finite : ∀ key ∈ keys, key ≠ .infinity)
include inside few finite

theorem isStandard_multiSigCode : isStandard (multiSigCode m keys) = false := by
  have length := length_multiSigCode (m := m) finite
  rw [length_pushNumber inside.1 (by omega), length_pushNumber (by omega) few] at length
  have other : (multiSigCode m keys).length ≠ 35 := by split_ifs at length <;> omega
  simp [isStandard, other]

theorem isMultiSigContract_multiSigCode {ε : Type} :
    isMultiSigContract (ε := ε) (multiSigCode m keys) = .ok true := by
  have blocks : keys.flatMap (fun key => pushData key.encodePoint) =
      keyBlocks (keys.map PubKey.encodePoint) := by
    rw [keyBlocks, List.flatMap_map]
    exact List.flatMap_congr fun key member => (pushData_encodePoint (finite key member)).1
  refine IsMultiSigCode.accepted ⟨m, keys.length, _, _, keys.map PubKey.encodePoint,
    numberPush_pushNumber inside.1 (by omega), numberPush_pushNumber (by omega) few,
    List.length_map _, ?_, inside.1, inside.2, by omega, ?_⟩
  · intro key member
    obtain ⟨point, isPoint, rfl⟩ := List.mem_map.mp member
    exact (pushData_encodePoint (finite point isPoint)).2
  · rw [multiSigCode, blocks, List.append_assoc, List.append_assoc]

/-! ## Keys of a multi-signature contract -/

/-- With three to sixteen keys both numbers take one byte, and the keys are found. -/
theorem parseMultisigTransactionCode_multiSigCode (crypto : Primitives)
    (range : 3 ≤ keys.length ∧ keys.length ≤ 16) :
    parseMultisigTransactionCode crypto (multiSigCode m keys) =
      keys.map fun key => crypto.toCodeHash (createSignatureRedeemScript key) := by
  have length := length_multiSigCode (m := m) finite
  rw [length_pushNumber inside.1 (by omega), length_pushNumber (by omega) few,
    if_pos (by omega), if_pos (by omega)] at length
  have middle : ((multiSigCode m keys).dropLast.drop 1).dropLast =
      keys.flatMap fun key => pushData key.encodePoint := by
    rw [multiSigCode, pushNumber_small inside.1 (by omega), pushNumber_small (by omega) range.2,
      List.dropLast_concat]
    simp
  have size := length_keys finite
  unfold parseMultisigTransactionCode
  rw [if_neg (by omega)]
  dsimp only
  rw [middle, size, if_neg (by omega), Nat.mul_div_cancel_left _ (by omega)]
  exact keyHashes_keys finite crypto

/-- With fewer or more keys none is found. -/
theorem parseMultisigTransactionCode_eq_nil (crypto : Primitives)
    (range : ¬ (3 ≤ keys.length ∧ keys.length ≤ 16)) :
    parseMultisigTransactionCode crypto (multiSigCode m keys) = [] := by
  have length := length_multiSigCode (m := m) finite
  rw [length_pushNumber inside.1 (by omega), length_pushNumber (by omega) few] at length
  unfold parseMultisigTransactionCode
  split
  · rfl
  · dsimp only
    rw [if_pos]
    simp only [List.length_dropLast, List.length_drop]
    split_ifs at length <;> omega

end MultiSig

/-- What the code that the builder makes for some keys is taken for: a multi-signature
contract, no standard contract, and one whose keys are found in the order of the code. -/
def ReadBack (crypto : Primitives) (sorter : KeySort) (pubkeys : List PubKey) (code : Bytes) :
    Prop :=
  isMultiSigContract code = (.ok true : Outcome Unit Bool) ∧ isStandard code = false ∧
    parseMultisigTransactionCode crypto code =
      (sorter.sort pubkeys).map fun key => crypto.toCodeHash (createSignatureRedeemScript key)

instance (crypto : Primitives) (sorter : KeySort) (pubkeys : List PubKey) (code : Bytes) :
    Decidable (ReadBack crypto sorter pubkeys code) := inferInstanceAs (Decidable (_ ∧ _ ∧ _))

/-- A multi-signature script is recognised and its keys are found exactly if it has
three to sixteen of them. -/
theorem multiSigScript_readBack_iff (crypto : Primitives) (sorter : KeySort) {m : Nat}
    {pubkeys : List PubKey} (inside : 1 ≤ m ∧ m ≤ pubkeys.length) (few : pubkeys.length ≤ 24)
    (finite : ∀ key ∈ pubkeys, key ≠ .infinity) :
    (∃ code, createMultiSigRedeemScript sorter m pubkeys = (.ok code : Outcome Unit Bytes) ∧
      ReadBack crypto sorter pubkeys code) ↔ 3 ≤ pubkeys.length ∧ pubkeys.length ≤ 16 := by
  have sorted := (sorter.perm pubkeys).length_eq
  have inside' : 1 ≤ m ∧ m ≤ (sorter.sort pubkeys).length := by rwa [sorted]
  have few' : (sorter.sort pubkeys).length ≤ 24 := by rwa [sorted]
  have finite' : ∀ key ∈ sorter.sort pubkeys, key ≠ .infinity := fun key member =>
    finite key ((sorter.perm pubkeys).mem_iff.mp member)
  constructor
  · rintro ⟨code, created, -, -, parsed⟩
    rw [createMultiSigRedeemScript_eq_multiSigCode inside few created] at parsed
    by_contra range
    rw [← sorted] at range
    rw [parseMultisigTransactionCode_eq_nil inside' few' finite' crypto range] at parsed
    have lengths := congrArg List.length parsed
    rw [List.length_nil, List.length_map] at lengths
    omega
  · intro range
    have created : createMultiSigRedeemScript sorter m pubkeys =
        (.ok (multiSigCode m (sorter.sort pubkeys)) : Outcome Unit Bytes) := by
      have noInfinity : ¬ (2 ≤ pubkeys.length ∧ .infinity ∈ pubkeys) := fun ⟨_, member⟩ =>
        finite _ member rfl
      rw [createMultiSigRedeemScript, if_neg (not_not.mpr ⟨inside.1, inside.2, few⟩),
        if_neg noInfinity, multiSigCode, sorted]
    refine ⟨_, created, isMultiSigContract_multiSigCode inside' few' finite',
      isStandard_multiSigCode inside' few' finite', ?_⟩
    rw [← sorted] at range
    exact parseMultisigTransactionCode_multiSigCode inside' few' finite' crypto range

/-- The order in which the keys are given. -/
def KeySort.given : KeySort := ⟨id, fun _ => .refl _⟩

theorem multiSigScript_readBack_three : ∃ code,
    createMultiSigRedeemScript .given 2 [.point 1 2, .point 3 4, .point 5 6] =
      (.ok code : Outcome Unit Bytes) ∧
    ReadBack .polynomial .given [.point 1 2, .point 3 4, .point 5 6] code :=
  (multiSigScript_readBack_iff .polynomial .given (by decide) (by decide) (by decide)).mpr
    (by decide)

theorem multiSigScript_two_notReadBack :
    createMultiSigRedeemScript .given 2 [.point 1 2, .point 3 4] =
      (.ok (multiSigCode 2 [.point 1 2, .point 3 4]) : Outcome Unit Bytes) ∧
    ¬ ReadBack .polynomial .given [.point 1 2, .point 3 4]
      (multiSigCode 2 [.point 1 2, .point 3 4]) := by
  decide +kernel

end DnaPow.Core
