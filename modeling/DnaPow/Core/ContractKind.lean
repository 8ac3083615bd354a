import DnaPow.Core.Contract

/-!
# The kinds of contracts

`Contract` with its two tests: a standard contract is the script of one public key,
a multi-signature contract the script of several. The second test walks over the
code and panics where it ends too early. `ParseMultisigTransactionCode` recovers the
keys of a multi-signature contract, as the hashes of their standard contracts.
-/

namespace DnaPow.Core

open DnaPow.Std Common

/-- `ContractParameterType`. -/
inductive ContractParameterType where
  | signature
  | boolean
  | integer
  | hash160
  | hash256
  | byteArray
  deriving DecidableEq, Repr

/-- `Contract`; the hash of its owner is read by nothing here. -/
structure Contract where
  code : Bytes
  parameters : List ContractParameterType
  programHash : Uint160
  deriving DecidableEq, Repr

/-- `ContractType`. -/
inductive ContractType where
  | signatureContract
  | multiSigContract
  | customContract
  deriving DecidableEq, Repr

/-- `IsStandard`: the code pushes 33 bytes and checks a signature. -/
def isStandard (code : Bytes) : Bool :=
  code.length = 35 ∧ code[0]? = some 33 ∧ code[34]? = some 0xac

section MultiSig

variable {ε : Type}

/-- A byte of the code; one beyond its end is a slice access out of range. -/
def codeAt (code : Bytes) (i : Nat) : Outcome ε UInt8 :=
  match code[i]? with
  | some byte => .ok byte
  | none => .panic

/-- `BytesToInt16`: two bytes, big-endian; fewer of them give zero. -/
def bytesToInt16 : Bytes → Int16
  | high :: low :: _ => Int16.ofNat (256 * high.toNat + low.toNat)
  | _ => 0

/-- A number as the script builder pushes it, and the position after it. -/
def readNumber (code : Bytes) (i : Nat) : Outcome ε (Int16 × Nat) := do
  let byte ← codeAt code i
  if byte = 1 then do
    let number ← codeAt code (i + 1)
    return (Int16.ofNat number.toNat, i + 2)
  else if byte = 2 then
    return (bytesToInt16 (code.drop (i + 1)), i + 3)
  else
    return (Int16.ofNat byte.toNat - 80, i + 1)

/-- The loop of `IsMultiSigContract` over the keys: how many there are and the
position after them, or nothing if the code ends with a key. Each round passes
some of the code, whose length is enough fuel. -/
def skipKeys (code : Bytes) : Nat → Nat → Int16 → Outcome ε (Option (Int16 × Nat))
  | 0, _, _ => .panic
  | fuel + 1, i, n => do
      let byte ← codeAt code i
      if byte = 33 then
        if code.length ≤ i + 34 then return none
        else skipKeys code fuel (i + 34) (n + 1)
      else return some (n, i)

/-- `IsMultiSigContract`. -/
def isMultiSigContract (code : Bytes) : Outcome ε Bool := do
  if code.length < 37 then return false
  let first ← codeAt code 0
  if 0x60 < first ∨ first < 0x51 ∧ first ≠ 1 ∧ first ≠ 2 then return false
  let (m, i) ← readNumber code 0
  if m < 1 ∨ 1024 < m then return false
  match ← skipKeys code code.length i 0 with
  | none => return false
  | some (n, i) => do
      if n < m ∨ 1024 < n then return false
      let (number, i) ← readNumber code i
      if n ≠ number then return false
      let last ← codeAt code i
      return last = 0xae ∧ code.length = i + 1

/-- `GetType`. -/
def Contract.getType (contract : Contract) : Outcome ε ContractType := do
  if isStandard contract.code then return .signatureContract
  if ← isMultiSigContract contract.code then return .multiSigContract
  return .customContract

end MultiSig

/-- `CreateSignatureContract`. -/
def createSignatureContract (crypto : Primitives) (key : PubKey) : Contract :=
  let code := createSignatureRedeemScript key
  ⟨code, [.signature], crypto.toCodeHash code⟩

/-- `CreateMultiSigContract`. -/
def createMultiSigContract {ε : Type} (crypto : Primitives) (sorter : KeySort) (m : Nat)
    (pubkeys : List PubKey) : Outcome ε Contract := do
  let code ← createMultiSigRedeemScript sorter m pubkeys
  return ⟨code, List.replicate m .signature, crypto.toCodeHash code⟩

/-- The program hashes of the standard contracts for keys that stand one after the
other, 34 bytes each. -/
def keyHashes (crypto : Primitives) : Nat → Bytes → List Uint160
  | 0, _ => []
  | count + 1, code =>
      crypto.toCodeHash (code.take 34 ++ [0xac]) :: keyHashes crypto count (code.drop 34)

/-- `ParseMultisigTransactionCode`: the two numbers are taken to be one byte long, and
a code of fewer than three keys is too short. -/
def parseMultisigTransactionCode (crypto : Primitives) (code : Bytes) : List Uint160 :=
  if code.length < 105 then []
  else
    let keys := (code.dropLast.drop 1).dropLast
    if keys.length % 34 ≠ 0 then [] else keyHashes crypto (keys.length / 34) keys

end DnaPow.Core
