import DnaPow.Vm.Execute
import DnaPow.Core.Transaction

/-!
# Contract scripts

Public-key encoding, the script builder of package `core/contract/program`, the
two redeem scripts, and `VerifySignableData`, which runs each program of a
signable datum in a fresh engine.
-/

namespace DnaPow.Core

open DnaPow.Std Common Vm

/-- A public key on a 256-bit curve. Missing coordinates stand for the point at infinity. -/
inductive PubKey where
  | infinity
  | point (x y : Uint256)
  deriving DecidableEq, Repr

/-- `EncodePoint(true)`: a parity byte and the big-endian first coordinate. -/
def PubKey.encodePoint : PubKey → Bytes
  | infinity => [0]
  | point x y => (if y.toNat % 2 = 0 then 0x02 else 0x03) :: x.toArray.reverse

/-! ## The script builder -/

/-- `PushData`. The length bytes of the longest form are little-endian. -/
def pushData (data : Bytes) : Bytes :=
  if data.length ≤ 0x4b then
    UInt8.ofNat data.length :: data
  else if data.length < 0x100 then
    0x4c :: UInt8.ofNat data.length :: data
  else if data.length < 0x10000 then
    0x4d :: littleEndian 2 data.length ++ data
  else
    0x4e :: littleEndian 4 data.length ++ data

/-- `PushNumber`. -/
def pushNumber (number : Int) : Bytes :=
  if number = -1 then
    [0x4f]
  else if number = 0 then
    [0x00]
  else if 0 < number ∧ number ≤ 16 then
    [UInt8.ofNat (0x50 + number.toNat)]
  else
    pushData (natBytes number.natAbs)

/-- `CreateSignatureRedeemScript`. -/
def createSignatureRedeemScript (pubkey : PubKey) : Bytes :=
  pushData pubkey.encodePoint ++ [0xac]

/-- `sort.Sort` on a slice of keys. Only this is used of it: it permutes its argument. -/
structure KeySort where
  sort : List PubKey → List PubKey
  perm : ∀ keys, (sort keys).Perm keys

/-- `CreateMultiSigRedeemScript`. Numbers out of range give no script; sorting
compares coordinates and panics on a key that has none. -/
def createMultiSigRedeemScript {ε : Type} (sorter : KeySort) (m : Nat) (pubkeys : List PubKey) :
    Outcome ε Bytes :=
  if ¬ (1 ≤ m ∧ m ≤ pubkeys.length ∧ pubkeys.length ≤ 24) then
    .ok []
  else if 2 ≤ pubkeys.length ∧ .infinity ∈ pubkeys then
    .panic
  else
    .ok (pushNumber m ++
      (sorter.sort pubkeys).flatMap (fun pubkey => pushData pubkey.encodePoint) ++
      pushNumber pubkeys.length ++ [0xae])

/-! ## Verification -/

/-- A datum whose programs must authorise it. Finding its program hashes may fail. -/
structure SignableData (ε : Type) where
  programHashes : Outcome ε (List Uint160)
  programs : List Program
  message : Bytes

/-- The errors of `VerifySignableData`. -/
inductive ValidationError (ε : Type) where
  | programHashes (reason : ε)
  | programCount
  | programHash
  | notHalted
  | stackCount
  | checkSigFalse
  deriving DecidableEq, Repr

/-- The step limit that `VerifySignableData` gives its engines. -/
def verificationMaxSteps : Int := 1200

variable (crypto : Primitives) {ε : Type}

/-- The engine after running a program: the parameter is on top of the code. -/
def runProgram (message : Bytes) (program : Program) : Outcome Fault Unit × ExecutionEngine :=
  (execute crypto message verificationMaxSteps).run
    ((ExecutionEngine.new.loadScript program.code false).loadScript program.parameter true)

/-- What `VerifySignableData` requires of the engine: it halted and exactly one
item is left, which is true. -/
def checkResult : Outcome Fault Unit × ExecutionEngine → Outcome (ValidationError ε) Unit
  | (.panic, _) => .panic
  | (_, engine) =>
      if engine.state ≠ VMState.halt then .error .notHalted
      else if engine.evaluationStack.count ≠ 1 then .error .stackCount
      else
        match (Handler.popBoolean.run engine).1 with
        | .ok true => .ok ()
        | .ok false => .error .checkSigFalse
        | _ => .panic

/-- One round of the loop of `VerifySignableData`. -/
def verifyProgram (message : Bytes) (hash : Uint160) (program : Program) :
    Outcome (ValidationError ε) Unit := do
  .require (hash = crypto.toCodeHash program.code) .programHash
  checkResult (runProgram crypto message program)

def verifyPrograms (message : Bytes) :
    List Uint160 → List Program → Outcome (ValidationError ε) Unit
  | hash :: hashes, program :: programs => do
      verifyProgram crypto message hash program
      verifyPrograms message hashes programs
  | _, _ => .ok ()

/-- `VerifySignableData`; returning means `(true, nil)`. -/
def verifySignableData (data : SignableData ε) : Outcome (ValidationError ε) Unit :=
  match data.programHashes with
  | .ok hashes => do
      .require (hashes.length = data.programs.length) .programCount
      verifyPrograms crypto data.message hashes data.programs
  | .error reason => .error (.programHashes reason)
  | .panic => .panic

end DnaPow.Core
