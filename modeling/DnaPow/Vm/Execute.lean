import DnaPow.Vm.Handlers

/-!
# Executing scripts

The signature opcodes, the opcode table and the loops `ExecuteOp`, `StepInto`
and `Execute`. `StepInto` takes a context off the invocation stack and reads it
to its end. Every opcode consumes at least one byte of its script, so the
length of the script bounds the inner loop; every step of the outer loop takes
one context, and a context is only added by an opcode that counts against
`maxSteps`. `Vm.Loop` and `Vm.Budget` relate the bounds to the loops without.
-/

namespace DnaPow.Vm

open DnaPow.Std Common

variable (crypto : Primitives) (message : Bytes)

namespace Handler

/-- `Hash`. The engine's `Hash160` and `Hash256` return the empty string. -/
def hashWith (op : OpCode) (data : Bytes) : Bytes :=
  if op = 0xa7 then crypto.sha1 data
  else if op = 0xa8 then (crypto.sha256 data).toArray
  else []

def opHash (op : OpCode) : Handler Unit := do
  needCount 1
  pushByteArray (hashWith crypto op (← popByteArray))

/-- A result that is missing when its computation panicked. -/
def orCrash {α : Type} : Option α → Handler α
  | some value => pure value
  | none => Action.crash

/-- `opCheckSig`: with fewer than two items it faults without an error. -/
def opCheckSig : Handler Unit := do
  needCount 2
  let pubkey ← popByteArray
  let signature ← popByteArray
  pushBoolean (← orCrash (crypto.verifySignature message signature pubkey))

/-- The top `n` byte strings, in popping order. -/
def popByteArrays : Nat → Handler (List Bytes)
  | 0 => pure []
  | n + 1 => do
      let data ← popByteArray
      return data :: (← popByteArrays n)

/-- The inner loop of `opCheckMultiSig`: the keys that are left when the signature
has taken the first one it verifies under, if there is one. -/
def takeKey (signature : Bytes) : List Bytes → Option (Option (List Bytes))
  | [] => some none
  | pubkey :: pubkeys => do
      if ← crypto.verifySignature message signature pubkey then
        return some pubkeys
      else
        return (← takeKey signature pubkeys).map (pubkey :: ·)

/-- The matching loop of `opCheckMultiSig`: each signature in turn takes the
first remaining key it verifies under. -/
def matchSignatures : (signatures pubkeys : List Bytes) → Option Bool
  | [], _ => some true
  | signature :: signatures, pubkeys => do
      match ← takeKey crypto message signature pubkeys with
      | some left => matchSignatures signatures left
      | none => return false

/-- Charge the keys of a multi-signature check to the step counter. -/
def chargeSteps (maxSteps n : Int) : Handler Unit := do
  Action.modify fun engine => { engine with opCount := wrap64 (engine.opCount + n) }
  if (← Action.get).opCount > maxSteps then Action.throw .reported

/-- `opCheckMultiSig`. All its faults carry an error. -/
def opCheckMultiSig (maxSteps : Int) : Handler Unit := do
  if (← count) < 4 then Action.throw .reported else do
    let n ← popInt
    if n < 1 ∨ (← count) < wrap64 (n + 2) then Action.throw .reported else do
      chargeSteps maxSteps n
      -- a wrapped `n + 2` lets an `n` through whose key slice cannot be made
      if ¬ makeable 24 n then Action.crash else do
        let pubkeys ← popByteArrays n.toNat
        let m ← popInt
        if m < 1 ∨ m > n ∨ (← count) < m then Action.throw .reported else do
          let signatures ← popByteArrays m.toNat
          pushBoolean (← orCrash (matchSignatures crypto message signatures pubkeys))

end Handler

open Handler

/-- `OpExecList`; an opcode that is not listed has no handler. -/
def opExecList (maxSteps : Int) : List (OpCode × Handler Unit) :=
  [(0x00, opPushData 0x00), (0x01, opPushData 0x01), (0x4b, opPushData 0x4b),
   (0x4c, opPushData 0x4c), (0x4d, opPushData 0x4d), (0x4e, opPushData 0x4e),
   (0x4f, opPushData 0x4f), (0x51, opPushData 0x51), (0x52, opPushData 0x52),
   (0x53, opPushData 0x53), (0x54, opPushData 0x54), (0x55, opPushData 0x55),
   (0x56, opPushData 0x56), (0x57, opPushData 0x57), (0x58, opPushData 0x58),
   (0x59, opPushData 0x59), (0x5a, opPushData 0x5a), (0x5b, opPushData 0x5b),
   (0x5c, opPushData 0x5c), (0x5d, opPushData 0x5d), (0x5e, opPushData 0x5e),
   (0x5f, opPushData 0x5f), (0x60, opPushData 0x60),
   -- flow control
   (0x61, opNop), (0x62, opJmp 0x62), (0x63, opJmp 0x63), (0x64, opJmp 0x64),
   (0x65, opCall), (0x66, opRet), (0x67, opAppCall), (0x68, opSysCall),
   -- stack
   (0x6b, opToAltStack), (0x6c, opFromAltStack), (0x6d, opXDrop), (0x72, opXSwap),
   (0x73, opXTuck), (0x74, opDepth), (0x75, opDrop), (0x76, opDup), (0x77, opNip),
   (0x78, opOver), (0x79, opPick), (0x7a, opRoll), (0x7b, opRot), (0x7c, opSwap),
   (0x7d, opTuck),
   -- splice
   (0x7e, opCat), (0x7f, opSubStr crypto.spareByte), (0x80, opLeft), (0x81, opRight),
   (0x82, opSize),
   -- bitwise logic
   (0x83, opInvert), (0x84, opBigIntZip 0x84), (0x85, opBigIntZip 0x85),
   (0x86, opBigIntZip 0x86), (0x87, opEqual),
   -- arithmetic
   (0x8b, opBigInt 0x8b), (0x8c, opBigInt 0x8c), (0x8d, opBigInt 0x8d), (0x8e, opBigInt 0x8e),
   (0x8f, opBigInt 0x8f), (0x90, opBigInt 0x90), (0x91, opNot), (0x92, opNz),
   (0x93, opBigIntZip 0x93), (0x94, opBigIntZip 0x94), (0x95, opBigIntZip 0x95),
   (0x96, opBigIntZip 0x96), (0x97, opBigIntZip 0x97), (0x98, opBigIntZip 0x98),
   (0x99, opBigIntZip 0x99), (0x9a, opBoolZip 0x9a), (0x9b, opBoolZip 0x9b),
   (0x9c, opBigIntComp 0x9c), (0x9e, opBigIntComp 0x9e), (0x9f, opBigIntComp 0x9f),
   (0xa0, opBigIntComp 0xa0), (0xa1, opBigIntComp 0xa1), (0xa2, opBigIntComp 0xa2),
   (0xa3, opBigIntZip 0xa3), (0xa4, opBigIntZip 0xa4), (0xa5, opWithIn),
   -- crypto
   (0xa7, opHash crypto 0xa7), (0xa8, opHash crypto 0xa8), (0xa9, opHash crypto 0xa9),
   (0xaa, opHash crypto 0xaa), (0xac, opCheckSig crypto message),
   (0xae, opCheckMultiSig crypto message maxSteps),
   -- array
   (0xc0, opArraySize), (0xc1, opPack), (0xc2, opUnpack), (0xc3, opPickItem)]

/-- What `ExecuteOp` makes of a handler's return: `FAULT` without an error is
reported to the caller as `NONE`. -/
def runHandler (handler : Handler Unit) : Handler VMState where
  run engine :=
    match handler.run engine with
    | (.ok _, after) => (.ok VMState.none, after)
    | (.error .silent, after) => (.ok VMState.none, after)
    | (.error .reported, after) => (.ok VMState.fault, after)
    | (.panic, after) => (.panic, after)

/-- `ExecuteOp`. Data pushes of up to 75 bytes do not go through the table. -/
def executeOp (maxSteps : Int) (op : OpCode) : Handler VMState := do
  let engine ← Action.get
  if op > 0x60 ∧ op ≠ 0x66 ∧ engine.context.pushOnly then
    pure VMState.fault
  else if op > 0x60 ∧ engine.opCount > maxSteps then
    pure VMState.fault
  else if 0x01 ≤ op ∧ op ≤ 0x4b then do
    pushByteArray (← readBytes op.toNat)
    pure VMState.none
  else
    match (opExecList crypto message maxSteps).lookup op with
    | some handler => runHandler handler
    | none => pure VMState.fault

/-- The loop of `StepInto` over the opcodes of the current context. -/
def runOps (maxSteps : Int) : (fuel : Nat) → Handler Unit
  | 0 => pure ()
  | fuel + 1 => do
      if (← Action.get).context.reader = [] then pure () else do
        let op ← readByte
        Action.modify fun engine => { engine with opCount := wrap64 (engine.opCount + 1) }
        let state ← executeOp crypto message maxSteps op
        if state = VMState.halt then
          Action.modify fun engine => { engine with state := engine.state ||| VMState.halt }
        else if state = VMState.fault then
          Action.modify fun engine => { engine with state := engine.state ||| VMState.fault }
        else
          runOps maxSteps fuel

/-- `StepInto`. -/
def stepInto (maxSteps : Int) : Handler Unit := do
  if (← Action.get).invocationStack = [] then
    Action.modify fun engine => { engine with state := engine.state ||| VMState.halt }
  let engine ← Action.get
  if engine.state &&& VMState.halt = VMState.halt ∨
      engine.state &&& VMState.fault = VMState.fault then
    pure ()
  else
    match engine.invocationStack.getLast? with
    | none => pure ()
    | some context => do
        Action.modify fun engine =>
          { engine with invocationStack := engine.invocationStack.dropLast, context }
        runOps crypto message maxSteps context.script.length

/-- The loop of `Execute`. -/
def runSteps (maxSteps : Int) : (fuel : Nat) → Handler Unit
  | 0 => pure ()
  | fuel + 1 => do
      let state := (← Action.get).state
      if state = VMState.fault ∨ state = VMState.halt ∨ state = VMState.breakFlag then
        pure ()
      else do
        stepInto crypto message maxSteps
        runSteps maxSteps fuel

/-- `Execute`. -/
def execute (maxSteps : Int) : Handler Unit := do
  Action.modify fun engine => { engine with state := engine.state &&& ~~~VMState.breakFlag }
  runSteps crypto message maxSteps (maxSteps.toNat + 3)

end DnaPow.Vm
