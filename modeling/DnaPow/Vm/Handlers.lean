import DnaPow.Vm.Access
import Mathlib.Data.Int.Bitwise

/-!
# Opcode handlers

The handlers of `func_*.go`. A handler that finds too few items, or an argument
out of range, returns `FAULT` without an error value (`Fault.silent`); whatever
it popped before stays popped.
-/

namespace DnaPow.Vm

open DnaPow.Std Common

/-- An opcode byte. -/
abbrev OpCode := UInt8

namespace Handler

/-! ## Pushes -/

/-- `opPushData`. -/
def opPushData (op : OpCode) : Handler Unit := do
  if op = 0x00 then
    pushByteArray [0]
  else if 0x01 ≤ op ∧ op ≤ 0x4b then
    pushByteArray (← readBytes op.toNat)
  else if op = 0x4c then
    pushByteArray (← readBytes (← readByte).toNat)
  else if op = 0x4d then
    pushByteArray (← readBytes (← readUint16))
  else if op = 0x4e then
    pushByteArray (← readBytes (← readInt32))
  else if op = 0x4f ∨ (0x51 ≤ op ∧ op ≤ 0x60) then
    pushInteger ((op.toNat : Int) - 0x51 + 1)
  else
    Action.throw .reported

/-! ## Flow control -/

def opNop : Handler Unit := pure ()

/-- `opJmp`: the jump moves the instruction pointer, which the reader does not follow. -/
def opJmp (op : OpCode) : Handler Unit := do
  let distance ← readInt16
  let engine ← Action.get
  let offset := engine.context.instructionPointer + distance - 3
  if offset < 0 ∨ offset > engine.context.script.length then
    Action.throw .reported
  else do
    let taken ← if op > 0x62 then do
        let value ← popBoolean
        pure (if op = 0x64 then !value else value)
      else pure true
    if taken then
      Action.modify fun engine =>
        { engine with context := { engine.context with instructionPointer := offset } }

/-- `opCall`: the outcome of the jump is ignored unless it panics. -/
def opCall : Handler Unit where
  run engine :=
    let entered :=
      { engine with
        invocationStack := engine.invocationStack ++ [engine.context.clone]
        context :=
          { engine.context with instructionPointer := engine.context.instructionPointer + 2 } }
    match (opJmp 0x65).run entered with
    | (.panic, after) => (.panic, after)
    | (_, after) => (.ok (), after)

/-- `opRet`: with two or more contexts the code calls a stack-item method on a context. -/
def opRet : Handler Unit := do
  if (← Action.get).invocationStack.length < 2 then Action.throw .silent else Action.crash

/-- `opAppCall` without a script table. -/
def opAppCall : Handler Unit := Action.throw .silent

/-- The engine services push values that are not stack items. `GetEntryScriptHash`
looks at the bottom of the invocation stack, which may be empty. -/
def opSysCall : Handler Unit := do
  let method ← readVarString
  if method = "System.ScriptEngine.GetScriptContainer".toUTF8.toList
      ∨ method = "System.ScriptEngine.GetExecutingScriptHash".toUTF8.toList
      ∨ method = "System.ScriptEngine.GetCallingScriptHash".toUTF8.toList then
    pushItem .foreign
  else if method = "System.ScriptEngine.GetEntryScriptHash".toUTF8.toList then do
    if (← Action.get).invocationStack = [] then Action.crash else pushItem .foreign
  else
    Action.throw .silent

/-! ## Stack manipulation -/

def opToAltStack : Handler Unit := do
  needCount 1
  let item ← popItem
  Action.modify fun engine => { engine with altStack := engine.altStack.push item }

/-- The guard looks at the evaluation stack; an empty alternative stack yields `nil`. -/
def opFromAltStack : Handler Unit := do
  needCount 1
  let item := (← Action.get).altStack.pop
  Action.modify fun engine => { engine with altStack := item.2 }
  pushItem item.1

def opXDrop : Handler Unit := do
  needCount 1
  let n ← popInt
  if n < 0 then
    Action.throw .silent
  else
    Action.modify fun engine =>
      { engine with evaluationStack := (engine.evaluationStack.remove n.toNat).2 }

/-- `Swap` counts from the bottom of the stack. -/
def opXSwap : Handler Unit := do
  needCount 1
  let n ← popInt
  if n < 0 ∨ n > (← count) - 1 then
    Action.throw .silent
  else
    Action.modify fun engine =>
      { engine with evaluationStack := engine.evaluationStack.swap 0 n.toNat }

def opXTuck : Handler Unit := do
  needCount 1
  let n ← popInt
  if n < 0 ∨ n > (← count) - 1 then
    Action.throw .silent
  else
    Action.modify fun engine =>
      { engine with
        evaluationStack :=
          engine.evaluationStack.insert n.toNat (engine.evaluationStack.peek 0) }

def opDepth : Handler Unit := do
  pushInteger (← count)

def opDrop : Handler Unit := do
  needCount 1
  let _ ← popItem

def opDup : Handler Unit := do
  needCount 1
  pushItem ((← Action.get).evaluationStack.peek 0)

def opNip : Handler Unit := do
  needCount 2
  let x2 ← popItem
  let _ ← popItem
  pushItem x2

def opOver : Handler Unit := do
  needCount 2
  let x2 ← popItem
  let x1 := (← Action.get).evaluationStack.peek 0
  pushItem x2
  pushItem x1

def opPick : Handler Unit := do
  needCount 2
  let n ← popInt
  if n < 0 ∨ (← count) < wrap64 (n + 1) then
    Action.throw .silent
  else
    pushItem ((← Action.get).evaluationStack.peek n.toNat)

def opRoll : Handler Unit := do
  needCount 2
  let n ← popInt
  if n < 0 then
    Action.throw .silent
  else if n = 0 then
    pure ()
  else if (← count) < wrap64 (n + 1) then
    Action.throw .silent
  else do
    let removed := (← Action.get).evaluationStack.remove n.toNat
    Action.modify fun engine => { engine with evaluationStack := removed.2 }
    pushItem removed.1

def opRot : Handler Unit := do
  needCount 3
  let x3 ← popItem
  let x2 ← popItem
  let x1 ← popItem
  pushItem x2
  pushItem x3
  pushItem x1

def opSwap : Handler Unit := do
  needCount 2
  let x2 ← popItem
  let x1 ← popItem
  pushItem x2
  pushItem x1

def opTuck : Handler Unit := do
  needCount 2
  let x2 ← popItem
  let x1 ← popItem
  pushItem x2
  pushItem x1
  pushItem x2

/-! ## Splices -/

/-- `opCat` joins only strings of equal length. -/
def opCat : Handler Unit := do
  needCount 2
  let x2 ← popItem
  let x1 ← popItem
  let b1 ← getByteArray x1
  let b2 ← getByteArray x2
  if b1.length ≠ b2.length then Action.throw .silent else pushByteArray (b1 ++ b2)

/-- The slice `data[low:high]`, which may reach one byte past the end of `data`
when the slice has spare capacity. -/
def slice (spare : Bytes → Option UInt8) (data : Bytes) (low high : Int) : Handler Bytes :=
  if low < 0 ∨ high < low ∨ high > data.length + 1 then
    Action.crash
  else if high ≤ data.length then
    pure ((data.take high.toNat).drop low.toNat)
  else
    match spare data with
    | some byte => pure ((data ++ [byte]).drop low.toNat)
    | none => Action.crash

/-- `opSubStr` takes the slice up to `len - (index + count) + 1`. -/
def opSubStr (spare : Bytes → Option UInt8) : Handler Unit := do
  needCount 3
  let amount ← popInt
  if amount < 0 then
    Action.throw .silent
  else do
    let index ← popInt
    if index < 0 then
      Action.throw .silent
    else do
      let s ← popByteArray
      let l1 := wrap64 (index + amount)
      if l1 > s.length then
        Action.throw .silent
      else
        pushByteArray (← slice spare s index (wrap64 (s.length - l1 + 1)))

def opLeft : Handler Unit := do
  needCount 2
  let amount ← popInt
  if amount < 0 then
    Action.throw .silent
  else do
    let s ← popByteArray
    if amount > s.length then Action.throw .silent else pushByteArray (s.take amount.toNat)

def opRight : Handler Unit := do
  needCount 2
  let amount ← popInt
  if amount < 0 then
    Action.throw .silent
  else do
    let s ← popByteArray
    if amount > s.length then
      Action.throw .silent
    else
      pushByteArray (s.drop (s.length - amount.toNat))

def opSize : Handler Unit := do
  needCount 1
  let s ← getByteArray ((← Action.get).evaluationStack.peek 0)
  pushInteger s.length

/-! ## Bitwise logic and arithmetic -/

def opInvert : Handler Unit := do
  needCount 1
  let x ← popBigInteger
  setInteger x (-(← integerAt x) - 1)
  pushBigInteger x

def opEqual : Handler Unit := do
  needCount 2
  let x2 ← popItem
  let x1 ← popItem
  pushBoolean (← equals x1 x2)

/-- `BigIntOp`. -/
def bigIntOp (op : OpCode) (x : Int) : Int :=
  if op = 0x8b then x + 1
  else if op = 0x8c then x - 1
  else if op = 0x8d then 2 * x
  else if op = 0x8e then x.fdiv 2
  else if op = 0x8f then -x
  else if op = 0x90 then x.natAbs
  else x

/-- The result is stored in the operand's own integer, then copied. -/
def opBigInt (op : OpCode) : Handler Unit := do
  needCount 1
  let x ← popBigInteger
  setInteger x (bigIntOp op (← integerAt x))
  pushBigInteger x

def opNot : Handler Unit := do
  needCount 1
  pushBoolean !(← popBoolean)

def opNz : Handler Unit := do
  needCount 1
  pushBoolean ((← integerAt (← popBigInteger)) ≠ 0)

/-- The number of 64-bit words of a `big.Int`. -/
def wordCount (value : Int) : Nat := if value = 0 then 0 else value.natAbs.log2 / 64 + 1

/-- `big.Int.Lsh` makes the words of the result, and four more, before it writes them. -/
def shiftLeft (value : Int) (amount : Nat) : Handler Int :=
  if value = 0 then pure 0
  else if makeable 8 (wordCount value + amount / 64 + 5) then pure (value * 2 ^ amount)
  else Action.crash

/-- The cases of `BigIntZip` that write to the first operand. Division by zero panics. -/
def bigIntZip (op : OpCode) (x1 x2 : Int) : Handler Int :=
  if op = 0x84 then pure (x1.land x2)
  else if op = 0x85 then pure (x1.lor x2)
  else if op = 0x86 then pure (x1.xor x2)
  else if op = 0x93 then pure (x1 + x2)
  else if op = 0x94 then pure (x1 - x2)
  else if op = 0x95 then pure (x1 * x2)
  else if op = 0x96 then if x2 = 0 then Action.crash else pure (x1 / x2)
  else if op = 0x97 then if x2 = 0 then Action.crash else pure (x1 % x2)
  else if op = 0x98 then shiftLeft x1 (wrap64 x2 % 2 ^ 64).toNat
  else pure (x1.fdiv (2 ^ (wrap64 x2 % 2 ^ 64).toNat))

def opBigIntZip (op : OpCode) : Handler Unit := do
  needCount 2
  let x2 ← popBigInteger
  let x1 ← popBigInteger
  let v1 ← integerAt x1
  let v2 ← integerAt x2
  if op = 0xa3 then
    pushBigInteger (if v1 ≤ v2 then x1 else x2)
  else if op = 0xa4 then
    pushBigInteger (if v1 ≤ v2 then x2 else x1)
  else do
    setInteger x1 (← bigIntZip op v1 v2)
    pushBigInteger x1

def opBoolZip (op : OpCode) : Handler Unit := do
  needCount 2
  let x2 ← popBoolean
  let x1 ← popBoolean
  pushBoolean (if op = 0x9a then x1 && x2 else x1 || x2)

/-- `BigIntMultiComp`. -/
def bigIntMultiComp (op : OpCode) (x1 x2 : Int) : Bool :=
  if op = 0x9c then x1 = x2
  else if op = 0x9e then x1 ≠ x2
  else if op = 0x9f then x1 < x2
  else if op = 0xa0 then x1 > x2
  else if op = 0xa1 then x1 ≤ x2
  else x1 ≥ x2

def opBigIntComp (op : OpCode) : Handler Unit := do
  needCount 2
  let x2 ← popBigInteger
  let x1 ← popBigInteger
  pushBoolean (bigIntMultiComp op (← integerAt x1) (← integerAt x2))

def opWithIn : Handler Unit := do
  needCount 3
  let b ← integerAt (← popBigInteger)
  let a ← integerAt (← popBigInteger)
  let x ← integerAt (← popBigInteger)
  pushBoolean (a ≤ x ∧ x < b)

/-! ## Arrays -/

def opArraySize : Handler Unit := do
  needCount 1
  pushInteger (← popArray).length

/-- The top `size` elements in popping order; what is not a stack item becomes `nil`. -/
def popItems : Nat → Handler (List Item)
  | 0 => pure []
  | size + 1 => do
      let item ← popItem
      return item :: (← popItems size)

def opPack : Handler Unit := do
  needCount 1
  let size ← popInt
  if size < 0 ∨ size > (← count) then
    Action.throw .silent
  else
    pushItem (.array (← popItems size.toNat))

def opUnpack : Handler Unit := do
  needCount 1
  let items ← popArray
  items.reverse.forM pushItem
  pushInteger items.length

/-- `opPickItem`: a stack item is not a type that `NewStackItem` accepts. -/
def opPickItem : Handler Unit := do
  needCount 1
  let index ← popInt
  if index < 0 then
    Action.throw .silent
  else do
    let items ← popArray
    if index ≥ items.length then Action.throw .silent else Action.throw .reported

end Handler

end DnaPow.Vm
