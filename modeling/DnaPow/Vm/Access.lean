import DnaPow.Vm.Engine

/-!
# Reading scripts and stack items

The reader of package `vm/utils`, the methods of the stack items of package
`vm/types`, and `pushData`. Calling a method on something that is not a stack
item panics.
-/

namespace DnaPow.Vm

open DnaPow.Std Common

/-- The big-endian bytes of a number without leading zeros, as `big.Int.Bytes` returns them. -/
def natBytes (value : Nat) : Bytes :=
  (littleEndian (if value = 0 then 0 else value.log2 / 8 + 1) value).reverse

/-- The number a big-endian byte string denotes, as `big.Int.SetBytes` reads it. -/
def ofNatBytes (data : Bytes) : Nat := ofLittleEndian data.reverse

namespace Handler

/-! ## The script reader -/

/-- Reading past the end yields zero. -/
def readByte : Handler UInt8 where
  run engine :=
    match engine.context.reader with
    | [] => (.ok 0, engine)
    | byte :: rest =>
        (.ok byte, { engine with context := { engine.context with reader := rest } })

/-- The next `count` bytes of a reader, padded with zeros past its end. -/
def takePadded (reader : Bytes) (count : Nat) : Bytes :=
  reader.take count ++ List.replicate (count - reader.length) 0

/-- A count that is not positive reads nothing. -/
def readBytes (count : Int) : Handler Bytes where
  run engine :=
    (.ok (takePadded engine.context.reader count.toNat),
      { engine with
        context := { engine.context with reader := engine.context.reader.drop count.toNat } })

def readUint16 : Handler Nat := do
  return ofLittleEndian (← readBytes 2)

/-- Big-endian, although `readUint16` is little-endian. -/
def readInt16 : Handler Int := do
  return (ofNatBytes (← readBytes 2) : Int).bmod (2 ^ 16)

def readInt32 : Handler Int := do
  return (ofNatBytes (← readBytes 4) : Int).bmod (2 ^ 32)

/-- The value behind the first byte of a variable-length integer. -/
def readVarIntAfter (first : UInt8) : Handler Nat :=
  if first = 0xfd then do
    -- a signed read: values from 0x8000 on become huge
    return ((← readInt16) % 2 ^ 64).toNat
  else if first = 0xfe then do
    return ofLittleEndian (← readBytes 4)
  else if first = 0xff then do
    return ofLittleEndian (← readBytes 8)
  else
    pure first.toNat

def readVarInt (max : Nat) : Handler Nat := do
  let value ← readVarIntAfter (← readByte)
  return if value > max then 0 else value

def readVarString : Handler Bytes := do
  readBytes (← readVarInt 0x7fffffc7)

/-! ## Stacks -/

def count : Handler Nat := do
  return (← Action.get).evaluationStack.count

/-- The check at the head of most handlers. -/
def needCount (least : Nat) : Handler Unit := do
  if (← count) < least then Action.throw .silent

def pushItem (item : Item) : Handler Unit :=
  Action.modify fun engine => { engine with evaluationStack := engine.evaluationStack.push item }

def popItem : Handler Item where
  run engine :=
    (.ok engine.evaluationStack.pop.1,
      { engine with evaluationStack := engine.evaluationStack.pop.2 })

/-- A new `big.Int`. -/
def newInteger (value : Int) : Handler Nat where
  run engine :=
    (.ok engine.integers.length, { engine with integers := engine.integers ++ [value] })

def integerAt (ref : Nat) : Handler Int := do
  return (← Action.get).integers.getD ref 0

/-- Update a `big.Int` in place: every item that points to it changes. -/
def setInteger (ref : Nat) (value : Int) : Handler Unit :=
  Action.modify fun engine => { engine with integers := engine.integers.set ref value }

/-! ## Methods of stack items -/

/-- `GetByteArray`. -/
def getByteArray : Item → Handler Bytes
  | .foreign => Action.crash
  | .integer ref => do return natBytes (← integerAt ref).natAbs
  | .boolean value => pure [if value then 1 else 0]
  | .byteArray value => pure value
  | .array _ => pure []

/-- `GetBoolean`. An array answers for its first element. -/
def getBoolean : Item → Handler Bool
  | .foreign => Action.crash
  | .integer ref => do return (← integerAt ref) ≠ 0
  | .boolean value => pure value
  | .byteArray value => pure (value.any (· ≠ 0))
  | .array [] => pure false
  | .array (first :: _) => getBoolean first

/-- `GetBigInteger`: the integer of an integer item, and a new one otherwise. -/
def getBigInteger : Item → Handler Nat
  | .foreign => Action.crash
  | .integer ref => pure ref
  | .boolean value => newInteger (if value then 1 else 0)
  | .byteArray value => newInteger (ofNatBytes value)
  | .array [] => newInteger 0
  | .array (first :: _) => getBigInteger first

/-- `GetArray`. -/
def getArray : Item → Handler (List Item)
  | .foreign => Action.crash
  | .array items => pure items
  | item => pure [item]

mutual

/-- `Equals`: items of different kinds differ. -/
def equals : Item → Item → Handler Bool
  | .foreign, _ => Action.crash
  | .integer first, .integer second => do
      return (← integerAt first) = (← integerAt second)
  | .boolean first, .boolean second => pure (first = second)
  | .byteArray first, .byteArray second => pure (first = second)
  | .array first, .array second =>
      if first.length = second.length then equalsAll first second else pure false
  | _, _ => pure false

def equalsAll : List Item → List Item → Handler Bool
  | first :: firsts, second :: seconds => do
      if ← equals first second then equalsAll firsts seconds else pure false
  | _, _ => pure true

end

/-! ## Pops and pushes of values -/

def popByteArray : Handler Bytes := popItem >>= getByteArray

def popBoolean : Handler Bool := popItem >>= getBoolean

def popBigInteger : Handler Nat := popItem >>= getBigInteger

/-- The low 64 bits of an integer item, as a Go `int`. -/
def popInt : Handler Int := do
  return wrap64 (← integerAt (← popBigInteger))

def popArray : Handler (List Item) := popItem >>= getArray

/-- `pushData` of an integer: the item gets an integer of its own. -/
def pushInteger (value : Int) : Handler Unit := do
  pushItem (.integer (← newInteger value))

/-- `pushData` of a `big.Int` pointer: the value is copied. -/
def pushBigInteger (ref : Nat) : Handler Unit := do
  pushInteger (← integerAt ref)

def pushBoolean (value : Bool) : Handler Unit := pushItem (.boolean value)

def pushByteArray (value : Bytes) : Handler Unit := pushItem (.byteArray value)

end Handler

end DnaPow.Vm
