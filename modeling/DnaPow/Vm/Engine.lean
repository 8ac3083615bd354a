import DnaPow.Std.Action
import DnaPow.Common.Serialization

/-!
# The state of the script engine

Stack items, the random-access stack, execution contexts and the engine of
package `vm`. A stack is the list of its elements with the bottom first, as in
the source.

An integer item points to a `big.Int` that the arithmetic opcodes update in
place, and copying an item copies the pointer, so integer items are references
into `ExecutionEngine.integers`. Byte strings are values: two slices of the
source may share an array, but only `CAT` writes to one, behind its end.
-/

namespace DnaPow.Vm

open DnaPow.Std Common

/-- An element of a stack. `foreign` stands for `nil` and for every value that
is not a stack item: the code cannot tell these apart. -/
inductive Item where
  | foreign
  | integer (ref : Nat)
  | boolean (value : Bool)
  | byteArray (value : Bytes)
  | array (items : List Item)

/-- A stack, bottom first. -/
abbrev RandomAccessStack := List Item

namespace RandomAccessStack

def count (stack : RandomAccessStack) : Nat := stack.length

/-- Insert below the top `index` elements. For a positive index the code appends
the lower part of the stack as one element instead of its elements. -/
def insert (stack : RandomAccessStack) (index : Nat) (item : Item) : RandomAccessStack :=
  if index > stack.length then
    stack
  else if index = 0 then
    stack ++ [item]
  else
    .foreign :: item :: stack.drop (stack.length - index)

/-- The element `index` places below the top; `nil` when there is none. -/
def peek (stack : RandomAccessStack) (index : Nat) : Item :=
  if index ≥ stack.length then .foreign else stack.getD (stack.length - index - 1) .foreign

/-- Take out the element `index` places below the top. -/
def remove (stack : RandomAccessStack) (index : Nat) : Item × RandomAccessStack :=
  if index ≥ stack.length then
    (.foreign, stack)
  else
    (stack.peek index, stack.eraseIdx (stack.length - index - 1))

def push (stack : RandomAccessStack) (item : Item) : RandomAccessStack := stack.insert 0 item

def pop (stack : RandomAccessStack) : Item × RandomAccessStack := stack.remove 0

/-- Exchange two elements, counted from the bottom. -/
def swap (stack : RandomAccessStack) (first second : Nat) : RandomAccessStack :=
  (stack.set first (stack.getD second .foreign)).set second (stack.getD first .foreign)

@[simp] theorem push_eq (stack : RandomAccessStack) (item : Item) :
    stack.push item = stack ++ [item] := by
  simp [push, insert]

@[simp] theorem pop_append (stack : RandomAccessStack) (item : Item) :
    pop (stack ++ [item]) = (item, stack) := by
  simp [pop, remove, peek, List.getD_eq_getElem?_getD, List.eraseIdx_append_of_length_le]

end RandomAccessStack

/-- The flag byte of the engine. -/
abbrev VMState := UInt8

namespace VMState

def none : VMState := 0

def halt : VMState := 1

def fault : VMState := 2

def breakFlag : VMState := 4

end VMState

/-- A script being executed. `reader` holds the bytes not read yet; the
instruction pointer is a separate field that only the jumps use. -/
structure ExecutionContext where
  script : Bytes
  reader : Bytes
  pushOnly : Bool
  instructionPointer : Int

/-- `NewExecutionContext`. -/
def ExecutionContext.new (script : Bytes) (pushOnly : Bool) : ExecutionContext where
  script
  reader := script
  pushOnly
  instructionPointer := 0

/-- A clone starts reading the script from its beginning. -/
def ExecutionContext.clone (context : ExecutionContext) : ExecutionContext :=
  .new context.script context.pushOnly

structure ExecutionEngine where
  invocationStack : List ExecutionContext
  evaluationStack : RandomAccessStack
  altStack : RandomAccessStack
  /-- The `big.Int` values that integer items point to. -/
  integers : List Int
  opCount : Int
  state : VMState
  context : ExecutionContext

/-- `NewExecutionEngine` with no script table. -/
def ExecutionEngine.new : ExecutionEngine where
  invocationStack := []
  evaluationStack := []
  altStack := []
  integers := []
  opCount := 0
  state := VMState.breakFlag
  context := .new [] false

/-- `LoadScript`. -/
def ExecutionEngine.loadScript (engine : ExecutionEngine) (script : Bytes) (pushOnly : Bool) :
    ExecutionEngine :=
  { engine with invocationStack := engine.invocationStack ++ [ExecutionContext.new script pushOnly] }

/-- The two ways a handler returns `FAULT`: without an error value, which
`ExecuteOp` takes for success, and with one. -/
inductive Fault where
  | silent
  | reported
  deriving DecidableEq, Repr

/-- An opcode handler. -/
abbrev Handler := Action Fault ExecutionEngine

/-- Wrap an integer to the range of a 64-bit `int`. -/
def wrap64 (value : Int) : Int := value.bmod (2 ^ 64)

theorem wrap64_of_range {value : Int} (low : -2 ^ 63 ≤ value) (high : value < 2 ^ 63) :
    wrap64 value = value :=
  Int.bmod_eq_of_le (by omega) (by omega)

theorem le_wrap64 (value : Int) : -2 ^ 63 ≤ wrap64 value :=
  Int.le_bmod (by decide)

theorem wrap64_lt (value : Int) : wrap64 value < 2 ^ 63 :=
  Int.bmod_lt (by decide)

/-- Counting on from a wrapped count. -/
@[simp] theorem wrap64_wrap64_add (value more : Int) :
    wrap64 (wrap64 value + more) = wrap64 (value + more) :=
  Int.bmod_add_bmod ..

@[simp] theorem wrap64_wrap64 (value : Int) : wrap64 (wrap64 value) = wrap64 value := by
  simpa using wrap64_wrap64_add value 0

/-- Whether the runtime makes a slice of the given length: `make` panics when the
elements would not fit into an address space of 48 bits. -/
def makeable (elementSize length : Int) : Prop := 0 ≤ length ∧ elementSize * length ≤ 2 ^ 48

instance (elementSize length : Int) : Decidable (makeable elementSize length) :=
  inferInstanceAs (Decidable (_ ∧ _))

end DnaPow.Vm
