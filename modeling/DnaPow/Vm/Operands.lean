import DnaPow.Vm.Handlers

/-!
# Operands

What the handlers read off the top of the evaluation stack: the number, the bytes and
the items that a stack item stands for, and the engine after the pop. Reading a number
from an item that is no integer makes a new integer, so the integers may grow.
-/

namespace DnaPow.Vm

open DnaPow.Std Common

/-- The number that `GetBigInteger` returns; what is no stack item has none. -/
def Item.number (integers : List Int) : Item → Option Int
  | .foreign => none
  | .integer ref => some (integers.getD ref 0)
  | .boolean value => some (if value then 1 else 0)
  | .byteArray value => some (ofNatBytes value)
  | .array [] => some 0
  | .array (first :: _) => first.number integers

/-- The bytes that `GetByteArray` returns. -/
def Item.bytes (integers : List Int) : Item → Option Bytes
  | .foreign => none
  | .integer ref => some (natBytes (integers.getD ref 0).natAbs)
  | .boolean value => some [if value then 1 else 0]
  | .byteArray value => some value
  | .array _ => some []

/-- The engine with another evaluation stack and some more integers. -/
def ExecutionEngine.holding (engine : ExecutionEngine) (stack : RandomAccessStack)
    (more : List Int) : ExecutionEngine :=
  { engine with evaluationStack := stack, integers := engine.integers ++ more }

namespace ExecutionEngine

variable (engine : ExecutionEngine) (stack : RandomAccessStack) (more : List Int)

@[simp] theorem holding_evaluationStack :
    (engine.holding stack more).evaluationStack = stack := rfl

@[simp] theorem holding_integers :
    (engine.holding stack more).integers = engine.integers ++ more := rfl

@[simp] theorem holding_holding (other : RandomAccessStack) (others : List Int) :
    (engine.holding stack more).holding other others = engine.holding other (more ++ others) := by
  simp [holding]

end ExecutionEngine

/-- A length fits into an `int`. -/
theorem wrap64_natCast {n : Nat} (small : n < 2 ^ 63) : wrap64 (n : Int) = n :=
  wrap64_of_range (Int.le_trans (by decide) (Int.natCast_nonneg n)) (by exact_mod_cast small)

namespace Handler

variable {engine : ExecutionEngine} {rest : RandomAccessStack} {item : Item}

theorem run_popItem (stack : engine.evaluationStack = rest ++ [item]) :
    popItem.run engine = (.ok item, engine.holding rest []) := by
  simp [popItem, stack, RandomAccessStack.pop_append, ExecutionEngine.holding]

theorem run_pushItem (engine : ExecutionEngine) (item : Item) :
    (pushItem item).run engine =
      (.ok (), engine.holding (engine.evaluationStack ++ [item]) []) := by
  simp [pushItem, ExecutionEngine.holding]

theorem run_needCount {least : Nat} (enough : least ≤ engine.evaluationStack.length) :
    (needCount least).run engine = (.ok (), engine) := by
  simp [needCount, count, Action.run_bind, RandomAccessStack.count, Nat.not_lt.mpr enough]

theorem run_count : count.run engine = (.ok engine.evaluationStack.length, engine) := rfl

/-- `GetBigInteger` and a look at the integer it returns. -/
theorem run_getBigInteger {value : Int} : (item : Item) →
    item.number engine.integers = some value →
    ∃ more, (getBigInteger item >>= integerAt).run engine =
      (.ok value, engine.holding engine.evaluationStack more)
  | .integer ref, denotes => ⟨[], by
      rw [Item.number, Option.some.injEq] at denotes
      simp only [getBigInteger, integerAt, Action.run_bind, Action.run_pure, Action.run_get, denotes,
        ExecutionEngine.holding, List.append_nil]⟩
  | .boolean flag, denotes => ⟨[value], by
      simp only [Item.number, Option.some.injEq] at denotes
      simp [getBigInteger, newInteger, integerAt, Action.run_bind, denotes,
        ExecutionEngine.holding]⟩
  | .byteArray data, denotes => ⟨[value], by
      simp only [Item.number, Option.some.injEq] at denotes
      simp [getBigInteger, newInteger, integerAt, Action.run_bind, denotes,
        ExecutionEngine.holding]⟩
  | .array [], denotes => ⟨[value], by
      simp only [Item.number, Option.some.injEq] at denotes
      simp [getBigInteger, newInteger, integerAt, Action.run_bind, ← denotes,
        ExecutionEngine.holding]⟩
  | .array (first :: _), denotes => by
    rw [Item.number] at denotes
    rw [getBigInteger]
    exact run_getBigInteger first denotes

/-- Popping a number as an `int`. -/
theorem run_popInt {value : Int} (stack : engine.evaluationStack = rest ++ [item])
    (denotes : item.number engine.integers = some value) :
    ∃ more, popInt.run engine = (.ok (wrap64 value), engine.holding rest more) := by
  have same : item.number (engine.holding rest []).integers = some value := by
    rw [ExecutionEngine.holding_integers, List.append_nil, denotes]
  obtain ⟨more, read⟩ := run_getBigInteger item same
  refine ⟨more, ?_⟩
  rw [ExecutionEngine.holding_holding, ExecutionEngine.holding_evaluationStack,
    List.nil_append] at read
  simp only [popInt, popBigInteger, Action.run_bind, run_popItem stack] at read ⊢
  generalize (getBigInteger item).run (engine.holding rest []) = ending at read ⊢
  obtain ⟨result, after⟩ := ending
  cases result with
  | ok ref =>
    simp only at read ⊢
    rw [read]
    rfl
  | error reason => cases read
  | panic => cases read

/-- `GetByteArray` leaves the engine alone. -/
theorem run_getByteArray {value : Bytes} (denotes : item.bytes engine.integers = some value) :
    (getByteArray item).run engine = (.ok value, engine) := by
  cases item with
  | foreign => cases denotes
  | integer ref =>
    rw [← Option.some.inj denotes]
    rfl
  | boolean flag =>
    rw [← Option.some.inj denotes]
    rfl
  | byteArray data =>
    rw [← Option.some.inj denotes]
    rfl
  | array items =>
    rw [← Option.some.inj denotes]
    rfl

theorem run_popByteArray {value : Bytes} (stack : engine.evaluationStack = rest ++ [item])
    (denotes : item.bytes engine.integers = some value) :
    popByteArray.run engine = (.ok value, engine.holding rest []) := by
  rw [popByteArray, Action.run_bind_of_ok (run_popItem stack)]
  apply run_getByteArray
  rw [ExecutionEngine.holding_integers, List.append_nil, denotes]

theorem run_pushInteger (engine : ExecutionEngine) (value : Int) :
    (pushInteger value).run engine = (.ok (),
      engine.holding (engine.evaluationStack ++ [Item.integer engine.integers.length]) [value]) := by
  simp [pushInteger, newInteger, pushItem, Action.run_bind, ExecutionEngine.holding]

theorem run_pushByteArray (engine : ExecutionEngine) (value : Bytes) :
    (pushByteArray value).run engine =
      (.ok (), engine.holding (engine.evaluationStack ++ [Item.byteArray value]) []) :=
  run_pushItem engine _

end Handler

end DnaPow.Vm
