import DnaPow.Vm.PushScript
import Mathlib.Data.List.Induction

/-!
# Values on the evaluation stack

`Holds engine values` says that the evaluation stack holds exactly the given
pushed values, bottom first. Pushing appends a value and popping takes the last
one; the arithmetic cells behind integer items only ever grow here, so a value
that is held stays held.
-/

namespace DnaPow.Vm

open DnaPow.Std Common Handler

variable {engine : ExecutionEngine} {values : List Pushed} {top : Pushed}

/-- A stack item that reads as a pushed value. -/
inductive Denotes (integers : List Int) : Item → Pushed → Prop where
  | bytes (data : Bytes) : Denotes integers (.byteArray data) (.bytes data)
  | number {ref : Nat} {value : Int} (found : integers[ref]? = some value) :
      Denotes integers (.integer ref) (.number value)

/-- The evaluation stack reads as the given values, bottom first. -/
def Holds (engine : ExecutionEngine) (values : List Pushed) : Prop :=
  List.Forall₂ (Denotes engine.integers) engine.evaluationStack values

/-- Two engines that agree on everything but their stacks and integers. -/
structure SameControl (before after : ExecutionEngine) : Prop where
  invocationStack : after.invocationStack = before.invocationStack
  opCount : after.opCount = before.opCount
  state : after.state = before.state
  context : after.context = before.context

theorem SameControl.refl (engine : ExecutionEngine) : SameControl engine engine := ⟨rfl, rfl, rfl, rfl⟩

theorem SameControl.trans {first second third : ExecutionEngine}
    (before : SameControl first second) (after : SameControl second third) :
    SameControl first third :=
  ⟨after.1.trans before.1, after.2.trans before.2, after.3.trans before.3, after.4.trans before.4⟩

theorem Denotes.grow {integers : List Int} {item : Item} {value : Pushed}
    (denotes : Denotes integers item value) (more : List Int) :
    Denotes (integers ++ more) item value := by
  cases denotes with
  | bytes data => exact .bytes data
  | number found =>
    obtain ⟨bound, _⟩ := List.getElem?_eq_some_iff.mp found
    exact .number (by rw [List.getElem?_append_left bound]; exact found)

theorem Holds.length (holds : Holds engine values) : engine.evaluationStack.length = values.length :=
  List.Forall₂.length_eq holds

theorem Holds.bytes_alone {data : Bytes}
    (holds : Holds engine [.bytes data]) : engine.evaluationStack = [.byteArray data] := by
  unfold Holds at holds
  generalize engine.evaluationStack = stack at holds
  cases holds with
  | cons denotes rest =>
    cases denotes
    cases rest
    rfl

theorem Holds.place (holds : Holds engine values) (pushed : Pushed) :
    Holds (place engine pushed) (values ++ [pushed]) := by
  cases pushed with
  | bytes data => exact List.rel_append holds (.cons (.bytes data) .nil)
  | number value =>
    refine List.rel_append (List.Forall₂.imp (fun _ _ denotes => denotes.grow [value]) holds) ?_
    exact .cons (.number (List.getElem?_concat_length ..)) .nil

theorem Holds.placeAll (holds : Holds engine values) (pushed : List Pushed) :
    Holds (pushed.foldl Vm.place engine) (values ++ pushed) := by
  induction pushed generalizing engine values with
  | nil => simpa using holds
  | cons first rest ih => simpa using ih (holds.place first)

theorem place_sameControl (engine : ExecutionEngine) (pushed : Pushed) :
    SameControl engine (place engine pushed) := by
  cases pushed <;> exact ⟨rfl, rfl, rfl, rfl⟩

theorem placeAll_sameControl (engine : ExecutionEngine) (pushed : List Pushed) :
    SameControl engine (pushed.foldl place engine) := by
  induction pushed generalizing engine with
  | nil => exact .refl engine
  | cons first rest ih => exact (place_sameControl engine first).trans (ih _)

/-- The engine without the top of its evaluation stack. -/
def ExecutionEngine.dropTop (engine : ExecutionEngine) : ExecutionEngine :=
  { engine with evaluationStack := engine.evaluationStack.dropLast }

/-- Popping a held value takes the top item off and leaves the others held. -/
theorem Holds.popItem (holds : Holds engine (values ++ [top])) :
    ∃ item, Handler.popItem.run engine = (.ok item, engine.dropTop) ∧
      Denotes engine.integers item top ∧ Holds engine.dropTop values := by
  have lower := List.forall₂_take_append _ _ _ holds
  have upper := List.forall₂_drop_append _ _ _ holds
  obtain ⟨item, denotes, stack⟩ : ∃ item, Denotes engine.integers item top ∧
      engine.evaluationStack = engine.evaluationStack.take values.length ++ [item] := by
    cases rest : engine.evaluationStack.drop values.length with
    | nil => simp [rest] at upper
    | cons item others =>
      rw [rest] at upper
      cases upper with
      | cons denotes none =>
        cases none
        exact ⟨item, denotes, by rw [← rest, List.take_append_drop]⟩
  refine ⟨item, ?_, denotes, ?_⟩
  · rw [Handler.popItem, ExecutionEngine.dropTop]
    simp only
    rw [stack, RandomAccessStack.pop_append, List.dropLast_concat]
  · have dropped : engine.evaluationStack.dropLast = engine.evaluationStack.take values.length := by
      have same := congrArg List.dropLast stack
      rwa [List.dropLast_concat] at same
    simpa [Holds, ExecutionEngine.dropTop, dropped] using lower

theorem dropTop_sameControl (engine : ExecutionEngine) : SameControl engine engine.dropTop :=
  ⟨rfl, rfl, rfl, rfl⟩

theorem getByteArray_denotes {item : Item} {value : Pushed}
    (denotes : Denotes engine.integers item value) :
    (getByteArray item).run engine = (.ok value.toBytes, engine) := by
  cases denotes with
  | bytes data => rfl
  | number found =>
    simp [getByteArray, integerAt, Action.run_bind, Pushed.toBytes, List.getD_eq_getElem?_getD,
      found]

/-- Popping a byte string. -/
theorem Holds.popByteArray (holds : Holds engine (values ++ [top])) :
    Handler.popByteArray.run engine = (.ok top.toBytes, engine.dropTop) ∧
      Holds engine.dropTop values := by
  obtain ⟨item, popped, denotes, rest⟩ := holds.popItem
  refine ⟨?_, rest⟩
  rw [Handler.popByteArray, Action.run_bind, popped]
  exact getByteArray_denotes denotes

/-- Popping an integer. A byte string is first copied into an integer of its own. -/
theorem Holds.popInt (holds : Holds engine (values ++ [top])) :
    ∃ final, Handler.popInt.run engine = (.ok (wrap64 top.toInt), final) ∧
      Holds final values ∧ SameControl engine final := by
  obtain ⟨item, popped, denotes, rest⟩ := holds.popItem
  cases denotes with
  | bytes data =>
    refine ⟨{ engine.dropTop with integers := engine.integers ++ [(ofNatBytes data : Int)] },
      ?_, ?_, ⟨rfl, rfl, rfl, rfl⟩⟩
    · simp [Handler.popInt, popBigInteger, Action.run_bind, popped, getBigInteger, newInteger,
        integerAt, Pushed.toInt, ExecutionEngine.dropTop]
    · exact List.Forall₂.imp (fun _ _ denotes => denotes.grow _) rest
  | number found =>
    refine ⟨engine.dropTop, ?_, rest, dropTop_sameControl engine⟩
    simp [Handler.popInt, popBigInteger, Action.run_bind, popped, getBigInteger, integerAt,
      Pushed.toInt, ExecutionEngine.dropTop, List.getD_eq_getElem?_getD, found]

/-- Popping several byte strings, the last one first. -/
theorem Holds.popByteArrays {values tops : List Pushed} (holds : Holds engine (values ++ tops)) :
    ∃ final, (Handler.popByteArrays tops.length).run engine =
        (.ok (tops.reverse.map Pushed.toBytes), final) ∧
      Holds final values ∧ SameControl engine final := by
  induction tops using List.reverseRecOn generalizing engine with
  | nil => exact ⟨engine, rfl, by simpa using holds, .refl engine⟩
  | append_singleton others top ih =>
    rw [← List.append_assoc] at holds
    obtain ⟨popped, rest⟩ := holds.popByteArray
    obtain ⟨final, others', held, same⟩ := ih rest
    refine ⟨final, ?_, held, (dropTop_sameControl engine).trans same⟩
    simp [Handler.popByteArrays, Action.run_bind, popped, others']

theorem Holds.count (holds : Holds engine values) :
    Handler.count.run engine = (.ok values.length, engine) := by
  simp [Handler.count, Action.run_bind, RandomAccessStack.count, holds.length]

end DnaPow.Vm
