import DnaPow.Core.Builder

/-!
# What the engine makes of built pushes

Exactly which strings and numbers come back from the bytes that `PushData` and
`PushNumber` emit. The builder writes the length of a long string with the low byte
first and the engine reads it with the high byte first.
-/

namespace DnaPow.Core

open DnaPow.Std Common Vm Handler

variable {crypto : Primitives} {message : Bytes} {maxSteps : Int}

/-- Executing the bytes is executing one opcode. Whatever follows them, it pushes one
item, from which the given value is read, and the engine goes on behind them. -/
def PushesItem {α : Type} (crypto : Primitives) (message : Bytes) (maxSteps : Int)
    (emitted : Bytes) (read : Item → Handler α) (value : α) : Prop :=
  ∀ (engine : ExecutionEngine) (rest : Bytes), engine.context.reader = emitted ++ rest →
    ∃ op script after item, emitted ++ rest = op :: script ∧
      (executeOp crypto message maxSteps op).run
        (engine.moved (wrap64 (engine.opCount + 1)) script) = (.ok VMState.none, after) ∧
      after.context.reader = rest ∧
      after.evaluationStack = engine.evaluationStack ++ [item] ∧
      ((read item).run after).1 = .ok value

/-- The number that `GetBigInteger` returns. -/
def bigIntegerOf (item : Item) : Handler Int := getBigInteger item >>= integerAt

/-- A length whose bytes the engine reads as the builder meant them. -/
def LengthReadable (length : Nat) : Prop :=
  length < 0x10000 ∨ length < 2 ^ 31 ∧ ofNatBytes (littleEndian 4 length) = length

instance (length : Nat) : Decidable (LengthReadable length) :=
  inferInstanceAs (Decidable (_ ∨ _ ∧ _))

/-! ## One opcode -/

/-- The item for a value that is pushed next. -/
def itemOf (engine : ExecutionEngine) : Pushed → Item
  | .bytes data => .byteArray data
  | .number _ => .integer engine.integers.length

theorem place_evaluationStack (engine : ExecutionEngine) (pushed : Pushed) :
    (place engine pushed).evaluationStack = engine.evaluationStack ++ [itemOf engine pushed] := by
  cases pushed <;> rfl

theorem getByteArray_place (engine : ExecutionEngine) (pushed : Pushed) :
    ((getByteArray (itemOf engine pushed)).run (place engine pushed)).1 = .ok pushed.toBytes := by
  cases pushed with
  | bytes data => rfl
  | number value =>
    simp [itemOf, getByteArray, integerAt, place, Action.run_bind, Pushed.toBytes]

theorem bigIntegerOf_place (engine : ExecutionEngine) (pushed : Pushed) :
    ((bigIntegerOf (itemOf engine pushed)).run (place engine pushed)).1 = .ok pushed.toInt := by
  cases pushed with
  | bytes data =>
    simp [itemOf, bigIntegerOf, getBigInteger, newInteger, integerAt, place, Action.run_bind,
      Pushed.toInt]
  | number value =>
    simp [itemOf, bigIntegerOf, getBigInteger, integerAt, place, Action.run_bind, Pushed.toInt]

/-- A push opcode that pushes a value whatever follows its operand. -/
theorem pushesItem_iff {α : Type}
    {op : OpCode} {operand : Bytes} {read : Item → Handler α} {value : α} {reads : Pushed → α}
    (low : op ≤ 0x60)
    (agrees : ∀ engine pushed, ((read (itemOf engine pushed)).run (place engine pushed)).1 =
      .ok (reads pushed)) :
    PushesItem crypto message maxSteps (op :: operand) read value ↔
      ∀ rest, ∃ pushed, nextPush op (operand ++ rest) = some (pushed, rest) ∧
        reads pushed = value := by
  constructor
  · intro pushes rest
    obtain ⟨op', script, after, item, split, ran, reader, stack, holds⟩ :=
      pushes ({ ExecutionEngine.new with context := .new (op :: operand ++ rest) false }) rest rfl
    rw [List.cons_append, List.cons.injEq] at split
    obtain ⟨rfl, rfl⟩ := split
    rw [executeOp_push crypto message maxSteps low, moved_reader] at ran
    cases next : nextPush op (operand ++ rest) with
    | none =>
      rw [next] at ran
      cases ran
    | some found =>
      obtain ⟨pushed, left⟩ := found
      rw [next] at ran
      simp only [Prod.mk.injEq, true_and] at ran
      subst ran
      rw [place_context, moved_reader] at reader
      rw [place_evaluationStack] at stack
      have last := List.append_cancel_left stack
      rw [← List.singleton_inj.mp last, agrees] at holds
      exact ⟨pushed, by rw [reader], Outcome.ok.inj holds⟩
  · intro each engine rest reader
    obtain ⟨pushed, next, holds⟩ := each rest
    refine ⟨op, operand ++ rest, place (engine.moved (wrap64 (engine.opCount + 1)) rest) pushed, _,
      rfl, ?_, ?_, place_evaluationStack _ pushed, ?_⟩
    · rw [executeOp_push crypto message maxSteps low, moved_reader, next]
      rfl
    · rw [place_context, moved_reader]
    · rw [agrees, holds]

/-! ## Strings -/

/-- A long string is read back exactly if its length is. -/
theorem nextPush_long {data : Bytes} (long : 0x10000 ≤ data.length) {holds : Pushed → Prop} :
    (∀ rest, ∃ pushed, nextPush 0x4e (littleEndian 4 data.length ++ data ++ rest) =
      some (pushed, rest) ∧ holds pushed) ↔
      LengthReadable data.length ∧ holds (.bytes data) := by
  have header (rest : Bytes) :
      nextPush 0x4e (littleEndian 4 data.length ++ data ++ rest) =
        some (readPush ((ofNatBytes (littleEndian 4 data.length) : Int).bmod (2 ^ 32)).toNat
          (data ++ rest)) := by
    have size := littleEndian_length 4 data.length
    have taken := takePadded_append (littleEndian 4 data.length) (data ++ rest)
    rw [size] at taken
    rw [List.append_assoc]
    change some (readPush (_ : Int).toNat (List.drop 4 _)) = _
    rw [taken, List.drop_left' size]
  have below : ofNatBytes (littleEndian 4 data.length) < 2 ^ 32 := by
    rw [ofNatBytes]
    have := ofLittleEndian_lt (littleEndian 4 data.length).reverse
    rwa [List.length_reverse, littleEndian_length] at this
  simp only [header]
  constructor
  · intro each
    obtain ⟨pushed, next, held⟩ := each [0]
    rw [readPush, Option.some.injEq, Prod.mk.injEq] at next
    have count : ((ofNatBytes (littleEndian 4 data.length) : Int).bmod (2 ^ 32)).toNat =
        data.length := by
      have lengths := congrArg List.length next.2
      simp only [List.length_drop, List.length_append, List.length_singleton] at lengths
      omega
    have value : pushed = .bytes data := by
      rw [← next.1, count]
      have taken := takePadded_append data [0]
      rw [taken]
    refine ⟨.inr ?_, value ▸ held⟩
    rw [Int.bmod_def] at count
    split at count <;> omega
  · rintro ⟨readable, held⟩ rest
    obtain ⟨small, same⟩ := readable.resolve_left (by omega)
    refine ⟨.bytes data, ?_, held⟩
    have count : ((ofNatBytes (littleEndian 4 data.length) : Int).bmod (2 ^ 32)).toNat =
        data.length := by
      rw [same, Int.bmod_eq_of_le (by omega) (by omega), Int.toNat_natCast]
    rw [count, readPush_append]

/-- The push of a string that is not empty. -/
theorem exists_pushData {data : Bytes} (nonempty : data ≠ []) :
    ∃ op operand, pushData data = op :: operand ∧ op ≤ 0x60 ∧ ∀ holds : Pushed → Prop,
      (∀ rest, ∃ pushed, nextPush op (operand ++ rest) = some (pushed, rest) ∧ holds pushed) ↔
        LengthReadable data.length ∧ holds (.bytes data) := by
  by_cases short : data.length < 0x10000
  · have one := pushesOne_pushData nonempty short
    obtain ⟨op, operand, split, low, -⟩ := one []
    rw [List.append_nil] at split
    refine ⟨op, operand, split, low, fun holds => ?_⟩
    have next (rest : Bytes) : nextPush op (operand ++ rest) = some (.bytes data, rest) := by
      obtain ⟨op', script, split', -, next⟩ := one rest
      rw [split, List.cons_append, List.cons.injEq] at split'
      rwa [split'.1, split'.2]
    simp only [next, Option.some.injEq, Prod.mk.injEq, and_true, exists_eq_left', forall_const]
    exact ⟨fun held => ⟨.inl short, held⟩, And.right⟩
  · refine ⟨0x4e, littleEndian 4 data.length ++ data, ?_, by decide, fun holds =>
      nextPush_long (by omega)⟩
    rw [pushData, if_neg (by omega), if_neg (by omega), if_neg short]
    rfl

/-- A string comes back from its push exactly if it is not empty and the engine reads
its length. -/
theorem pushesItem_pushData_iff (data : Bytes) :
    PushesItem crypto message maxSteps (pushData data) getByteArray data ↔
      data ≠ [] ∧ LengthReadable data.length := by
  by_cases empty : data = []
  · subst empty
    rw [show pushData [] = [0x00] by rfl, pushesItem_iff (by decide) getByteArray_place]
    simp only [ne_eq, not_true_eq_false, false_and, iff_false]
    intro each
    obtain ⟨pushed, next, held⟩ := each []
    cases next
    cases held
  · obtain ⟨op, operand, split, low, iff⟩ := exists_pushData empty
    rw [split, pushesItem_iff low getByteArray_place, iff]
    exact ⟨fun ⟨readable, _⟩ => ⟨empty, readable⟩, fun ⟨_, readable⟩ => ⟨readable, rfl⟩⟩

/-! ## Numbers -/

/-- The numbers with an opcode of their own. -/
theorem exists_pushNumber_small {number : Int} (least : -1 ≤ number) (most : number ≤ 16) :
    ∃ op, pushNumber number = [op] ∧ op ≤ 0x60 ∧ ∀ rest, ∃ pushed,
      nextPush op ([] ++ rest) = some (pushed, rest) ∧ pushed.toInt = number := by
  interval_cases number <;>
    exact ⟨_, rfl, by decide, fun rest => ⟨_, rfl, rfl⟩⟩

/-- A number comes back from its push exactly if it is at least minus one and, above
sixteen, the engine reads the length of its bytes. -/
theorem pushesItem_pushNumber_iff (number : Int) :
    PushesItem crypto message maxSteps (pushNumber number) bigIntegerOf number ↔
      -1 ≤ number ∧ LengthReadable (natBytes number.natAbs).length := by
  by_cases small : -1 ≤ number ∧ number ≤ 16
  · obtain ⟨op, emitted, low, next⟩ := exists_pushNumber_small small.1 small.2
    have length : (natBytes number.natAbs).length < 0x10000 := by
      obtain ⟨low, high⟩ := small
      interval_cases number <;> decide
    rw [emitted, pushesItem_iff low bigIntegerOf_place]
    exact ⟨fun _ => ⟨small.1, .inl length⟩, fun _ rest => next rest⟩
  · have nonempty : natBytes number.natAbs ≠ [] := by
      intro empty
      have value := ofNatBytes_natBytes number.natAbs
      rw [empty] at value
      have zero : number.natAbs = 0 := value.symm
      omega
    have emitted : pushNumber number = pushData (natBytes number.natAbs) := by
      rw [pushNumber, if_neg (by omega), if_neg (by omega), if_neg (by omega)]
    obtain ⟨op, operand, split, low, iff⟩ := exists_pushData nonempty
    rw [emitted, split, pushesItem_iff low bigIntegerOf_place, iff]
    simp only [Pushed.toInt, ofNatBytes_natBytes]
    constructor
    · rintro ⟨readable, same⟩
      exact ⟨by omega, readable⟩
    · rintro ⟨least, readable⟩
      exact ⟨readable, by omega⟩

/-- A string and a number come back from the bytes that the builder emits for them
exactly if the string is not empty and the number is at least minus one, and the engine
reads the lengths as the builder writes them. -/
theorem builtPushes_iff (crypto : Primitives) (message : Bytes) (maxSteps : Int) :
    (∀ data : Bytes,
      PushesItem crypto message maxSteps (pushData data) getByteArray data ↔
        data ≠ [] ∧ LengthReadable data.length) ∧
    ∀ number : Int,
      PushesItem crypto message maxSteps (pushNumber number) bigIntegerOf number ↔
        -1 ≤ number ∧ LengthReadable (natBytes number.natAbs).length :=
  ⟨pushesItem_pushData_iff, pushesItem_pushNumber_iff⟩

/-- A string of so many zero bytes. -/
def zeros (length : Nat) : Bytes := List.replicate length 0

/-- The empty string, a string of 65536 bytes and the number minus two do not come back. -/
theorem builtPushes_lost :
    ¬ PushesItem .polynomial [] 1200 (pushData []) getByteArray [] ∧
    ¬ PushesItem .polynomial [] 1200 (pushData (zeros 65536)) getByteArray (zeros 65536) ∧
    ¬ PushesItem .polynomial [] 1200 (pushNumber (-2)) bigIntegerOf (-2) := by
  have long : ¬ LengthReadable (zeros 65536).length := by
    rw [zeros, List.length_replicate]
    decide
  refine ⟨fun pushes => ?_, fun pushes => ?_, fun pushes => ?_⟩
  · exact ((pushesItem_pushData_iff []).mp pushes).1 rfl
  · exact long ((pushesItem_pushData_iff _).mp pushes).2
  · exact absurd ((pushesItem_pushNumber_iff (-2)).mp pushes).1 (by decide)

end DnaPow.Core
