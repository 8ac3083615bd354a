import DnaPow.Vm.Execute
import Mathlib.Data.List.Forall2

/-!
# Push scripts

What the opcodes up to `PUSH16` do, as a function on byte strings. `nextPush`
reads one push off a script, and `pushes` reads a whole push-only script. The
engine agrees with both: `executeOp_push` for one opcode and `runOps_pushOnly`
for the whole script.
-/

namespace DnaPow.Vm

open DnaPow.Std Common Handler

/-- A value that a push opcode leaves on the evaluation stack. -/
inductive Pushed where
  | bytes (data : Bytes)
  | number (value : Int)
  deriving DecidableEq, Repr

/-- The byte string `GetByteArray` returns for a pushed value. -/
def Pushed.toBytes : Pushed → Bytes
  | bytes data => data
  | number value => natBytes value.natAbs

/-- The number `GetBigInteger` returns for a pushed value. -/
def Pushed.toInt : Pushed → Int
  | bytes data => ofNatBytes data
  | number value => value

/-- Read a string of the given length off a script. -/
def readPush (count : Nat) (script : Bytes) : Pushed × Bytes :=
  (.bytes (takePadded script count), script.drop count)

/-- The value pushed by an opcode up to `PUSH16` and the script behind it. Only
the undefined opcode `0x50` pushes nothing. -/
def nextPush (op : OpCode) (script : Bytes) : Option (Pushed × Bytes) :=
  if op = 0x00 then
    some (.bytes [0], script)
  else if op ≤ 0x4b then
    some (readPush op.toNat script)
  else if op = 0x4c then
    some (readPush (script.headD 0).toNat script.tail)
  else if op = 0x4d then
    some (readPush (ofLittleEndian (takePadded script 2)) (script.drop 2))
  else if op = 0x4e then
    some (readPush ((ofNatBytes (takePadded script 4) : Int).bmod (2 ^ 32)).toNat (script.drop 4))
  else if op = 0x50 then
    none
  else
    some (.number ((op.toNat : Int) - 0x51 + 1), script)

/-- The values a push-only script pushes and the opcode count after it; `none`
when it faults. `RET` is the one other opcode a push-only script may hold, and
it does nothing. -/
def pushes (maxSteps : Int) : (fuel : Nat) → (opCount : Int) → Bytes → Option (List Pushed × Int)
  | 0, opCount, _ => some ([], opCount)
  | _ + 1, opCount, [] => some ([], opCount)
  | fuel + 1, opCount, op :: script =>
      if op ≤ 0x60 then do
        let (pushed, rest) ← nextPush op script
        let (others, final) ← pushes maxSteps fuel (wrap64 (opCount + 1)) rest
        return (pushed :: others, final)
      else if op = 0x66 ∧ wrap64 (opCount + 1) ≤ maxSteps then
        pushes maxSteps fuel (wrap64 (opCount + 1)) script
      else
        none

/-- The opcode count after a push script is a 64-bit `int`. -/
theorem opCount_of_pushes {maxSteps opCount final : Int} {fuel : Nat} {script : Bytes}
    {pushed : List Pushed} (ran : pushes maxSteps fuel opCount script = some (pushed, final))
    (start : -2 ^ 63 ≤ opCount ∧ opCount < 2 ^ 63) : -2 ^ 63 ≤ final ∧ final < 2 ^ 63 := by
  induction fuel generalizing opCount script pushed with
  | zero =>
    simp only [pushes, Option.some.injEq, Prod.mk.injEq] at ran
    exact ran.2 ▸ start
  | succ fuel ih =>
    have next : -2 ^ 63 ≤ wrap64 (opCount + 1) ∧ wrap64 (opCount + 1) < 2 ^ 63 :=
      ⟨le_wrap64 _, wrap64_lt _⟩
    cases script with
    | nil =>
      simp only [pushes, Option.some.injEq, Prod.mk.injEq] at ran
      exact ran.2 ▸ start
    | cons op script =>
      simp only [pushes] at ran
      split_ifs at ran
      · obtain ⟨_, _, ran⟩ := Option.bind_eq_some_iff.mp ran
        obtain ⟨_, tail, ran⟩ := Option.bind_eq_some_iff.mp ran
        obtain ⟨_, rfl⟩ := Prod.mk.injEq .. ▸ Option.some.inj ran
        exact ih tail next
      · exact ih ran next

/-! ## One push -/

/-- The engine after pushing a value. -/
def place (engine : ExecutionEngine) : Pushed → ExecutionEngine
  | .bytes data =>
      { engine with evaluationStack := engine.evaluationStack ++ [Item.byteArray data] }
  | .number value =>
      { engine with
        evaluationStack := engine.evaluationStack ++ [Item.integer engine.integers.length]
        integers := engine.integers ++ [value] }

/-- The engine with its opcode count and the reader of its context moved. -/
def ExecutionEngine.moved (engine : ExecutionEngine) (opCount : Int) (reader : Bytes) :
    ExecutionEngine :=
  { engine with opCount, context := { engine.context with reader } }

section

variable (engine : ExecutionEngine) (opCount : Int) (reader : Bytes)

@[simp] theorem moved_opCount : (engine.moved opCount reader).opCount = opCount := rfl

@[simp] theorem moved_reader : (engine.moved opCount reader).context.reader = reader := rfl

@[simp] theorem moved_pushOnly :
    (engine.moved opCount reader).context.pushOnly = engine.context.pushOnly := rfl

@[simp] theorem moved_invocationStack :
    (engine.moved opCount reader).invocationStack = engine.invocationStack := rfl

@[simp] theorem moved_state : (engine.moved opCount reader).state = engine.state := rfl

end

@[simp] theorem moved_moved (engine : ExecutionEngine) (first second : Int) (before after : Bytes) :
    (engine.moved first before).moved second after = engine.moved second after := rfl

@[simp] theorem place_moved (engine : ExecutionEngine) (pushed : Pushed) (opCount : Int)
    (reader : Bytes) :
    (place engine pushed).moved opCount reader = place (engine.moved opCount reader) pushed := by
  cases pushed <;> rfl

@[simp] theorem place_context (engine : ExecutionEngine) (pushed : Pushed) :
    (place engine pushed).context = engine.context := by
  cases pushed <;> rfl

@[simp] theorem place_opCount (engine : ExecutionEngine) (pushed : Pushed) :
    (place engine pushed).opCount = engine.opCount := by
  cases pushed <;> rfl

@[simp] theorem place_invocationStack (engine : ExecutionEngine) (pushed : Pushed) :
    (place engine pushed).invocationStack = engine.invocationStack := by
  cases pushed <;> rfl

@[simp] theorem place_state (engine : ExecutionEngine) (pushed : Pushed) :
    (place engine pushed).state = engine.state := by
  cases pushed <;> rfl

variable (crypto : Primitives) (message : Bytes) (maxSteps : Int)
  {op : OpCode} {fuel : Nat} {engine : ExecutionEngine}

private theorem push_op_cases (op : OpCode) (low : op ≤ 0x60) :
    op = 0x00 ∨ (0x01 ≤ op ∧ op ≤ 0x4b) ∨ op = 0x4c ∨ op = 0x4d ∨ op = 0x4e ∨ op = 0x4f ∨
      op = 0x50 ∨ op = 0x51 ∨ op = 0x52 ∨ op = 0x53 ∨ op = 0x54 ∨ op = 0x55 ∨ op = 0x56 ∨
      op = 0x57 ∨ op = 0x58 ∨ op = 0x59 ∨ op = 0x5a ∨ op = 0x5b ∨ op = 0x5c ∨ op = 0x5d ∨
      op = 0x5e ∨ op = 0x5f ∨ op = 0x60 := by
  simp only [← UInt8.toNat_inj, UInt8.le_iff_toNat_le, UInt8.reduceToNat] at low ⊢
  omega

theorem executeOp_push (low : op ≤ 0x60) (engine : ExecutionEngine) :
    (executeOp crypto message maxSteps op).run engine =
      match nextPush op engine.context.reader with
      | some (pushed, rest) =>
        (.ok VMState.none, place (engine.moved engine.opCount rest) pushed)
      | none => (.ok VMState.fault, engine) := by
  have notAbove : ¬ op > 0x60 := UInt8.not_lt.mpr low
  simp only [executeOp, Action.run_bind, Action.run_get, notAbove, false_and, if_false]
  rcases push_op_cases op low with
    rfl | short | rfl | rfl | rfl | rfl | rfl | rfl | rfl | rfl | rfl | rfl | rfl | rfl | rfl |
    rfl | rfl | rfl | rfl | rfl | rfl | rfl | rfl
  case inr.inl =>
    have notZero : op ≠ 0x00 := by rintro rfl; exact absurd short.1 (by decide)
    rw [if_pos short]
    simp only [nextPush, if_neg notZero, if_pos short.2]
    rfl
  case inr.inr.inl =>
    obtain ⟨_, _, _, _, _, _, ⟨_, reader, _, _⟩⟩ := engine
    cases reader <;> rfl
  all_goals rfl

/-- A push opcode moves the loop of `StepInto` one value on. -/
theorem runOps_push {script rest : Bytes} {pushed : Pushed}
    (low : op ≤ 0x60) (next : nextPush op script = some (pushed, rest))
    (reader : engine.context.reader = op :: script) :
    (runOps crypto message maxSteps (fuel + 1)).run engine =
      (runOps crypto message maxSteps fuel).run
        (place (engine.moved (wrap64 (engine.opCount + 1)) rest) pushed) := by
  have step := executeOp_push crypto message maxSteps low
    (engine.moved (wrap64 (engine.opCount + 1)) script)
  simp only [ExecutionEngine.moved, next] at step
  simp [runOps, Action.run_bind, readByte, reader, step, VMState.none, VMState.halt,
    VMState.fault, ExecutionEngine.moved]

/-- An opcode that faults ends the loop with the fault flag set. -/
theorem runOps_fault {script : Bytes} {engine final : ExecutionEngine}
    (reader : engine.context.reader = op :: script)
    (faults : (executeOp crypto message maxSteps op).run
      (engine.moved (wrap64 (engine.opCount + 1)) script) = (.ok VMState.fault, final)) :
    (runOps crypto message maxSteps (fuel + 1)).run engine =
      (.ok (), { final with state := final.state ||| VMState.fault }) := by
  simp only [ExecutionEngine.moved] at faults
  simp [runOps, Action.run_bind, readByte, reader, faults, VMState.halt, VMState.fault]

/-- An opcode that neither faults nor halts goes on with the next one. -/
theorem runOps_next {script : Bytes} {engine next : ExecutionEngine}
    (reader : engine.context.reader = op :: script)
    (runs : (executeOp crypto message maxSteps op).run
      (engine.moved (wrap64 (engine.opCount + 1)) script) = (.ok VMState.none, next)) :
    (runOps crypto message maxSteps (fuel + 1)).run engine =
      (runOps crypto message maxSteps fuel).run next := by
  simp only [ExecutionEngine.moved] at runs
  simp [runOps, Action.run_bind, readByte, reader, runs, VMState.none, VMState.halt,
    VMState.fault]

/-! ## Push-only scripts -/

theorem executeOp_ret (engine : ExecutionEngine) (few : engine.invocationStack.length < 2)
    (steps : engine.opCount ≤ maxSteps) :
    (executeOp crypto message maxSteps 0x66).run engine = (.ok VMState.none, engine) := by
  have table : (opExecList crypto message maxSteps).lookup 0x66 = some opRet := rfl
  have ret : opRet.run engine = (.error .silent, engine) := by
    rw [opRet, Action.run_bind, Action.run_get]
    simp only [if_pos few, Action.run_throw]
  simp [executeOp, Action.run_bind, table, runHandler, ret, not_lt.mpr steps]

/-- Past the step limit, and outside the pushes of a push-only context, an
opcode above `PUSH16` faults. -/
theorem executeOp_fault (high : op > 0x60)
    (refused : (op ≠ 0x66 ∧ engine.context.pushOnly) ∨ engine.opCount > maxSteps) :
    (executeOp crypto message maxSteps op).run engine = (.ok VMState.fault, engine) := by
  simp only [executeOp, Action.run_bind, Action.run_get]
  by_cases held : op > 0x60 ∧ op ≠ 0x66 ∧ engine.context.pushOnly
  · rw [if_pos held]
    rfl
  · rw [if_neg held, if_pos]
    · rfl
    · exact ⟨high, refused.resolve_left fun ⟨notRet, only⟩ => held ⟨high, notRet, only⟩⟩

/-- Within the step limit, an opcode above `PUSH16` goes to its handler. -/
theorem executeOp_handler {handler : Handler Unit}
    (high : op > 0x60) (allowed : ¬ (op ≠ 0x66 ∧ engine.context.pushOnly))
    (steps : engine.opCount ≤ maxSteps)
    (table : (opExecList crypto message maxSteps).lookup op = some handler) :
    (executeOp crypto message maxSteps op).run engine = (runHandler handler).run engine := by
  have notLow : ¬ (0x01 ≤ op ∧ op ≤ 0x4b) := fun ⟨_, low⟩ =>
    absurd high (UInt8.not_lt.mpr (UInt8.le_trans low (by decide : (0x4b : UInt8) ≤ 0x60)))
  have refused : ¬ (op > 0x60 ∧ op ≠ 0x66 ∧ engine.context.pushOnly) := fun held =>
    allowed held.2
  have within : ¬ (op > 0x60 ∧ engine.opCount > maxSteps) := fun held => not_lt.mpr steps held.2
  simp only [executeOp, Action.run_bind, Action.run_get, if_neg refused, if_neg within, if_neg notLow,
    table]

theorem nextPush_length {script rest : Bytes} {pushed : Pushed}
    (next : nextPush op script = some (pushed, rest)) : rest.length ≤ script.length := by
  unfold nextPush readPush at next
  split_ifs at next <;> cases next <;> simp

theorem moved_self (empty : engine.context.reader = []) :
    engine.moved engine.opCount [] = engine := by
  obtain ⟨_, _, _, _, _, _, ⟨_, reader, _, _⟩⟩ := engine
  cases empty
  rfl

/-- The engine runs a push-only script as `pushes` says. The induction is on
the fuel; every opcode leaves less of the script than it found. -/
theorem runOps_pushOnly (fuel : Nat) (engine : ExecutionEngine)
    (only : engine.context.pushOnly = true) (few : engine.invocationStack.length < 2)
    (enough : engine.context.reader.length ≤ fuel) :
    match pushes maxSteps fuel engine.opCount engine.context.reader with
    | some (pushed, opCount) =>
      (runOps crypto message maxSteps fuel).run engine =
        (.ok (), pushed.foldl place (engine.moved opCount []))
    | none => ∃ final, (runOps crypto message maxSteps fuel).run engine = (.ok (), final) ∧
        final.state = engine.state ||| VMState.fault := by
  induction fuel generalizing engine with
  | zero =>
    have empty : engine.context.reader = [] := List.length_eq_zero_iff.mp (by omega)
    simp [pushes, runOps, moved_self empty]
  | succ fuel ih =>
    cases reader : engine.context.reader with
    | nil => simp [pushes, runOps, Action.run_bind, reader, moved_self reader]
    | cons op script =>
      rw [reader, List.length_cons] at enough
      by_cases low : op ≤ 0x60
      · have step := executeOp_push crypto message maxSteps low
          (engine.moved (wrap64 (engine.opCount + 1)) script)
        cases next : nextPush op script with
        | none =>
          simp only [ExecutionEngine.moved, next] at step
          simp only [pushes, if_pos low, next]
          exact ⟨_, runOps_fault crypto message maxSteps reader step, rfl⟩
        | some found =>
          obtain ⟨pushed, rest⟩ := found
          have shorter := nextPush_length next
          have tail := ih (place (engine.moved (wrap64 (engine.opCount + 1)) rest) pushed)
            (by simpa using only) (by simpa using few) (by simp; omega)
          rw [runOps_push crypto message maxSteps low next reader]
          simp only [pushes, if_pos low, next]
          simp only [place_opCount, place_context, place_state, place_moved, moved_moved,
            moved_opCount, moved_reader, moved_state] at tail
          cases others : pushes maxSteps fuel (wrap64 (engine.opCount + 1)) rest with
          | none => simpa [others] using tail
          | some found => simpa [others] using tail
      · have high : op > 0x60 := UInt8.not_le.mp low
        by_cases ret : op = 0x66 ∧ wrap64 (engine.opCount + 1) ≤ maxSteps
        · obtain ⟨rfl, steps⟩ := ret
          have step := executeOp_ret crypto message maxSteps
            (engine.moved (wrap64 (engine.opCount + 1)) script) few steps
          rw [runOps_next crypto message maxSteps reader step]
          simp only [pushes, if_neg low, steps, and_self, if_true]
          exact ih (engine.moved (wrap64 (engine.opCount + 1)) script) only few
            (by simp; omega)
        · simp only [pushes, if_neg low, if_neg ret]
          refine ⟨_, runOps_fault crypto message maxSteps reader
            (executeOp_fault crypto message maxSteps high ?_), rfl⟩
          by_cases isRet : op = 0x66
          · exact .inr (not_le.mp fun steps => ret ⟨isRet, steps⟩)
          · exact .inl ⟨isRet, only⟩

end DnaPow.Vm
