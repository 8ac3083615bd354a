import DnaPow.Core.Builder
import DnaPow.Vm.Loop
import DnaPow.Vm.StackValues

/-!
# Running a program

`VerifySignableData` loads a program's code below its parameter. The engine
first runs the parameter, which may only push, and then the code on the stack
the parameter leaves. `runProgram_code` and its companions reduce a run to the
run of the code.
-/

namespace DnaPow.Core

open DnaPow.Std Common Vm Handler

variable (crypto : Primitives) (message : Bytes) (maxSteps : Int)
  {pushed : List Pushed} {opCount : Int} {program : Program} {engine : ExecutionEngine}
  {values : List Pushed} {rest : Bytes} {op : OpCode}

/-- The engine that starts on a parameter, with the given contexts waiting. -/
def parameterStart (waiting : List ExecutionContext) (parameter : Bytes) : ExecutionEngine :=
  { ExecutionEngine.new with
    state := VMState.none
    invocationStack := waiting
    context := .new parameter true }

/-- The engine that starts on the code with the given opcode count. -/
def codeStart (code : Bytes) (opCount : Int) : ExecutionEngine :=
  { ExecutionEngine.new with state := VMState.none, opCount, context := .new code false }

/-- What the parameter of a program pushes, and how many opcodes that takes. -/
def parameterPushes (parameter : Bytes) : Option (List Pushed × Int) :=
  pushes verificationMaxSteps parameter.length 0 parameter

theorem place_control (engine : ExecutionEngine) (stack : List ExecutionContext)
    (context : ExecutionContext) (pushed : Pushed) :
    { place engine pushed with invocationStack := stack, context } =
      place { engine with invocationStack := stack, context } pushed := by
  cases pushed <;> rfl

theorem placeAll_control (engine : ExecutionEngine) (stack : List ExecutionContext)
    (context : ExecutionContext) (pushed : List Pushed) :
    { pushed.foldl place engine with invocationStack := stack, context } =
      pushed.foldl place { engine with invocationStack := stack, context } := by
  induction pushed generalizing engine with
  | nil => rfl
  | cons first rest ih => rw [List.foldl_cons, ih, place_control, List.foldl_cons]

/-- `Execute` begins with the parameter, which was loaded last. -/
theorem execute_parameter (waiting : List ExecutionContext) (parameter : Bytes) :
    (execute crypto message verificationMaxSteps).run
        { ExecutionEngine.new with invocationStack := waiting ++ [ExecutionContext.new parameter true] } =
      (runOps crypto message verificationMaxSteps parameter.length >>= fun _ =>
        runSteps crypto message verificationMaxSteps 1202).run
        (parameterStart waiting parameter) := by
  have started : (ExecutionEngine.new.state &&& ~~~VMState.breakFlag) = VMState.none := by decide
  have fuel : verificationMaxSteps.toNat + 3 = 1202 + 1 := by decide
  simp only [execute, Action.run_bind, Action.run_modify, started, fuel]
  exact runSteps_context crypto message verificationMaxSteps 1202 waiting (.new parameter true)
    rfl rfl

/-- A parameter that is a push script pushes its values. -/
theorem runOps_parameter (waiting : List ExecutionContext) {parameter : Bytes}
    (few : waiting.length < 2) (pushes : parameterPushes parameter = some (pushed, opCount)) :
    (runOps crypto message verificationMaxSteps parameter.length).run
        (parameterStart waiting parameter) =
      (.ok (), pushed.foldl place ((parameterStart waiting parameter).moved opCount [])) := by
  have ran := runOps_pushOnly crypto message verificationMaxSteps parameter.length
    (parameterStart waiting parameter) rfl few le_rfl
  rwa [show Vm.pushes _ _ (parameterStart waiting parameter).opCount
    (parameterStart waiting parameter).context.reader = some (pushed, opCount) from pushes] at ran

/-- A parameter that is not a push script makes the run fault. -/
theorem runProgram_fault (program : Program) (faults : parameterPushes program.parameter = none) :
    ∃ final, runProgram crypto message program = (.ok (), final) ∧
      final.state = VMState.fault := by
  have ran := runOps_pushOnly crypto message verificationMaxSteps program.parameter.length
    (parameterStart [.new program.code false] program.parameter) rfl Nat.one_lt_two le_rfl
  rw [show pushes _ _ (parameterStart _ program.parameter).opCount
    (parameterStart _ program.parameter).context.reader = none from faults] at ran
  obtain ⟨final, ran, state⟩ := ran
  have flag : VMState.none ||| VMState.fault = VMState.fault := by decide
  replace state : final.state = VMState.fault := state.trans flag
  refine ⟨final, ?_, state⟩
  refine (execute_parameter crypto message [.new program.code false] program.parameter).trans ?_
  rw [Action.run_bind, ran]
  exact runSteps_stopped crypto message _ _ (.inl state)

section Code

variable (pushes : parameterPushes program.parameter = some (pushed, opCount))
include pushes

/-- After a push script the engine runs the code on the values pushed. -/
theorem runProgram_code :
    runProgram crypto message program =
      (runOps crypto message verificationMaxSteps program.code.length >>= fun _ =>
        runSteps crypto message verificationMaxSteps 1201).run
        (pushed.foldl place (codeStart program.code opCount)) := by
  have same := placeAll_sameControl
    ((parameterStart [.new program.code false] program.parameter).moved opCount []) pushed
  refine (execute_parameter crypto message [.new program.code false] program.parameter).trans ?_
  rw [Action.run_bind, runOps_parameter crypto message [.new program.code false]
    Nat.one_lt_two pushes]
  refine (runSteps_context crypto message _ 1201 [] (.new program.code false) same.state
    same.invocationStack).trans ?_
  rw [placeAll_control]
  rfl

/-- The code ends without a fault: the engine halts. -/
theorem runProgram_halts (final : ExecutionEngine)
    (ran : (runOps crypto message verificationMaxSteps program.code.length).run
      (pushed.foldl place (codeStart program.code opCount)) = (.ok (), final))
    (running : final.state = VMState.none) (stack : final.invocationStack = []) :
    runProgram crypto message program = (.ok (), { final with state := VMState.halt }) := by
  rw [runProgram_code crypto message pushes, Action.run_bind, ran]
  exact runSteps_empty crypto message _ _ running stack

/-- The code faults. -/
theorem runProgram_codeFault {final : ExecutionEngine}
    (ran : (runOps crypto message verificationMaxSteps program.code.length).run
      (pushed.foldl place (codeStart program.code opCount)) = (.ok (), final))
    (faulted : final.state = VMState.fault) :
    runProgram crypto message program = (.ok (), final) := by
  rw [runProgram_code crypto message pushes, Action.run_bind, ran]
  exact runSteps_stopped crypto message _ _ (.inl faulted)

/-- The code panics. -/
theorem runProgram_panic {final : ExecutionEngine}
    (ran : (runOps crypto message verificationMaxSteps program.code.length).run
      (pushed.foldl place (codeStart program.code opCount)) = (.panic, final)) :
    runProgram crypto message program = (.panic, final) := by
  rw [runProgram_code crypto message pushes, Action.run_bind, ran]

end Code

/-! ## Steps of a code -/

theorem runOps_done (fuel : Nat) (done : engine.context.reader = []) :
    (runOps crypto message maxSteps fuel).run engine = (.ok (), engine) := by
  cases fuel with
  | zero => rfl
  | succ fuel => simp [runOps, Action.run_bind, done]

/-- An engine that is to run `script` after `opCount` opcodes, its stack holding `values`. -/
structure Ready (engine : ExecutionEngine) (values : List Pushed) (opCount : Int)
    (script : Bytes) : Prop where
  holds : Holds engine values
  opCount : engine.opCount = opCount
  reader : engine.context.reader = script
  code : engine.context.pushOnly = false
  state : engine.state = VMState.none
  invocationStack : engine.invocationStack = []

/-- The code starts on the values that the parameter pushed. -/
theorem ready_codeStart (code : Bytes) (opCount : Int) (pushed : List Pushed) :
    Ready (pushed.foldl place (codeStart code opCount)) pushed opCount code := by
  have same := placeAll_sameControl (codeStart code opCount) pushed
  have start : Holds (codeStart code opCount) [] := .nil
  exact ⟨start.placeAll pushed, same.opCount, by rw [same.context]; rfl,
    by rw [same.context]; rfl, same.state, same.invocationStack⟩

/-- Run the push at the head of the code. -/
theorem Ready.push {emitted rest : Bytes} {pushed : Pushed}
    (ready : Ready engine values opCount (emitted ++ rest)) (one : PushesOne emitted pushed)
    (fuel : Nat) :
    ∃ next, (runOps crypto message maxSteps (fuel + 1)).run engine =
        (runOps crypto message maxSteps fuel).run next ∧
      Ready next (values ++ [pushed]) (wrap64 (opCount + 1)) rest := by
  obtain ⟨op, script, split, low, next⟩ := one rest
  have reader := ready.reader.trans split
  have moved : Holds (engine.moved (wrap64 (engine.opCount + 1)) rest) values := ready.holds
  exact ⟨_, runOps_push crypto message maxSteps low next reader, moved.place pushed,
    by simp [ready.opCount], by simp, by simp [ready.code], by simp [ready.state],
    by simp [ready.invocationStack]⟩

/-- Run the pushes at the head of the code, one opcode each. -/
theorem Ready.pushAll {values pushed : List Pushed} {emitted : List Bytes}
    (ready : Ready engine values opCount (emitted.flatten ++ rest))
    (each : List.Forall₂ PushesOne emitted pushed) (start : wrap64 opCount = opCount) (fuel : Nat) :
    ∃ next, (runOps crypto message maxSteps (fuel + pushed.length)).run engine =
        (runOps crypto message maxSteps fuel).run next ∧
      Ready next (values ++ pushed) (wrap64 (opCount + pushed.length)) rest := by
  induction each generalizing engine values opCount with
  | nil => exact ⟨engine, rfl, by simpa [start] using ready⟩
  | @cons _ first _ others one _ ih =>
    rw [List.flatten_cons, List.append_assoc] at ready
    obtain ⟨middle, stepped, ready⟩ :=
      ready.push crypto message maxSteps one (fuel + others.length)
    obtain ⟨next, ran, ready⟩ := ih ready (wrap64_wrap64 _)
    refine ⟨next, stepped.trans ran, ?_⟩
    rw [List.append_assoc, wrap64_wrap64_add, add_assoc, add_comm 1] at ready
    simpa using ready

/-- Past the step limit, the opcode at the head of the code faults. -/
theorem Ready.fault (ready : Ready engine values opCount (op :: rest))
    (high : op > 0x60) (steps : wrap64 (opCount + 1) > maxSteps) (fuel : Nat) :
    ∃ final, (runOps crypto message maxSteps (fuel + 1)).run engine = (.ok (), final) ∧
      final.state = VMState.fault := by
  refine ⟨_, runOps_fault crypto message maxSteps ready.reader
    (executeOp_fault crypto message maxSteps high (.inr ?_)), ?_⟩
  · simpa [ready.opCount] using steps
  · simp [ready.state, VMState.none]

section Handled

variable {after : ExecutionEngine} {call : Handler Unit}
  (ready : Ready engine values opCount (op :: rest)) (high : op > 0x60)
  (steps : wrap64 (opCount + 1) ≤ maxSteps)
  (table : (opExecList crypto message maxSteps).lookup op = some call)
include ready high steps table

/-- Run an opcode of the code through its handler. -/
theorem Ready.handler :
    (executeOp crypto message maxSteps op).run (engine.moved (wrap64 (engine.opCount + 1)) rest) =
      (runHandler call).run (engine.moved (wrap64 (engine.opCount + 1)) rest) := by
  refine executeOp_handler crypto message maxSteps high ?_ ?_ table
  · simp [ready.code]
  · rwa [moved_opCount, ready.opCount]

/-- A handler that panics ends the loop. -/
theorem Ready.panic
    (panics : call.run (engine.moved (wrap64 (engine.opCount + 1)) rest) = (.panic, after))
    (fuel : Nat) :
    (runOps crypto message maxSteps (fuel + 1)).run engine = (.panic, after) := by
  have handled := ready.handler crypto message maxSteps high steps table
  simp only [runHandler, panics] at handled
  simp only [ExecutionEngine.moved] at handled
  simp [runOps, Action.run_bind, readByte, ready.reader, handled]

/-- A handler that ends in a reported fault makes the loop fault. -/
theorem Ready.reported
    (faults : call.run (engine.moved (wrap64 (engine.opCount + 1)) rest) = (.error .reported, after))
    (same : after.state = engine.state) (fuel : Nat) :
    ∃ final, (runOps crypto message maxSteps (fuel + 1)).run engine = (.ok (), final) ∧
      final.state = VMState.fault := by
  have handled := ready.handler crypto message maxSteps high steps table
  rw [runHandler] at handled
  simp only [faults] at handled
  refine ⟨_, runOps_fault crypto message maxSteps ready.reader handled, ?_⟩
  simp [same, ready.state, VMState.none]

end Handled

end DnaPow.Core
