import DnaPow.Vm.Loop
import Mathlib.Tactic.Linarith

/-!
# Termination and the step limit

`CALL` adds a fresh copy of the running script to the invocation stack, and push
opcodes are not limited, so neither the unread bytes nor the step counter alone
bounds a run. What decreases with every turn is the work that is left: the
unread bytes of all contexts plus, for every opcode the step limit still allows,
the bytes of a copy that it might add.

The step counter is a 64-bit `int`. As long as the counter and the work that is
left stay below its range, it does not wrap around.
-/

namespace DnaPow.Vm

open DnaPow.Std Common Handler

/-- How many opcodes above `PUSH16` the step limit still allows. -/
def allowance (maxSteps : Int) (engine : ExecutionEngine) : Nat :=
  (maxSteps - engine.opCount).toNat

/-- The turns it takes to read the waiting contexts to their ends. -/
def waitingWork (contexts : List ExecutionContext) : Nat :=
  (contexts.map fun context => context.script.length + 2).sum

@[simp] theorem waitingWork_concat (contexts : List ExecutionContext) (context : ExecutionContext) :
    waitingWork (contexts ++ [context]) = waitingWork contexts + context.script.length + 2 := by
  simp [waitingWork, add_assoc]

/-- A bound on the turns that are left when no script that can call is longer than `longest`. -/
def Point.work (maxSteps : Int) (longest : Nat) : Point → Nat
  | .outer engine =>
      if Stopped engine.state then 0
      else waitingWork engine.invocationStack + allowance maxSteps engine * (longest + 3) + 1
  | .inner engine =>
      engine.context.reader.length + waitingWork engine.invocationStack +
        allowance maxSteps engine * (longest + 3) + 2
  | .crashed _ => 0

/-- The contexts that are executed or wait to be. -/
def Point.contexts : Point → List ExecutionContext
  | .outer engine => engine.invocationStack
  | .inner engine => engine.invocationStack ++ [engine.context]
  | .crashed _ => []

def Point.engine : Point → ExecutionEngine
  | .outer engine | .inner engine | .crashed engine => engine

/-- The invariant of a run: while there is work left, the step counter and the
work together stay below the range of an `int`. -/
structure Point.Bounded (maxSteps : Int) (longest : Nat) (point : Point) : Prop where
  regular : point.Regular
  short : ∀ context ∈ point.contexts, context.pushOnly = false → context.script.length ≤ longest
  count : point.work maxSteps longest ≠ 0 →
    0 ≤ point.engine.opCount ∧ point.engine.opCount + point.work maxSteps longest < 2 ^ 63

/-- What an opcode takes from the quantities that bound a run. -/
structure Spent (maxSteps : Int) (longest : Nat) (before after : ExecutionEngine) : Prop where
  read : after.context.reader.length + 1 ≤ before.context.reader.length
  counted : before.opCount + 1 ≤ after.opCount
  within : after.opCount = before.opCount + 1 ∨ after.opCount ≤ maxSteps
  called : after.invocationStack = before.invocationStack ∨
    before.opCount < maxSteps ∧ ∃ context : ExecutionContext, context.script.length ≤ longest ∧
      after.invocationStack = before.invocationStack ++ [context]

/-- Whether a turn invokes the handler of an opcode above `PUSH16`. -/
def invocations (crypto : Primitives) (message : Bytes) (maxSteps : Int) : Event → Nat
  | .opcode op engine => if Invokes crypto message maxSteps op engine then 1 else 0
  | _ => 0

/-- How many opcodes above `PUSH16` a run may still invoke. -/
def Point.invocationsLeft (maxSteps : Int) : Point → Nat
  | .outer engine => if Stopped engine.state then 0 else allowance maxSteps engine
  | .inner engine => allowance maxSteps engine
  | .crashed _ => 0

/-- How many rounds of the outer loop a run may still take. -/
def Point.roundsLeft (maxSteps : Int) : Point → Nat
  | .outer engine =>
      if Stopped engine.state then 0
      else engine.invocationStack.length + allowance maxSteps engine + 1
  | .inner engine => engine.invocationStack.length + allowance maxSteps engine + 1
  | .crashed _ => 0

section

variable {crypto : Primitives} {message : Bytes} {maxSteps : Int} {longest : Nat}
  {op : OpCode} {rest : Bytes}

/-- An opcode that does not end the run pays for itself. -/
theorem Point.Bounded.spent {engine after : ExecutionEngine} (small : 2 * maxSteps < 2 ^ 63)
    (bounded : (Point.inner engine).Bounded maxSteps longest)
    (reader : engine.context.reader = op :: rest)
    (effect : Effect crypto message maxSteps op (engine.fetched rest) VMState.none after) :
    Spent maxSteps longest engine after := by
  obtain ⟨low, high⟩ := bounded.count (by simp [Point.work])
  simp only [Point.engine, Point.work, reader, List.length_cons] at low high
  have count : (engine.fetched rest).opCount = engine.opCount + 1 := by
    rw [ExecutionEngine.fetched, moved_opCount, wrap64_of_range (by omega) (by omega)]
  have counts := effect.counts rfl
  refine ⟨?_, ?_, ?_, ?_⟩
  · rw [reader]
    exact Nat.succ_le_succ effect.reader
  · rcases counts with same | ⟨invokes, n, positive, able, charged, _⟩
    · omega
    · have within := invokes.2.2.1
      have fits : n ≤ 2 ^ 48 := by have := able.2; omega
      rw [charged, count, wrap64_of_range (by omega) (by omega)]
      omega
  · rcases counts with same | ⟨_, _, _, _, _, within⟩
    · exact .inl (same.trans count)
    · exact .inr within
  · rcases effect.calls with same | ⟨rfl, invokes, called⟩
    · exact .inl same
    · have within := invokes.2.2.1
      have callable : engine.context.pushOnly = false :=
        Bool.eq_false_of_not_eq_true fun only => invokes.2.1 ⟨by decide, only⟩
      exact .inr ⟨by omega, engine.context.clone,
        bounded.short engine.context (by simp [Point.contexts]) callable, called⟩

/-- What an opcode that does not end the run leaves of the bounds. -/
theorem Spent.left {before after : ExecutionEngine} (spent : Spent maxSteps longest before after) :
    (Point.inner after).work maxSteps longest + 1 ≤ (Point.inner before).work maxSteps longest ∧
    after.opCount + (Point.inner after).work maxSteps longest ≤
      before.opCount + (Point.inner before).work maxSteps longest ∧
    (Point.inner after).roundsLeft maxSteps ≤ (Point.inner before).roundsLeft maxSteps ∧
    (before.opCount < maxSteps → (Point.inner after).invocationsLeft maxSteps + 1 ≤
      (Point.inner before).invocationsLeft maxSteps) ∧
    (Point.inner after).invocationsLeft maxSteps ≤
      (Point.inner before).invocationsLeft maxSteps := by
  have read := spent.read
  have counted := spent.counted
  -- the allowance shrinks by `used`, which pays for a copy and for what was charged
  obtain ⟨used, shrinks⟩ : ∃ used, allowance maxSteps before = allowance maxSteps after + used :=
    Nat.exists_eq_add_of_le (by unfold allowance; omega)
  have some : before.opCount < maxSteps → 1 ≤ used := by unfold allowance at shrinks; omega
  have charged : after.opCount = before.opCount + 1 ∨ after.opCount = before.opCount + used := by
    have within := spent.within
    unfold allowance at shrinks
    omega
  have pays : 1 ≤ used → longest + 2 + used ≤ used * (longest + 3) := fun positive => by
    obtain ⟨more, rfl⟩ := Nat.exists_eq_add_of_le positive
    nlinarith
  have waiting : waitingWork after.invocationStack = waitingWork before.invocationStack ∧
        after.invocationStack.length = before.invocationStack.length ∨
      1 ≤ used ∧ waitingWork after.invocationStack ≤
        waitingWork before.invocationStack + longest + 2 ∧
        after.invocationStack.length = before.invocationStack.length + 1 := by
    rcases spent.called with same | ⟨more, context, short, called⟩
    · exact .inl ⟨by rw [same], by rw [same]⟩
    · refine .inr ⟨some more, ?_, by simp [called]⟩
      rw [called, waitingWork_concat]
      omega
  simp only [Point.work, Point.roundsLeft, Point.invocationsLeft, shrinks, add_mul]
  generalize allowance maxSteps after * (longest + 3) = saved
  generalize used * (longest + 3) = paid at pays
  omega

theorem not_stopped {engine : ExecutionEngine} (running : engine.state = VMState.none) :
    ¬ Stopped engine.state := by
  rw [running]
  decide

/-- An opcode whose handler is invoked is within the step limit. -/
theorem invocations_le {engine : ExecutionEngine}
    (bounded : (Point.inner engine).Bounded maxSteps longest)
    (reader : engine.context.reader = op :: rest) :
    invocations crypto message maxSteps (.opcode op (engine.fetched rest)) ≤
      if engine.opCount < maxSteps then 1 else 0 := by
  obtain ⟨low, high⟩ := bounded.count (by simp [Point.work])
  simp only [Point.engine, Point.work, reader, List.length_cons] at low high
  rw [invocations]
  split_ifs with invokes within
  · exact le_rfl
  · have := invokes.2.2.1
    rw [ExecutionEngine.fetched, moved_opCount, wrap64_of_range (by omega) (by omega)] at this
    omega
  · exact Nat.zero_le 1
  · exact le_rfl

/-- An opcode adds no longer script. -/
theorem Point.Bounded.short_effect {engine after : ExecutionEngine}
    {result : VMState} (bounded : (Point.inner engine).Bounded maxSteps longest)
    (effect : Effect crypto message maxSteps op (engine.fetched rest) result after) :
    ∀ context ∈ after.invocationStack ++ [after.context], context.pushOnly = false →
      context.script.length ≤ longest := by
  have own : engine.context.pushOnly = false → engine.context.script.length ≤ longest :=
    bounded.short engine.context (by simp [Point.contexts])
  have old : ∀ context ∈ engine.invocationStack, context.pushOnly = false →
      context.script.length ≤ longest := fun context member =>
    bounded.short context (List.mem_append_left _ member)
  intro context member callable
  rw [List.mem_append, List.mem_singleton] at member
  rcases member with waits | rfl
  · rcases effect.calls with same | ⟨_, _, called⟩
    · exact old context (same ▸ waits) callable
    · rw [called, List.mem_append, List.mem_singleton] at waits
      rcases waits with waits | rfl
      · exact old context waits callable
      · exact own callable
  · rw [effect.script]
    exact own (effect.pushOnly.symm.trans callable)

/-- Every turn keeps the invariant, and leaves less work than it found. -/
theorem Turn.pays {point next : Point} {event : Event} (small : 2 * maxSteps < 2 ^ 63)
    (bounded : point.Bounded maxSteps longest)
    (turned : Turn crypto message maxSteps point event next) :
    next.Bounded maxSteps longest ∧
    next.work maxSteps longest < point.work maxSteps longest ∧
    invocations crypto message maxSteps event + next.invocationsLeft maxSteps ≤
      point.invocationsLeft maxSteps ∧
    rounds event + next.roundsLeft maxSteps ≤ point.roundsLeft maxSteps := by
  have regular := turned.regular bounded.regular
  cases turned with
  | @halt engine running empty =>
    have halted : Stopped VMState.halt := .inr (.inl rfl)
    refine ⟨⟨regular, bounded.short, fun work => ?_⟩, ?_⟩
    · simp [Point.work, halted] at work
    · simp [Point.work, Point.invocationsLeft, Point.roundsLeft, invocations, rounds, halted,
        not_stopped running]
  | @enter engine rest context running stack =>
    have unread : context.reader = context.script := bounded.regular.2 context (by simp [stack])
    have same : allowance maxSteps { engine with invocationStack := rest, context } =
      allowance maxSteps engine := rfl
    have less : (Point.inner { engine with invocationStack := rest, context }).work maxSteps longest <
        (Point.outer engine).work maxSteps longest := by
      simp only [Point.work, not_stopped running, if_false, stack, waitingWork_concat, unread, same]
      omega
    refine ⟨⟨regular, ?_, fun _ => ?_⟩, less, ?_⟩
    · have same : (Point.inner { engine with invocationStack := rest, context }).contexts =
        (Point.outer engine).contexts := stack.symm
      exact same ▸ bounded.short
    · obtain ⟨low, high⟩ := bounded.count (Nat.ne_of_gt (Nat.zero_lt_of_lt less))
      simp only [Point.engine] at low high ⊢
      omega
    · simp [Point.invocationsLeft, Point.roundsLeft, invocations, rounds, not_stopped running,
        stack, same]
      omega
  | @leave engine running done =>
    have less : (Point.outer engine).work maxSteps longest <
        (Point.inner engine).work maxSteps longest := by
      simp [Point.work, not_stopped running, done]
    refine ⟨⟨regular, fun context member => bounded.short context ?_, fun _ => ?_⟩, less, ?_⟩
    · exact List.mem_append_left _ member
    · obtain ⟨low, high⟩ := bounded.count (Nat.ne_of_gt (Nat.zero_lt_of_lt less))
      simp only [Point.engine] at low high ⊢
      omega
    · simp [Point.invocationsLeft, Point.roundsLeft, invocations, rounds, not_stopped running]
  | @opcode engine op rest _ running reader continues =>
    have invoked : invocations crypto message maxSteps (.opcode op (engine.fetched rest)) ≤ _ :=
      invocations_le bounded reader
    have allowed : (if engine.opCount < maxSteps then 1 else 0) ≤ allowance maxSteps engine := by
      unfold allowance
      split_ifs <;> omega
    have some : 0 < (Point.inner engine).work maxSteps longest := by simp [Point.work]
    cases continues with
    | @next after _ effect =>
      obtain ⟨less, total, rounds', paid, kept⟩ := (bounded.spent small reader effect).left
      obtain ⟨low, high⟩ := bounded.count some.ne'
      have counted := (bounded.spent small reader effect).counted
      simp only [Point.engine] at low high
      refine ⟨⟨regular, bounded.short_effect effect, fun _ => ?_⟩, less, ?_,
        by simpa [rounds] using rounds'⟩
      · simp only [Point.engine]
        omega
      · split_ifs at invoked with within
        · have := paid within
          omega
        · omega
    | @fault after _ effect =>
      have faulted : Stopped (after.state ||| VMState.fault) := by
        have state : after.state = VMState.none := effect.state.trans running
        exact .inl (by simp [state, VMState.none])
      refine ⟨⟨regular, ?_, fun work => ?_⟩, ?_⟩
      · exact fun context member =>
          bounded.short_effect effect context (List.mem_append_left _ member)
      · simp [Point.work, faulted] at work
      · simp only [Point.invocationsLeft, Point.roundsLeft, rounds, faulted, if_true]
        exact ⟨by simp [Point.work, faulted], by omega, Nat.zero_le _⟩
    | crash =>
      refine ⟨⟨regular, fun _ member => by simp [Point.contexts] at member, fun work => ?_⟩, some, ?_⟩
      · simp [Point.work] at work
      · simp only [Point.invocationsLeft, Point.roundsLeft, rounds]
        exact ⟨by omega, Nat.zero_le _⟩

end

/-! ## Whole runs -/

/-- The engine with a code and, on top of it, a parameter loaded. -/
def loaded (code parameter : Bytes) : ExecutionEngine :=
  (ExecutionEngine.new.loadScript code false).loadScript parameter true

/-- The engine at the head of the loop of `Execute`. -/
def started (code parameter : Bytes) : ExecutionEngine :=
  { loaded code parameter with state := VMState.none }

section

variable {maxSteps : Int} {code parameter : Bytes}

theorem bounded_started
    (small : maxSteps.toNat * (code.length + 3) + code.length + parameter.length + 5 < 2 ^ 63) :
    (Point.outer (started code parameter)).Bounded maxSteps code.length := by
  refine ⟨⟨.inl rfl, ?_⟩, ?_, fun _ => ⟨le_rfl, ?_⟩⟩
  · intro context member
    rcases List.mem_pair.mp member with rfl | rfl <;> rfl
  · intro context member callable
    rcases List.mem_pair.mp member with rfl | rfl
    · exact le_rfl
    · cases callable
  · have running : ¬ Stopped (started code parameter).state := not_stopped rfl
    have waiting : waitingWork (started code parameter).invocationStack =
        code.length + parameter.length + 4 := by
      simp [waitingWork, started, loaded, ExecutionEngine.loadScript, ExecutionEngine.new,
        ExecutionContext.new]
      omega
    have allowed : allowance maxSteps (started code parameter) = maxSteps.toNat :=
      congrArg Int.toNat (sub_zero maxSteps)
    have zero : (started code parameter).opCount = 0 := rfl
    simp only [Point.engine, Point.work, running, if_false, waiting, allowed, zero]
    omega

theorem two_maxSteps_lt
    (small : maxSteps.toNat * (code.length + 3) + code.length + parameter.length + 5 < 2 ^ 63) :
    2 * maxSteps < 2 ^ 63 := by
  have : maxSteps.toNat * 3 ≤ maxSteps.toNat * (code.length + 3) :=
    Nat.mul_le_mul_left _ (by omega)
  omega

/-- `Execute` with its bound on the rounds ends where the loops stop. -/
theorem execute_steps (crypto : Primitives) (message : Bytes)
    (small : maxSteps.toNat * (code.length + 3) + code.length + parameter.length + 5 < 2 ^ 63) :
    (∃ events, (turn crypto message maxSteps).Steps (.outer (started code parameter)) events
      (landing ((execute crypto message maxSteps).run (loaded code parameter)))) ∧
    turn crypto message maxSteps
      (landing ((execute crypto message maxSteps).run (loaded code parameter))) = none := by
  have bounded := bounded_started small
  have begins : (execute crypto message maxSteps).run (loaded code parameter) =
      (runSteps crypto message maxSteps (maxSteps.toNat + 3)).run (started code parameter) := by
    have clear : (loaded code parameter).state &&& ~~~VMState.breakFlag = VMState.none := by
      change VMState.breakFlag &&& ~~~VMState.breakFlag = VMState.none
      decide
    simp only [execute, Action.run_bind, Action.run_modify, clear]
    rfl
  rw [begins]
  obtain ⟨events, steps, stopped | used⟩ :=
    runSteps_steps crypto message maxSteps (maxSteps.toNat + 3) bounded.regular
  · exact ⟨⟨events, steps⟩, stopped⟩
  · -- all rounds are used up, so the machine has no round left
    refine ⟨⟨events, steps⟩, ?_⟩
    have paid := steps.cost_le rounds (Point.roundsLeft maxSteps)
      (fun bounded step =>
        have pays := (Turn.of_turn bounded.regular step).pays (two_maxSteps_lt small) bounded
        ⟨pays.1, pays.2.2.2⟩) bounded
    have total : (Point.outer (started code parameter)).roundsLeft maxSteps =
        maxSteps.toNat + 3 := by
      have running : ¬ Stopped (started code parameter).state := not_stopped rfl
      have allowed : allowance maxSteps (started code parameter) = maxSteps.toNat :=
        congrArg Int.toNat (sub_zero maxSteps)
      have two : (started code parameter).invocationStack.length = 2 := rfl
      simp only [Point.roundsLeft, running, if_false, allowed, two]
      omega
    rw [total] at paid
    generalize landing _ = ending at paid ⊢
    cases ending with
    | crashed engine => rfl
    | inner engine => simp only [Point.roundsLeft] at paid; omega
    | outer engine =>
      by_cases stopped : Stopped engine.state
      · simp [turn, stopped]
      · simp only [Point.roundsLeft, stopped, if_false] at paid
        omega

/-- The engine stops on every code and parameter, and it invokes at most
`maxSteps` opcodes above `PUSH16` before it does, as long as the step limit is so
low that the step counter cannot overflow. -/
theorem execute_terminates (crypto : Primitives) (message : Bytes) (maxSteps : Int)
    (code parameter : Bytes)
    (small : maxSteps.toNat * (code.length + 3) + code.length + parameter.length + 5 < 2 ^ 63) :
    (∃ events, (turn crypto message maxSteps).Steps (.outer (started code parameter)) events
        (landing ((execute crypto message maxSteps).run (loaded code parameter)))) ∧
    turn crypto message maxSteps
      (landing ((execute crypto message maxSteps).run (loaded code parameter))) = none ∧
    ∀ events point, (turn crypto message maxSteps).Steps (.outer (started code parameter))
      events point → (events.map (invocations crypto message maxSteps)).sum ≤ maxSteps.toNat := by
  obtain ⟨reached, stopped⟩ := execute_steps crypto message small
  refine ⟨reached, stopped, fun events point steps => ?_⟩
  have paid := steps.cost_le (invocations crypto message maxSteps)
    (Point.invocationsLeft maxSteps)
    (fun bounded step =>
      have pays := (Turn.of_turn bounded.regular step).pays (two_maxSteps_lt small) bounded
      ⟨pays.1, pays.2.2.1⟩) (bounded_started small)
  have total : (Point.outer (started code parameter)).invocationsLeft maxSteps =
      maxSteps.toNat := by
    have running : ¬ Stopped (started code parameter).state := not_stopped rfl
    simp only [Point.invocationsLeft, running, if_false]
    exact congrArg Int.toNat (sub_zero maxSteps)
  omega

end

/-- A short script with the step limit of the verifier. -/
theorem execute_terminates_call :
    turn Primitives.polynomial [] 1200 (landing ((execute Primitives.polynomial [] 1200).run
      (loaded [0x51, 0x65, 0x00, 0x03] []))) = none :=
  (execute_terminates Primitives.polynomial [] 1200 [0x51, 0x65, 0x00, 0x03] []
    (by decide)).2.1

/-! ## The greatest step limit -/

/-- A script that pushes a value for `CALL` to pop and calls itself. -/
def selfCalling : Bytes := [0x51, 0x65, 0x00, 0x03]

/-- The points that a run of the script keeps coming through. -/
inductive Loops : Point → Prop where
  | start : Loops (.outer (started selfCalling []))
  | parameter : Loops (.inner { started selfCalling [] with
      invocationStack := [.new selfCalling false], context := .new [] true })
  | outer {engine : ExecutionEngine} (running : engine.state = VMState.none)
      (contexts : engine.invocationStack = [.new selfCalling false])
      (empty : engine.evaluationStack = []) : Loops (.outer engine)
  | push {engine : ExecutionEngine} (running : engine.state = VMState.none)
      (contexts : engine.invocationStack = []) (empty : engine.evaluationStack = [])
      (context : engine.context = .new selfCalling false) : Loops (.inner engine)
  | call {engine : ExecutionEngine} {ref : Nat} (running : engine.state = VMState.none)
      (contexts : engine.invocationStack = []) (stack : engine.evaluationStack = [.integer ref])
      (context : engine.context = { ExecutionContext.new selfCalling false with
        reader := [0x65, 0x00, 0x03] }) : Loops (.inner engine)
  | leave {engine : ExecutionEngine} (running : engine.state = VMState.none)
      (contexts : engine.invocationStack = [.new selfCalling false])
      (empty : engine.evaluationStack = []) (done : engine.context.reader = []) :
      Loops (.inner engine)

/-- The jump of the call reads its distance and pops the value. -/
private theorem opJmp_selfCalling (engine : ExecutionEngine) {ref : Nat}
    (stack : engine.evaluationStack = [.integer ref])
    (context : engine.context = ⟨selfCalling, [0x00, 0x03], false, 2⟩) :
    (opJmp 0x65).run engine =
      (.ok (), { engine with evaluationStack := [], context := ⟨selfCalling, [], false, 2⟩ }) := by
  obtain ⟨_, _, altStack, integers, opCount, _, _⟩ := engine
  cases stack
  cases context
  have distance : (ofNatBytes (takePadded [0x00, 0x03] 2) : Int).bmod 65536 = 3 := by decide
  have popped : RandomAccessStack.pop [Item.integer ref] = (.integer ref, []) :=
    RandomAccessStack.pop_append [] _
  have length : selfCalling.length = 4 := rfl
  simp [opJmp, Action.run_bind, readInt16, readBytes, distance, popBoolean, popItem, popped,
    getBoolean, integerAt, length]
  split_ifs <;> rfl

/-- The call leaves a copy of the script to be executed and an empty stack. -/
private theorem opCall_selfCalling (engine : ExecutionEngine) {ref : Nat}
    (contexts : engine.invocationStack = []) (stack : engine.evaluationStack = [.integer ref])
    (context : engine.context = ⟨selfCalling, [0x00, 0x03], false, 0⟩) :
    opCall.run engine =
      (.ok (), { engine with
        invocationStack := [.new selfCalling false]
        evaluationStack := []
        context := ⟨selfCalling, [], false, 2⟩ }) := by
  obtain ⟨_, _, altStack, integers, opCount, state, _⟩ := engine
  cases contexts
  cases stack
  cases context
  have jumped := opJmp_selfCalling ⟨[.new selfCalling false], [.integer ref], altStack, integers,
    opCount, state, ⟨selfCalling, [0x00, 0x03], false, 2⟩⟩ rfl rfl
  simp [opCall, ExecutionContext.clone, jumped]

/-- With the greatest step limit every point of the loop has a next one. -/
theorem Loops.next {point : Point} (loops : Loops point) :
    ∃ event next, turn Primitives.polynomial [] (2 ^ 63 - 1) point = some (event, next) ∧
      Loops next := by
  cases loops with
  | start => exact ⟨_, _, turn_context _ _ _ rfl rfl, .parameter⟩
  | parameter => exact ⟨_, _, rfl, .outer rfl rfl rfl⟩
  | @outer engine running contexts empty =>
    have stack : engine.invocationStack = [] ++ [ExecutionContext.new selfCalling false] := contexts
    exact ⟨_, _, turn_context _ _ _ running stack, .push running rfl empty rfl⟩
  | @push engine running contexts empty context =>
    have reader : engine.context.reader = 0x51 :: [0x65, 0x00, 0x03] := by rw [context]; rfl
    refine ⟨_, _, turn_opcode _ _ _ reader, ?_⟩
    rw [executeOp_push _ _ _ (by decide)]
    exact .call running contexts (congrArg (· ++ [_]) empty)
      (by simp [place, ExecutionEngine.fetched, ExecutionEngine.moved, context])
  | @call engine ref running contexts stack context =>
    have reader : engine.context.reader = 0x65 :: [0x00, 0x03] := by rw [context]
    have own : (engine.fetched [0x00, 0x03]).context = ⟨selfCalling, [0x00, 0x03], false, 0⟩ := by
      simp [ExecutionEngine.fetched, ExecutionEngine.moved, context, ExecutionContext.new]
    have limit : (engine.fetched [0x00, 0x03]).opCount ≤ 2 ^ 63 - 1 :=
      Int.le_sub_one_of_lt (wrap64_lt _)
    refine ⟨_, _, turn_opcode _ _ _ reader, ?_⟩
    rw [executeOp_handler _ _ _ (by decide) (by simp [own]) limit rfl, runHandler]
    simp only [opCall_selfCalling (engine.fetched [0x00, 0x03]) contexts stack own]
    exact .leave running rfl rfl rfl
  | leave running contexts empty done =>
    exact ⟨_, _, by simp [turn, done]; rfl, .outer running contexts empty⟩

/-- With the greatest step limit a script that calls itself never stops: the step
counter of 64 bits never exceeds the limit. -/
theorem execute_endless :
    ¬ ∃ events point, (turn Primitives.polynomial [] (2 ^ 63 - 1)).Steps
        (.outer (started selfCalling [])) events point ∧
      turn Primitives.polynomial [] (2 ^ 63 - 1) point = none := by
  rintro ⟨events, point, steps, stopped⟩
  have loops : Loops point := steps.preserves (fun _ => True) (fun loops step _ => by
    obtain ⟨event, next, other, later⟩ := loops.next
    obtain ⟨rfl, rfl⟩ := Prod.mk.inj (Option.some.inj (step.symm.trans other))
    exact later) (fun _ _ => trivial) .start
  obtain ⟨event, next, step, _⟩ := loops.next
  rw [step] at stopped
  cases stopped

end DnaPow.Vm
