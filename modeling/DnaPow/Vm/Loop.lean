import DnaPow.Std.Machine
import DnaPow.Vm.Frame
import DnaPow.Vm.PushScript

/-!
# The loops of the engine

`Execute` and `StepInto` as a machine that takes one turn of a loop at a time,
without a bound on the number of turns. `runSteps_steps` says that the bounded
functions of `Vm.Execute` take turns of this machine, and that they end where it
stops unless they have used up their bound.
-/

namespace DnaPow.Vm

open DnaPow.Std Common Handler

/-- What an engine is about to do. -/
inductive Point where
  /-- At the head of the loop of `Execute`. -/
  | outer (engine : ExecutionEngine)
  /-- At the head of the loop of `StepInto`. -/
  | inner (engine : ExecutionEngine)
  /-- Stopped by a panic. -/
  | crashed (engine : ExecutionEngine)

/-- What happens in one turn of a loop. -/
inductive Event where
  /-- `StepInto` finds nothing to execute. -/
  | halt
  /-- `StepInto` takes a context off the invocation stack. -/
  | enter
  /-- `StepInto` has read its context to the end. -/
  | leave
  /-- `StepInto` executes an opcode, with the engine as `ExecuteOp` finds it. -/
  | opcode (op : OpCode) (engine : ExecutionEngine)

/-- The states in which `Execute` returns. -/
def Stopped (state : VMState) : Prop :=
  state = VMState.fault ∨ state = VMState.halt ∨ state = VMState.breakFlag

instance (state : VMState) : Decidable (Stopped state) := inferInstanceAs (Decidable (_ ∨ _ ∨ _))

/-- The head of `StepInto`: an empty invocation stack sets the halt flag. -/
def ExecutionEngine.beginStep (engine : ExecutionEngine) : ExecutionEngine :=
  if engine.invocationStack = [] then { engine with state := engine.state ||| VMState.halt }
  else engine

/-- The engine that reads the context on top of the invocation stack. -/
def ExecutionEngine.entering (engine : ExecutionEngine) (context : ExecutionContext) :
    ExecutionEngine :=
  { engine with invocationStack := engine.invocationStack.dropLast, context }

/-- The engine that has read an opcode and counted it. -/
def ExecutionEngine.fetched (engine : ExecutionEngine) (rest : Bytes) : ExecutionEngine :=
  engine.moved (wrap64 (engine.opCount + 1)) rest

variable (crypto : Primitives) (message : Bytes) (maxSteps : Int)

/-- Where `StepInto` goes on after an opcode. -/
def afterOpcode : Outcome Fault VMState × ExecutionEngine → Point
  | (.ok state, after) =>
      if state = VMState.halt then .outer { after with state := after.state ||| VMState.halt }
      else if state = VMState.fault then
        .outer { after with state := after.state ||| VMState.fault }
      else .inner after
  | (_, after) => .crashed after

/-- One turn of a loop. -/
def turn : Machine Point Event
  | .outer engine =>
      if Stopped engine.state then none
      else if engine.beginStep.state &&& VMState.halt = VMState.halt ∨
          engine.beginStep.state &&& VMState.fault = VMState.fault then
        some (.halt, .outer engine.beginStep)
      else
        match engine.beginStep.invocationStack.getLast? with
        | none => some (.halt, .outer engine.beginStep)
        | some context => some (.enter, .inner (engine.beginStep.entering context))
  | .inner engine =>
      match engine.context.reader with
      | [] => some (.leave, .outer engine)
      | op :: rest =>
          some (.opcode op (engine.fetched rest),
            afterOpcode ((executeOp crypto message maxSteps op).run (engine.fetched rest)))
  | .crashed _ => none

/-- Where a call of the loops ends. -/
def landing : Outcome Fault Unit × ExecutionEngine → Point
  | (.ok _, engine) => .outer engine
  | (_, engine) => .crashed engine

/-- How a turn that executes an opcode continues. -/
inductive Continues (op : OpCode) (before : ExecutionEngine) : Point → Prop where
  | next {after : ExecutionEngine}
      (ran : (executeOp crypto message maxSteps op).run before = (.ok VMState.none, after))
      (effect : Effect crypto message maxSteps op before VMState.none after) :
      Continues op before (.inner after)
  | fault {after : ExecutionEngine}
      (ran : (executeOp crypto message maxSteps op).run before = (.ok VMState.fault, after))
      (effect : Effect crypto message maxSteps op before VMState.fault after) :
      Continues op before (.outer { after with state := after.state ||| VMState.fault })
  | crash {after : ExecutionEngine}
      (ran : (executeOp crypto message maxSteps op).run before = (.panic, after)) :
      Continues op before (.crashed after)

theorem continues_afterOpcode (op : OpCode) (before : ExecutionEngine) :
    Continues crypto message maxSteps op before
      (afterOpcode ((executeOp crypto message maxSteps op).run before)) := by
  have effect : (executeOp crypto message maxSteps op).Ends before
      (Effect crypto message maxSteps op before) (fun _ _ => False) (fun _ => True) :=
    executeOp_effect crypto message maxSteps op
  unfold Action.Ends at effect
  cases ran : (executeOp crypto message maxSteps op).run before with
  | mk outcome after =>
    rw [ran] at effect
    cases outcome with
    | error _ => exact effect.elim
    | panic => exact .crash ran
    | ok state =>
      rcases effect.ending with rfl | rfl
      · exact .next ran effect
      · exact .fault ran effect

/-- A turn of the inner loop with an opcode to read. -/
theorem turn_opcode {engine : ExecutionEngine} {op : OpCode} {rest : Bytes}
    (reader : engine.context.reader = op :: rest) :
    turn crypto message maxSteps (.inner engine) = some (.opcode op (engine.fetched rest),
      afterOpcode ((executeOp crypto message maxSteps op).run (engine.fetched rest))) := by
  simp [turn, reader]

/-- One turn of the bounded inner loop. -/
theorem runOps_cons (fuel : Nat) {engine : ExecutionEngine} {op : OpCode} {rest : Bytes}
    (reader : engine.context.reader = op :: rest) :
    (runOps crypto message maxSteps (fuel + 1)).run engine =
      match afterOpcode ((executeOp crypto message maxSteps op).run (engine.fetched rest)) with
      | .outer after => (.ok (), after)
      | .inner after => (runOps crypto message maxSteps fuel).run after
      | .crashed after => (.panic, after) := by
  have split := continues_afterOpcode crypto message maxSteps op (engine.fetched rest)
  generalize after : afterOpcode _ = point at split ⊢
  cases split with
  | next ran _ => exact runOps_next crypto message maxSteps reader ran
  | fault ran _ => exact runOps_fault crypto message maxSteps reader ran
  | crash ran =>
    simp only [ExecutionEngine.fetched, ExecutionEngine.moved] at ran
    simp [runOps, Action.run_bind, readByte, reader, ran]

/-- The bounded inner loop takes turns of the machine. -/
theorem runOps_steps (fuel : Nat) (engine : ExecutionEngine)
    (enough : engine.context.reader.length ≤ fuel) :
    ∃ events, (turn crypto message maxSteps).Steps (.inner engine) events
      (landing ((runOps crypto message maxSteps fuel).run engine)) := by
  induction fuel generalizing engine with
  | zero =>
    have empty : engine.context.reader = [] := List.length_eq_zero_iff.mp (by omega)
    exact ⟨[.leave], .single (by simp [turn, empty, runOps, landing])⟩
  | succ fuel ih =>
    cases reader : engine.context.reader with
    | nil => exact ⟨[.leave], .single (by simp [turn, reader, runOps, Action.run_bind, landing])⟩
    | cons op rest =>
      have first := turn_opcode crypto message maxSteps reader
      have split := continues_afterOpcode crypto message maxSteps op (engine.fetched rest)
      rw [runOps_cons crypto message maxSteps fuel reader]
      generalize after : afterOpcode _ = point at first split ⊢
      cases split with
      | next _ effect =>
        have less : _ ≤ rest.length := effect.reader
        rw [reader, List.length_cons] at enough
        obtain ⟨events, steps⟩ := ih _ (less.trans (by omega))
        exact ⟨_, .step first steps⟩
      | fault => exact ⟨_, .single first⟩
      | crash => exact ⟨_, .single first⟩

/-! ## What one turn can do -/

/-- The contexts that wait to be executed have not been read. -/
def Fresh (engine : ExecutionEngine) : Prop :=
  ∀ context ∈ engine.invocationStack, context.reader = context.script

/-- Between turns the flags are clear, except that `Execute` may have halted or faulted. -/
def Point.Regular : Point → Prop
  | .outer engine =>
      (engine.state = VMState.none ∨ engine.state = VMState.halt ∨
        engine.state = VMState.fault) ∧ Fresh engine
  | .inner engine => engine.state = VMState.none ∧ Fresh engine
  | .crashed _ => True

/-- The turns from a regular point. -/
inductive Turn : Point → Event → Point → Prop where
  | halt {engine : ExecutionEngine} (running : engine.state = VMState.none)
      (empty : engine.invocationStack = []) :
      Turn (.outer engine) .halt (.outer { engine with state := VMState.halt })
  | enter {engine : ExecutionEngine} {rest : List ExecutionContext} {context : ExecutionContext}
      (running : engine.state = VMState.none)
      (stack : engine.invocationStack = rest ++ [context]) :
      Turn (.outer engine) .enter (.inner { engine with invocationStack := rest, context })
  | leave {engine : ExecutionEngine} (running : engine.state = VMState.none)
      (done : engine.context.reader = []) : Turn (.inner engine) .leave (.outer engine)
  | opcode {engine : ExecutionEngine} {op : OpCode} {rest : Bytes} {next : Point}
      (running : engine.state = VMState.none) (reader : engine.context.reader = op :: rest)
      (continues : Continues crypto message maxSteps op (engine.fetched rest) next) :
      Turn (.inner engine) (.opcode op (engine.fetched rest)) next

section Outer

variable {engine : ExecutionEngine}

theorem turn_stopped (stopped : engine.state = VMState.halt ∨ engine.state = VMState.fault) :
    turn crypto message maxSteps (.outer engine) = none := by
  have done : Stopped engine.state := stopped.symm.imp_right .inl
  simp [turn, done]

theorem turn_empty (running : engine.state = VMState.none)
    (empty : engine.invocationStack = []) :
    turn crypto message maxSteps (.outer engine) =
      some (.halt, .outer { engine with state := VMState.halt }) := by
  simp [turn, Stopped, running, ExecutionEngine.beginStep, empty, VMState.none, VMState.fault,
    VMState.halt, VMState.breakFlag]

theorem turn_context {rest : List ExecutionContext} {context : ExecutionContext}
    (running : engine.state = VMState.none) (stack : engine.invocationStack = rest ++ [context]) :
    turn crypto message maxSteps (.outer engine) =
      some (.enter, .inner { engine with invocationStack := rest, context }) := by
  simp [turn, Stopped, running, ExecutionEngine.beginStep, stack, VMState.none, VMState.fault,
    VMState.halt, VMState.breakFlag, ExecutionEngine.entering]

end Outer

variable {crypto message maxSteps}

theorem Turn.of_turn {point next : Point} {event : Event} (regular : point.Regular)
    (step : turn crypto message maxSteps point = some (event, next)) :
    Turn crypto message maxSteps point event next := by
  cases point with
  | crashed engine => cases step
  | inner engine =>
    cases reader : engine.context.reader with
    | nil =>
      simp only [turn, reader] at step
      obtain ⟨rfl, rfl⟩ := Prod.mk.inj (Option.some.inj step)
      exact .leave regular.1 reader
    | cons op rest =>
      rw [turn_opcode crypto message maxSteps reader] at step
      obtain ⟨rfl, rfl⟩ := Prod.mk.inj (Option.some.inj step)
      exact .opcode regular.1 reader (continues_afterOpcode ..)
  | outer engine =>
    rcases regular.1 with running | stopped
    · rcases engine.invocationStack.eq_nil_or_concat' with empty | ⟨rest, context, stack⟩
      · rw [turn_empty crypto message maxSteps running empty] at step
        obtain ⟨rfl, rfl⟩ := Prod.mk.inj (Option.some.inj step)
        exact .halt running empty
      · rw [turn_context crypto message maxSteps running stack] at step
        obtain ⟨rfl, rfl⟩ := Prod.mk.inj (Option.some.inj step)
        exact .enter running stack
    · rw [turn_stopped crypto message maxSteps stopped] at step
      cases step

theorem Fresh.effect {op : OpCode} {before after : ExecutionEngine} {result : VMState}
    (fresh : Fresh before) (effect : Effect crypto message maxSteps op before result after) :
    Fresh after := by
  intro context member
  rcases effect.calls with same | ⟨_, _, called⟩
  · exact fresh context (same ▸ member)
  · rw [called, List.mem_append, List.mem_singleton] at member
    rcases member with old | rfl
    · exact fresh context old
    · rfl

theorem Turn.regular {point next : Point} {event : Event} (regular : point.Regular)
    (turned : Turn crypto message maxSteps point event next) : next.Regular := by
  cases turned with
  | halt => exact ⟨.inr (.inl rfl), regular.2⟩
  | enter running stack =>
    exact ⟨running, fun context member => regular.2 context (by simp [stack, member])⟩
  | leave running => exact ⟨.inl running, regular.2⟩
  | @opcode engine op rest next running reader continues =>
    have fresh : Fresh (engine.fetched rest) := regular.2
    cases continues with
    | next _ effect => exact ⟨effect.state.trans running, fresh.effect effect⟩
    | @fault after _ effect =>
      have state : after.state = VMState.none := effect.state.trans running
      have kept : Fresh after := fresh.effect effect
      exact ⟨.inr (.inr (by simp [state, VMState.none])), kept⟩
    | crash => trivial

/-- All points of a run are regular. -/
theorem regular_of_steps {start point : Point} {events : List Event}
    (steps : (turn crypto message maxSteps).Steps start events point) (regular : start.Regular) :
    point.Regular :=
  steps.preserves (fun _ => True)
    (fun regular step _ => (Turn.of_turn regular step).regular regular) (fun _ _ => trivial) regular

variable (crypto message maxSteps) {engine : ExecutionEngine}

/-! ## The bounded outer loop -/

theorem runSteps_stopped (fuel : Nat)
    (stopped : engine.state = VMState.fault ∨ engine.state = VMState.halt) :
    (runSteps crypto message maxSteps fuel).run engine = (.ok (), engine) := by
  cases fuel with
  | zero => rfl
  | succ fuel =>
    have test : engine.state = VMState.fault ∨ engine.state = VMState.halt ∨
        engine.state = VMState.breakFlag := stopped.imp_right .inl
    simp [runSteps, Action.run_bind, test]

/-- With a context on the invocation stack, a running engine executes it. -/
theorem runSteps_context (fuel : Nat) (rest : List ExecutionContext) (context : ExecutionContext)
    (running : engine.state = VMState.none) (stack : engine.invocationStack = rest ++ [context]) :
    (runSteps crypto message maxSteps (fuel + 1)).run engine =
      (runOps crypto message maxSteps context.script.length >>= fun _ =>
        runSteps crypto message maxSteps fuel).run
        { engine with invocationStack := rest, context } := by
  simp only [runSteps, stepInto, Action.run_bind, Action.run_get, running, VMState.none,
    VMState.fault, VMState.halt, VMState.breakFlag]
  simp [stack, running, VMState.none, Action.run_bind]

/-- Without a context, a running engine halts. -/
theorem runSteps_empty (fuel : Nat)
    (running : engine.state = VMState.none) (stack : engine.invocationStack = []) :
    (runSteps crypto message maxSteps (fuel + 1)).run engine =
      (.ok (), { engine with state := VMState.halt }) := by
  have halted : ({ engine with state := VMState.halt } : ExecutionEngine).state = VMState.halt :=
    rfl
  have stopped := runSteps_stopped crypto message maxSteps fuel (.inr halted)
  simp only [runSteps, stepInto, Action.run_bind, Action.run_get, running, VMState.none,
    VMState.fault, VMState.halt, VMState.breakFlag]
  simp [stack, running, VMState.none, Action.run_bind]
  simpa [VMState.halt, stack] using stopped

/-- Turns of the outer loop. -/
def rounds : Event → Nat
  | .halt | .enter => 1
  | .leave | .opcode .. => 0

/-- The bounded outer loop takes turns of the machine. It ends where the machine
stops, unless it has taken as many rounds as it may. -/
theorem runSteps_steps (fuel : Nat) (regular : (Point.outer engine).Regular) :
    ∃ events, (turn crypto message maxSteps).Steps (.outer engine) events
        (landing ((runSteps crypto message maxSteps fuel).run engine)) ∧
      (turn crypto message maxSteps
          (landing ((runSteps crypto message maxSteps fuel).run engine)) = none ∨
        fuel ≤ (events.map rounds).sum) := by
  induction fuel generalizing engine with
  | zero => exact ⟨[], .refl _, .inr (Nat.zero_le _)⟩
  | succ fuel ih =>
    obtain ⟨running | stopped, fresh⟩ := regular
    · rcases engine.invocationStack.eq_nil_or_concat' with empty | ⟨rest, context, stack⟩
      · rw [runSteps_empty crypto message maxSteps fuel running empty]
        exact ⟨_, .single (turn_empty crypto message maxSteps running empty),
          .inl (turn_stopped crypto message maxSteps (.inl rfl))⟩
      · rw [runSteps_context crypto message maxSteps fuel rest context running stack]
        have entered := turn_context crypto message maxSteps running stack
        have unread : context.reader = context.script := fresh context (by simp [stack])
        obtain ⟨inside, steps⟩ := runOps_steps crypto message maxSteps context.script.length
          { engine with invocationStack := rest, context } (by rw [unread])
        have kept := regular_of_steps (.step entered steps) ⟨.inl running, fresh⟩
        rw [Action.run_bind]
        generalize (runOps crypto message maxSteps context.script.length).run _ = ending
          at steps kept ⊢
        obtain ⟨outcome, after⟩ := ending
        cases outcome with
        | error _ | panic => exact ⟨_, .step entered steps, .inl rfl⟩
        | ok _ =>
          obtain ⟨later, more, ends⟩ := ih kept
          refine ⟨_, .step entered (steps.trans more), ends.imp_right fun used => ?_⟩
          simp only [List.map_cons, List.map_append, List.sum_cons, List.sum_append, rounds]
          omega
    · rw [runSteps_stopped crypto message maxSteps (fuel + 1) stopped.symm]
      exact ⟨[], .refl _, .inl (turn_stopped crypto message maxSteps stopped)⟩

end DnaPow.Vm
