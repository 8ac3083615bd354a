import DnaPow.Vm.Faults

/-!
# Where the jumps and calls go

A jump sets the instruction pointer of its context, and nothing ever reads a script from
there: the next opcode is the one behind the operand, whether the branch is taken or not.
`CALL` leaves a fresh copy of its context for later and goes on in the same way, and `RET`
goes on behind itself or panics.
-/

namespace DnaPow.Vm

open DnaPow.Std Common

/-- The truth value that `GetBoolean` returns. -/
def Item.truth (integers : List Int) : Item → Option Bool
  | .foreign => none
  | .integer ref => some (integers.getD ref 0 ≠ 0)
  | .boolean value => some value
  | .byteArray value => some (value.any (· ≠ 0))
  | .array [] => some false
  | .array (first :: _) => first.truth integers

/-- The truth value on top of the evaluation stack, if there is one. -/
def topTruth (engine : ExecutionEngine) : Option Bool :=
  engine.evaluationStack.getLast?.bind (·.truth engine.integers)

/-- Whether a jump is taken; a conditional jump needs a truth value on the stack. -/
def branch (op : OpCode) (engine : ExecutionEngine) : Option Bool :=
  if op > 0x62 then (topTruth engine).map fun value => if op = 0x64 then !value else value
  else some true

/-- The operand of the opcode at a position, as `ReadInt16` decodes it. -/
def distance (script : Bytes) (p : Nat) : Int :=
  (ofNatBytes ((script.drop (p + 1)).take 2) : Int).bmod (2 ^ 16)

/-- The engine is about to execute an opcode with a 16-bit operand at the given position of
a script that is not push-only, within the step limit. -/
structure ExecutesAt (maxSteps : Int) (engine : ExecutionEngine) (op : OpCode) (p : Nat) :
    Prop where
  reader : engine.context.reader = engine.context.script.drop p
  opcode : engine.context.script[p]? = some op
  operand : p + 3 ≤ engine.context.script.length
  callable : engine.context.pushOnly = false
  allowed : wrap64 (engine.opCount + 1) ≤ maxSteps

namespace Handler

variable {engine : ExecutionEngine} {p : Nat}

theorem run_getBoolean : (item : Item) →
    (getBoolean item).run engine =
      match item.truth engine.integers with
      | some value => (.ok value, engine)
      | none => (.panic, engine)
  | .foreign => rfl
  | .integer _ => rfl
  | .boolean _ => rfl
  | .byteArray _ => rfl
  | .array [] => rfl
  | .array (first :: _) => by
    rw [getBoolean, Item.truth]
    exact run_getBoolean first

/-- Popping a truth value. -/
theorem run_popBoolean (engine : ExecutionEngine) :
    ∃ rest, popBoolean.run engine =
      match topTruth engine with
      | some value => (.ok value, engine.holding rest [])
      | none => (.panic, engine.holding rest []) := by
  rcases engine.evaluationStack.eq_nil_or_concat' with empty | ⟨rest, item, stack⟩
  · refine ⟨[], ?_⟩
    have popped : popItem.run engine = (.ok .foreign, engine.holding [] []) := by
      simp [popItem, empty, RandomAccessStack.pop, RandomAccessStack.remove,
        ExecutionEngine.holding]
    rw [popBoolean, Action.run_bind_of_ok popped, topTruth, empty]
    rfl
  · refine ⟨rest, ?_⟩
    rw [popBoolean, Action.run_bind_of_ok (run_popItem stack), run_getBoolean, topTruth, stack,
      List.getLast?_concat, Option.bind_some, ExecutionEngine.holding_integers, List.append_nil]

theorem run_readInt16 (reader : engine.context.reader = engine.context.script.drop (p + 1))
    (operand : p + 3 ≤ engine.context.script.length) :
    readInt16.run engine = (.ok (distance engine.context.script p),
      engine.moved engine.opCount (engine.context.script.drop (p + 3))) := by
  have bytes : (readBytes 2).run engine = (.ok (takePadded engine.context.reader 2),
      engine.moved engine.opCount (engine.context.reader.drop 2)) := rfl
  have whole : takePadded engine.context.reader 2 = (engine.context.script.drop (p + 1)).take 2 := by
    have enough : 2 - (engine.context.script.drop (p + 1)).length = 0 := by
      rw [List.length_drop]
      omega
    rw [takePadded, reader, enough, List.replicate_zero, List.append_nil]
  have behind : engine.context.reader.drop 2 = engine.context.script.drop (p + 3) := by
    rw [reader, List.drop_drop]
  rw [readInt16, Action.run_bind_of_ok bytes, whole, behind]
  exact Action.run_pure _ _

/-- What a jump does, with the offset it computes. -/
theorem run_opJmp (op : OpCode) {offset : Int}
    (reader : engine.context.reader = engine.context.script.drop (p + 1))
    (operand : p + 3 ≤ engine.context.script.length) (computed : offset =
      engine.context.instructionPointer + distance engine.context.script p - 3) :
    ∃ after, after.context.script = engine.context.script ∧
      after.context.reader = engine.context.script.drop (p + 3) ∧
      (opJmp op).run engine =
        if offset < 0 ∨ offset > engine.context.script.length then (.error .reported, after)
        else if branch op engine = none then (.panic, after)
        else (.ok (), after) := by
  have read := run_readInt16 reader operand
  generalize moved : engine.moved engine.opCount (engine.context.script.drop (p + 3)) = after
    at read
  have script : after.context.script = engine.context.script := by rw [← moved]; rfl
  have unread : after.context.reader = engine.context.script.drop (p + 3) := by rw [← moved]; rfl
  have pointer : after.context.instructionPointer = engine.context.instructionPointer := by
    rw [← moved]
    rfl
  have truth : topTruth after = topTruth engine := by rw [← moved]; rfl
  simp only [opJmp, Action.run_bind, read, Action.run_get, script, pointer, ← computed]
  by_cases outside : offset < 0 ∨ offset > engine.context.script.length
  · exact ⟨after, script, unread, by rw [if_pos outside, if_pos outside, Action.run_throw]⟩
  · simp only [if_neg outside]
    by_cases conditional : op > 0x62
    · obtain ⟨rest, popped⟩ := run_popBoolean after
      rw [truth] at popped
      cases truthful : topTruth engine with
      | none =>
        refine ⟨after.holding rest [], script, unread, ?_⟩
        simp [Action.run_bind, conditional, popped, truthful, branch]
      | some value =>
        have known : branch op engine ≠ none := by simp [branch, conditional, truthful]
        simp only [if_pos conditional, Action.run_bind, popped, truthful, if_neg known,
          Action.run_pure]
        generalize (if op = 0x64 then !value else value) = taken
        cases taken with
        | true =>
          refine ⟨_, ?_, ?_, rfl⟩
          · exact script
          · exact unread
        | false => exact ⟨after.holding rest [], script, unread, rfl⟩
    · have known : branch op engine ≠ none := by simp [branch, conditional]
      simp only [if_neg conditional, if_neg known]
      refine ⟨_, ?_, ?_, rfl⟩
      · exact script
      · exact unread

/-- The engine that `CALL` jumps in. -/
def calling (engine : ExecutionEngine) : ExecutionEngine :=
  { engine with
    invocationStack := engine.invocationStack ++ [engine.context.clone]
    context :=
      { engine.context with instructionPointer := engine.context.instructionPointer + 2 } }

theorem branch_calling : branch 0x65 (calling engine) = none ↔ topTruth engine = none := by
  have truth : topTruth (calling engine) = topTruth engine := rfl
  simp [branch, truth]

/-- What a call does to its context. Its jump may fault, but only a missing truth value
stops it. -/
theorem run_opCall {offset : Int}
    (reader : engine.context.reader = engine.context.script.drop (p + 1))
    (operand : p + 3 ≤ engine.context.script.length) (computed : offset =
      engine.context.instructionPointer + 2 + distance engine.context.script p - 3) :
    ∃ after, after.context.script = engine.context.script ∧
      after.context.reader = engine.context.script.drop (p + 3) ∧
      opCall.run engine =
        if (0 ≤ offset ∧ offset ≤ engine.context.script.length) ∧ topTruth engine = none then
          (.panic, after)
        else (.ok (), after) := by
  obtain ⟨after, script, unread, ran⟩ :=
    @run_opJmp (calling engine) p 0x65 offset reader operand computed
  refine ⟨after, script, unread, ?_⟩
  have same : (calling engine).context.script = engine.context.script := rfl
  rw [same] at ran
  by_cases outside : offset < 0 ∨ offset > engine.context.script.length
  · rw [if_pos outside, calling] at ran
    rw [if_neg (by omega)]
    simp only [opCall, ran]
  · rw [if_neg outside] at ran
    by_cases missing : topTruth engine = none
    · rw [if_pos (branch_calling.mpr missing), calling] at ran
      rw [if_pos ⟨by omega, missing⟩]
      simp only [opCall, ran]
    · rw [if_neg (fun none => missing (branch_calling.mp none)), calling] at ran
      rw [if_neg (fun both => missing both.2)]
      simp only [opCall, ran]

end Handler

open Handler

variable (crypto : Primitives) (message : Bytes) (maxSteps : Int)

/-- The next opcode of the script is read at the given position. -/
def NextAt (engine : ExecutionEngine) (target : Nat) : Prop :=
  ∃ event after, turn crypto message maxSteps (.inner engine) = some (event, .inner after) ∧
    after.context.script = engine.context.script ∧
    after.context.reader = engine.context.script.drop target

/-- The handlers of the opcodes with a 16-bit operand. -/
def jumping : List (OpCode × Handler Unit) :=
  [(0x62, opJmp 0x62), (0x63, opJmp 0x63), (0x64, opJmp 0x64), (0x65, opCall)]

variable {crypto message maxSteps}

section Jumps

variable {engine : ExecutionEngine} {op : OpCode} {p : Nat} {handler : Handler Unit} {target : Nat}

theorem executeOp_jumping {before : ExecutionEngine}
    (listed : (op, handler) ∈ jumping) (callable : before.context.pushOnly = false)
    (allowed : before.opCount ≤ maxSteps) :
    (executeOp crypto message maxSteps op).run before = (runHandler handler).run before := by
  have free : ¬ (op > 0x60 ∧ op ≠ 0x66 ∧ before.context.pushOnly = true) := by simp [callable]
  have within : ¬ (op > 0x60 ∧ before.opCount > maxSteps) := fun beyond =>
    absurd beyond.2 (not_lt.mpr allowed)
  simp only [executeOp, Action.run_bind, Action.run_get, if_neg free, if_neg within]
  simp only [jumping, List.mem_cons, Prod.mk.injEq, List.not_mem_nil, or_false] at listed
  rcases listed with ⟨rfl, rfl⟩ | ⟨rfl, rfl⟩ | ⟨rfl, rfl⟩ | ⟨rfl, rfl⟩ <;> rfl

theorem ExecutesAt.turn_eq (executes : ExecutesAt maxSteps engine op p)
    (listed : (op, handler) ∈ jumping) :
    turn crypto message maxSteps (.inner engine) =
      some (.opcode op (engine.fetched (engine.context.script.drop (p + 1))),
        afterOpcode ((runHandler handler).run
          (engine.fetched (engine.context.script.drop (p + 1))))) := by
  have reader : engine.context.reader = op :: engine.context.script.drop (p + 1) := by
    obtain ⟨inside, found⟩ := List.getElem?_eq_some_iff.mp executes.opcode
    rw [executes.reader, List.drop_eq_getElem_cons inside, found]
  have ran := @executeOp_jumping crypto message maxSteps op handler
    (engine.fetched (engine.context.script.drop (p + 1))) listed executes.callable executes.allowed
  rw [turn_opcode crypto message maxSteps reader, ran]

/-- A position of the script, from what is left to read. -/
theorem drop_eq_drop_iff {script : Bytes} {first second : Nat} (inFirst : first ≤ script.length)
    (inSecond : second ≤ script.length) :
    script.drop first = script.drop second ↔ first = second := by
  constructor
  · intro same
    have lengths := congrArg List.length same
    rw [List.length_drop, List.length_drop] at lengths
    omega
  · rintro rfl
    rfl

/-- A handler goes on in its context unless it panics or reports a fault. -/
theorem ExecutesAt.turn_inner_iff (executes : ExecutesAt maxSteps engine op p)
    (listed : (op, handler) ∈ jumping) {after next : ExecutionEngine} {outcome : Outcome Fault Unit}
    (ran : handler.run (engine.fetched (engine.context.script.drop (p + 1))) = (outcome, after)) :
    (∃ event, turn crypto message maxSteps (.inner engine) = some (event, .inner next)) ↔
      (outcome = .ok () ∨ outcome = .error .silent) ∧ next = after := by
  rw [executes.turn_eq listed]
  simp only [runHandler, ran]
  cases outcome with
  | ok value => simp [afterOpcode, VMState.none, VMState.halt, VMState.fault, eq_comm]
  | error reason =>
    cases reason with
    | silent => simp [afterOpcode, VMState.none, VMState.halt, VMState.fault, eq_comm]
    | reported => simp [afterOpcode, VMState.halt, VMState.fault]
  | panic => simp [afterOpcode]

/-- When a handler goes on behind its operand. -/
theorem ExecutesAt.nextAt_iff (executes : ExecutesAt maxSteps engine op p)
    (listed : (op, handler) ∈ jumping)
    (inside : target ≤ engine.context.script.length) {after : ExecutionEngine}
    (script : after.context.script = engine.context.script)
    (unread : after.context.reader = engine.context.script.drop (p + 3))
    {outcome : Outcome Fault Unit}
    (ran : handler.run (engine.fetched (engine.context.script.drop (p + 1))) = (outcome, after)) :
    NextAt crypto message maxSteps engine target ↔
      (outcome = .ok () ∨ outcome = .error .silent) ∧ target = p + 3 := by
  constructor
  · rintro ⟨event, next, step, -, reader⟩
    obtain ⟨ended, rfl⟩ := (executes.turn_inner_iff listed ran).mp ⟨event, step⟩
    rw [unread, drop_eq_drop_iff executes.operand inside] at reader
    exact ⟨ended, reader.symm⟩
  · rintro ⟨ended, rfl⟩
    obtain ⟨event, step⟩ := (executes.turn_inner_iff listed ran).mpr ⟨ended, rfl⟩
    exact ⟨event, after, step, script, unread⟩

/-- Where a jump goes on. -/
theorem ExecutesAt.jump_nextAt_iff (executes : ExecutesAt maxSteps engine op p)
    (jump : op ∈ [0x62, 0x63, 0x64]) {taken : Bool} (branches : branch op engine = some taken)
    (inside : target ≤ engine.context.script.length) :
    NextAt crypto message maxSteps engine target ↔
      (0 ≤ engine.context.instructionPointer + distance engine.context.script p - 3 ∧
        engine.context.instructionPointer + distance engine.context.script p - 3 ≤
          engine.context.script.length) ∧ target = p + 3 := by
  have listed : (op, opJmp op) ∈ jumping := by
    simp only [List.mem_cons, List.not_mem_nil, or_false] at jump
    rcases jump with rfl | rfl | rfl <;> simp [jumping]
  obtain ⟨after, script, unread, ran⟩ := @run_opJmp
    (engine.fetched (engine.context.script.drop (p + 1))) p op
    (engine.context.instructionPointer + distance engine.context.script p - 3) rfl executes.operand
    rfl
  generalize engine.context.instructionPointer + distance engine.context.script p - 3 = offset
    at ran ⊢
  have known : branch op (engine.fetched (engine.context.script.drop (p + 1))) ≠ none := by
    change branch op engine ≠ none
    simp [branches]
  rw [if_neg known] at ran
  have same : (engine.fetched (engine.context.script.drop (p + 1))).context.script =
    engine.context.script := rfl
  rw [same] at ran script unread
  by_cases outside : offset < 0 ∨ offset > engine.context.script.length
  · rw [if_pos outside] at ran
    rw [executes.nextAt_iff listed inside script unread ran]
    simp
    omega
  · rw [if_neg outside] at ran
    rw [executes.nextAt_iff listed inside script unread ran]
    simp
    omega

/-- Where a call goes on. -/
theorem ExecutesAt.call_nextAt_iff (executes : ExecutesAt maxSteps engine 0x65 p)
    (inside : target ≤ engine.context.script.length) :
    NextAt crypto message maxSteps engine target ↔
      (0 ≤ engine.context.instructionPointer + 2 + distance engine.context.script p - 3 ∧
        engine.context.instructionPointer + 2 + distance engine.context.script p - 3 ≤
          engine.context.script.length → topTruth engine ≠ none) ∧ target = p + 3 := by
  have listed : ((0x65 : OpCode), opCall) ∈ jumping := by simp [jumping]
  obtain ⟨after, script, unread, ran⟩ := @run_opCall
    (engine.fetched (engine.context.script.drop (p + 1))) p
    (engine.context.instructionPointer + 2 + distance engine.context.script p - 3) rfl
    executes.operand rfl
  generalize engine.context.instructionPointer + 2 + distance engine.context.script p - 3 = offset
    at ran ⊢
  have same : (engine.fetched (engine.context.script.drop (p + 1))).context.script =
    engine.context.script := rfl
  have truth : topTruth (engine.fetched (engine.context.script.drop (p + 1))) =
    topTruth engine := rfl
  rw [same] at ran script unread
  rw [truth] at ran
  by_cases panics : (0 ≤ offset ∧ offset ≤ engine.context.script.length) ∧ topTruth engine = none
  · rw [if_pos panics] at ran
    rw [executes.nextAt_iff listed inside script unread ran]
    simp [panics.1, panics.2]
  · rw [if_neg panics] at ran
    rw [executes.nextAt_iff listed inside script unread ran]
    simp only [true_or, true_and]
    tauto

theorem ExecutesAt.call_reader (executes : ExecutesAt maxSteps engine 0x65 p)
    {called : ExecutionEngine} {event : Event}
    (step : turn crypto message maxSteps (.inner engine) = some (event, .inner called)) :
    called.context.reader = engine.context.script.drop (p + 3) := by
  have listed : ((0x65 : OpCode), opCall) ∈ jumping := by simp [jumping]
  obtain ⟨after, script, unread, ran⟩ := @run_opCall
    (engine.fetched (engine.context.script.drop (p + 1))) p _ rfl executes.operand rfl
  split_ifs at ran
  · obtain ⟨-, rfl⟩ := (executes.turn_inner_iff listed ran).mp ⟨event, step⟩
    exact unread
  · obtain ⟨-, rfl⟩ := (executes.turn_inner_iff listed ran).mp ⟨event, step⟩
    exact unread

end Jumps

/-! ## Returning from a call -/

/-- The opcodes that a callee executes before it returns: every `CALL` among them is
answered by a `RET`. -/
inductive Balanced : List Event → Prop where
  | nil : Balanced []
  | plain {op : OpCode} {engine : ExecutionEngine} {rest : List Event} (notCall : op ≠ 0x65)
      (notRet : op ≠ 0x66) (balanced : Balanced rest) : Balanced (.opcode op engine :: rest)
  | call {caller callee : ExecutionEngine} {inside rest : List Event}
      (called : Balanced inside) (balanced : Balanced rest) :
      Balanced (.opcode 0x65 caller :: (inside ++ .opcode 0x66 callee :: rest))

theorem Balanced.opcodes {events : List Event} (balanced : Balanced events) :
    ∀ event ∈ events, ∃ op engine, event = .opcode op engine := by
  induction balanced with
  | nil => exact List.forall_mem_nil _
  | @plain op engine rest notCall notRet balanced ih =>
    exact List.forall_mem_cons.mpr ⟨⟨op, engine, rfl⟩, ih⟩
  | @call caller callee inside rest called balanced ihInside ihRest =>
    refine List.forall_mem_cons.mpr ⟨⟨0x65, caller, rfl⟩, ?_⟩
    rw [List.forall_mem_append, List.forall_mem_cons]
    exact ⟨ihInside, ⟨0x66, callee, rfl⟩, ihRest⟩

section Returns

variable {engine after : ExecutionEngine}

/-- Every opcode of a context leaves less to read. -/
theorem reader_length_of_turn {event : Event}
    (step : turn crypto message maxSteps (.inner engine) = some (event, .inner after)) :
    after.context.reader.length < engine.context.reader.length := by
  cases reader : engine.context.reader with
  | nil => simp [turn, reader] at step
  | cons op rest =>
    rw [turn_opcode crypto message maxSteps reader] at step
    have continues := continues_afterOpcode crypto message maxSteps op (engine.fetched rest)
    rw [(Prod.mk.inj (Option.some.inj step)).2] at continues
    cases continues with
    | next ran effect => exact Nat.lt_succ_of_le effect.reader

/-- Only the inner loop executes opcodes. -/
theorem inner_of_opcode {point next : Point} {op : OpCode} {before : ExecutionEngine}
    (step : turn crypto message maxSteps point = some (.opcode op before, next)) :
    ∃ engine, point = .inner engine := by
  cases point with
  | inner engine => exact ⟨engine, rfl⟩
  | crashed engine => cases step
  | outer engine =>
    unfold turn at step
    simp only at step
    split_ifs at step
    · cases step
    · split at step <;> cases step

/-- Opcodes that follow each other in one context leave no more to read. -/
theorem reader_length_of_steps {events : List Event}
    (steps : (turn crypto message maxSteps).Steps (.inner engine) events (.inner after))
    (opcodes : ∀ event ∈ events, ∃ op engine, event = .opcode op engine) :
    after.context.reader.length ≤ engine.context.reader.length := by
  generalize starts : Point.inner engine = start at steps
  generalize ends : Point.inner after = final at steps
  induction steps generalizing engine with
  | refl point =>
    cases starts
    cases ends
    exact Nat.le_refl _
  | @step point next final event events first rest ih =>
    subst starts
    rw [List.forall_mem_cons] at opcodes
    -- the opcode is followed by another one or by nothing, so it stays in its context
    obtain ⟨middle, rfl⟩ : ∃ middle, next = .inner middle := by
      cases rest with
      | refl => exact ⟨after, ends.symm⟩
      | step second later =>
        obtain ⟨op, before, rfl⟩ := (List.forall_mem_cons.mp opcodes.2).1
        exact inner_of_opcode second
    exact (ih opcodes.2 rfl ends).trans (reader_length_of_turn first).le

/-- The engine goes on behind a call, with the evaluation stack as it is. -/
def ResumesAt (crypto : Primitives) (message : Bytes) (maxSteps : Int) (returning : ExecutionEngine)
    (script : Bytes) (position : Nat) : Prop :=
  ∃ event after, turn crypto message maxSteps (.inner returning) = some (event, .inner after) ∧
    after.context.script = script ∧ after.context.reader = script.drop position ∧
    after.evaluationStack = returning.evaluationStack

/-- The opcode that returns from a call does not go on behind the call. -/
theorem not_resumesAt {called returning : ExecutionEngine} {inside : List Event} {script : Bytes}
    {position : Nat} (reader : called.context.reader = script.drop position)
    (steps : (turn crypto message maxSteps).Steps (.inner called) inside (.inner returning))
    (balanced : Balanced inside) :
    ¬ ResumesAt crypto message maxSteps returning script position := by
  rintro ⟨event, after, step, -, resumed, -⟩
  have less := reader_length_of_turn step
  have within := reader_length_of_steps steps balanced.opcodes
  rw [reader] at within
  rw [resumed] at less
  exact absurd within (not_le.mpr less)

end Returns

/-- Where execution goes on after a jump, after a call, and after the return from a call.
A jump has to be able to move the instruction pointer, and a taken one has to lead to the
opcode behind it. The same holds for a call, and the return from it never leads behind it. -/
theorem transfer_iff (crypto : Primitives) (message : Bytes) (maxSteps : Int)
    (engine : ExecutionEngine) (p : Nat) :
    (∀ (op : OpCode) (taken : Bool) (target : Nat), ExecutesAt maxSteps engine op p →
      op ∈ [0x62, 0x63, 0x64] → branch op engine = some taken →
      (p : Int) + distance engine.context.script p = target →
      target ≤ engine.context.script.length →
      (NextAt crypto message maxSteps engine (if taken then target else p + 3) ↔
        (0 ≤ engine.context.instructionPointer + distance engine.context.script p - 3 ∧
          engine.context.instructionPointer + distance engine.context.script p - 3 ≤
            engine.context.script.length) ∧ (taken = true → target = p + 3))) ∧
    (∀ target : Nat, ExecutesAt maxSteps engine 0x65 p →
      (p : Int) + distance engine.context.script p = target →
      target ≤ engine.context.script.length →
      (NextAt crypto message maxSteps engine target ↔
        (0 ≤ engine.context.instructionPointer + 2 + distance engine.context.script p - 3 ∧
          engine.context.instructionPointer + 2 + distance engine.context.script p - 3 ≤
            engine.context.script.length → topTruth engine ≠ none) ∧ target = p + 3)) ∧
    (∀ (event : Event) (called returning : ExecutionEngine) (inside : List Event) (rest : Bytes),
      ExecutesAt maxSteps engine 0x65 p →
      turn crypto message maxSteps (.inner engine) = some (event, .inner called) →
      (turn crypto message maxSteps).Steps (.inner called) inside (.inner returning) →
      Balanced inside → returning.context.reader = 0x66 :: rest →
      ¬ ResumesAt crypto message maxSteps returning engine.context.script (p + 3)) := by
  refine ⟨?_, ?_, ?_⟩
  · intro op taken target executes jump branches _ inside
    cases taken with
    | true =>
        rw [if_pos rfl, executes.jump_nextAt_iff jump branches inside]
        simp
    | false =>
        rw [if_neg Bool.false_ne_true, executes.jump_nextAt_iff jump branches executes.operand]
        simp
  · intro target executes _ inside
    exact executes.call_nextAt_iff inside
  · intro event called returning inside rest executes step steps balanced _
    exact not_resumesAt (executes.call_reader step) steps balanced

/-- A jump to the opcode behind it. -/
theorem transfer_next :
    NextAt Primitives.polynomial [] 1200 (entered [0x62, 0, 3, 0x51]) 3 :=
  ((transfer_iff Primitives.polynomial [] 1200 (entered [0x62, 0, 3, 0x51]) 0).1 0x62 true 3
    ⟨rfl, rfl, by decide, rfl, by decide⟩ (by decide) rfl (by decide) (by decide)).mpr
    ⟨by decide, fun _ => rfl⟩

/-- A jump and a call over one opcode execute that opcode. -/
theorem transfer_missed :
    ¬ NextAt Primitives.polynomial [] 1200 (entered [0x62, 0, 4, 0x51, 0x51]) 4 ∧
      ¬ NextAt Primitives.polynomial [] 1200 (entered [0x65, 0, 4, 0x51, 0x51]) 4 := by
  constructor
  · have executes : ExecutesAt 1200 (entered [0x62, 0, 4, 0x51, 0x51]) 0x62 0 :=
      ⟨rfl, rfl, by decide, rfl, by decide⟩
    have taken : branch 0x62 (entered [0x62, 0, 4, 0x51, 0x51]) = some true := rfl
    rw [executes.jump_nextAt_iff (by decide) taken (by decide)]
    rintro ⟨-, same⟩
    exact absurd same (by decide)
  · have executes : ExecutesAt 1200 (entered [0x65, 0, 4, 0x51, 0x51]) 0x65 0 :=
      ⟨rfl, rfl, by decide, rfl, by decide⟩
    rw [executes.call_nextAt_iff (by decide)]
    rintro ⟨-, same⟩
    exact absurd same (by decide)

end DnaPow.Vm
