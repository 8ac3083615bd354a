import DnaPow.Vm.Budget
import DnaPow.Vm.Operands

/-!
# Faults that stop a script

A handler that returns `FAULT` without an error value is taken for successful by
`ExecuteOp`. Which of the two ways a handler uses is a matter of the opcode, except for
`PICKITEM`, so the opcodes whose faults stop a script can be listed.
-/

namespace DnaPow.Vm

open DnaPow.Std Common

namespace Handler

variable (crypto : Primitives) (message : Bytes) (maxSteps : Int)

/-- `CALL` ignores the faults of its jump. -/
theorem opCall_avoids {reason : Fault} : opCall.Avoids reason := by
  intro engine
  unfold opCall
  simp only
  split <;> exact nofun

theorem opCheckMultiSig_avoids : (opCheckMultiSig crypto message maxSteps).Avoids .silent := by
  have avoids : ∀ {α : Type} (handler : Handler α) [IsConfined (some .silent) handler],
    handler.Avoids .silent := fun _ confined => confined.avoids
  unfold opCheckMultiSig
  apply Action.Avoids.bind (avoids _)
  intro found
  apply Action.Avoids.ite (avoids _)
  apply Action.Avoids.bind (avoids _)
  intro n
  apply Action.Avoids.bind (avoids _)
  intro found
  apply Action.Avoids.ite (avoids _)
  refine Action.Avoids.bind ?_ fun _ => .ite (avoids _) (avoids _)
  unfold chargeSteps
  refine Action.avoids_modify.bind fun _ => Action.avoids_get.bind fun _ => .ite (avoids _) (avoids _)

/-- The opcodes that report all their faults: the jumps and `CHECKMULTISIG`. -/
def reporting : List OpCode := [0x62, 0x63, 0x64, 0xae]

/-- Every handler but that of `PICKITEM` faults in one way only. -/
theorem opExecList_faults :
    ∀ entry ∈ opExecList crypto message maxSteps,
      entry.1 ∈ reporting ∧ entry.2.Avoids .silent ∨
      entry = (0xc3, opPickItem) ∨
      entry.1 ∉ reporting ∧ entry.1 ≠ 0xc3 ∧ entry.2.Avoids .reported := by
  intro entry member
  rcases opExecList_confined crypto message maxSteps entry member with
    rfl | rfl | rfl | ⟨listed, confined⟩ | ⟨unlisted, confined⟩
  · exact .inr (.inr ⟨by decide, by decide, opCall_avoids⟩)
  · exact .inl ⟨by simp [reporting], opCheckMultiSig_avoids crypto message maxSteps⟩
  · exact .inr (.inl rfl)
  · refine .inl ⟨?_, confined.avoids⟩
    simp only [jumps, reporting, List.mem_cons] at listed ⊢
    tauto
  · refine .inr (.inr ⟨?_, ?_, confined.avoids⟩)
    all_goals
      simp only [jumps, reporting, List.mem_cons] at unlisted ⊢
      tauto

end Handler

/-- The items that `GetArray` returns. -/
def Item.elements : Item → Option (List Item)
  | .foreign => none
  | .array items => some items
  | item => some [item]

/-- The top of the stack is an index into the array below it. -/
def PickInRange (engine : ExecutionEngine) : Prop :=
  ∃ base array index value items, engine.evaluationStack = base ++ [array] ++ [index] ∧
    index.number engine.integers = some value ∧ array.elements = some items ∧
    0 ≤ wrap64 value ∧ wrap64 value < items.length

namespace Handler

theorem getArray_eq (item : Item) :
    getArray item = match item.elements with
      | some items => pure items
      | none => Action.crash := by
  cases item <;> rfl

theorem getBigInteger_none {integers : List Int} : (item : Item) → item.number integers = none →
    getBigInteger item = Action.crash
  | .foreign, _ => by rw [getBigInteger]
  | .array (first :: _), missing => by
    rw [Item.number] at missing
    rw [getBigInteger, getBigInteger_none first missing]

section PickItem

variable {engine : ExecutionEngine} {base : RandomAccessStack} {index array : Item}

theorem run_popInt_none (stack : engine.evaluationStack = base ++ [index])
    (missing : index.number engine.integers = none) :
    popInt.run engine = (.panic, engine.holding base []) := by
  simp only [popInt, popBigInteger, Action.run_bind, run_popItem stack,
    getBigInteger_none index missing, Action.run_crash]

/-- `PICKITEM` on two items. -/
theorem run_opPickItem {value : Int} (stack : engine.evaluationStack = base ++ [array] ++ [index])
    (denotes : index.number engine.integers = some value) :
    (opPickItem.run engine).1 =
      if wrap64 value < 0 then .error .silent
      else match array.elements with
        | none => .panic
        | some items =>
          if wrap64 value ≥ items.length then .error .silent else .error .reported := by
  obtain ⟨more, popped⟩ := run_popInt stack denotes
  have one : 1 ≤ engine.evaluationStack.length := by simp [stack]
  have below := @run_popItem (engine.holding (base ++ [array]) more) base array rfl
  simp only [opPickItem, Action.run_bind, run_needCount one, popped]
  by_cases negative : wrap64 value < 0
  · rw [if_pos negative, if_pos negative, Action.run_throw]
  · rw [if_neg negative, if_neg negative]
    simp only [popArray, Action.run_bind, below, getArray_eq]
    cases array.elements with
    | none => rfl
    | some items =>
      simp only [Action.run_pure]
      split_ifs <;> rfl

theorem pickInRange_iff {value : Int} (stack : engine.evaluationStack = base ++ [array] ++ [index])
    (denotes : index.number engine.integers = some value) :
    PickInRange engine ↔
      ∃ items, array.elements = some items ∧ 0 ≤ wrap64 value ∧ wrap64 value < items.length := by
  constructor
  · rintro ⟨base', array', index', value', items, stack', denotes', elements, inRange⟩
    obtain ⟨lower, top⟩ := List.append_inj' (stack.symm.trans stack') rfl
    obtain ⟨-, second⟩ := List.append_inj' lower rfl
    cases top
    cases second
    cases Option.some.inj (denotes.symm.trans denotes')
    exact ⟨items, elements, inRange⟩
  · rintro ⟨items, elements, inRange⟩
    exact ⟨base, array, index, value, items, stack, denotes, elements, inRange⟩

/-- `PICKITEM` on fewer than two items does not report a fault. -/
theorem opPickItem_short (short : engine.evaluationStack.length < 2) :
    (opPickItem.run engine).1 ≠ .error .reported := by
  rcases engine.evaluationStack.eq_nil_or_concat' with empty | ⟨below, index, stack⟩
  · simp [opPickItem, Action.run_bind, needCount, count, RandomAccessStack.count, empty]
  · have alone : below = [] := by
      apply List.eq_nil_of_length_eq_zero
      rw [stack, List.length_append, List.length_singleton] at short
      omega
    subst alone
    have one : 1 ≤ engine.evaluationStack.length := by simp [stack]
    cases denotes : index.number engine.integers with
    | none =>
      simp [opPickItem, Action.run_bind, run_needCount one, run_popInt_none stack denotes]
    | some value =>
      obtain ⟨more, popped⟩ := run_popInt stack denotes
      have nothing : popArray.run (engine.holding [] more) = (.panic, engine.holding [] more) := rfl
      simp only [opPickItem, Action.run_bind, run_needCount one, popped]
      split_ifs
      · simp
      · simp [Action.run_bind, nothing]

/-- `PICKITEM` reports its fault if the index is in range, and only then. -/
theorem opPickItem_reported_iff {fault : Fault} {after : ExecutionEngine}
    (ran : opPickItem.run engine = (.error fault, after)) :
    fault = .reported ↔ PickInRange engine := by
  by_cases short : engine.evaluationStack.length < 2
  · have silent := opPickItem_short short
    rw [ran] at silent
    apply iff_of_false fun reported => silent (congrArg Outcome.error reported)
    rintro ⟨base, array, index, value, items, stack, -⟩
    rw [stack] at short
    simp at short
  · obtain ⟨below, index, stack⟩ := engine.evaluationStack.eq_nil_or_concat'.resolve_left
      (List.ne_nil_of_length_pos (by omega))
    have some : below ≠ [] := by
      rintro rfl
      simp [stack] at short
    obtain ⟨base, array, rfl⟩ := below.eq_nil_or_concat'.resolve_left some
    have one : 1 ≤ engine.evaluationStack.length := by simp [stack]
    cases denotes : index.number engine.integers with
    | none =>
      simp [opPickItem, Action.run_bind, run_needCount one, run_popInt_none stack denotes] at ran
    | some value =>
      have outcome := run_opPickItem stack denotes
      rw [ran] at outcome
      rw [pickInRange_iff stack denotes]
      split_ifs at outcome with negative
      · cases outcome
        simp [negative]
      · cases elements : array.elements with
        | none => simp [elements] at outcome
        | some items =>
          rw [elements] at outcome
          simp only at outcome
          split_ifs at outcome with beyond
          · cases outcome
            simp [not_lt.mpr beyond]
          · cases outcome
            simp [not_lt.mp negative, not_le.mp beyond]

end PickItem

end Handler

open Handler

/-! ## The loops after a fault -/

section Runs

variable (crypto : Primitives) (message : Bytes) (maxSteps : Int)

/-- `ExecuteOp` invokes the handler of the opcode, which returns `FAULT`. -/
def HandlerFaults (op : OpCode) (before : ExecutionEngine) : Prop :=
  ¬ (op > 0x60 ∧ op ≠ 0x66 ∧ before.context.pushOnly) ∧ ¬ (op > 0x60 ∧ before.opCount > maxSteps) ∧
    ¬ (0x01 ≤ op ∧ op ≤ 0x4b) ∧
    ∃ handler fault after, (opExecList crypto message maxSteps).lookup op = some handler ∧
      handler.run before = (.error fault, after)

/-- The opcodes and states whose faults carry an error value. -/
def ReportsFault (op : OpCode) (before : ExecutionEngine) : Prop :=
  op ∈ reporting ∨ op = 0xc3 ∧ PickInRange before

/-- No opcode is executed from here on, and `Execute` ends with the fault flag set. -/
def EndsFaulted (point : Point) : Prop :=
  ∃ events final, (turn crypto message maxSteps).Steps point events (.outer final) ∧
    turn crypto message maxSteps (.outer final) = none ∧
    (∀ op engine, .opcode op engine ∉ events) ∧
    final.state &&& VMState.fault = VMState.fault

variable {crypto message maxSteps}

theorem fault_reported_iff {op : OpCode} {handler : Handler Unit} {before after : ExecutionEngine}
    {fault : Fault} (found : (opExecList crypto message maxSteps).lookup op = some handler)
    (ran : handler.run before = (.error fault, after)) :
    fault = .reported ↔ ReportsFault op before := by
  have entry : (op, handler) ∈ opExecList crypto message maxSteps := by
    obtain ⟨front, back, split, _⟩ := List.lookup_eq_some_iff.mp found
    simp [split]
  have outcome : (handler.run before).1 = .error fault := congrArg Prod.fst ran
  rcases opExecList_faults crypto message maxSteps _ entry with
    ⟨listed, avoids⟩ | same | ⟨unlisted, other, avoids⟩
  · apply iff_of_true _ (.inl listed)
    cases fault with
    | silent => exact absurd outcome (avoids before)
    | reported => rfl
  · obtain ⟨rfl, rfl⟩ := Prod.mk.inj same
    rw [opPickItem_reported_iff ran]
    have unlisted : (0xc3 : OpCode) ∉ reporting := by decide
    simp [ReportsFault, unlisted]
  · apply iff_of_false
    · rintro rfl
      exact avoids before outcome
    · rintro (listed | ⟨picks, -⟩)
      · exact unlisted listed
      · exact other picks

/-- What `ExecuteOp` makes of a fault of the handler. -/
theorem executeOp_of_faults {op : OpCode} {before : ExecutionEngine}
    (faults : HandlerFaults crypto message maxSteps op before) :
    ∃ (fault : Fault) (after : ExecutionEngine), (fault = .reported ↔ ReportsFault op before) ∧
      (executeOp crypto message maxSteps op).run before =
        (.ok (if fault = .reported then VMState.fault else VMState.none), after) := by
  obtain ⟨callable, allowed, direct, handler, fault, after, found, ran⟩ := faults
  refine ⟨fault, after, fault_reported_iff found ran, ?_⟩
  simp only [executeOp, Action.run_bind, Action.run_get, if_neg callable, if_neg allowed,
    if_neg direct, found, runHandler, ran]
  cases fault <;> rfl

/-- `Execute` has not seen a fault. -/
def Point.Unfaulted : Point → Prop
  | .outer engine => engine.state ≠ VMState.fault
  | .inner _ | .crashed _ => True

/-- Only an opcode sets the fault flag. -/
theorem Turn.unfaulted {point next : Point} {event : Event}
    (turned : Turn crypto message maxSteps point event next)
    (quiet : ∀ op engine, event ≠ .opcode op engine) : next.Unfaulted := by
  cases turned with
  | halt running empty => exact (by decide : VMState.halt ≠ VMState.fault)
  | enter running stack => exact True.intro
  | @leave engine running done =>
    change engine.state ≠ VMState.fault
    rw [running]
    decide
  | @opcode engine op rest next running reader continues => exact absurd rfl (quiet op _)

theorem unfaulted_of_steps {start final : Point} {events : List Event}
    (steps : (turn crypto message maxSteps).Steps start events final) (regular : start.Regular)
    (unfaulted : start.Unfaulted) (quiet : ∀ op engine, .opcode op engine ∉ events) :
    final.Unfaulted := by
  have kept : final.Regular ∧ final.Unfaulted := by
    refine @Machine.Steps.preserves _ _ _ (fun point => point.Regular ∧ point.Unfaulted) _ _ _
      (fun event => ∀ op engine, event ≠ .opcode op engine) ?_ steps ?_ ⟨regular, unfaulted⟩
    · intro point next event holds step allowed
      have turned := Turn.of_turn holds.1 step
      exact ⟨turned.regular holds.1, turned.unfaulted allowed⟩
    · rintro event member op engine rfl
      exact quiet op engine member
  exact kept.2

/-- A script that goes on after an opcode does not end at once with the fault flag. -/
theorem not_endsFaulted {engine : ExecutionEngine} (regular : (Point.inner engine).Regular) :
    ¬ EndsFaulted crypto message maxSteps (.inner engine) := by
  rintro ⟨events, final, steps, -, quiet, flag⟩
  have unfaulted : final.state ≠ VMState.fault :=
    unfaulted_of_steps steps regular True.intro quiet
  obtain ⟨running | halted | faulted, -⟩ := regular_of_steps steps regular
  · rw [running] at flag
    exact absurd flag (by decide)
  · rw [halted] at flag
    exact absurd flag (by decide)
  · exact unfaulted faulted

end Runs

/-- The engine that has read an empty parameter and begins with the code. -/
def entered (code : Bytes) : ExecutionEngine :=
  { started code [] with invocationStack := [], context := .new code false }

/-- In every run of a code and a parameter, a handler that returns `FAULT` ends the run
with the fault flag set if its fault carries an error value, and only then: otherwise more
opcodes are executed, or the run halts. -/
theorem handlerFaults_endsFaulted_iff (crypto : Primitives) (message : Bytes) (maxSteps : Int)
    (code parameter : Bytes) (events : List Event) (engine : ExecutionEngine) (op : OpCode)
    (rest : Bytes)
    (reached : (turn crypto message maxSteps).Steps (.outer (started code parameter)) events
      (.inner engine))
    (reader : engine.context.reader = op :: rest)
    (faults : HandlerFaults crypto message maxSteps op (engine.fetched rest)) :
    EndsFaulted crypto message maxSteps
        (afterOpcode ((executeOp crypto message maxSteps op).run (engine.fetched rest))) ↔
      ReportsFault op (engine.fetched rest) := by
  have regular : (Point.inner engine).Regular := by
    apply regular_of_steps reached
    refine ⟨.inl rfl, ?_⟩
    intro context member
    rcases List.mem_pair.mp member with rfl | rfl <;> rfl
  have turned := Turn.of_turn regular (turn_opcode crypto message maxSteps reader)
  have kept := turned.regular regular
  obtain ⟨fault, after, reports, ran⟩ := executeOp_of_faults faults
  rw [← reports]
  cases fault with
  | silent =>
      rw [ran] at kept ⊢
      exact iff_of_false (not_endsFaulted kept) (by decide)
  | reported =>
      refine iff_of_true ?_ rfl
      rw [ran] at kept ⊢
      have state : (after.state ||| VMState.fault) = VMState.fault := by
        have effect : (executeOp crypto message maxSteps op).Ends (engine.fetched rest)
          (Effect crypto message maxSteps op (engine.fetched rest)) (fun _ _ => False)
          (fun _ => True) := executeOp_effect crypto message maxSteps op
        unfold Action.Ends at effect
        rw [ran] at effect
        have clear : after.state = VMState.none := effect.state.trans regular.1
        rw [clear]
        decide
      refine ⟨[], _, .refl _, turn_stopped crypto message maxSteps (.inr state), ?_, ?_⟩
      · intro op engine member
        cases member
      · change (after.state ||| VMState.fault) &&& VMState.fault = VMState.fault
        rw [state]
        decide

/-- A jump out of the script. -/
theorem handlerFaults_endsFaulted_jump :
    EndsFaulted Primitives.polynomial [] 1200
      (afterOpcode ((executeOp Primitives.polynomial [] 1200 0x62).run
        ((entered [0x62, 0, 0]).fetched [0, 0]))) :=
  (handlerFaults_endsFaulted_iff Primitives.polynomial [] 1200 [0x62, 0, 0] []
    [.enter, .leave, .enter] (entered [0x62, 0, 0]) 0x62 [0, 0]
    (.step rfl (.step rfl (.step rfl (.refl _)))) rfl
    ⟨by decide, by decide, by decide, Handler.opJmp 0x62, .reported, _, rfl, rfl⟩).mpr
    (.inl (by decide))

/-- `DUP` on an empty stack faults, and the run halts without the fault flag. -/
theorem handlerFaults_dup_goesOn :
    (turn Primitives.polynomial [] 1200).Steps (.outer (started [0x76] []))
        [.enter, .leave, .enter] (.inner (entered [0x76])) ∧
      HandlerFaults Primitives.polynomial [] 1200 0x76 ((entered [0x76]).fetched []) ∧
      ¬ EndsFaulted Primitives.polynomial [] 1200
        (afterOpcode ((executeOp Primitives.polynomial [] 1200 0x76).run
          ((entered [0x76]).fetched []))) := by
  refine ⟨.step rfl (.step rfl (.step rfl (.refl _))),
    ⟨by decide, by decide, by decide, Handler.opDup, .silent, _, rfl, rfl⟩, ?_⟩
  apply not_endsFaulted
  refine ⟨rfl, ?_⟩
  intro context member
  cases member

end DnaPow.Vm
