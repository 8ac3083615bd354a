import DnaPow.Vm.Execute

/-!
# What opcodes leave alone

The loops of the engine look at the invocation stack, the opcode count, the
state and the unread bytes of the running script. A handler is *confined* when
it touches none of these except to read on in its script. Confinement is closed
under sequencing and branching, so it is found by instance search, and with it that a
handler never faults in one of the two ways; all handlers are confined but those of
`CALL` and `CHECKMULTISIG`.
-/

namespace DnaPow.Vm

open DnaPow.Std Common

/-- The second engine runs the same script in the same state and has read on in it. -/
structure Stays (before after : ExecutionEngine) : Prop where
  state : after.state = before.state
  script : after.context.script = before.context.script
  pushOnly : after.context.pushOnly = before.context.pushOnly
  reader : after.context.reader.length ≤ before.context.reader.length

/-- The second engine differs from the first in its stacks and integers, its
instruction pointer, and in having read on in its script. -/
structure Confined (before after : ExecutionEngine) : Prop extends Stays before after where
  invocationStack : after.invocationStack = before.invocationStack
  opCount : after.opCount = before.opCount

theorem Stays.refl (engine : ExecutionEngine) : Stays engine engine := ⟨rfl, rfl, rfl, le_rfl⟩

theorem Stays.trans {first second third : ExecutionEngine} (before : Stays first second)
    (after : Stays second third) : Stays first third where
  state := after.state.trans before.state
  script := after.script.trans before.script
  pushOnly := after.pushOnly.trans before.pushOnly
  reader := after.reader.trans before.reader

theorem Confined.refl (engine : ExecutionEngine) : Confined engine engine := ⟨.refl engine, rfl, rfl⟩

theorem Confined.trans {first second third : ExecutionEngine} (before : Confined first second)
    (after : Confined second third) : Confined first third where
  toStays := before.toStays.trans after.toStays
  invocationStack := after.invocationStack.trans before.invocationStack
  opCount := after.opCount.trans before.opCount

namespace Handler

/-- A handler that only reads on in its script and works on the stacks. Where a way of
faulting is given, it never faults in this way. -/
class IsConfined {α : Type} (avoided : Option Fault) (handler : Handler α) : Prop where
  confined : ∀ engine, Vm.Confined engine (handler.run engine).2
  faults : ∀ engine reason, avoided = some reason → (handler.run engine).1 ≠ .error reason

section Rules

variable {α β : Type} {avoided : Option Fault} {handler : Handler α}

/-- A handler that always returns or panics. -/
theorem IsConfined.of_run (confined : ∀ engine, Vm.Confined engine (handler.run engine).2)
    (faultless : ∀ engine reason, (handler.run engine).1 ≠ .error reason) :
    IsConfined avoided handler := ⟨confined, fun engine reason _ => faultless engine reason⟩

instance (value : α) : IsConfined avoided (pure value : Handler α) :=
  .of_run .refl fun _ _ => nofun

instance (reason : Fault) : IsConfined none (Action.throw reason : Handler α) :=
  ⟨.refl, fun _ _ => nofun⟩

instance : IsConfined (some .reported) (Action.throw .silent : Handler α) :=
  ⟨.refl, by rintro _ _ ⟨⟩ ⟨⟩⟩

instance : IsConfined (some .silent) (Action.throw .reported : Handler α) :=
  ⟨.refl, by rintro _ _ ⟨⟩ ⟨⟩⟩

instance : IsConfined avoided (Action.crash : Handler α) := .of_run .refl fun _ _ => nofun

instance : IsConfined avoided (Action.get : Handler ExecutionEngine) :=
  .of_run .refl fun _ _ => nofun

instance (call : Handler α) (next : α → Handler β) [first : IsConfined avoided call]
    [second : ∀ value, IsConfined avoided (next value)] : IsConfined avoided (call >>= next) where
  confined engine := by
    have before := first.confined engine
    rw [Action.run_bind]
    generalize call.run engine = ending at before
    obtain ⟨outcome, middle⟩ := ending
    cases outcome with
    | ok value => exact before.trans ((second value).confined middle)
    | error reason => exact before
    | panic => exact before
  faults engine reason same := Action.Avoids.bind (fun engine => first.faults engine reason same)
    (fun value engine => (second value).faults engine reason same) engine

instance (condition : Prop) [Decidable condition] (yes no : Handler α) [IsConfined avoided yes]
    [IsConfined avoided no] : IsConfined avoided (if condition then yes else no) := by
  split <;> assumption

instance (update : ExecutionEngine → RandomAccessStack) : IsConfined avoided
    (Action.modify fun engine => { engine with evaluationStack := update engine }) :=
  .of_run (fun _ => ⟨⟨rfl, rfl, rfl, le_rfl⟩, rfl, rfl⟩) fun _ _ => nofun

instance (update : ExecutionEngine → RandomAccessStack) :
    IsConfined avoided (Action.modify fun engine => { engine with altStack := update engine }) :=
  .of_run (fun _ => ⟨⟨rfl, rfl, rfl, le_rfl⟩, rfl, rfl⟩) fun _ _ => nofun

instance (update : ExecutionEngine → List Int) :
    IsConfined avoided (Action.modify fun engine => { engine with integers := update engine }) :=
  .of_run (fun _ => ⟨⟨rfl, rfl, rfl, le_rfl⟩, rfl, rfl⟩) fun _ _ => nofun

instance (offset : Int) : IsConfined avoided (Action.modify fun engine =>
    { engine with context := { engine.context with instructionPointer := offset } }) :=
  .of_run (fun _ => ⟨⟨rfl, rfl, rfl, le_rfl⟩, rfl, rfl⟩) fun _ _ => nofun

theorem IsConfined.avoids {reason : Fault}
    (confined : IsConfined (some reason) handler) : handler.Avoids reason :=
  fun engine => confined.faults engine reason rfl

theorem IsConfined.any (confined : IsConfined avoided handler) :
    IsConfined none handler := ⟨confined.confined, fun _ _ => nofun⟩

/-- How a confined handler ends. -/
theorem IsConfined.ends (handler : Handler α) [confined : IsConfined none handler]
    {engine : ExecutionEngine} {post : α → ExecutionEngine → Prop}
    {fail : Fault → ExecutionEngine → Prop} {panics : ExecutionEngine → Prop}
    (returned : ∀ value after, Vm.Confined engine after → post value after)
    (failed : ∀ reason after, Vm.Confined engine after → fail reason after)
    (crashed : ∀ after, panics after) :
    handler.Ends engine post fail panics := by
  have kept := confined.confined engine
  unfold Action.Ends
  generalize handler.run engine = ending at kept
  obtain ⟨outcome, after⟩ := ending
  cases outcome with
  | ok value => exact returned value after kept
  | error reason => exact failed reason after kept
  | panic => exact crashed after

/-! ## Reading scripts and items -/

instance : IsConfined avoided readByte := by
  apply IsConfined.of_run
  · intro engine
    cases script : engine.context.reader <;>
      refine ⟨⟨?_, ?_, ?_, ?_⟩, ?_, ?_⟩ <;> simp [readByte, script]
  · intro engine reason
    cases script : engine.context.reader <;> simp [readByte, script]

instance (count : Int) : IsConfined avoided (readBytes count) :=
  .of_run (fun engine => ⟨⟨rfl, rfl, rfl, by simp [readBytes]⟩, rfl, rfl⟩) fun _ _ => nofun

instance : IsConfined avoided readUint16 := by unfold readUint16; infer_instance

instance : IsConfined avoided readInt16 := by unfold readInt16; infer_instance

instance : IsConfined avoided readInt32 := by unfold readInt32; infer_instance

instance (first : UInt8) : IsConfined avoided (readVarIntAfter first) := by
  unfold readVarIntAfter; infer_instance

instance (max : Nat) : IsConfined avoided (readVarInt max) := by unfold readVarInt; infer_instance

instance : IsConfined avoided readVarString := by unfold readVarString; infer_instance

instance : IsConfined avoided count := by unfold count; infer_instance

instance (least : Nat) : IsConfined none (needCount least) := by unfold needCount; infer_instance

instance (least : Nat) : IsConfined (some .reported) (needCount least) := by
  unfold needCount; infer_instance

instance (item : Item) : IsConfined avoided (pushItem item) := by unfold pushItem; infer_instance

instance : IsConfined avoided popItem :=
  .of_run (fun _ => ⟨⟨rfl, rfl, rfl, le_rfl⟩, rfl, rfl⟩) fun _ _ => nofun

instance (value : Int) : IsConfined avoided (newInteger value) :=
  .of_run (fun _ => ⟨⟨rfl, rfl, rfl, le_rfl⟩, rfl, rfl⟩) fun _ _ => nofun

instance (ref : Nat) : IsConfined avoided (integerAt ref) := by unfold integerAt; infer_instance

instance (ref : Nat) (value : Int) : IsConfined avoided (setInteger ref value) := by
  unfold setInteger; infer_instance

instance (item : Item) : IsConfined avoided (getByteArray item) := by
  cases item <;> simp only [getByteArray] <;> infer_instance

instance (item : Item) : IsConfined avoided (getBoolean item) := by
  fun_induction getBoolean item with
  | case6 => assumption
  | _ => infer_instance

instance (item : Item) : IsConfined avoided (getBigInteger item) := by
  fun_induction getBigInteger item with
  | case6 => assumption
  | _ => infer_instance

instance (item : Item) : IsConfined avoided (getArray item) := by
  unfold getArray
  split <;> infer_instance

mutual

private theorem equals_confined : ∀ first second : Item, IsConfined avoided (equals first second)
  | .foreign, _ => by simp only [equals]; infer_instance
  | .integer _, .integer _ => by simp only [equals]; infer_instance
  | .boolean _, .boolean _ => by simp only [equals]; infer_instance
  | .byteArray _, .byteArray _ => by simp only [equals]; infer_instance
  | .array firsts, .array seconds => by
    have all := equalsAll_confined firsts seconds
    simp only [equals]
    infer_instance
  | .integer _, .foreign | .integer _, .boolean _ | .integer _, .byteArray _
  | .integer _, .array _ | .boolean _, .foreign | .boolean _, .integer _
  | .boolean _, .byteArray _ | .boolean _, .array _ | .byteArray _, .foreign
  | .byteArray _, .integer _ | .byteArray _, .boolean _ | .byteArray _, .array _
  | .array _, .foreign | .array _, .integer _ | .array _, .boolean _
  | .array _, .byteArray _ => by simp only [equals]; infer_instance

private theorem equalsAll_confined : ∀ firsts seconds : List Item,
    IsConfined avoided (equalsAll firsts seconds)
  | [], _ => by simp only [equalsAll]; infer_instance
  | _ :: _, [] => by simp only [equalsAll]; infer_instance
  | first :: firsts, second :: seconds => by
    have head := equals_confined first second
    have tail := equalsAll_confined firsts seconds
    simp only [equalsAll]
    infer_instance

end

instance (first second : Item) : IsConfined avoided (equals first second) := equals_confined first second

instance : IsConfined avoided popByteArray := by unfold popByteArray; infer_instance

instance : IsConfined avoided popBoolean := by unfold popBoolean; infer_instance

instance : IsConfined avoided popBigInteger := by unfold popBigInteger; infer_instance

instance : IsConfined avoided popInt := by unfold popInt; infer_instance

instance : IsConfined avoided popArray := by unfold popArray; infer_instance

instance (value : Int) : IsConfined avoided (pushInteger value) := by unfold pushInteger; infer_instance

instance (ref : Nat) : IsConfined avoided (pushBigInteger ref) := by unfold pushBigInteger; infer_instance

instance (value : Bool) : IsConfined avoided (pushBoolean value) := by unfold pushBoolean; infer_instance

instance (value : Bytes) : IsConfined avoided (pushByteArray value) := by
  unfold pushByteArray; infer_instance

/-! ## Handlers -/

/-- The jumps report all their faults. -/
instance (op : OpCode) : IsConfined (some .silent) (opJmp op) := by unfold opJmp; infer_instance

instance (spare : Bytes → Option UInt8) (data : Bytes) (low high : Int) :
    IsConfined avoided (slice spare data low high) := by
  unfold slice
  split_ifs
  · infer_instance
  · infer_instance
  · split <;> infer_instance

instance (value : Int) (amount : Nat) : IsConfined avoided (shiftLeft value amount) := by
  unfold shiftLeft; infer_instance

instance (op : OpCode) (x1 x2 : Int) : IsConfined avoided (bigIntZip op x1 x2) := by
  unfold bigIntZip; infer_instance

instance (result : Option α) : IsConfined avoided (orCrash result) := by
  cases result <;> simp only [orCrash] <;> infer_instance

instance (size : Nat) : IsConfined avoided (popItems size) := by
  induction size <;> simp only [popItems] <;> infer_instance

instance (n : Nat) : IsConfined avoided (popByteArrays n) := by
  induction n <;> simp only [popByteArrays] <;> infer_instance

instance (items : List Item) : IsConfined avoided (items.forM pushItem : Handler PUnit) := by
  induction items <;> rw [List.forM] <;> infer_instance

/-- The push opcodes of the table do not fault. -/
theorem opPushData_confined {op : OpCode} (push : op ≤ 0x60) (known : op ≠ 0x50) :
    IsConfined (some .reported) (opPushData op) := by
  have listed : op = 0x00 ∨ (0x01 ≤ op ∧ op ≤ 0x4b) ∨ op = 0x4c ∨ op = 0x4d ∨ op = 0x4e ∨
      (op = 0x4f ∨ (0x51 ≤ op ∧ op ≤ 0x60)) := by
    simp only [UInt8.le_iff_toNat_le, ← UInt8.toNat_inj, ne_eq] at push known ⊢
    simp at push known ⊢
    omega
  unfold opPushData
  split_ifs
  all_goals first
    | infer_instance
    | exfalso; tauto

end Rules

variable (crypto : Primitives) (message : Bytes)

/-- The jumps. -/
def jumps : List OpCode := [0x62, 0x63, 0x64]

/-- Every handler of the table but those of `CALL` and `CHECKMULTISIG` is confined, and
but that of `PICKITEM` it faults in one way only. -/
theorem opExecList_confined (maxSteps : Int) :
    ∀ entry ∈ opExecList crypto message maxSteps,
      entry = (0x65, opCall) ∨ entry = (0xae, opCheckMultiSig crypto message maxSteps) ∨
      entry = (0xc3, opPickItem) ∨ entry.1 ∈ jumps ∧ IsConfined (some .silent) entry.2 ∨
      (entry.1 ∉ 0xae :: 0xc3 :: jumps) ∧ IsConfined (some .reported) entry.2 := by
  unfold opExecList
  repeat' first
    | exact List.forall_mem_nil _
    | refine List.forall_mem_cons.mpr ⟨?_, ?_⟩
  all_goals dsimp only
  all_goals first
    | exact .inl rfl
    | exact .inr (.inl rfl)
    | exact .inr (.inr (.inl rfl))
    | exact .inr (.inr (.inr (.inl ⟨by decide, inferInstance⟩)))
    | refine .inr (.inr (.inr (.inr ⟨by decide, ?_⟩)))
      first
        | exact opPushData_confined (by decide) (by decide)
        | infer_instance
        | simp only [opNop, opRet, opAppCall, opSysCall, opToAltStack, opFromAltStack, opXDrop,
            opXSwap, opXTuck, opDepth, opDrop, opDup, opNip, opOver, opPick, opRoll, opRot, opSwap,
            opTuck, opCat, opSubStr, opLeft, opRight, opSize, opInvert, opEqual, opBigInt, opNot,
            opNz, opBigIntZip, opBoolZip, opBigIntComp, opWithIn, opHash, opCheckSig, opArraySize,
            opPack, opUnpack]
          infer_instance

end Handler

open Handler

/-! ## One opcode -/

section Opcode

variable (crypto : Primitives) (message : Bytes) (maxSteps : Int) (op : OpCode)

/-- `ExecuteOp` gets as far as the handler of an opcode that counts against the
step limit. -/
def Invokes (engine : ExecutionEngine) : Prop :=
  op > 0x60 ∧ ¬ (op ≠ 0x66 ∧ engine.context.pushOnly) ∧ engine.opCount ≤ maxSteps ∧
    ((opExecList crypto message maxSteps).lookup op).isSome

instance (engine : ExecutionEngine) : Decidable (Invokes crypto message maxSteps op engine) :=
  inferInstanceAs (Decidable (_ ∧ _ ∧ _ ∧ _))

/-- The keys of `CHECKMULTISIG` have been charged. -/
def Charged (before after : ExecutionEngine) : Prop :=
  ∃ n, 1 ≤ n ∧ makeable 24 n ∧ after.opCount = wrap64 (before.opCount + n) ∧
    after.opCount ≤ maxSteps

/-- What one opcode does to the parts of the engine that the loops look at.
`CALL` adds a copy of the running context, and `CHECKMULTISIG` charges its keys. -/
structure Effect (before : ExecutionEngine) (result : VMState) (after : ExecutionEngine) : Prop
    extends Stays before after where
  ending : result = VMState.none ∨ result = VMState.fault
  calls : after.invocationStack = before.invocationStack ∨
    op = 0x65 ∧ Invokes crypto message maxSteps op before ∧
      after.invocationStack = before.invocationStack ++ [before.context.clone]
  counts : result = VMState.none → after.opCount = before.opCount ∨
    Invokes crypto message maxSteps op before ∧ Charged maxSteps before after

variable {engine : ExecutionEngine}

/-- `CALL` adds a copy of the running context. -/
theorem opCall_ends :
    opCall.Ends engine
      (fun _ after => Stays engine after ∧ after.opCount = engine.opCount ∧
        after.invocationStack = engine.invocationStack ++ [engine.context.clone])
      (fun _ _ => False) (fun _ => True) := by
  have jump := (inferInstance : IsConfined (some .silent) (opJmp 0x65)).confined
    { engine with
      invocationStack := engine.invocationStack ++ [engine.context.clone]
      context :=
        { engine.context with instructionPointer := engine.context.instructionPointer + 2 } }
  unfold Action.Ends opCall
  simp only
  generalize (opJmp 0x65).run _ = ending at jump ⊢
  obtain ⟨outcome, after⟩ := ending
  cases outcome with
  | panic => trivial
  | ok _ | error _ =>
    exact ⟨⟨jump.state, jump.script, jump.pushOnly, jump.reader⟩, jump.opCount,
      jump.invocationStack⟩

theorem ends_chargeSteps {n : Int} {post : Unit → ExecutionEngine → Prop}
    {fail : Fault → ExecutionEngine → Prop} {panics : ExecutionEngine → Prop} :
    (chargeSteps maxSteps n).Ends engine post fail panics ↔
      (wrap64 (engine.opCount + n) > maxSteps →
        fail .reported { engine with opCount := wrap64 (engine.opCount + n) }) ∧
      (¬ wrap64 (engine.opCount + n) > maxSteps →
        post () { engine with opCount := wrap64 (engine.opCount + n) }) := by
  simp [chargeSteps]

/-- `CHECKMULTISIG` charges its keys, and reports a fault past the step limit. -/
theorem opCheckMultiSig_ends :
    (opCheckMultiSig crypto message maxSteps).Ends engine
      (fun _ after => Stays engine after ∧ after.invocationStack = engine.invocationStack ∧
        Charged maxSteps engine after)
      (fun reason after => Stays engine after ∧ after.invocationStack = engine.invocationStack ∧
        (reason = .reported ∨ after.opCount = engine.opCount ∨ Charged maxSteps engine after))
      (fun _ => True) := by
  have kept : ∀ reason {after}, Confined engine after →
      Stays engine after ∧ after.invocationStack = engine.invocationStack ∧
        (reason = Fault.reported ∨ after.opCount = engine.opCount ∨
          Charged maxSteps engine after) :=
    fun _ _ confined => ⟨confined.toStays, confined.invocationStack, .inr (.inl confined.opCount)⟩
  rw [opCheckMultiSig, Action.ends_bind]
  refine IsConfined.ends _ (fun found counted counting => ?_) (fun _ _ => kept _) fun _ => trivial
  rw [Action.ends_ite]
  refine ⟨fun _ => kept _ counting, fun _ => ?_⟩
  rw [Action.ends_bind]
  refine IsConfined.ends _ (fun n popped popping => ?_)
    (fun _ _ more => kept _ (counting.trans more)) fun _ => trivial
  rw [Action.ends_bind]
  refine IsConfined.ends _ (fun found recounted recounting => ?_)
    (fun _ _ more => kept _ ((counting.trans popping).trans more)) fun _ => trivial
  have before := (counting.trans popping).trans recounting
  rw [Action.ends_ite]
  refine ⟨fun _ => kept _ before, fun inside => ?_⟩
  have stays : Stays engine { recounted with opCount := wrap64 (recounted.opCount + n) } :=
    ⟨before.state, before.script, before.pushOnly, before.reader⟩
  rw [Action.ends_bind, ends_chargeSteps]
  refine ⟨fun _ => ⟨stays, before.invocationStack, .inl rfl⟩, fun within => ?_⟩
  rw [Action.ends_ite]
  refine ⟨fun _ => trivial, fun able => ?_⟩
  have charged : ∀ {after},
      Confined { recounted with opCount := wrap64 (recounted.opCount + n) } after →
      Stays engine after ∧ after.invocationStack = engine.invocationStack ∧
        Charged maxSteps engine after := fun matching =>
    ⟨stays.trans matching.toStays, matching.invocationStack.trans before.invocationStack, n,
      by omega, not_not.mp able, by rw [matching.opCount, before.opCount],
      by rw [matching.opCount]; exact not_lt.mp within⟩
  refine IsConfined.ends _ (fun _ _ => charged) (fun _ _ matching => ?_) fun _ => trivial
  obtain ⟨stays, contexts, count⟩ := charged matching
  exact ⟨stays, contexts, .inr (.inr count)⟩

/-- `ExecuteOp` reports a fault only when the handler does. -/
theorem ends_runHandler {handler : Handler Unit} {post : VMState → ExecutionEngine → Prop}
    {fail : Fault → ExecutionEngine → Prop} {panics : ExecutionEngine → Prop} :
    (runHandler handler).Ends engine post fail panics ↔
      handler.Ends engine (fun _ => post VMState.none)
        (fun reason => post (if reason = .reported then VMState.fault else VMState.none)) panics := by
  unfold Action.Ends runHandler
  simp only
  generalize handler.run engine = ending
  obtain ⟨outcome, after⟩ := ending
  cases outcome with
  | ok _ => rfl
  | error reason => cases reason <;> rfl
  | panic => rfl

variable {crypto message maxSteps op}

theorem Confined.effect {after : ExecutionEngine} {result : VMState}
    (confined : Confined engine after) (ending : result = VMState.none ∨ result = VMState.fault) :
    Effect crypto message maxSteps op engine result after :=
  ⟨confined.toStays, ending, .inl confined.invocationStack, fun _ => .inl confined.opCount⟩

variable (crypto message maxSteps op)

/-- What an opcode does, whichever it is. It never returns an error of its own. -/
theorem executeOp_effect :
    (executeOp crypto message maxSteps op).Ends engine
      (Effect crypto message maxSteps op engine) (fun _ _ => False) (fun _ => True) := by
  have done : ∀ result, result = VMState.none ∨ result = VMState.fault →
      Effect crypto message maxSteps op engine result engine := fun _ => (Confined.refl engine).effect
  rw [executeOp, Action.ends_bind, Action.ends_get, Action.ends_ite]
  refine ⟨fun _ => done _ (.inr rfl), fun allowed => ?_⟩
  rw [Action.ends_ite]
  refine ⟨fun _ => done _ (.inr rfl), fun counted => ?_⟩
  rw [Action.ends_ite]
  refine ⟨fun _ => ?_, fun _ => ?_⟩
  · have pushed : IsConfined none (readBytes op.toNat >>= pushByteArray) := inferInstance
    exact (pushed.confined engine).effect (.inl rfl)
  · cases found : (opExecList crypto message maxSteps).lookup op with
    | none => exact done _ (.inr rfl)
    | some handler =>
      have invokes : op > 0x60 → Invokes crypto message maxSteps op engine := fun high =>
        ⟨high, fun refused => allowed ⟨high, refused⟩,
          not_lt.mp fun beyond => counted ⟨high, beyond⟩, by rw [found]; rfl⟩
      have entry : (op, handler) ∈ opExecList crypto message maxSteps := by
        obtain ⟨before, after, split, _⟩ := List.lookup_eq_some_iff.mp found
        simp [split]
      have plain : IsConfined none handler → (runHandler handler).Ends engine
          (Effect crypto message maxSteps op engine) (fun _ _ => False) (fun _ => True) := by
        intro confined
        rw [ends_runHandler]
        refine IsConfined.ends _ (fun _ _ kept => kept.effect (.inl rfl))
          (fun reason _ kept => kept.effect ?_) fun _ => trivial
        cases reason <;> simp
      rcases opExecList_confined crypto message maxSteps _ entry with
        call | multi | pick | ⟨-, confined⟩ | ⟨-, confined⟩
      · obtain ⟨rfl, rfl⟩ := Prod.mk.inj call
        rw [ends_runHandler]
        exact opCall_ends.mono
          (fun _ after ⟨stays, count, contexts⟩ => ⟨stays, .inl rfl,
            .inr ⟨rfl, invokes (by decide), contexts⟩, fun _ => .inl count⟩)
          (fun _ _ => False.elim) fun _ => id
      · obtain ⟨rfl, rfl⟩ := Prod.mk.inj multi
        rw [ends_runHandler]
        refine (opCheckMultiSig_ends crypto message maxSteps).mono
          (fun _ after ⟨stays, contexts, charged⟩ => ⟨stays, .inl rfl, .inl contexts,
            fun _ => .inr ⟨invokes (by decide), charged⟩⟩)
          (fun reason after ⟨stays, contexts, counts⟩ => ⟨stays, ?_, .inl contexts, ?_⟩) fun _ => id
        · cases reason <;> simp
        · rintro none
          obtain rfl | count | charged := counts
          · exact absurd none (by decide)
          · exact .inl count
          · exact .inr ⟨invokes (by decide), charged⟩
      · obtain ⟨-, rfl⟩ := Prod.mk.inj pick
        exact plain (by unfold opPickItem; infer_instance)
      · exact plain confined.any
      · exact plain confined.any

end Opcode

end DnaPow.Vm
