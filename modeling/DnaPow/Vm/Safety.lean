import DnaPow.Vm.Budget

/-!
# Scripts that do not panic

An opcode panics when it meets something that is not a stack item, or when an
argument that it does not check is out of range. `Safe` is a condition on the
engine before an opcode under which neither happens and no such item is left
behind. Most opcodes need nothing: that they are free of panics is found by
instance search, which keeps track of how many items the stack is known to have.
-/

namespace DnaPow.Vm

open DnaPow.Std Common

/-- A stack item, with stack items inside. -/
inductive Item.Proper : Item → Prop where
  | integer (ref : Nat) : Proper (.integer ref)
  | boolean (value : Bool) : Proper (.boolean value)
  | byteArray (value : Bytes) : Proper (.byteArray value)
  | array {items : List Item} (each : ∀ item ∈ items, Proper item) : Proper (.array items)

/-- Both stacks hold stack items only. -/
structure Proper (engine : ExecutionEngine) : Prop where
  evaluationStack : ∀ item ∈ engine.evaluationStack, item.Proper
  altStack : ∀ item ∈ engine.altStack, item.Proper

namespace RandomAccessStack

variable {stack : RandomAccessStack}

theorem peek_mem {index : Nat} (inside : index < stack.length) : stack.peek index ∈ stack := by
  rw [peek, if_neg (by omega), List.getD_eq_getElem?_getD, List.getElem?_eq_getElem (by omega)]
  exact List.getElem_mem _

theorem mem_of_mem_remove {index : Nat} {item : Item} (member : item ∈ (stack.remove index).2) :
    item ∈ stack := by
  unfold remove at member
  split at member
  · exact member
  · exact List.mem_of_mem_eraseIdx member

theorem pop_eq (nonempty : 0 < stack.length) : stack.pop.1 = stack.peek 0 := by
  rw [pop, remove, if_neg (by omega)]

theorem length_pop (stack : RandomAccessStack) : stack.pop.2.length = stack.length - 1 := by
  rw [pop, remove]
  split
  · simp; omega
  · simp

theorem mem_of_mem_swap {first second : Nat} {item : Item} (firstInside : first < stack.length)
    (secondInside : second < stack.length) (member : item ∈ stack.swap first second) :
    item ∈ stack := by
  rw [swap] at member
  have found : ∀ {index : Nat}, index < stack.length → stack.getD index .foreign ∈ stack :=
    fun inside => by
      rw [List.getD_eq_getElem?_getD, List.getElem?_eq_getElem inside]
      exact List.getElem_mem _
  rcases List.mem_or_eq_of_mem_set member with member | rfl
  · rcases List.mem_or_eq_of_mem_set member with member | rfl
    · exact member
    · exact found secondInside
  · exact found firstInside

end RandomAccessStack

namespace Handler

/-! ## Judgements -/

/-- The handler does not panic on the engine and leaves stack items. -/
def Harmless {α : Type} (handler : Handler α) (engine : ExecutionEngine) : Prop :=
  handler.Ends engine (fun _ => Proper) (fun _ => Proper) (fun _ => False)

theorem Harmless.not_panic {α : Type} {handler : Handler α} {engine : ExecutionEngine}
    (harmless : Harmless handler engine) : (handler.run engine).1 ≠ .panic := by
  unfold Harmless Action.Ends at harmless
  generalize handler.run engine = ending at harmless ⊢
  obtain ⟨outcome, after⟩ := ending
  cases outcome with
  | ok _ | error _ => simp
  | panic => exact harmless.elim

/-- The handler is harmless on every engine of stack items with at least `depth`
of them on its evaluation stack. -/
class IsHarmless {α : Type} (depth : Nat) (handler : Handler α) : Prop where
  harmless : ∀ {engine}, Proper engine → depth ≤ engine.evaluationStack.length →
    Harmless handler engine

/-- Moreover, it returns with values as described and with at least `left` items. -/
class Yields {α : Type} (depth : Nat) (handler : Handler α) (returned : outParam (α → Prop))
    (left : outParam Nat) : Prop where
  yields : ∀ {engine}, Proper engine → depth ≤ engine.evaluationStack.length →
    handler.Ends engine
      (fun value after => returned value ∧ Proper after ∧ left ≤ after.evaluationStack.length)
      (fun _ => Proper) (fun _ => False)

section Rules

variable {α β : Type} {depth left : Nat} {returned : α → Prop}

instance (handler : Handler α) [yields : Yields depth handler returned left] :
    IsHarmless depth handler where
  harmless proper deep :=
    (yields.yields proper deep).mono (fun _ _ returns => returns.2.1) (fun _ _ => id) fun _ => id

instance (reason : Fault) : IsHarmless depth (Action.throw reason : Handler α) :=
  ⟨fun proper _ => proper⟩

instance (value : α) : Yields depth (pure value : Handler α) (fun _ => True) depth :=
  ⟨fun proper deep => ⟨trivial, proper, deep⟩⟩

instance : Yields depth (Action.get : Handler ExecutionEngine)
    (fun engine => Proper engine ∧ depth ≤ engine.evaluationStack.length) depth :=
  ⟨fun proper deep => ⟨⟨proper, deep⟩, proper, deep⟩⟩

instance (condition : Prop) [Decidable condition] (yes no : Handler α) [first : IsHarmless depth yes]
    [second : IsHarmless depth no] : IsHarmless depth (if condition then yes else no) := by
  split
  · exact first
  · exact second

/-- Nothing is known of the results. -/
theorem IsHarmless.yields {handler : Handler α} (harmless : IsHarmless depth handler) :
    Yields depth handler (fun _ => True) 0 where
  yields proper deep := (harmless.harmless proper deep).mono
    (fun _ _ proper => ⟨trivial, proper, Nat.zero_le _⟩) (fun _ _ => id) fun _ => id

instance (condition : Prop) [Decidable condition] (yes no : Handler α) [IsHarmless depth yes]
    [IsHarmless depth no] : Yields depth (if condition then yes else no) (fun _ => True) 0 :=
  IsHarmless.yields inferInstance

/-- How a handler with known results ends, and what it returned. -/
theorem Yields.ends (handler : Handler α) [yields : Yields depth handler returned left]
    {engine : ExecutionEngine} {post : α → ExecutionEngine → Prop} (proper : Proper engine)
    (deep : depth ≤ engine.evaluationStack.length)
    (next : ∀ {value after}, handler.run engine = (.ok value, after) → returned value →
      Proper after → left ≤ after.evaluationStack.length → post value after) :
    handler.Ends engine post (fun _ => Proper) (fun _ => False) := by
  have ends := yields.yields proper deep
  unfold Action.Ends at ends ⊢
  cases ran : handler.run engine with
  | mk outcome after =>
    rw [ran] at ends
    cases outcome with
    | ok value => exact next ran ends.1 ends.2.1 ends.2.2
    | error reason => exact ends
    | panic => exact ends

instance (call : Handler α) (next : α → Handler β) [first : Yields depth call returned left]
    [second : ∀ value : Subtype returned, IsHarmless left (next value.1)] :
    IsHarmless depth (call >>= next) where
  harmless proper deep := by
    rw [Harmless, Action.ends_bind]
    exact first.ends _ proper deep fun _ meets proper deep =>
      (second ⟨_, meets⟩).harmless proper deep

theorem Yields.bind {call : Handler α} {next : α → Handler β} {returned' : β → Prop} {left' : Nat}
    (first : Yields depth call returned left)
    (second : ∀ value, returned value → Yields left (next value) returned' left') :
    Yields depth (call >>= next) returned' left' where
  yields proper deep := by
    rw [Action.ends_bind]
    exact first.ends _ proper deep fun _ meets proper deep => (second _ meets).yields proper deep

instance (call : Handler α) (result : α → β) [first : Yields depth call returned left] :
    Yields depth (call >>= fun value => pure (result value)) (fun _ => True) left :=
  first.bind fun _ _ => inferInstance

end Rules

/-! ## Reading scripts -/

section Access

variable {depth : Nat}

instance : Yields depth readByte (fun _ => True) depth where
  yields {engine} proper deep := by
    cases reader : engine.context.reader with
    | nil =>
      simp only [Action.Ends, readByte, reader]
      exact ⟨trivial, proper, deep⟩
    | cons byte rest =>
      simp only [Action.Ends, readByte, reader]
      exact ⟨trivial, ⟨proper.1, proper.2⟩, deep⟩

instance (count : Int) : Yields depth (readBytes count) (fun _ => True) depth :=
  ⟨fun proper deep => ⟨trivial, ⟨proper.1, proper.2⟩, deep⟩⟩

instance : Yields depth readUint16 (fun _ => True) depth := by unfold readUint16; infer_instance

instance : Yields depth readInt16 (fun _ => True) depth := by unfold readInt16; infer_instance

instance : Yields depth readInt32 (fun _ => True) depth := by unfold readInt32; infer_instance

instance (first : UInt8) : Yields depth (readVarIntAfter first) (fun _ => True) 0 := by
  unfold readVarIntAfter; infer_instance

instance (max : Nat) : Yields depth (readVarInt max) (fun _ => True) 0 :=
  Yields.bind inferInstance fun _ _ => inferInstance

instance : IsHarmless depth readVarString := by unfold readVarString; infer_instance

/-! ## Stacks -/

instance : Yields depth count (fun _ => True) depth := by unfold count; infer_instance

theorem ends_needCount {least : Nat} {engine : ExecutionEngine}
    {post : Unit → ExecutionEngine → Prop} {fail : Fault → ExecutionEngine → Prop}
    {panics : ExecutionEngine → Prop} :
    (needCount least).Ends engine post fail panics ↔
      (engine.evaluationStack.length < least → fail .silent engine) ∧
        (least ≤ engine.evaluationStack.length → post () engine) := by
  simp [needCount, count, RandomAccessStack.count]

theorem ends_count {engine : ExecutionEngine} {post : Nat → ExecutionEngine → Prop}
    {fail : Fault → ExecutionEngine → Prop} {panics : ExecutionEngine → Prop} :
    count.Ends engine post fail panics ↔ post engine.evaluationStack.length engine := Iff.rfl

instance (least : Nat) : Yields 0 (needCount least) (fun _ => True) least :=
  ⟨fun proper _ => ends_needCount.mpr ⟨fun _ => proper, fun enough => ⟨trivial, proper, enough⟩⟩⟩

instance (item : Item) [whole : Fact item.Proper] :
    Yields depth (pushItem item) (fun _ => True) (depth + 1) where
  yields {engine} proper deep := by
    refine ⟨trivial, ⟨fun other member => ?_, proper.altStack⟩, ?_⟩
    · simp only [RandomAccessStack.push_eq, List.mem_append, List.mem_singleton] at member
      rcases member with old | rfl
      · exact proper.evaluationStack other old
      · exact whole.out
    · simpa using deep

instance : Yields (depth + 1) popItem Item.Proper depth where
  yields {engine} proper deep := by
    have whole : engine.evaluationStack.pop.1.Proper := by
      rw [RandomAccessStack.pop_eq (by omega)]
      exact proper.evaluationStack _ (RandomAccessStack.peek_mem (by omega))
    refine ⟨whole, ⟨fun other member => ?_, proper.altStack⟩, ?_⟩
    · exact proper.evaluationStack other (RandomAccessStack.mem_of_mem_remove member)
    · show depth ≤ engine.evaluationStack.pop.2.length
      rw [RandomAccessStack.length_pop]
      omega

instance (value : Int) : Yields depth (newInteger value) (fun _ => True) depth :=
  ⟨fun proper deep => ⟨trivial, ⟨proper.1, proper.2⟩, deep⟩⟩

instance (ref : Nat) : Yields depth (integerAt ref) (fun _ => True) depth := by
  unfold integerAt; infer_instance

instance (ref : Nat) (value : Int) : Yields depth (setInteger ref value) (fun _ => True) depth :=
  ⟨fun proper deep => ⟨trivial, ⟨proper.1, proper.2⟩, deep⟩⟩

/-! ## Methods of stack items -/

instance (item : Item) [whole : Fact item.Proper] :
    Yields depth (getByteArray item) (fun _ => True) depth := by
  cases whole.out <;> simp only [getByteArray] <;> infer_instance

theorem getBoolean_yields {item : Item} (whole : item.Proper) :
    Yields depth (getBoolean item) (fun _ => True) depth := by
  induction whole with
  | integer | boolean | byteArray => simp only [getBoolean]; infer_instance
  | @array items each ih =>
    cases items with
    | nil => simp only [getBoolean]; infer_instance
    | cons first rest => simpa only [getBoolean] using ih first List.mem_cons_self

theorem getBigInteger_yields {item : Item} (whole : item.Proper) :
    Yields depth (getBigInteger item) (fun _ => True) depth := by
  induction whole with
  | integer | boolean | byteArray => simp only [getBigInteger]; infer_instance
  | @array items each ih =>
    cases items with
    | nil => simp only [getBigInteger]; infer_instance
    | cons first rest => simpa only [getBigInteger] using ih first List.mem_cons_self

instance (item : Item) [whole : Fact item.Proper] :
    Yields depth (getBoolean item) (fun _ => True) depth := getBoolean_yields whole.out

instance (item : Item) [whole : Fact item.Proper] :
    Yields depth (getBigInteger item) (fun _ => True) depth := getBigInteger_yields whole.out

instance (item : Item) [whole : Fact item.Proper] :
    Yields depth (getArray item) (fun items => ∀ item ∈ items, item.Proper) depth where
  yields proper deep := by
    have self := whole.out
    cases self with
    | array each => exact ⟨each, proper, deep⟩
    | integer | boolean | byteArray => exact ⟨by simpa using whole.out, proper, deep⟩

mutual

private theorem equals_harmless : ∀ (depth : Nat) {first : Item} (second : Item), first.Proper →
    IsHarmless depth (equals first second)
  | _, .foreign, _, whole => by cases whole
  | _, .integer _, .integer _, _ => by simp only [equals]; infer_instance
  | _, .boolean _, .boolean _, _ => by simp only [equals]; infer_instance
  | _, .byteArray _, .byteArray _, _ => by simp only [equals]; infer_instance
  | depth, .array firsts, .array seconds, .array each => by
    have all := equalsAll_harmless depth seconds each
    simp only [equals]
    infer_instance
  | _, .integer _, .foreign, _ | _, .integer _, .boolean _, _ | _, .integer _, .byteArray _, _
  | _, .integer _, .array _, _ | _, .boolean _, .foreign, _ | _, .boolean _, .integer _, _
  | _, .boolean _, .byteArray _, _ | _, .boolean _, .array _, _ | _, .byteArray _, .foreign, _
  | _, .byteArray _, .integer _, _ | _, .byteArray _, .boolean _, _
  | _, .byteArray _, .array _, _ | _, .array _, .foreign, _ | _, .array _, .integer _, _
  | _, .array _, .boolean _, _ | _, .array _, .byteArray _, _ => by
    simp only [equals]; infer_instance

private theorem equalsAll_harmless : ∀ (depth : Nat) {firsts : List Item} (seconds : List Item),
    (∀ item ∈ firsts, item.Proper) → IsHarmless depth (equalsAll firsts seconds)
  | _, [], _, _ => by simp only [equalsAll]; infer_instance
  | _, _ :: _, [], _ => by simp only [equalsAll]; infer_instance
  | depth, first :: firsts, second :: seconds, each => by
    have head := (equals_harmless depth second (each first List.mem_cons_self)).yields
    have tail := equalsAll_harmless 0 seconds fun item member =>
      each item (List.mem_cons_of_mem _ member)
    simp only [equalsAll]
    infer_instance

end

instance (first second : Item) [whole : Fact first.Proper] :
    Yields depth (equals first second) (fun _ => True) 0 :=
  (equals_harmless depth second whole.out).yields

/-! ## Pops and pushes of values -/

/-- Popping an item and reading it. -/
theorem popItem_yields {α : Type} {read : Item → Handler α} {returned : α → Prop}
    (reads : ∀ item, [Fact item.Proper] → Yields depth (read item) returned depth) :
    Yields (depth + 1) (popItem >>= read) returned depth :=
  Yields.bind inferInstance fun item whole =>
    have := Fact.mk whole
    reads item

instance : Yields (depth + 1) popByteArray (fun _ => True) depth :=
  popItem_yields fun _ => inferInstance

instance : Yields (depth + 1) popBoolean (fun _ => True) depth :=
  popItem_yields fun _ => inferInstance

instance : Yields (depth + 1) popBigInteger (fun _ => True) depth :=
  popItem_yields fun _ => inferInstance

instance : Yields (depth + 1) popInt (fun n => -2 ^ 63 ≤ n ∧ n < 2 ^ 63) depth :=
  Yields.bind (inferInstance : Yields (depth + 1) popBigInteger (fun _ => True) depth) fun ref _ =>
    Yields.bind (inferInstance : Yields depth (integerAt ref) (fun _ => True) depth) fun value _ =>
      ⟨fun proper deep => ⟨⟨le_wrap64 value, wrap64_lt value⟩, proper, deep⟩⟩

instance : Yields (depth + 1) popArray (fun items => ∀ item ∈ items, item.Proper) depth :=
  popItem_yields fun _ => inferInstance

instance (value : Bytes) : Fact (Item.byteArray value).Proper := ⟨.byteArray value⟩

instance (value : Bool) : Fact (Item.boolean value).Proper := ⟨.boolean value⟩

instance (ref : Nat) : Fact (Item.integer ref).Proper := ⟨.integer ref⟩

instance (value : Int) : Yields depth (pushInteger value) (fun _ => True) (depth + 1) :=
  Yields.bind inferInstance fun _ _ => inferInstance

instance (ref : Nat) : Yields depth (pushBigInteger ref) (fun _ => True) (depth + 1) :=
  Yields.bind inferInstance fun _ _ => inferInstance

instance (value : Bool) : Yields depth (pushBoolean value) (fun _ => True) (depth + 1) := by
  unfold pushBoolean; infer_instance

instance (value : Bytes) : Yields depth (pushByteArray value) (fun _ => True) (depth + 1) := by
  unfold pushByteArray; infer_instance

/-! ## Handlers without a condition -/

instance (item : Subtype Item.Proper) : Fact item.1.Proper := ⟨item.2⟩

instance (engine : { engine // Proper engine ∧ 1 ≤ engine.evaluationStack.length }) :
    Fact (engine.1.evaluationStack.peek 0).Proper :=
  ⟨engine.2.1.evaluationStack _ (RandomAccessStack.peek_mem engine.2.2)⟩

instance (offset : Int) : IsHarmless depth (Action.modify fun engine : ExecutionEngine =>
    { engine with context := { engine.context with instructionPointer := offset } }) :=
  ⟨fun proper _ => ⟨proper.1, proper.2⟩⟩

instance (item : Item) [whole : Fact item.Proper] :
    IsHarmless depth (Action.modify fun engine : ExecutionEngine =>
      { engine with altStack := engine.altStack.push item }) where
  harmless proper _ := by
    refine ⟨proper.1, fun other member => ?_⟩
    simp only [RandomAccessStack.push_eq, List.mem_append, List.mem_singleton] at member
    rcases member with old | rfl
    · exact proper.altStack other old
    · exact whole.out

instance (index : Nat) : IsHarmless depth (Action.modify fun engine : ExecutionEngine =>
    { engine with evaluationStack := (engine.evaluationStack.remove index).2 }) where
  harmless proper _ :=
    ⟨fun other member => proper.1 other (RandomAccessStack.mem_of_mem_remove member), proper.2⟩

instance (op : OpCode) : IsHarmless depth (opPushData op) := by unfold opPushData; infer_instance

set_option synthInstance.maxSize 512 in
/-- The conditional jumps pop a value. -/
instance (op : OpCode) : IsHarmless 1 (opJmp op) := by unfold opJmp; infer_instance

instance : IsHarmless 0 (opJmp 0x62) := by
  simp only [opJmp, gt_iff_lt, UInt8.lt_irrefl, if_false]
  infer_instance

theorem forM_pushItem_harmless {items : List Item} (each : ∀ item ∈ items, item.Proper) :
    IsHarmless depth (items.forM pushItem : Handler PUnit) := by
  induction items generalizing depth with
  | nil => rw [List.forM]; infer_instance
  | cons first rest ih =>
    have head := Fact.mk (each first List.mem_cons_self)
    have tail : IsHarmless (depth + 1) (rest.forM pushItem : Handler PUnit) :=
      ih fun item member => each item (List.mem_cons_of_mem _ member)
    rw [List.forM]
    infer_instance

instance (items : { items : List Item // ∀ item ∈ items, item.Proper }) :
    Yields depth (items.1.reverse.forM pushItem : Handler PUnit) (fun _ => True) 0 :=
  (forM_pushItem_harmless (by simpa using items.2)).yields

instance (size : Nat) :
    Yields size (popItems size) (fun items => ∀ item ∈ items, item.Proper) 0 := by
  induction size with
  | zero => exact ⟨fun proper _ => ⟨by simp, proper, Nat.zero_le _⟩⟩
  | succ size ih =>
    refine Yields.bind inferInstance fun item whole => Yields.bind ih fun items each => ?_
    exact ⟨fun proper deep => ⟨List.forall_mem_cons.mpr ⟨whole, each⟩, proper, deep⟩⟩

theorem popByteArrays_yields (n left : Nat) :
    Yields (left + n) (popByteArrays n) (fun _ => True) left := by
  induction n with
  | zero => exact (inferInstance : Yields left (pure []) (fun _ => True) left)
  | succ n ih => exact Yields.bind inferInstance fun _ _ => Yields.bind ih fun _ _ => inferInstance

end Access

section Handlers

theorem opXSwap_harmless : IsHarmless 0 opXSwap where
  harmless proper _ := by
    rw [Harmless, opXSwap, Action.ends_bind, ends_needCount]
    refine ⟨fun _ => proper, fun deep => ?_⟩
    rw [Action.ends_bind]
    refine Yields.ends popInt proper deep fun {n after} _ _ proper _ => ?_
    rw [Action.ends_bind, ends_count, Action.ends_ite]
    refine ⟨fun _ => proper, fun inside => ⟨fun item member => ?_, proper.altStack⟩⟩
    have bound : n.toNat < after.evaluationStack.length := by omega
    exact proper.evaluationStack item (RandomAccessStack.mem_of_mem_swap (by omega) bound member)

theorem opPack_harmless : IsHarmless 0 opPack where
  harmless proper _ := by
    rw [Harmless, opPack, Action.ends_bind, ends_needCount]
    refine ⟨fun _ => proper, fun deep => ?_⟩
    rw [Action.ends_bind]
    refine Yields.ends popInt proper deep fun {size after} _ _ proper _ => ?_
    rw [Action.ends_bind, ends_count, Action.ends_ite]
    refine ⟨fun _ => proper, fun inside => ?_⟩
    have enough : size.toNat ≤ after.evaluationStack.length := by omega
    rw [Action.ends_bind]
    refine Yields.ends (popItems size.toNat) proper enough fun _ each proper deep => ?_
    have := Fact.mk (Item.Proper.array each)
    exact (inferInstance : IsHarmless 0 (pushItem _)).harmless proper deep

end Handlers

/-! ## Handlers with a condition -/

section Conditions

variable {α β : Type}

/-- What the call reads off the engine, if it returns, is as described. -/
def Reads (call : Handler α) (engine : ExecutionEngine) (described : α → Prop) : Prop :=
  ∀ value, (call.run engine).1 = .ok value → described value

theorem Reads.next {call : Handler α} {next : α → Handler β} {engine after : ExecutionEngine}
    {described : β → Prop} {value : α} (reads : Reads (call >>= next) engine described)
    (ran : call.run engine = (.ok value, after)) : Reads (next value) after described :=
  fun result returned => reads result (by rw [Action.run_bind_of_ok ran]; exact returned)

theorem Reads.result {call : Handler α} {engine after : ExecutionEngine} {described : α → Prop}
    {value : α} (reads : Reads call engine described)
    (ran : call.run engine = (.ok value, after)) : described value :=
  reads value (by rw [ran])

end Conditions

/-- A public key that `DecodePoint` accepts or rejects, and that has coordinates
if it accepts it. -/
def DecodableKey (key : Bytes) : Prop :=
  match key with
  | [] => False
  | format :: _ =>
      format ≠ 0x00 ∧ (format = 0x04 ∨ format = 0x06 ∨ format = 0x07 → 65 ≤ key.length)

/-- The argument of `XTUCK`, and how many items it leaves. -/
def popPlace : Handler (Int × Nat) := do
  let n ← popInt
  return (n, ← count)

/-- The two operands of a binary opcode, the lower one first. -/
def popOperands : Handler (Int × Int) := do
  let x2 ← popBigInteger
  let x1 ← popBigInteger
  return (← integerAt x1, ← integerAt x2)

/-- The number of elements and the index of `SUBSTR`, and the string. -/
def popSubStr : Handler (Int × Int × Bytes) := do
  let amount ← popInt
  let index ← popInt
  return (amount, index, ← popByteArray)

/-- The keys of `CHECKMULTISIG`. -/
def popKeys (maxSteps : Int) : Handler (List Bytes) := do
  let n ← popInt
  chargeSteps maxSteps n
  popByteArrays n.toNat

/-- The services that `SYSCALL` knows. -/
def services : List Bytes :=
  ["System.ScriptEngine.GetScriptContainer".toUTF8.toList,
   "System.ScriptEngine.GetExecutingScriptHash".toUTF8.toList,
   "System.ScriptEngine.GetCallingScriptHash".toUTF8.toList,
   "System.ScriptEngine.GetEntryScriptHash".toUTF8.toList]

end Handler

open Handler

/-- A condition on the engine under which an opcode does not panic and leaves
stack items. -/
def Safe (maxSteps : Int) (op : OpCode) (engine : ExecutionEngine) : Prop :=
  match op with
  -- JMPIF, JMPIFNOT and CALL pop a value without looking
  | 0x63 | 0x64 | 0x65 => engine.evaluationStack ≠ []
  -- RET
  | 0x66 => engine.invocationStack.length < 2
  -- SYSCALL
  | 0x68 => Reads readVarString engine (· ∉ services)
  -- FROMALTSTACK looks at the wrong stack
  | 0x6c => engine.evaluationStack = [] ∨ engine.altStack ≠ []
  -- XTUCK inserts the lower part of the stack
  | 0x73 => Reads popPlace engine fun (n, left) => n < 1 ∨ (left : Int) ≤ n
  -- PICK and ROLL
  | 0x79 | 0x7a => Reads popInt engine (· ≠ 2 ^ 63 - 1)
  -- SUBSTR
  | 0x7f => Reads popSubStr engine fun (amount, index, s) =>
      0 ≤ amount → 0 ≤ index → index + amount < 2 ^ 63 ∧ s.length < 2 ^ 63 ∧
        (index + amount ≤ s.length → 1 ≤ index + amount ∧ index + (index + amount) ≤ s.length + 1)
  -- DIV and MOD
  | 0x96 | 0x97 => Reads popOperands engine fun (_, divisor) => divisor ≠ 0
  -- SHL
  | 0x98 => Reads popOperands engine fun (value, amount) =>
      value = 0 ∨ makeable 8 (wordCount value + (wrap64 amount % 2 ^ 64).toNat / 64 + 5)
  -- CHECKSIG
  | 0xac => Reads popByteArray engine DecodableKey
  -- CHECKMULTISIG
  | 0xae => Reads popInt engine (24 * · ≤ 2 ^ 48) ∧
      Reads (popKeys maxSteps) engine fun keys => ∀ key ∈ keys, DecodableKey key
  -- PICKITEM pops an array without looking
  | 0xc3 => engine.evaluationStack.length ≠ 1
  | _ => True

namespace Handler

section Conditional

variable {engine : ExecutionEngine}

theorem opJmp_harmless (op : OpCode) (proper : Proper engine)
    (nonempty : engine.evaluationStack ≠ []) : (opJmp op).Harmless engine :=
  IsHarmless.harmless proper (List.length_pos_iff.mpr nonempty)

theorem opCall_harmless (proper : Proper engine) (nonempty : engine.evaluationStack ≠ []) :
    opCall.Harmless engine := by
  have deep : 1 ≤ engine.evaluationStack.length := List.length_pos_iff.mpr nonempty
  have jump := (inferInstance : IsHarmless 1 (opJmp 0x65)).harmless
    (⟨proper.1, proper.2⟩ : Proper { engine with
      invocationStack := engine.invocationStack ++ [engine.context.clone]
      context :=
        { engine.context with instructionPointer := engine.context.instructionPointer + 2 } }) deep
  unfold Harmless Action.Ends opCall at *
  simp only
  generalize (opJmp 0x65).run _ = ending at jump ⊢
  obtain ⟨outcome, after⟩ := ending
  cases outcome with
  | panic => exact jump
  | ok _ | error _ => exact jump

theorem opRet_harmless (proper : Proper engine) (few : engine.invocationStack.length < 2) :
    opRet.Harmless engine := by
  rw [Harmless, opRet, Action.ends_bind, Action.ends_get, if_pos few]
  exact proper

theorem opSysCall_harmless (proper : Proper engine)
    (unknown : Reads readVarString engine (· ∉ services)) : opSysCall.Harmless engine := by
  rw [Harmless, opSysCall, Action.ends_bind]
  have reading : Yields 0 readVarString (fun _ => True) 0 := IsHarmless.yields inferInstance
  refine reading.ends _ proper (Nat.zero_le _) fun {method after} ran _ proper _ => ?_
  have other := unknown.result ran
  simp only [services, List.mem_cons, List.not_mem_nil, or_false, not_or] at other
  rw [if_neg (by tauto), if_neg (by tauto)]
  exact proper

/-- Pushing an item that is known to be one. -/
theorem pushItem_harmless {item : Item} (proper : Proper engine) (whole : item.Proper) :
    (pushItem item).Harmless engine :=
  have := Fact.mk whole
  (inferInstance : IsHarmless 0 (pushItem item)).harmless proper (Nat.zero_le _)

theorem opFromAltStack_harmless (proper : Proper engine)
    (filled : engine.evaluationStack = [] ∨ engine.altStack ≠ []) :
    opFromAltStack.Harmless engine := by
  rw [Harmless, opFromAltStack, Action.ends_bind, ends_needCount]
  refine ⟨fun _ => proper, fun deep => ?_⟩
  have nonempty : 0 < engine.altStack.length := by
    rcases filled with empty | filled
    · simp [empty] at deep
    · exact List.length_pos_iff.mpr filled
  rw [Action.ends_bind, Action.ends_get, Action.ends_bind, Action.ends_modify]
  refine pushItem_harmless ⟨proper.1, fun item member => ?_⟩ ?_
  · exact proper.altStack item (RandomAccessStack.mem_of_mem_remove member)
  · rw [RandomAccessStack.pop_eq nonempty]
    exact proper.altStack _ (RandomAccessStack.peek_mem nonempty)

theorem opXTuck_harmless (proper : Proper engine)
    (outside : Reads popPlace engine fun (n, left) => n < 1 ∨ (left : Int) ≤ n) :
    opXTuck.Harmless engine := by
  rw [Harmless, opXTuck, Action.ends_bind, ends_needCount]
  refine ⟨fun _ => proper, fun deep => ?_⟩
  rw [Action.ends_bind]
  refine Yields.ends popInt proper deep fun {n after} ran _ proper _ => ?_
  rw [Action.ends_bind, ends_count, Action.ends_ite]
  refine ⟨fun _ => proper, fun inside => ?_⟩
  have place : n < 1 ∨ (after.evaluationStack.length : Int) ≤ n :=
    outside.next ran (n, after.evaluationStack.length) rfl
  have zero : n.toNat = 0 := by omega
  have nonempty : 0 < after.evaluationStack.length := by omega
  rw [Action.ends_modify, zero]
  refine ⟨fun item member => ?_, proper.altStack⟩
  simp only [RandomAccessStack.insert, Nat.not_lt_zero, gt_iff_lt, if_false, if_true,
    List.mem_append, List.mem_singleton] at member
  rcases member with old | rfl
  · exact proper.evaluationStack item old
  · exact proper.evaluationStack _ (RandomAccessStack.peek_mem nonempty)

theorem opPick_harmless (proper : Proper engine)
    (below : Reads popInt engine (· ≠ 2 ^ 63 - 1)) : opPick.Harmless engine := by
  rw [Harmless, opPick, Action.ends_bind, ends_needCount]
  refine ⟨fun _ => proper, fun deep => ?_⟩
  rw [Action.ends_bind]
  refine Yields.ends popInt proper deep fun {n after} ran range proper _ => ?_
  rw [Action.ends_bind, ends_count, Action.ends_ite]
  refine ⟨fun _ => proper, fun inside => ?_⟩
  have bound : n.toNat < after.evaluationStack.length := by
    rw [wrap64_of_range (by omega) (by have := below.result ran; omega)] at inside
    omega
  exact pushItem_harmless proper (proper.evaluationStack _ (RandomAccessStack.peek_mem bound))

theorem opRoll_harmless (proper : Proper engine)
    (below : Reads popInt engine (· ≠ 2 ^ 63 - 1)) : opRoll.Harmless engine := by
  rw [Harmless, opRoll, Action.ends_bind, ends_needCount]
  refine ⟨fun _ => proper, fun deep => ?_⟩
  rw [Action.ends_bind]
  refine Yields.ends popInt proper deep fun {n after} ran range proper _ => ?_
  rw [Action.ends_ite]
  refine ⟨fun _ => proper, fun low => ?_⟩
  rw [Action.ends_ite]
  refine ⟨fun _ => proper, fun _ => ?_⟩
  rw [Action.ends_bind, ends_count, Action.ends_ite]
  refine ⟨fun _ => proper, fun inside => ?_⟩
  have bound : n.toNat < after.evaluationStack.length := by
    rw [wrap64_of_range (by omega) (by have := below.result ran; omega)] at inside
    omega
  rw [Action.ends_bind, Action.ends_get, Action.ends_bind, Action.ends_modify]
  refine pushItem_harmless ⟨fun item member => ?_, proper.altStack⟩ ?_
  · exact proper.evaluationStack item (RandomAccessStack.mem_of_mem_remove member)
  · rw [RandomAccessStack.remove, if_neg (by omega)]
    exact proper.evaluationStack _ (RandomAccessStack.peek_mem bound)

theorem slice_yields (spare : Bytes → Option UInt8) {data : Bytes} {low high : Int}
    (nonneg : 0 ≤ low) (order : low ≤ high) (inside : high ≤ data.length) :
    Yields 0 (slice spare data low high) (fun _ => True) 0 := by
  rw [slice, if_neg (by omega), if_pos inside]
  infer_instance

theorem opSubStr_harmless (spare : Bytes → Option UInt8) (proper : Proper engine)
    (inside : Reads popSubStr engine fun (amount, index, s) =>
      0 ≤ amount → 0 ≤ index → index + amount < 2 ^ 63 ∧ s.length < 2 ^ 63 ∧
        (index + amount ≤ s.length →
          1 ≤ index + amount ∧ index + (index + amount) ≤ s.length + 1)) :
    (opSubStr spare).Harmless engine := by
  rw [Harmless, opSubStr, Action.ends_bind, ends_needCount]
  refine ⟨fun _ => proper, fun deep => ?_⟩
  rw [Action.ends_bind]
  refine Yields.ends popInt proper deep fun {amount second} ran _ proper deep => ?_
  replace inside := inside.next ran
  rw [Action.ends_ite]
  refine ⟨fun _ => proper, fun positive => ?_⟩
  rw [Action.ends_bind]
  refine Yields.ends popInt proper deep fun {index third} ran _ proper deep => ?_
  replace inside := inside.next ran
  rw [Action.ends_ite]
  refine ⟨fun _ => proper, fun nonneg => ?_⟩
  rw [Action.ends_bind]
  refine Yields.ends popByteArray proper deep fun {s last} ran _ proper deep => ?_
  obtain ⟨small, short, bounds⟩ :=
    inside.next ran (amount, index, s) rfl (not_lt.mp positive) (not_lt.mp nonneg)
  simp only [wrap64_of_range (show -2 ^ 63 ≤ index + amount by omega) small]
  rw [Action.ends_ite]
  refine ⟨fun _ => proper, fun within => ?_⟩
  obtain ⟨one, half⟩ := bounds (not_lt.mp within)
  rw [wrap64_of_range (by omega) (by omega), Action.ends_bind]
  have sliced := slice_yields spare (not_lt.mp nonneg)
    (show index ≤ s.length - (index + amount) + 1 by omega)
    (show (s.length : Int) - (index + amount) + 1 ≤ s.length by omega)
  refine sliced.ends _ proper (Nat.zero_le _) fun _ _ proper deep => ?_
  exact (inferInstance : IsHarmless 0 (pushByteArray _)).harmless proper deep

theorem exists_pure_ite {α : Type} {condition : Prop} [Decidable condition] {yes no : Handler α}
    (first : condition → ∃ value, yes = pure value)
    (second : ¬ condition → ∃ value, no = pure value) :
    ∃ value, (if condition then yes else no) = pure value := by
  by_cases holds : condition
  · rw [if_pos holds]
    exact first holds
  · rw [if_neg holds]
    exact second holds

/-- `BigIntZip` has a result unless it divides by zero or shifts too far. -/
theorem exists_bigIntZip {op : OpCode} {v1 v2 : Int} (division : op = 0x96 ∨ op = 0x97 → v2 ≠ 0)
    (shift : op = 0x98 →
      v1 = 0 ∨ makeable 8 (wordCount v1 + (wrap64 v2 % 2 ^ 64).toNat / 64 + 5)) :
    ∃ value, bigIntZip op v1 v2 = pure value := by
  unfold bigIntZip
  refine exists_pure_ite (fun _ => ⟨_, rfl⟩) fun _ => exists_pure_ite (fun _ => ⟨_, rfl⟩) fun _ => ?_
  refine exists_pure_ite (fun _ => ⟨_, rfl⟩) fun _ => exists_pure_ite (fun _ => ⟨_, rfl⟩) fun _ => ?_
  refine exists_pure_ite (fun _ => ⟨_, rfl⟩) fun _ => exists_pure_ite (fun _ => ⟨_, rfl⟩) fun _ => ?_
  refine exists_pure_ite (fun div => ?_) fun _ => exists_pure_ite (fun mod => ?_) fun _ => ?_
  · exact exists_pure_ite (fun zero => absurd zero (division (.inl div))) fun _ => ⟨_, rfl⟩
  · exact exists_pure_ite (fun zero => absurd zero (division (.inr mod))) fun _ => ⟨_, rfl⟩
  · refine exists_pure_ite (fun shl => ?_) fun _ => ⟨_, rfl⟩
    refine exists_pure_ite (fun _ => ⟨_, rfl⟩) fun nonzero => ?_
    exact exists_pure_ite (fun _ => ⟨_, rfl⟩) fun unable =>
      absurd ((shift shl).resolve_left nonzero) unable

theorem opBigIntZip_harmless {maxSteps : Int} {op : OpCode} (proper : Proper engine)
    (safe : Safe maxSteps op engine) : (opBigIntZip op).Harmless engine := by
  have computable : Reads popOperands engine fun (v1, v2) =>
      ∃ value, bigIntZip op v1 v2 = pure value := fun (v1, v2) returned =>
    exists_bigIntZip (by rintro (rfl | rfl) <;> exact safe (v1, v2) returned)
      (by rintro rfl; exact safe (v1, v2) returned)
  rw [Harmless, opBigIntZip, Action.ends_bind, ends_needCount]
  refine ⟨fun _ => proper, fun deep => ?_⟩
  rw [Action.ends_bind]
  refine Yields.ends popBigInteger proper deep fun {x2 second} ran _ proper deep => ?_
  replace computable := computable.next ran
  rw [Action.ends_bind]
  refine Yields.ends popBigInteger proper deep fun {x1 third} ran _ proper deep => ?_
  obtain ⟨value, result⟩ := computable.next ran
    (third.integers.getD x1 0, third.integers.getD x2 0) rfl
  have pushed : ∀ ref {engine}, Proper engine → (pushBigInteger ref).Harmless engine :=
    fun ref _ proper => (inferInstance : IsHarmless 0 (pushBigInteger ref)).harmless proper
      (Nat.zero_le _)
  simp only [integerAt, Action.ends_bind, Action.ends_get, Action.ends_pure, Action.ends_ite,
    result, setInteger, Action.ends_modify]
  exact ⟨fun _ => pushed _ proper, fun _ => ⟨fun _ => pushed _ proper,
    fun _ => pushed _ ⟨proper.1, proper.2⟩⟩⟩

theorem opPickItem_harmless (proper : Proper engine) (count : engine.evaluationStack.length ≠ 1) :
    opPickItem.Harmless engine := by
  rw [Harmless, opPickItem, Action.ends_bind, ends_needCount]
  refine ⟨fun _ => proper, fun deep => ?_⟩
  have two : 2 ≤ engine.evaluationStack.length := by omega
  rw [Action.ends_bind]
  refine Yields.ends popInt proper two fun {index after} _ _ proper deep => ?_
  rw [Action.ends_ite]
  refine ⟨fun _ => proper, fun _ => ?_⟩
  rw [Action.ends_bind]
  refine Yields.ends popArray proper deep fun _ _ proper _ => ?_
  rw [Action.ends_ite]
  exact ⟨fun _ => proper, fun _ => proper⟩

variable {crypto : Primitives} (message : Bytes)
  (total : ∀ message signature key, DecodableKey key →
    crypto.verifySignature message signature key ≠ none)

include total

theorem opCheckSig_harmless (proper : Proper engine)
    (decodable : Reads popByteArray engine DecodableKey) :
    (opCheckSig crypto message).Harmless engine := by
  rw [Harmless, opCheckSig, Action.ends_bind, ends_needCount]
  refine ⟨fun _ => proper, fun deep => ?_⟩
  rw [Action.ends_bind]
  refine Yields.ends popByteArray proper deep fun {pubkey second} ran _ proper deep => ?_
  have known := decodable.result ran
  rw [Action.ends_bind]
  refine Yields.ends popByteArray proper deep fun {signature third} _ _ proper deep => ?_
  obtain ⟨verdict, verified⟩ := Option.ne_none_iff_exists'.mp (total message signature pubkey known)
  rw [verified, Action.ends_bind]
  exact (inferInstance : IsHarmless 0 (pushBoolean _)).harmless proper deep

theorem takeKey_ne_none (signature : Bytes) {pubkeys : List Bytes}
    (decodable : ∀ key ∈ pubkeys, DecodableKey key) :
    ∃ left, takeKey crypto message signature pubkeys = some left ∧
      ∀ keys, left = some keys → ∀ key ∈ keys, DecodableKey key := by
  induction pubkeys with
  | nil => exact ⟨none, rfl, by simp⟩
  | cons pubkey pubkeys ih =>
    obtain ⟨known, others⟩ := List.forall_mem_cons.mp decodable
    obtain ⟨verdict, verified⟩ :=
      Option.ne_none_iff_exists'.mp (total message signature pubkey known)
    obtain ⟨left, rest, kept⟩ := ih others
    cases verdict with
    | true => exact ⟨some pubkeys, by simp [takeKey, verified], by simpa using others⟩
    | false =>
      refine ⟨left.map (pubkey :: ·), by simp [takeKey, verified, rest], ?_⟩
      intro keys found
      obtain ⟨old, same, rfl⟩ := Option.map_eq_some_iff.mp found
      exact List.forall_mem_cons.mpr ⟨known, kept old same⟩

theorem matchSignatures_ne_none (signatures : List Bytes) {pubkeys : List Bytes}
    (decodable : ∀ key ∈ pubkeys, DecodableKey key) :
    ∃ verdict, matchSignatures crypto message signatures pubkeys = some verdict := by
  induction signatures generalizing pubkeys with
  | nil => exact ⟨true, rfl⟩
  | cons signature signatures ih =>
    obtain ⟨left, taken, kept⟩ := takeKey_ne_none message total signature decodable
    cases left with
    | none => exact ⟨false, by simp [matchSignatures, taken]⟩
    | some keys =>
      obtain ⟨verdict, rest⟩ := ih (kept keys rfl)
      exact ⟨verdict, by simp [matchSignatures, taken, rest]⟩

theorem opCheckMultiSig_harmless (maxSteps : Int) (proper : Proper engine)
    (small : Reads popInt engine (24 * · ≤ 2 ^ 48))
    (decodable : Reads (popKeys maxSteps) engine fun keys => ∀ key ∈ keys, DecodableKey key) :
    (opCheckMultiSig crypto message maxSteps).Harmless engine := by
  rw [Harmless, opCheckMultiSig, Action.ends_bind, ends_count, Action.ends_ite]
  refine ⟨fun _ => proper, fun few => ?_⟩
  have deep : 1 ≤ engine.evaluationStack.length := by omega
  rw [Action.ends_bind]
  refine Yields.ends popInt proper deep fun {n popped} ran range proper _ => ?_
  have bound : 24 * n ≤ 2 ^ 48 := small.result ran
  replace decodable := decodable.next ran
  rw [Action.ends_bind, ends_count, Action.ends_ite]
  refine ⟨fun _ => proper, fun inside => ?_⟩
  rw [wrap64_of_range (by omega) (by omega)] at inside
  rw [Action.ends_bind, ends_chargeSteps]
  refine ⟨fun _ => ⟨proper.1, proper.2⟩, fun within => ?_⟩
  have charged : (chargeSteps maxSteps n).run popped =
      (.ok (), { popped with opCount := wrap64 (popped.opCount + n) }) := by
    simp [chargeSteps, Action.run_bind, within]
  replace decodable := decodable.next charged
  replace proper : Proper { popped with opCount := wrap64 (popped.opCount + n) } :=
    ⟨proper.1, proper.2⟩
  rw [if_neg (not_not.mpr (show makeable 24 n from ⟨by omega, bound⟩)), Action.ends_bind]
  have enough : 2 + n.toNat ≤ popped.evaluationStack.length := by omega
  refine (popByteArrays_yields n.toNat 2).ends _ proper enough fun {pubkeys left} ran _ proper deep => ?_
  have known := decodable.result ran
  rw [Action.ends_bind]
  refine Yields.ends popInt proper deep fun {m rest} _ _ proper _ => ?_
  rw [Action.ends_bind, ends_count, Action.ends_ite]
  refine ⟨fun _ => proper, fun few => ?_⟩
  have some : 0 + m.toNat ≤ rest.evaluationStack.length := by omega
  rw [Action.ends_bind]
  refine (popByteArrays_yields m.toNat 0).ends _ proper some fun {signatures last} _ _ proper deep => ?_
  obtain ⟨verdict, matched⟩ := matchSignatures_ne_none message total signatures known
  rw [matched, Action.ends_bind]
  exact (inferInstance : IsHarmless 0 (pushBoolean _)).harmless proper deep

/-- A safe opcode's handler is harmless. -/
theorem opExecList_harmless (maxSteps : Int) :
    ∀ entry ∈ opExecList crypto message maxSteps, ∀ engine, Proper engine →
      Safe maxSteps entry.1 engine → entry.2.Harmless engine := by
  have free : ∀ {handler : Handler Unit} {op : OpCode}, IsHarmless 0 handler →
      ∀ engine, Proper engine → Safe maxSteps op engine → handler.Harmless engine :=
    fun harmless _ proper _ => harmless.harmless proper (Nat.zero_le _)
  unfold opExecList
  repeat' first
    | exact List.forall_mem_nil _
    | refine List.forall_mem_cons.mpr ⟨?_, ?_⟩
  all_goals first
    | exact free inferInstance
    | refine free ?_
      simp only [opNop, opAppCall, opToAltStack, opXDrop, opDepth, opDrop, opDup, opNip, opOver,
        opRot, opSwap, opTuck, opCat, opLeft, opRight, opSize, opInvert, opEqual, opBigInt, opNot,
        opNz, opBoolZip, opBigIntComp, opWithIn, opHash, opArraySize, opUnpack]
      infer_instance
    | exact free opXSwap_harmless
    | exact free opPack_harmless
    | intro engine proper safe
      with_reducible first
        | exact opBigIntZip_harmless proper safe
        | refine opJmp_harmless _ proper ?_
        | refine opCall_harmless proper ?_
        | refine opRet_harmless proper ?_
        | refine opSysCall_harmless proper ?_
        | refine opFromAltStack_harmless proper ?_
        | refine opXTuck_harmless proper ?_
        | refine opPick_harmless proper ?_
        | refine opRoll_harmless proper ?_
        | refine opSubStr_harmless _ proper ?_
        | refine opPickItem_harmless proper ?_
        | refine opCheckSig_harmless message total proper ?_
        | refine opCheckMultiSig_harmless message total maxSteps proper ?_ ?_
      all_goals first
        | exact safe
        | exact safe.1
        | exact safe.2

end Conditional

end Handler

/-! ## Runs -/

section Runs

variable {crypto : Primitives} {message : Bytes} {maxSteps : Int}
  (total : ∀ message signature key, DecodableKey key →
    crypto.verifySignature message signature key ≠ none)

include total

omit total in
/-- Pushes need nothing. -/
theorem safe_push {op : OpCode} (push : ¬ op > 0x60) (engine : ExecutionEngine) :
    Safe maxSteps op engine := by
  unfold Safe
  split <;> trivial

theorem executeOp_harmless {op : OpCode} {engine : ExecutionEngine} (proper : Proper engine)
    (safe : Invokes crypto message maxSteps op engine → Safe maxSteps op engine) :
    (executeOp crypto message maxSteps op).Ends engine (fun _ => Proper) (fun _ _ => False)
      (fun _ => False) := by
  rw [executeOp, Action.ends_bind, Action.ends_get, Action.ends_ite]
  refine ⟨fun _ => proper, fun allowed => ?_⟩
  rw [Action.ends_ite]
  refine ⟨fun _ => proper, fun counted => ?_⟩
  rw [Action.ends_ite]
  refine ⟨fun _ => ?_, fun _ => ?_⟩
  · have pushed : IsHarmless 0 (readBytes op.toNat >>= pushByteArray) := inferInstance
    exact pushed.harmless proper (Nat.zero_le _)
  · cases found : (opExecList crypto message maxSteps).lookup op with
    | none => exact proper
    | some handler =>
      have entry : (op, handler) ∈ opExecList crypto message maxSteps := by
        obtain ⟨before, after, split, _⟩ := List.lookup_eq_some_iff.mp found
        simp [split]
      have condition : Safe maxSteps op engine := by
        by_cases high : op > 0x60
        · exact safe ⟨high, fun refused => allowed ⟨high, refused⟩,
            not_lt.mp fun beyond => counted ⟨high, beyond⟩, by rw [found]; rfl⟩
        · exact safe_push high engine
      rw [ends_runHandler]
      exact opExecList_harmless message total maxSteps _ entry engine proper condition

/-- Between turns there are only stack items, and the engine has not panicked. -/
def Point.Proper : Point → Prop
  | .outer engine | .inner engine => Vm.Proper engine
  | .crashed _ => False

theorem Turn.proper {point next : Point} {event : Event}
    (turned : Turn crypto message maxSteps point event next) (proper : point.Proper)
    (safe : ∀ op engine, event = .opcode op engine →
      Invokes crypto message maxSteps op engine → Safe maxSteps op engine) : next.Proper := by
  cases turned with
  | halt | enter | leave => exact ⟨proper.1, proper.2⟩
  | @opcode engine op rest next running reader continues =>
    have fetched : Vm.Proper (engine.fetched rest) := ⟨proper.1, proper.2⟩
    have ends := executeOp_harmless total fetched (safe op _ rfl)
    unfold Action.Ends at ends
    cases continues with
    | next ran => rw [ran] at ends; exact ends
    | fault ran => rw [ran] at ends; exact ⟨ends.1, ends.2⟩
    | crash ran => rw [ran] at ends; exact ends

/-- A point of a run whose opcodes were safe. -/
structure Point.Healthy (point : Point) : Prop where
  regular : point.Regular
  proper : point.Proper

theorem healthy_of_steps {start point : Point} {events : List Event}
    (steps : (turn crypto message maxSteps).Steps start events point) (healthy : start.Healthy)
    (safe : ∀ op engine, .opcode op engine ∈ events →
      Invokes crypto message maxSteps op engine → Safe maxSteps op engine) : point.Healthy :=
  steps.preserves
    (fun event => ∀ op engine, event = .opcode op engine →
      Invokes crypto message maxSteps op engine → Safe maxSteps op engine)
    (fun healthy step allowed =>
      have turned := Turn.of_turn healthy.regular step
      ⟨turned.regular healthy.regular, turned.proper total healthy.proper allowed⟩)
    (fun _ member op engine same => safe op engine (same ▸ member)) healthy

end Runs

end DnaPow.Vm
