import DnaPow.Std.FromEnd
import DnaPow.Vm.Operands

/-!
# The random-access stack as a list with its top first

What the methods of `RandomAccessStack` are for is said about the list with the top
first: positions are counted from the top. The methods keep the top at the end of a
slice. `Peek` and `Remove` count positions from there; `Set` and `Swap` forget to, and
`Insert` nests the part of the stack below the new item as a single element.
-/

namespace DnaPow.Vm

open DnaPow.Std Common

/-- `Set`, which counts from the bottom of the stack. -/
def RandomAccessStack.set (stack : RandomAccessStack) (index : Nat) (item : Item) :
    RandomAccessStack :=
  if index ≥ stack.length then stack else List.set stack index item

/-- A call of a method with an index. -/
inductive StackCall where
  | insert (index : Nat) (item : Item)
  | peek (index : Nat)
  | remove (index : Nat)
  | set (index : Nat) (item : Item)
  | swap (first second : Nat)

namespace StackCall

/-- The value returned, `nil` if there is none, and the stack afterwards. -/
def perform (stack : RandomAccessStack) : StackCall → Item × RandomAccessStack
  | insert index item => (.foreign, stack.insert index item)
  | peek index => (stack.peek index, stack)
  | remove index => stack.remove index
  | set index item => (.foreign, RandomAccessStack.set stack index item)
  | swap first second => (.foreign, stack.swap first second)

/-- The indexes that a call may have on a stack with so many items. -/
def InRange (count : Nat) : StackCall → Prop
  | insert index _ => index ≤ count
  | peek index => index ≤ count
  | remove index => index ≤ count
  | set index _ => index ≤ count
  | swap first second => first < count ∧ second < count

/-- What a call is for, on lists with the top first. -/
def Meets (before : List Item) : StackCall → Item × List Item → Prop
  | insert index item, (_, after) => after = before.take index ++ item :: before.drop index
  | peek index, (found, after) => found = before.getD index .foreign ∧ after = before
  | remove index, (found, after) =>
      found = before.getD index .foreign ∧ after = before.eraseIdx index
  | set index item, (_, after) => after = List.set before index item
  | swap first second, (_, after) => Exchanged before after first second

/-- The call does on the list with the top first what it is for. -/
def Lawful (stack : RandomAccessStack) (call : StackCall) : Prop :=
  call.Meets stack.reverse ((call.perform stack).1, (call.perform stack).2.reverse)

/-- The stacks on which counting from the wrong end, or nesting the lower part, makes no
difference. -/
def Fits (stack : RandomAccessStack) : StackCall → Prop
  | insert index _ => index = 0 ∨ stack.take (stack.length - index) = [.foreign]
  | peek _ => True
  | remove _ => True
  | set index item =>
      index = stack.length ∨ 2 * index + 1 = stack.length ∨
        stack[index]? = some item ∧ stack[stack.length - index - 1]? = some item
  | swap first second =>
      first = second ∨ first + second + 1 = stack.length ∨
        stack[first]? = stack[second]? ∧
          stack[stack.length - first - 1]? = stack[stack.length - second - 1]?

variable {stack : RandomAccessStack} {index first second : Nat} {item : Item}

theorem insert_lawful_iff (inRange : index ≤ stack.length) :
    (insert index item).Lawful stack ↔ (insert index item).Fits stack := by
  change (stack.insert index item).reverse =
    stack.reverse.take index ++ item :: stack.reverse.drop index ↔ _
  rw [← reverse_insert, List.reverse_inj, RandomAccessStack.insert, if_neg (by omega), Fits]
  by_cases top : index = 0
  · subst top
    simp
  · rw [if_neg top]
    have same : .foreign :: item :: stack.drop (stack.length - index) =
        stack.take (stack.length - index) ++ item :: stack.drop (stack.length - index) ↔
        [.foreign] = stack.take (stack.length - index) :=
      @List.append_left_inj _ [Item.foreign] _ (item :: stack.drop (stack.length - index))
    rw [same]
    simp [top, eq_comm]

theorem peek_eq (stack : RandomAccessStack) (index : Nat) :
    stack.peek index = stack.reverse.getD index .foreign := by
  rw [RandomAccessStack.peek, List.getD_eq_getElem?_getD, List.getD_eq_getElem?_getD]
  by_cases inside : index < stack.length
  · rw [if_neg (by omega), reverse_getElem? inside]
  · rw [if_pos (by omega), List.getElem?_eq_none (by simp; omega), Option.getD_none]

theorem remove_lawful (stack : RandomAccessStack) (index : Nat) :
    (remove index).Lawful stack := by
  change (stack.remove index).1 = _ ∧ (stack.remove index).2.reverse = _
  rw [RandomAccessStack.remove, ← peek_eq]
  by_cases inside : index < stack.length
  · rw [if_neg (by omega)]
    exact ⟨rfl, reverse_eraseIdx inside⟩
  · rw [if_pos (by omega), List.eraseIdx_of_length_le (by simp; omega)]
    exact ⟨by rw [RandomAccessStack.peek, if_pos (by omega)], rfl⟩

theorem set_lawful_iff (inRange : index ≤ stack.length) :
    (set index item).Lawful stack ↔ (set index item).Fits stack := by
  change (RandomAccessStack.set stack index item).reverse = List.set stack.reverse index item ↔ _
  rw [RandomAccessStack.set, Fits]
  by_cases inside : index < stack.length
  · rw [if_neg (by omega), ← reverse_set inside, List.reverse_inj,
      set_eq_set_iff inside (by omega)]
    have middle : index = stack.length - index - 1 ↔ 2 * index + 1 = stack.length := by omega
    have notEnd : index ≠ stack.length := by omega
    simp [middle, notEnd]
  · rw [if_pos (by omega), List.set_eq_of_length_le (by simp; omega)]
    simp [show index = stack.length by omega]

/-- `Swap` exchanges the positions counted from the bottom. -/
theorem swap_exchanged (isFirst : first < stack.length) (isSecond : second < stack.length) :
    Exchanged stack (stack.swap first second) first second := by
  intro p
  have read {k : Nat} (inside : k < stack.length) : some (stack.getD k .foreign) = stack[k]? := by
    rw [List.getD_eq_getElem?_getD, List.getElem?_eq_getElem inside, Option.getD_some]
  rw [RandomAccessStack.swap, Equiv.swap_apply_def]
  split_ifs with atFirst atSecond
  · rw [atFirst]
    by_cases equal : second = first
    · rw [equal, List.getElem?_set_self (by simpa using isFirst), read isFirst]
    · rw [List.getElem?_set_ne equal, List.getElem?_set_self isFirst, read isSecond]
  · rw [atSecond, List.getElem?_set_self (by simpa using isSecond), read isFirst]
  · rw [List.getElem?_set_ne (Ne.symm atSecond), List.getElem?_set_ne (Ne.symm atFirst)]

theorem swap_lawful_iff (isFirst : first < stack.length) (isSecond : second < stack.length) :
    (swap first second).Lawful stack ↔ (swap first second).Fits stack :=
  exchanged_reverse_iff isFirst isSecond (swap_exchanged isFirst isSecond)

theorem lawful_iff (call : StackCall) (inRange : call.InRange stack.length) :
    call.Lawful stack ↔ call.Fits stack := by
  cases call with
  | insert index item => exact insert_lawful_iff inRange
  | peek index => exact iff_of_true ⟨peek_eq stack index, rfl⟩ True.intro
  | remove index => exact iff_of_true (remove_lawful stack index) True.intro
  | set index item => exact set_lawful_iff inRange
  | swap first second => exact swap_lawful_iff inRange.1 inRange.2

end StackCall

/-- The opcodes that take an index into the stack from its top. -/
inductive StackOpcode where
  | xDrop
  | xSwap
  | xTuck
  | pick
  | roll

namespace StackOpcode

def handler : StackOpcode → Handler Unit
  | xDrop => Handler.opXDrop
  | xSwap => Handler.opXSwap
  | xTuck => Handler.opXTuck
  | pick => Handler.opPick
  | roll => Handler.opRoll

/-- What an opcode does to the item `n` below the top of the stack, top first: drop it,
exchange it with the top, put a copy of the top above it, copy it or move it to the top. -/
def Meets (n : Nat) (before after : List Item) : StackOpcode → Prop
  | xDrop => after = before.eraseIdx n
  | xSwap => Exchanged before after 0 n
  | xTuck => after = before.take n ++ before.getD 0 .foreign :: before.drop n
  | pick => after = before.getD n .foreign :: before
  | roll => after = before.getD n .foreign :: before.eraseIdx n

/-- The handler succeeds and does to the stack under its operand what the opcode is for. -/
def Lawful (op : StackOpcode) (engine : ExecutionEngine) (base : RandomAccessStack) (n : Nat) :
    Prop :=
  ∃ after more, op.handler.run engine = (.ok (), engine.holding after more) ∧
    op.Meets n base.reverse after.reverse

/-- The call of a stack method behind an opcode. -/
def call (op : StackOpcode) (base : RandomAccessStack) (n : Nat) : StackCall :=
  match op with
  | xDrop => .remove n
  | xSwap => .swap 0 n
  | xTuck => .insert n (base.peek 0)
  | pick => .peek n
  | roll => .remove n

/-- The stack that the handler leaves. -/
def leaves (op : StackOpcode) (base : RandomAccessStack) (n : Nat) : RandomAccessStack :=
  match op with
  | xDrop => (base.remove n).2
  | xSwap => base.swap 0 n
  | xTuck => base.insert n (base.peek 0)
  | pick => base ++ [base.peek n]
  | roll => (base.remove n).2 ++ [(base.remove n).1]

variable {engine : ExecutionEngine} {base : RandomAccessStack} {item : Item} {n : Nat}
  {more : List Int}

/-- The handlers with their operand on top of the stack. -/
theorem run_popped (op : StackOpcode) {value : Int} (two : 2 ≤ engine.evaluationStack.length)
    (popped : Handler.popInt.run engine = (.ok value, engine.holding base more))
    (nonnegative : 0 ≤ value) (next : wrap64 (value + 1) = value + 1)
    (inside : value < base.length) :
    op.handler.run engine = (.ok (), engine.holding (op.leaves base value.toNat) more) := by
  have notNegative : ¬ value < 0 := by omega
  have notBeyond : ¬ (value < 0 ∨ value > (base.length : Int) - 1) := by omega
  have enough : ¬ (base.length : Int) < value + 1 := by omega
  have one := Handler.run_needCount (Nat.le_of_succ_le two)
  cases op with
  | xDrop =>
    simp only [handler, Handler.opXDrop, Action.run_bind, one, popped, if_neg notNegative,
      Action.run_modify, leaves]
    rfl
  | xSwap =>
    simp only [handler, Handler.opXSwap, Action.run_bind, one, popped, Handler.run_count,
      ExecutionEngine.holding_evaluationStack, if_neg notBeyond, Action.run_modify, leaves]
    rfl
  | xTuck =>
    simp only [handler, Handler.opXTuck, Action.run_bind, one, popped, Handler.run_count,
      ExecutionEngine.holding_evaluationStack, if_neg notBeyond, Action.run_modify, leaves]
    rfl
  | pick =>
    simp only [handler, Handler.opPick, Action.run_bind, Handler.run_needCount two, popped,
      Handler.run_count, ExecutionEngine.holding_evaluationStack, next, notNegative, enough,
      or_self, if_false, Action.run_get, Handler.run_pushItem, leaves,
      ExecutionEngine.holding_holding, List.append_nil]
  | roll =>
    simp only [handler, Handler.opRoll, Action.run_bind, Handler.run_needCount two, popped, next,
      if_neg notNegative]
    by_cases top : value = 0
    · -- the code returns at once; taking out the top and pushing it back is the same
      obtain ⟨below, last, rfl⟩ := List.eq_nil_or_concat base |>.resolve_left
        (List.ne_nil_of_length_pos (by omega))
      subst top
      have back : RandomAccessStack.remove (below ++ [last]) 0 = (last, below) :=
        RandomAccessStack.pop_append below last
      simp [leaves, back]
    · simp only [if_neg top, Action.run_bind, Handler.run_count, Action.run_get,
        ExecutionEngine.holding_evaluationStack, if_neg enough, Action.run_modify,
        Handler.run_pushItem, leaves]
      simp [ExecutionEngine.holding]

theorem run_handler (op : StackOpcode) (stack : engine.evaluationStack = base ++ [item])
    (denotes : item.number engine.integers = some (n : Int)) (inside : n < base.length)
    (small : base.length < 2 ^ 63) :
    ∃ more, op.handler.run engine = (.ok (), engine.holding (op.leaves base n) more) := by
  obtain ⟨more, popped⟩ := Handler.run_popInt stack denotes
  have two : 2 ≤ engine.evaluationStack.length := by
    rw [stack, List.length_append, List.length_singleton]
    exact Nat.succ_le_succ (Nat.zero_lt_of_lt inside)
  rw [wrap64_natCast (Nat.lt_trans inside small)] at popped
  have next : wrap64 ((n : Int) + 1) = n + 1 := wrap64_natCast (Nat.lt_of_le_of_lt inside small)
  exact ⟨more, op.run_popped two popped (Int.natCast_nonneg n) next (Int.ofNat_lt.mpr inside)⟩

/-- The stack that the handler leaves is the one the opcode is for exactly if the stack
method behind it does what it is for. -/
theorem leaves_meets_iff (op : StackOpcode) (base : RandomAccessStack) (n : Nat) :
    op.Meets n base.reverse (op.leaves base n).reverse ↔ (op.call base n).Lawful base := by
  have removed := StackCall.remove_lawful base n
  cases op with
  | xDrop => exact iff_of_true removed.2 removed
  | xSwap => exact Iff.rfl
  | xTuck =>
    rw [Meets, ← StackCall.peek_eq]
    exact Iff.rfl
  | pick =>
    have found := StackCall.peek_eq base n
    refine iff_of_true ?_ ⟨found, rfl⟩
    rw [Meets, leaves, List.reverse_append, found]
    rfl
  | roll =>
    refine iff_of_true ?_ removed
    rw [Meets, leaves, List.reverse_append, ← removed.1, ← removed.2]
    rfl

theorem call_inRange (op : StackOpcode) (inside : n < base.length) :
    (op.call base n).InRange base.length := by
  cases op with
  | xSwap => exact ⟨Nat.zero_lt_of_lt inside, inside⟩
  | xDrop => exact Nat.le_of_lt inside
  | xTuck => exact Nat.le_of_lt inside
  | pick => exact Nat.le_of_lt inside
  | roll => exact Nat.le_of_lt inside

theorem lawful_iff (op : StackOpcode) (stack : engine.evaluationStack = base ++ [item])
    (denotes : item.number engine.integers = some (n : Int)) (inside : n < base.length)
    (small : base.length < 2 ^ 63) :
    op.Lawful engine base n ↔ (op.call base n).Fits base := by
  obtain ⟨more, ran⟩ := op.run_handler stack denotes inside small
  rw [← StackCall.lawful_iff _ (op.call_inRange inside), ← op.leaves_meets_iff base n]
  constructor
  · rintro ⟨after, others, ran', meets⟩
    rw [ran] at ran'
    have same : op.leaves base n = after :=
      congrArg ExecutionEngine.evaluationStack (Prod.mk.inj ran').2
    rwa [same]
  · intro meets
    exact ⟨op.leaves base n, more, ran, meets⟩

end StackOpcode

/-- An engine with three items and the index 1 above them. -/
def indexed : ExecutionEngine :=
  { ExecutionEngine.new with
    evaluationStack := [.boolean false, .boolean true, .byteArray [], .boolean true] }

end DnaPow.Vm
