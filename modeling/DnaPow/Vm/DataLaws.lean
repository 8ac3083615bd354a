import DnaPow.Vm.Operands

/-!
# Laws of the splice and array opcodes

Short programs over an arbitrary evaluation stack: what `LEFT`, `RIGHT`, `CAT` and
`SUBSTR` make of a byte string, and what `UNPACK`, `ARRAYSIZE` and `PICKITEM` find in
the array that `PACK` makes.
-/

namespace DnaPow.Vm

open DnaPow.Std Common

/-- The item is a number, whatever integers are made later. -/
def Item.IsNumber (integers : List Int) (item : Item) (value : Int) : Prop :=
  ∀ more, item.number (integers ++ more) = some value

namespace Handler

/-- The handler succeeds and leaves the given evaluation stack. -/
def Leaves (call : Handler Unit) (engine : ExecutionEngine) (stack : RandomAccessStack) : Prop :=
  ∃ more, call.run engine = (.ok (), engine.holding stack more)

variable {engine : ExecutionEngine} {base : RandomAccessStack} {s : Bytes}
  {amount : Item} {k : Nat} {spare : Bytes → Option UInt8} {i c : Nat} {items : List Item}

/-! ## Splices -/

/-- `LEFT` and `RIGHT` cut a string at a number of bytes. -/
theorem cut_leaves {call : Handler Unit} (cut : Bytes → Nat → Bytes) (source : call = (do
      needCount 2
      let amount ← popInt
      if amount < 0 then
        Action.throw .silent
      else do
        let s ← popByteArray
        if amount > s.length then Action.throw .silent else pushByteArray (cut s amount.toNat)))
    (stack : engine.evaluationStack = base ++ [Item.byteArray s] ++ [amount])
    (denotes : amount.number engine.integers = some (k : Int)) (inside : k ≤ s.length)
    (small : s.length < 2 ^ 63) :
    call.Leaves engine (base ++ [Item.byteArray (cut s k)]) := by
  obtain ⟨more, popped⟩ := run_popInt stack denotes
  rw [wrap64_natCast (Nat.lt_of_le_of_lt inside small)] at popped
  have two : 2 ≤ engine.evaluationStack.length := by simp [stack]
  have bytes := @run_popByteArray (engine.holding (base ++ [Item.byteArray s]) more) base
    (.byteArray s) s rfl rfl
  refine ⟨more, ?_⟩
  simp only [source, Action.run_bind, run_needCount two, popped,
    if_neg (Int.not_lt.mpr (Int.natCast_nonneg k)), bytes,
    if_neg (Int.not_lt.mpr (Int.ofNat_le.mpr inside)), run_pushByteArray, Int.toNat_natCast]
  simp

theorem opLeft_leaves (stack : engine.evaluationStack = base ++ [Item.byteArray s] ++ [amount])
    (denotes : amount.number engine.integers = some (k : Int)) (inside : k ≤ s.length)
    (small : s.length < 2 ^ 63) : opLeft.Leaves engine (base ++ [Item.byteArray (s.take k)]) :=
  cut_leaves (fun s k => s.take k) rfl stack denotes inside small

theorem opRight_leaves (stack : engine.evaluationStack = base ++ [Item.byteArray s] ++ [amount])
    (denotes : amount.number engine.integers = some (k : Int)) (inside : k ≤ s.length)
    (small : s.length < 2 ^ 63) :
    opRight.Leaves engine (base ++ [Item.byteArray (s.drop (s.length - k))]) :=
  cut_leaves (fun s k => s.drop (s.length - k)) rfl stack denotes inside small

/-- `CAT` joins strings of equal length only. -/
theorem run_opCat {b1 b2 : Bytes}
    (stack : engine.evaluationStack = base ++ [Item.byteArray b1] ++ [Item.byteArray b2]) :
    opCat.run engine =
      if b1.length = b2.length then
        (.ok (), engine.holding (base ++ [Item.byteArray (b1 ++ b2)]) [])
      else (.error .silent, engine.holding base []) := by
  have two : 2 ≤ engine.evaluationStack.length := by simp [stack]
  have below := @run_popItem (engine.holding (base ++ [Item.byteArray b1]) []) base
    (.byteArray b1) rfl
  simp only [opCat, Action.run_bind, run_needCount two, run_popItem stack, below, getByteArray,
    Action.run_pure]
  by_cases same : b1.length = b2.length
  · rw [if_pos same, if_neg (not_not.mpr same), run_pushByteArray]
    simp
  · rw [if_neg same, if_pos same]
    simp

/-- A slice that is made has the length asked for, also if it reaches past the end. -/
theorem length_of_slice {low high : Int} {value : Bytes}
    {after : ExecutionEngine} (made : (slice spare s low high).run engine = (.ok value, after)) :
    (value.length : Int) = high - low := by
  unfold slice at made
  split_ifs at made with outside within
  · cases made
  · cases made
    simp only [List.length_drop, List.length_take]
    omega
  · cases found : spare s with
    | none =>
      rw [found] at made
      cases made
    | some byte =>
      rw [found] at made
      cases made
      simp only [List.length_drop, List.length_append, List.length_singleton]
      omega

/-- The programs of the laws: `LEFT` and `RIGHT` of a string, joined; a part of a string;
the same part as `LEFT` of `RIGHT`. -/
def splitAndJoin (s : Bytes) (left right : Item) : Handler Unit := do
  pushByteArray s
  pushItem left
  opLeft
  pushByteArray s
  pushItem right
  opRight
  opCat

@[inherit_doc splitAndJoin]
def subStrOf (spare : Bytes → Option UInt8) (s : Bytes) (index amount : Item) : Handler Unit := do
  pushByteArray s
  pushItem index
  pushItem amount
  opSubStr spare

@[inherit_doc splitAndJoin]
def leftOfRight (s : Bytes) (right left : Item) : Handler Unit := do
  pushByteArray s
  pushItem right
  opRight
  pushItem left
  opLeft

theorem splitAndJoin_leaves_iff {left right : Item} (inside : k ≤ s.length)
    (small : s.length < 2 ^ 63) (isLeft : left.IsNumber engine.integers k)
    (isRight : right.IsNumber engine.integers (s.length - k : Nat)) :
    (splitAndJoin s left right).Leaves engine (engine.evaluationStack ++ [Item.byteArray s]) ↔
      2 * k = s.length := by
  have cutLeft := @opLeft_leaves
    (engine.holding (engine.evaluationStack ++ [Item.byteArray s] ++ [left]) [])
    engine.evaluationStack s left k rfl (isLeft _) inside small
  obtain ⟨made, ranLeft⟩ := cutLeft
  have cutRight := @opRight_leaves
    (engine.holding
      (engine.evaluationStack ++ [Item.byteArray (s.take k)] ++ [Item.byteArray s] ++ [right])
      made) (engine.evaluationStack ++ [Item.byteArray (s.take k)]) s right (s.length - k) rfl
    (isRight _) (Nat.sub_le _ _) small
  obtain ⟨more, ranRight⟩ := cutRight
  rw [Nat.sub_sub_self inside] at ranRight
  have joined := @run_opCat (engine.holding
    (engine.evaluationStack ++ [Item.byteArray (s.take k)] ++ [Item.byteArray (s.drop k)])
    (made ++ more)) engine.evaluationStack (s.take k) (s.drop k) rfl
  have ran : (splitAndJoin s left right).run engine = opCat.run (engine.holding
      (engine.evaluationStack ++ [Item.byteArray (s.take k)] ++ [Item.byteArray (s.drop k)])
      (made ++ more)) := by
    simp only [ExecutionEngine.holding_holding, List.nil_append] at ranLeft ranRight
    simp only [splitAndJoin, Action.run_bind, run_pushByteArray, run_pushItem,
      ExecutionEngine.holding_holding, ExecutionEngine.holding_evaluationStack, List.append_nil,
      ranLeft, ranRight]
  have halves : (s.take k).length = (s.drop k).length ↔ 2 * k = s.length := by
    rw [List.length_take, List.length_drop]
    omega
  rw [Leaves, ran, joined, ← halves, List.take_append_drop]
  by_cases half : (s.take k).length = (s.drop k).length
  · exact iff_of_true ⟨made ++ more, by
      rw [if_pos half, ExecutionEngine.holding_holding, List.append_nil]⟩ half
  · refine iff_of_false ?_ half
    rintro ⟨others, ended⟩
    rw [if_neg half] at ended
    cases ended

/-- `SUBSTR` on its operands. -/
theorem run_opSubStr {index amount : Item}
    (stack : engine.evaluationStack = base ++ [Item.byteArray s] ++ [index] ++ [amount])
    (isIndex : index.IsNumber engine.integers i)
    (isAmount : amount.number engine.integers = some (c : Int)) (inside : i + c ≤ s.length)
    (small : s.length + 1 < 2 ^ 63) :
    ∃ more, (opSubStr spare).run engine =
      (slice spare s i (s.length + 1 - (i + c) : Nat) >>= pushByteArray).run
        (engine.holding base more) := by
  obtain ⟨first, poppedAmount⟩ := run_popInt stack isAmount
  have poppedIndex := @run_popInt (engine.holding (base ++ [Item.byteArray s] ++ [index]) first)
    (base ++ [Item.byteArray s]) index i rfl (isIndex first)
  obtain ⟨second, poppedIndex⟩ := poppedIndex
  rw [wrap64_natCast (by omega)] at poppedAmount poppedIndex
  have three : 3 ≤ engine.evaluationStack.length := by simp [stack]
  have bytes := @run_popByteArray
    (engine.holding (base ++ [Item.byteArray s]) (first ++ second)) base (.byteArray s) s rfl rfl
  have sum : wrap64 ((i : Int) + c) = (i + c : Nat) := wrap64_natCast (by omega)
  have bound : wrap64 ((s.length : Int) - (i + c : Nat) + 1) = (s.length + 1 - (i + c) : Nat) := by
    have same : (s.length : Int) - (i + c : Nat) + 1 = (s.length + 1 - (i + c) : Nat) := by omega
    rw [same]
    exact wrap64_natCast (by omega)
  refine ⟨first ++ second, ?_⟩
  rw [ExecutionEngine.holding_holding] at poppedIndex
  simp only [opSubStr, Action.run_bind, run_needCount three, poppedAmount, poppedIndex,
    if_neg (Int.not_lt.mpr (Int.natCast_nonneg _)), bytes, sum, bound,
    if_neg (Int.not_lt.mpr (Int.ofNat_le.mpr inside)), ExecutionEngine.holding_holding,
    List.append_nil]

theorem subStrOf_leaves_iff {index amount : Item}
    (inside : i + c ≤ s.length) (small : s.length + 1 < 2 ^ 63)
    (isIndex : index.IsNumber engine.integers i) (isAmount : amount.IsNumber engine.integers c) :
    (subStrOf spare s index amount).Leaves engine
        (engine.evaluationStack ++ [Item.byteArray ((s.drop i).take c)]) ↔
      2 * (i + c) = s.length + 1 := by
  have onOperands := @run_opSubStr
    (engine.holding (engine.evaluationStack ++ [Item.byteArray s] ++ [index] ++ [amount]) [])
    engine.evaluationStack s spare i c index amount rfl
    (fun more => by rw [ExecutionEngine.holding_integers, List.append_nil]; exact isIndex more)
    (isAmount _) inside small
  obtain ⟨more, onOperands⟩ := onOperands
  have ran : (subStrOf spare s index amount).run engine =
      (slice spare s i (s.length + 1 - (i + c) : Nat) >>= pushByteArray).run
        (engine.holding engine.evaluationStack more) := by
    rw [ExecutionEngine.holding_holding, List.nil_append] at onOperands
    simp only [subStrOf, Action.run_bind, run_pushByteArray, run_pushItem,
      ExecutionEngine.holding_holding, ExecutionEngine.holding_evaluationStack, List.append_nil,
      onOperands]
  rw [Leaves, ran, Action.run_bind]
  constructor
  · rintro ⟨others, ended⟩
    generalize made : (slice spare s i (s.length + 1 - (i + c) : Nat)).run
      (engine.holding engine.evaluationStack more) = ending at ended
    obtain ⟨result, after⟩ := ending
    cases result with
    | ok value =>
      -- what was pushed is the slice, and its length tells the bound
      change (pushByteArray value).run after = _ at ended
      rw [run_pushByteArray] at ended
      have pushed := congrArg ExecutionEngine.evaluationStack (Prod.mk.inj ended).2
      have last := (List.append_inj' pushed rfl).2
      have length := length_of_slice made
      simp only [List.cons.injEq, Item.byteArray.injEq, and_true] at last
      rw [last, List.length_take, List.length_drop] at length
      omega
    | error reason => cases ended
    | panic => cases ended
  · intro half
    have bound : s.length + 1 - (i + c) = i + c := by omega
    have made : slice spare s (i : Int) (s.length + 1 - (i + c) : Nat) =
        pure ((s.drop i).take c) := by
      rw [bound, slice, if_neg (by omega), if_pos (by omega), Int.toNat_natCast, Int.toNat_natCast,
        List.drop_take, Nat.add_sub_cancel_left]
    refine ⟨more, ?_⟩
    rw [made, Action.run_pure]
    change (pushByteArray _).run _ = _
    rw [run_pushByteArray]
    simp

theorem leftOfRight_leaves {right left : Item} (inside : i + c ≤ s.length)
    (small : s.length < 2 ^ 63) (isRight : right.IsNumber engine.integers (s.length - i : Nat))
    (isLeft : left.IsNumber engine.integers c) :
    (leftOfRight s right left).Leaves engine
      (engine.evaluationStack ++ [Item.byteArray ((s.drop i).take c)]) := by
  have cutRight := @opRight_leaves
    (engine.holding (engine.evaluationStack ++ [Item.byteArray s] ++ [right]) [])
    engine.evaluationStack s right (s.length - i) rfl (isRight _) (Nat.sub_le _ _) small
  obtain ⟨made, ranRight⟩ := cutRight
  rw [Nat.sub_sub_self (Nat.le_of_add_right_le inside)] at ranRight
  have cutLeft := @opLeft_leaves
    (engine.holding (engine.evaluationStack ++ [Item.byteArray (s.drop i)] ++ [left]) made)
    engine.evaluationStack (s.drop i) left c rfl (isLeft _)
    (by rw [List.length_drop]; omega) (by rw [List.length_drop]; omega)
  obtain ⟨more, ranLeft⟩ := cutLeft
  refine ⟨made ++ more, ?_⟩
  simp only [ExecutionEngine.holding_holding, List.nil_append] at ranLeft ranRight
  simp only [leftOfRight, Action.run_bind, run_pushByteArray, run_pushItem,
    ExecutionEngine.holding_holding, ExecutionEngine.holding_evaluationStack, List.append_nil,
    ranRight, ranLeft]

/-! ## Arrays -/

theorem run_popItems (n : Nat) (enough : n ≤ engine.evaluationStack.length) :
    (popItems n).run engine = (.ok (engine.evaluationStack.reverse.take n),
      engine.holding (engine.evaluationStack.take (engine.evaluationStack.length - n)) []) := by
  induction n generalizing engine with
  | zero =>
    rw [popItems, Action.run_pure, Nat.sub_zero, List.take_length]
    simp [ExecutionEngine.holding]
  | succ n ih =>
    obtain ⟨below, top, stack⟩ := List.eq_nil_or_concat engine.evaluationStack |>.resolve_left
      (List.ne_nil_of_length_pos (by omega))
    rw [List.concat_eq_append] at stack
    have height : engine.evaluationStack.length = below.length + 1 := by simp [stack]
    have rest := @ih (engine.holding below []) (by
      rw [ExecutionEngine.holding_evaluationStack]
      omega)
    simp only [popItems, Action.run_bind, run_popItem stack, rest, Action.run_pure, stack]
    simp [Nat.add_sub_add_right, List.take_append_of_le_length (Nat.sub_le below.length n)]

/-- Pushing items one by one. -/
theorem run_pushItems (items : List Item) :
    (items.forM pushItem).run engine =
      (.ok (), engine.holding (engine.evaluationStack ++ items) []) := by
  induction items generalizing engine with
  | nil =>
    simp [ExecutionEngine.holding]
  | cons first rest ih =>
    change (pushItem first >>= fun _ => rest.forM pushItem).run engine = _
    rw [Action.run_bind_of_ok (run_pushItem engine first), ih]
    simp

theorem run_popArray (stack : engine.evaluationStack = base ++ [Item.array items]) :
    popArray.run engine = (.ok items, engine.holding base []) := by
  rw [popArray, Action.run_bind_of_ok (run_popItem stack), getArray, Action.run_pure]

theorem opPack_leaves {size : Item} {n : Nat} (stack : engine.evaluationStack = base ++ [size])
    (denotes : size.number engine.integers = some (n : Int)) (enough : n ≤ base.length)
    (small : base.length < 2 ^ 63) :
    opPack.Leaves engine (base.take (base.length - n) ++ [Item.array (base.reverse.take n)]) := by
  obtain ⟨more, popped⟩ := run_popInt stack denotes
  rw [wrap64_natCast (Nat.lt_of_le_of_lt enough small)] at popped
  have one : 1 ≤ engine.evaluationStack.length := by simp [stack]
  have inside : ¬ ((n : Int) < 0 ∨ (n : Int) > (base.length : Nat)) := by
    rintro (negative | beyond)
    · exact absurd negative (Int.not_lt.mpr (Int.natCast_nonneg n))
    · exact absurd beyond (Int.not_lt.mpr (Int.ofNat_le.mpr enough))
  refine ⟨more, ?_⟩
  simp only [opPack, Action.run_bind, run_needCount one, popped, run_count,
    ExecutionEngine.holding_evaluationStack, if_neg inside, Int.toNat_natCast,
    @run_popItems (engine.holding base more) n enough, run_pushItem]
  simp

/-- The handler succeeds and leaves a number on top of the given evaluation stack. -/
def LeavesNumber (call : Handler Unit) (engine : ExecutionEngine) (stack : RandomAccessStack)
    (value : Int) : Prop :=
  ∃ top more, call.run engine = (.ok (), engine.holding (stack ++ [top]) more) ∧
    top.number (engine.integers ++ more) = some value

theorem opUnpack_leavesNumber (stack : engine.evaluationStack = base ++ [Item.array items]) :
    opUnpack.LeavesNumber engine (base ++ items.reverse) items.length := by
  have one : 1 ≤ engine.evaluationStack.length := by simp [stack]
  refine ⟨.integer engine.integers.length, [(items.length : Int)], ?_, ?_⟩
  · simp only [opUnpack, Action.run_bind, run_needCount one, run_popArray stack, run_pushItems,
      run_pushInteger]
    simp
  · simp [Item.number]

theorem opArraySize_leavesNumber (stack : engine.evaluationStack = base ++ [Item.array items]) :
    opArraySize.LeavesNumber engine base items.length := by
  have one : 1 ≤ engine.evaluationStack.length := by simp [stack]
  refine ⟨.integer engine.integers.length, [(items.length : Int)], ?_, ?_⟩
  · simp only [opArraySize, Action.run_bind, run_needCount one, run_popArray stack,
      run_pushInteger]
    simp
  · simp [Item.number]

/-- A handler after one that leaves a stack. -/
theorem LeavesNumber.after {call next : Handler Unit} {stack result : RandomAccessStack}
    {value : Int} (first : call.Leaves engine stack)
    (second : ∀ more, next.LeavesNumber (engine.holding stack more) result value) :
    (call >>= fun _ => next).LeavesNumber engine result value := by
  obtain ⟨made, ran⟩ := first
  obtain ⟨top, more, ranNext, number⟩ := second made
  refine ⟨top, made ++ more, ?_, ?_⟩
  · rw [Action.run_bind_of_ok ran, ranNext, ExecutionEngine.holding_holding]
  · rw [← List.append_assoc]
    exact number

/-- `PICKITEM` never succeeds: `NewStackItem` takes no stack item. -/
theorem opPickItem_ensures (engine : ExecutionEngine) :
    opPickItem.Ensures engine (fun _ _ => False) fun _ => True := by
  unfold opPickItem
  apply Action.Ensures.bind_any
  intro _ counted
  apply Action.Ensures.bind_any
  intro index popped
  rw [Action.ensures_ite]
  constructor
  · intro _
    exact True.intro
  · intro _
    apply Action.Ensures.bind_any
    intro items after
    rw [Action.ensures_ite]
    exact ⟨fun _ => True.intro, fun _ => True.intro⟩

end Handler

open Handler

/-- Which splices of a byte string are the ones their operands ask for. The string is
shorter than the largest `int`. -/
theorem spliceLaws_iff (engine : ExecutionEngine) (s : Bytes) (small : s.length + 1 < 2 ^ 63) :
    (∀ (left right : Item) (k : Nat), k ≤ s.length → left.IsNumber engine.integers k →
      right.IsNumber engine.integers (s.length - k : Nat) →
      ((splitAndJoin s left right).Leaves engine (engine.evaluationStack ++ [Item.byteArray s]) ↔
        2 * k = s.length)) ∧
    (∀ (spare : Bytes → Option UInt8) (index amount : Item) (i c : Nat), i + c ≤ s.length →
      index.IsNumber engine.integers i → amount.IsNumber engine.integers c →
      ((subStrOf spare s index amount).Leaves engine
          (engine.evaluationStack ++ [Item.byteArray ((s.drop i).take c)]) ↔
        2 * (i + c) = s.length + 1)) ∧
    (∀ (right left : Item) (i c : Nat), i + c ≤ s.length →
      right.IsNumber engine.integers (s.length - i : Nat) → left.IsNumber engine.integers c →
      (leftOfRight s right left).Leaves engine
        (engine.evaluationStack ++ [Item.byteArray ((s.drop i).take c)])) := by
  have shorter : s.length < 2 ^ 63 := Nat.lt_of_succ_lt small
  refine ⟨?_, ?_, ?_⟩
  · intro left right k inside isLeft isRight
    exact splitAndJoin_leaves_iff inside shorter isLeft isRight
  · intro spare index amount i c inside isIndex isAmount
    exact subStrOf_leaves_iff inside small isIndex isAmount
  · intro right left i c inside isRight isLeft
    exact leftOfRight_leaves inside shorter isRight isLeft

theorem spliceLaws_halves :
    (splitAndJoin [7, 8] (.boolean true) (.boolean true)).Leaves .new [.byteArray [7, 8]] ∧
      (subStrOf (fun _ => none) [7] (.boolean false) (.boolean true)).Leaves .new
        [.byteArray [7]] := by
  constructor
  · exact ((spliceLaws_iff .new [7, 8] (by decide)).1 (.boolean true) (.boolean true) 1 (by decide)
      (fun _ => rfl) (fun _ => rfl)).mpr rfl
  · exact ((spliceLaws_iff .new [7] (by decide)).2.1 _ (.boolean false) (.boolean true) 0 1
      (by decide) (fun _ => rfl) (fun _ => rfl)).mpr rfl

/-- A string cut into parts of unequal length cannot be joined, and one byte cut out of two
comes back as both. -/
theorem spliceLaws_broken :
    ¬ (splitAndJoin [7] (.boolean false) (.boolean true)).Leaves .new [.byteArray [7]] ∧
      ¬ (subStrOf (fun _ => none) [7, 8] (.boolean false) (.boolean true)).Leaves .new
        [.byteArray [7]] := by
  constructor
  · intro joined
    have half := (@splitAndJoin_leaves_iff .new [7] 0 (.boolean false) (.boolean true) (by decide)
      (by decide) (fun _ => rfl) (fun _ => rfl)).mp joined
    exact absurd half (by decide)
  · intro cut
    have half := (@subStrOf_leaves_iff .new [7, 8] (fun _ => none) 0 1 (.boolean false)
      (.boolean true) (by decide) (by decide) (fun _ => rfl) (fun _ => rfl)).mp cut
    exact absurd half (by decide)

/-- `PACK` and `UNPACK` restore the stack and leave its size on top. -/
def Unpacks (engine : ExecutionEngine) (base : RandomAccessStack) (n : Nat) : Prop :=
  (opPack >>= fun _ => opUnpack).LeavesNumber engine base n

/-- `ARRAYSIZE` finds the size that `PACK` was given. -/
def Sizes (engine : ExecutionEngine) (base : RandomAccessStack) (n : Nat) : Prop :=
  (opPack >>= fun _ => opArraySize).LeavesNumber engine (base.take (base.length - n)) n

/-- `PICKITEM` finds each packed item at its place from the top. -/
def Picks (engine : ExecutionEngine) (base : RandomAccessStack) (n : Nat) : Prop :=
  ∀ i < n, ∀ index : Item, index.IsNumber engine.integers i →
    (opPack >>= fun _ => pushItem index >>= fun _ => opPickItem).Leaves engine
      (base.take (base.length - n) ++ [base.reverse.getD i .foreign])

theorem not_picks {engine : ExecutionEngine} {base : RandomAccessStack} {n : Nat} (some : 0 < n) :
    ¬ Picks engine base n := by
  intro picks
  obtain ⟨more, ended⟩ := picks 0 some (.boolean false) fun _ => rfl
  have never : (opPack >>= fun _ => pushItem (.boolean false) >>= fun _ => opPickItem).Ensures
      engine (fun _ _ => False) fun _ => True := by
    apply Action.Ensures.bind_any
    intro _ packed
    apply Action.Ensures.bind_any
    intro _ pushed
    exact opPickItem_ensures pushed
  rw [Action.Ensures, ended] at never
  exact never

/-- An engine with an item and the size 1 above it. -/
def sized : ExecutionEngine :=
  { ExecutionEngine.new with evaluationStack := [.byteArray [7], .boolean true] }

/-- The array opcodes on a stack whose top is a size `n`: unpacking and the size are right,
and picking is right only of nothing. -/
theorem arrayLaws_iff {engine : ExecutionEngine} {base : RandomAccessStack} {size : Item} {n : Nat}
    (stack : engine.evaluationStack = base ++ [size])
    (denotes : size.number engine.integers = some (n : Int)) (enough : n ≤ base.length)
    (small : base.length < 2 ^ 63) :
    Unpacks engine base n ∧ Sizes engine base n ∧ (Picks engine base n ↔ n = 0) := by
  have packed := opPack_leaves stack denotes enough small
  have length : (base.reverse.take n).length = n := by
    rw [List.length_take, List.length_reverse, Nat.min_eq_left enough]
  have restored : base.take (base.length - n) ++ (base.reverse.take n).reverse = base := by
    rw [List.take_reverse, List.reverse_reverse, List.take_append_drop]
  refine ⟨?_, ?_, ?_⟩
  · apply LeavesNumber.after packed
    intro more
    have unpacked := @opUnpack_leavesNumber (engine.holding _ more) (base.take (base.length - n))
      (base.reverse.take n) rfl
    rwa [length, restored] at unpacked
  · apply LeavesNumber.after packed
    intro more
    have counted := @opArraySize_leavesNumber (engine.holding _ more) (base.take (base.length - n))
      (base.reverse.take n) rfl
    rwa [length] at counted
  · constructor
    · intro picks
      exact Nat.eq_zero_of_not_pos fun some => not_picks some picks
    · rintro rfl i inside
      exact absurd inside (Nat.not_lt_zero i)

theorem arrayLaws_sized : Unpacks sized [.byteArray [7]] 1 ∧ Sizes sized [.byteArray [7]] 1 :=
  have laws := @arrayLaws_iff sized [.byteArray [7]] (.boolean true) 1 rfl rfl (by decide)
    (by decide)
  ⟨laws.1, laws.2.1⟩

/-- The only item of an array cannot be picked. -/
theorem arrayLaws_notPicked : ¬ Picks sized [.byteArray [7]] 1 := not_picks Nat.one_pos

end DnaPow.Vm
