import DnaPow.Std.Ranks
import DnaPow.Ledger.BlockValidator

/-!
# The median time never goes back

A block has to be later than the median of the blocks before it. The new timestamp then
is not among those below the old median, so the rank of the median, which does not go
down when a block is added, still points at a timestamp that is not below it.
-/

namespace DnaPow.Ledger

open DnaPow.Std Common Core

namespace Nodes

/-- A later timestamp in front of a window does not lower its median. -/
theorem medianOf_push {timestamps : List Nat} {window new median : Nat}
    (before : medianOf (timestamps.take (window + 1)) = some median) (later : median < new) :
    ∃ after, medianOf ((new :: timestamps).take (window + 1)) = some after ∧ median ≤ after := by
  unfold medianOf at before ⊢
  rw [List.take_succ_cons]
  obtain ⟨inside, found⟩ := List.getElem?_eq_some_iff.mp before
  -- the old median counts the timestamps below it
  have few : (timestamps.take (window + 1)).countP (· < median) ≤
      (timestamps.take (window + 1)).length / 2 := by
    rw [← le_getElem_insertionSort_iff inside, found]
  have fewer : (new :: timestamps.take window).countP (· < median) ≤
      (new :: timestamps.take window).length / 2 := by
    have sub : (timestamps.take window).Sublist (timestamps.take (window + 1)) :=
      List.take_sublist_take_left (Nat.le_succ window)
    rw [List.countP_cons_of_neg (by simp; omega), List.length_cons]
    refine (sub.countP_le).trans (few.trans (Nat.div_le_div_right ?_))
    rw [List.length_take, List.length_take]
    omega
  have rank : (new :: timestamps.take window).length / 2 <
      ((new :: timestamps.take window).insertionSort (· ≤ ·)).length := by
    rw [List.length_insertionSort]
    exact Nat.div_lt_self (Nat.succ_pos _) (by decide)
  exact ⟨_, List.getElem?_eq_getElem rank, (le_getElem_insertionSort_iff rank).mpr fewer⟩

/-- Blocks in memory, each the parent of the one before, down to one without a parent. -/
structure ChainInMemory (nodes : Nodes) (chain : List NodeId) : Prop where
  links : chain.IsChain fun child parent => (nodes.get child).parent = some parent
  ends : ∀ last, chain.getLast? = some last → (nodes.get last).parent = none
  distinct : chain.Nodup
  allocated : ∀ id ∈ chain, id < nodes.count

variable {nodes : Nodes}

theorem follow_chain {chain : List NodeId} {fuel : Nat} (enough : chain.length ≤ fuel)
    (links : chain.IsChain fun child parent => (nodes.get child).parent = some parent)
    (ends : ∀ last, chain.getLast? = some last → (nodes.get last).parent = none) :
    nodes.follow fuel chain.head? = chain := by
  induction chain generalizing fuel with
  | nil => cases fuel <;> rfl
  | cons id rest ih =>
    obtain ⟨fuel, rfl⟩ := Nat.exists_eq_add_one_of_ne_zero (Nat.ne_zero_of_lt enough)
    rw [List.head?_cons, follow]
    congr 1
    cases rest with
    | nil =>
      rw [ends id rfl]
      cases fuel <;> rfl
    | cons parent above =>
      rw [List.isChain_cons_cons] at links
      rw [links.1]
      refine ih (Nat.le_of_succ_le_succ enough) links.2 ?_
      intro last isLast
      exact ends last (by rw [List.getLast?_cons_cons, isLast])

namespace ChainInMemory

variable {child parent : NodeId} {above : List NodeId} {id : NodeId} {rest : List NodeId}

theorem tail (inMemory : nodes.ChainInMemory (id :: rest)) :
    nodes.ChainInMemory rest where
  links := List.isChain_of_isChain_cons inMemory.links
  ends := by
    intro last isLast
    cases rest with
    | nil => cases isLast
    | cons next above => exact inMemory.ends last (by rw [List.getLast?_cons_cons, isLast])
  distinct := inMemory.distinct.of_cons
  allocated := fun other member => inMemory.allocated other (List.mem_cons_of_mem _ member)

theorem lineage_eq (inMemory : nodes.ChainInMemory (id :: rest)) : nodes.lineage (some id)
    = id :: rest := by
  have bounded : (id :: rest) ⊆ List.range nodes.count := fun other member =>
    List.mem_range.mpr (inMemory.allocated other member)
  have enough : (id :: rest).length ≤ nodes.count := by
    simpa using (List.subperm_of_subset inMemory.distinct bounded).length_le
  exact follow_chain enough inMemory.links inMemory.ends

/-- The timestamps that the median of a block is taken of. -/
theorem calcPastMedianTime_eq_ok {ε : Type} {median : Nat}
    (inMemory : nodes.ChainInMemory (id :: rest)) :
    nodes.calcPastMedianTime (ε := ε) (some id) = .ok median ↔
      medianOf (((id :: rest).map fun id => (nodes.get id).timestamp.toNat).take 11) =
        some median := by
  rw [calcPastMedianTime, inMemory.lineage_eq, List.map_take]
  cases medianOf (((id :: rest).map fun id => (nodes.get id).timestamp.toNat).take 11) with
  | none => simp
  | some found => simp

end ChainInMemory

/-- The timestamp rule of `PowCheckBlockContext`: a block is later than the median time of
its parent. -/
def AfterMedian (nodes : Nodes) (timestamp : UInt32) (parent : NodeId) : Prop :=
  ∃ median, nodes.calcPastMedianTime (ε := BlockError) (some parent) = .ok median ∧
    median < timestamp.toNat

theorem afterMedian_of_powCheckBlockContext {env : Env} {block : Block} {prev : NodeId}
    (passed : powCheckBlockContext env nodes block (some prev) = .ok ()) :
    nodes.AfterMedian block.blockdata.timestamp prev := by
  rw [powCheckBlockContext] at passed
  obtain ⟨expected, -, passed⟩ := Outcome.bind_eq_ok.mp passed
  obtain ⟨_, -, passed⟩ := Outcome.bind_eq_ok.mp passed
  obtain ⟨median, found, passed⟩ := Outcome.bind_eq_ok.mp passed
  obtain ⟨_, later, -⟩ := Outcome.bind_eq_ok.mp passed
  exact ⟨median, found, Outcome.require_eq_ok.mp later⟩

/-- The median time of a block is not before that of another one. -/
def MedianNotBefore (nodes : Nodes) (block other : NodeId) : Prop :=
  ∃ median before, nodes.calcPastMedianTime (ε := BlockError) (some block) = .ok median ∧
    nodes.calcPastMedianTime (ε := BlockError) (some other) = .ok before ∧ before ≤ median

theorem MedianNotBefore.trans {first second third : NodeId}
    (later : nodes.MedianNotBefore first second) (earlier : nodes.MedianNotBefore second third) :
    nodes.MedianNotBefore first third := by
  obtain ⟨median, middle, isMedian, isMiddle, le⟩ := later
  obtain ⟨middle', before, isMiddle', isBefore, le'⟩ := earlier
  cases isMiddle.symm.trans isMiddle'
  exact ⟨median, before, isMedian, isBefore, le'.trans le⟩

instance : Trans nodes.MedianNotBefore nodes.MedianNotBefore nodes.MedianNotBefore where
  trans := MedianNotBefore.trans

/-- One block that obeys the rule. -/
theorem ChainInMemory.medianNotBefore {child parent : NodeId} {above : List NodeId}
    (inMemory : nodes.ChainInMemory (child :: parent :: above))
    (rule : nodes.AfterMedian (nodes.get child).timestamp parent) :
    nodes.MedianNotBefore child parent := by
  obtain ⟨median, found, later⟩ := rule
  obtain ⟨after, pushed, le⟩ := medianOf_push (inMemory.tail.calcPastMedianTime_eq_ok.mp found) later
  exact ⟨after, median, inMemory.calcPastMedianTime_eq_ok.mpr pushed, found, le⟩

end Nodes

/-- A header at the first difficulty, and two nodes in memory. -/
def headerAt (timestamp height : UInt32) : Blockdata :=
  ⟨0, 0, 0, timestamp, Env.sample.chainParam.powLimitBits, height, 0, .empty⟩

@[inherit_doc headerAt]
def twoNodes : Nodes :=
  (Nodes.empty.allocate (newBlockNode (headerAt 5 0) 1)).allocate
    ((newBlockNode (headerAt 6 1) 2).withParent (some 0))

/-- Along every chain in memory whose blocks passed the timestamp rule, the median time
of a block is not before that of its parent, nor of any other ancestor. -/
theorem medianTime_neverBack (nodes : Nodes) (chain : List NodeId)
    (inMemory : nodes.ChainInMemory chain)
    (passed : chain.IsChain fun child parent =>
      nodes.AfterMedian (nodes.get child).timestamp parent) :
    chain.IsChain nodes.MedianNotBefore ∧ chain.Pairwise nodes.MedianNotBefore := by
  have links : chain.IsChain nodes.MedianNotBefore := by
    induction chain with
    | nil => exact .nil
    | cons child rest ih =>
        cases rest with
        | nil => exact .singleton child
        | cons parent above =>
            rw [List.isChain_cons_cons] at passed ⊢
            exact ⟨inMemory.medianNotBefore passed.1, ih inMemory.tail passed.2⟩
  exact ⟨links, links.pairwise⟩

/-- A block that passes the check and its parent. -/
theorem medianTime_twoNodes :
    powCheckBlockContext Env.sample twoNodes ⟨headerAt 6 1, []⟩ (some 0) = .ok () ∧
      twoNodes.MedianNotBefore 1 0 := by
  have passed : powCheckBlockContext Env.sample twoNodes ⟨headerAt 6 1, []⟩ (some 0) = .ok () := by
    decide +kernel
  have inMemory : twoNodes.ChainInMemory [1, 0] :=
    ⟨.cons_cons (by decide) (.singleton 0), by simp [twoNodes]; decide, by decide, by decide⟩
  have links := (medianTime_neverBack twoNodes [1, 0] inMemory (.cons_cons
    (Nodes.afterMedian_of_powCheckBlockContext passed) (.singleton 0))).1
  exact ⟨passed, (List.isChain_cons_cons.mp links).1⟩

end DnaPow.Ledger
