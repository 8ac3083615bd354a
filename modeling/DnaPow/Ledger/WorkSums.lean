import DnaPow.Ledger.Reorganise
import DnaPow.Ledger.WindowRuns
import Mathlib.Data.List.TakeWhile

/-!
# Sums of work

A new node continues the sum of its parent, and pruning leaves all sums alone. A
node that is loaded from the store however starts over with its own work, which it
adds to the old sums of its children. So as long as no node is loaded, every sum is
that of a chain of blocks from the genesis block; one block on top of a pruned one
ends this.
-/

namespace DnaPow.Ledger

open DnaPow.Std Common Core Action

/-- There is a chain of blocks from the genesis block to the given hash, with the
given sum of work. -/
inductive WorkFromGenesis (env : Env) : Uint256 → Nat → Prop
  | genesis : WorkFromGenesis env ((genesisBlock env).hash env.crypto)
      (calcWork (genesisBlock env).blockdata.bits)
  | extend {block : Block} {work : Nat}
      (below : WorkFromGenesis env block.blockdata.prevBlockHash work) :
      WorkFromGenesis env (block.hash env.crypto) (work + calcWork block.blockdata.bits)

/-- A node without its mark and its children. -/
def BlockNode.unmarked (node : BlockNode) : BlockNode :=
  { node with inMainChain := false, children := [] }

/-- The sums of a node and its parent. -/
structure Nodes.SumsUp (env : Env) (nodes : Nodes) (id : NodeId) : Prop where
  parent : ∀ parent, (nodes.get id).parent = some parent → parent < nodes.count ∧
    (nodes.get id).workSum = (nodes.get parent).workSum + calcWork (nodes.get id).bits
  fromGenesis : WorkFromGenesis env (nodes.get id).hash (nodes.get id).workSum

namespace Blockchain

variable {env : Env} {bc after : Blockchain} {id : NodeId} {block : Block}

/-- Every indexed node continues the sum of its parent, and all sums start from the
genesis block. -/
structure WorkSumsUp (env : Env) (bc : Blockchain) : Prop where
  relative : ∀ hash id parent, bc.index hash = some id → (bc.nodes.get id).parent = some parent →
    (bc.nodes.get id).workSum = (bc.nodes.get parent).workSum + calcWork (bc.nodes.get id).bits
  sameBase : ∀ hash id, bc.index hash = some id →
    WorkFromGenesis env hash (bc.nodes.get id).workSum

/-- No node has to be loaded: the parent of every accepted block is in memory. -/
def memoryTerms : Terms where
  accepting _ bc block :=
    block.blockdata.prevBlockHash = 0 ∨ (bc.index block.blockdata.prevBlockHash).isSome
  shelving _ _ := True

instance (pending : List Uint256) (bc : Blockchain) (block : Block) :
    Decidable (memoryTerms.accepting pending bc block) :=
  inferInstanceAs (Decidable (_ ∨ _))

instance (bc : Blockchain) (block : Block) : Decidable (memoryTerms.shelving bc block) :=
  inferInstanceAs (Decidable True)

/-! ## The invariant -/

/-- All nodes sum up, whether they are indexed or not. -/
structure Summed (env : Env) (bc : Blockchain) : Prop where
  nodes : ∀ id < bc.nodes.count, bc.nodes.SumsUp env id
  index : ∀ hash id, bc.index hash = some id →
    id < bc.nodes.count ∧ (bc.nodes.get id).hash = hash
  best : bc.bestChain.isSome

theorem Summed.workSumsUp (summed : Summed env bc) : WorkSumsUp env bc where
  relative hash id parent entry link :=
    ((summed.nodes id (summed.index hash id entry).1).parent parent link).2
  sameBase hash id entry := by
    obtain ⟨bound, rfl⟩ := summed.index hash id entry
    exact (summed.nodes id bound).fromGenesis

/-- A call that changes marks and children only, and indexes allocated nodes only. -/
structure Remarks (before after : Blockchain) : Prop where
  count : after.nodes.count = before.nodes.count
  unmarked : ∀ id, (after.nodes.get id).unmarked = (before.nodes.get id).unmarked
  index : ∀ hash id, after.index hash = some id → before.index hash = some id ∨
    id < before.nodes.count ∧ (before.nodes.get id).hash = hash
  best : before.bestChain.isSome → after.bestChain.isSome

namespace Remarks

theorem refl (bc : Blockchain) : Remarks bc bc :=
  ⟨rfl, fun _ => rfl, fun _ _ => .inl, id⟩

variable {first second third : Blockchain}

theorem hash (remarks : Remarks bc after) (id : NodeId) :
    (after.nodes.get id).hash = (bc.nodes.get id).hash := by
  have same := congrArg BlockNode.hash (remarks.unmarked id)
  exact same

theorem parent (remarks : Remarks bc after) (id : NodeId) :
    (after.nodes.get id).parent = (bc.nodes.get id).parent := by
  have same := congrArg BlockNode.parent (remarks.unmarked id)
  exact same

theorem workSum (remarks : Remarks bc after) (id : NodeId) :
    (after.nodes.get id).workSum = (bc.nodes.get id).workSum := by
  have same := congrArg BlockNode.workSum (remarks.unmarked id)
  exact same

theorem trans (left : Remarks first second) (right : Remarks second third) :
    Remarks first third where
  count := right.count.trans left.count
  unmarked id := (right.unmarked id).trans (left.unmarked id)
  index hash id entry := by
    rcases right.index hash id entry with old | ⟨bound, sameHash⟩
    · exact left.index hash id old
    · exact .inr ⟨left.count ▸ bound, (left.hash id).symm.trans sameHash⟩
  best isSome := right.best (left.best isSome)

theorem summed (remarks : Remarks bc after) (summed : Summed env bc) : Summed env after where
  nodes id bound := by
    have sums := summed.nodes id (remarks.count ▸ bound)
    have bits : (after.nodes.get id).bits = (bc.nodes.get id).bits := by
      have same := congrArg BlockNode.bits (remarks.unmarked id)
      exact same
    refine ⟨fun parent link => ?_, ?_⟩
    · rw [remarks.count, remarks.workSum, remarks.workSum, bits]
      exact sums.parent parent (remarks.parent id ▸ link)
    · rw [remarks.hash, remarks.workSum]
      exact sums.fromGenesis
  index hash id entry := by
    rw [remarks.count, remarks.hash]
    rcases remarks.index hash id entry with old | new
    · exact summed.index hash id old
    · exact new
  best := remarks.best summed.best

end Remarks

/-- Pruning drops links and entries only. -/
theorem Shrinks.summed (shrinks : Shrinks bc after) (summed : Summed env bc) :
    Summed env after where
  nodes id bound := by
    have sums := summed.nodes id (shrinks.nodes.count ▸ bound)
    have bits : (after.nodes.get id).bits = (bc.nodes.get id).bits := by
      have same := congrArg BlockNode.bits (shrinks.nodes.fixed id)
      exact same
    refine ⟨fun parent link => ?_, ?_⟩
    · rw [shrinks.nodes.count, shrinks.workSum, shrinks.workSum, bits]
      exact sums.parent parent (shrinks.nodes.parent id parent link)
    · rw [BlockNode.hash_of_fixed (shrinks.nodes.fixed id), shrinks.workSum]
      exact sums.fromGenesis
  index hash id entry := by
    rw [shrinks.nodes.count, BlockNode.hash_of_fixed (shrinks.nodes.fixed id)]
    exact summed.index hash id (shrinks.index hash id entry)
  best := by
    have same := congrArg Blockchain.bestChain shrinks.outside
    exact same ▸ summed.best

/-- A new node on top of an indexed one. -/
theorem Summed.allocateAbove (summed : Summed env bc) {parent : NodeId}
    (bound : parent < bc.nodes.count)
    (isParent : (bc.nodes.get parent).hash = block.blockdata.prevBlockHash)
    (blockHeight : UInt32) :
    Summed env { bc with
      nodes := bc.nodes.allocate (bc.nodeAbove env (some parent) blockHeight block) } where
  nodes id allocated := by
    rcases Nat.lt_succ_iff_lt_or_eq.mp allocated with old | rfl
    · obtain ⟨sums, fromGenesis⟩ := summed.nodes id old
      refine ⟨fun other link => ?_, ?_⟩ <;> simp only [Nodes.get_allocate_of_lt old] at *
      · obtain ⟨bound', same⟩ := sums other link
        rw [Nodes.get_allocate_of_lt bound']
        exact ⟨Nat.lt_succ_of_lt bound', same⟩
      · exact fromGenesis
    · refine ⟨fun other link => ?_, ?_⟩ <;> simp only [Nodes.get_allocate_self] at *
      · obtain rfl := Option.some.inj link
        rw [Nodes.get_allocate_of_lt bound]
        exact ⟨Nat.lt_succ_of_lt bound, rfl⟩
      · exact .extend (isParent ▸ (summed.nodes parent bound).fromGenesis)
  index hash id entry := by
    obtain ⟨bound', same⟩ := summed.index hash id entry
    rw [Nodes.get_allocate_of_lt bound']
    exact ⟨Nat.lt_succ_of_lt bound', same⟩
  best := summed.best

/-! ## Connecting and disconnecting -/

theorem Connects.remarks (bound : id < bc.nodes.count) (connects : Connects env id block bc after) :
    Remarks bc after := by
  obtain ⟨store, blockHeight, median, -, rfl⟩ := connects.effect
  refine ⟨rfl, Nodes.view_modify BlockNode.unmarked _ _ _ rfl, fun hash other entry => ?_,
    fun _ => rfl⟩
  simp only [Function.update_apply] at entry
  split at entry
  · next same =>
    obtain rfl := Option.some.inj entry
    exact .inr ⟨bound, same.symm⟩
  · exact .inl entry

theorem appendChild_remarks (bc : Blockchain) (parent child : NodeId) :
    (appendChild parent child).Ensures bc (fun _ => Remarks bc) (fun _ => False) :=
  ⟨rfl, Nodes.view_modify BlockNode.unmarked _ _ _ rfl, fun _ _ => .inl, id⟩

/-- A call that takes nodes off the main chain and changes nothing else about the tree. -/
structure Unmarks (before after : Blockchain) : Prop where
  index : after.index = before.index
  depNodes : after.depNodes = before.depNodes
  count : after.nodes.count = before.nodes.count
  unmarked : ∀ id, (after.nodes.get id).unmarked = (before.nodes.get id).unmarked
  marks : ∀ id, (after.nodes.get id).inMainChain = true → (before.nodes.get id).inMainChain = true
  best : before.bestChain.isSome → after.bestChain.isSome

namespace Unmarks

theorem refl (bc : Blockchain) : Unmarks bc bc :=
  ⟨rfl, rfl, rfl, fun _ => rfl, fun _ => id, id⟩

theorem trans {first second third : Blockchain} (left : Unmarks first second)
    (right : Unmarks second third) : Unmarks first third where
  index := right.index.trans left.index
  depNodes := right.depNodes.trans left.depNodes
  count := right.count.trans left.count
  unmarked id := (right.unmarked id).trans (left.unmarked id)
  marks id marked := left.marks id (right.marks id marked)
  best isSome := right.best (left.best isSome)

theorem remarks (unmarks : Unmarks bc after) : Remarks bc after where
  count := unmarks.count
  unmarked := unmarks.unmarked
  index _ _ entry := .inl (unmarks.index ▸ entry)
  best := unmarks.best

end Unmarks

theorem disconnectBlock_unmarks (linked : (bc.nodes.get id).parent.isSome) (block : Block) :
    (disconnectBlock env id block).Ensures bc (fun _ => Unmarks bc) (· = bc) := by
  obtain ⟨parent, link⟩ := Option.isSome_iff_exists.mp linked
  refine (disconnectBlock_linked link block).mono (fun _ after effect => ?_) (fun _ same => same)
  obtain ⟨store, blockHeight, median, rfl⟩ := effect
  refine ⟨rfl, rfl, rfl, Nodes.view_modify BlockNode.unmarked _ _ _ rfl, fun other marked => ?_,
    fun _ => rfl⟩
  rw [Nodes.inMainChain_withInMainChain] at marked
  split at marked
  · cases marked
  · exact marked

theorem detachNodes_unmarks {ids : List NodeId}
    (linked : ∀ id ∈ ids, (bc.nodes.get id).parent.isSome) :
    (detachNodes env ids).Ensures bc (fun _ => Unmarks bc) (Unmarks bc) := by
  induction ids generalizing bc with
  | nil => exact .refl bc
  | cons id ids ih =>
    simp only [detachNodes, checked, ensures_bind, ensures_get, ensures_check, mapError_eq_ok]
    refine ⟨fun block _ => ?_, fun _ _ => .refl bc⟩
    refine (disconnectBlock_unmarks (linked id List.mem_cons_self) block).mono
      (fun _ middle first => ?_) (fun _ same => same ▸ .refl bc)
    refine (ih fun other member => ?_).mono (fun _ _ rest => first.trans rest)
      (fun _ rest => first.trans rest)
    rw [first.remarks.parent]
    exact linked other (List.mem_cons_of_mem _ member)

/-- The nodes that `GetReorganizeNodes` detaches have their parents in memory. -/
theorem getReorganizeNodes_linked (bc : Blockchain) (id : NodeId) :
    ∀ other ∈ (bc.getReorganizeNodes id).1, (bc.nodes.get other).parent.isSome := by
  intro other member
  have passes := List.mem_takeWhile_imp member
  simp only [decide_eq_true_eq] at passes
  exact passes.1

theorem attachNodes_remarks {ids : List NodeId} (bound : ∀ id ∈ ids, id < bc.nodes.count) :
    (attachNodes env ids).Ensures bc (fun _ => Remarks bc) (Remarks bc) := by
  induction ids generalizing bc with
  | nil => exact .refl bc
  | cons id ids ih =>
    simp only [attachNodes, ensures_bind, ensures_get]
    split
    · exact ensures_crash
    · next block cached =>
      rw [ensures_bind]
      refine (connectBlock_connects bc id block).mono (fun _ middle connects => ?_)
        (fun _ same => same ▸ .refl bc)
      have first := connects.remarks (bound id List.mem_cons_self)
      rw [ensures_bind, ensures_modify]
      have uncached : Remarks bc { middle with
          blockCache := Function.update middle.blockCache (bc.nodes.get id).hash none } :=
        ⟨first.count, first.unmarked, first.index, first.best⟩
      refine (ih fun other member => ?_).mono (fun _ _ rest => uncached.trans rest)
        (fun _ rest => uncached.trans rest)
      exact uncached.count ▸ bound other (List.mem_cons_of_mem _ member)

/-- The last node that is attached is the given one. -/
theorem getReorganizeNodes_last (bound : id < bc.nodes.count) (off : bc.offMainChain id = true) :
    (bc.getReorganizeNodes id).2.getLast? = some id := by
  obtain ⟨fuel, count⟩ := Nat.exists_eq_succ_of_ne_zero (Nat.ne_zero_of_lt bound)
  rw [Blockchain.getReorganizeNodes, Nodes.lineage, count, Nodes.follow,
    List.takeWhile_cons_of_pos off, List.getLast?_reverse, List.head?_cons]

theorem Summed.reorganizeChain (summed : Summed env bc) (bound : id < bc.nodes.count)
    (off : bc.offMainChain id = true) :
    (reorganizeChain env (bc.getReorganizeNodes id).1 (bc.getReorganizeNodes id).2).Ensures bc
      (fun _ after => Remarks bc after ∧ after.bestChain = some id) (Remarks bc) := by
  have allocated : ∀ other ∈ (bc.getReorganizeNodes id).2, other < bc.nodes.count := by
    intro other member
    have older : ∀ other ∈ bc.nodes.lineage (some id), other < bc.nodes.count :=
      Nodes.forall_mem_lineage
        (fun last parent bound link => ((summed.nodes last bound).parent parent link).1)
        (by rintro _ ⟨⟩; exact bound)
    exact older other ((List.takeWhile_sublist _).mem (List.mem_reverse.mp member))
  simp only [Blockchain.reorganizeChain, ensures_bind, ensures_get, ensures_ite, ensures_throw]
  refine ⟨fun _ => .refl bc, fun _ => ?_⟩
  refine (detachNodes_unmarks (bc.getReorganizeNodes_linked id)).mono
    (fun _ middle detached => ?_) (fun _ failed => failed.remarks)
  have detached := detached.remarks
  obtain ⟨fork, isFork⟩ := Option.isSome_iff_exists.mp (detached.best summed.best)
  have attach := (attachNodes_remarks fun other member =>
    detached.count ▸ allocated other member).and (@attachNodes_best env _ _ _ isFork)
  refine attach.mono (fun _ _ attached => ⟨detached.trans attached.1, ?_⟩)
    (fun _ attached => detached.trans attached.1)
  rw [attached.2, List.getLast?_cons, getReorganizeNodes_last bound off, Option.getD_some]

theorem addToSideChain_remarks (bound : id < bc.nodes.count) (parent : NodeId) (block : Block) :
    (addToSideChain id parent block).Ensures bc
      (fun _ after => Remarks bc after ∧ (after.nodes.get id).inMainChain = false ∧
        after.bestChain = bc.bestChain) (fun _ => False) := by
  simp only [addToSideChain, addNodeToIndex, modifyNode, appendChild, ensures_bind, ensures_modify]
  refine ⟨⟨rfl, fun other => ?_, fun hash other entry => ?_, fun isSome => isSome⟩, ?_, trivial⟩
  · rw [Nodes.view_modify BlockNode.unmarked _ _ _ rfl, Nodes.view_modify BlockNode.unmarked _ _ _ rfl]
  · simp only [Function.update_apply] at entry
    split at entry
    · next same =>
      obtain rfl := Option.some.inj entry
      exact .inr ⟨bound, same.symm⟩
    · exact .inl entry
  · rw [Nodes.view_modify BlockNode.inMainChain _ _ _ rfl, Nodes.inMainChain_withInMainChain,
      if_pos rfl]

/-- The best chain ends at the given node, which is on top of the old end or has more work
behind it, or it ends where it did, and the given node has no more work behind it. -/
structure Chooses (id : NodeId) (before after : Blockchain) : Prop where
  remarks : Remarks before after
  choice : ∀ best ∈ before.bestChain,
    after.bestChain = some id ∧
        ((∃ parent ∈ (before.nodes.get id).parent,
          (before.nodes.get parent).hash = (before.nodes.get best).hash) ∨
        (before.nodes.get best).workSum < (before.nodes.get id).workSum) ∨
      after.bestChain = some best ∧
        (before.nodes.get id).workSum ≤ (before.nodes.get best).workSum

theorem connectBestChain_chooses (summed : Summed env bc) (bound : id < bc.nodes.count) :
    (connectBestChain env id block).Ensures bc (fun _ => Chooses id bc) (Remarks bc) := by
  obtain ⟨best, isBest⟩ := Option.isSome_iff_exists.mp summed.best
  rw [connectBestChain, ensures_bind, ensures_get, isBest]
  cases link : (bc.nodes.get id).parent with
  | none => exact ensures_crash
  | some parent =>
    simp only [ensures_ite, ensures_bind, ensures_get, ensures_pure]
    refine ⟨fun onTop => ?_, fun _ => ?_⟩
    · refine (connectBlock_connects bc id block).mono (fun _ middle connects => ?_)
        (fun _ same => same ▸ .refl bc)
      have appended := appendChild_remarks middle parent id
      refine ⟨(connects.remarks bound).trans appended, fun other isOther => .inl ⟨?_, .inl ?_⟩⟩
      · obtain ⟨store, blockHeight, median, -, rfl⟩ := connects.effect
        rfl
      · obtain rfl := Option.some.inj (isBest.symm.trans isOther)
        exact ⟨parent, link, onTop⟩
    · refine (addToSideChain_remarks bound parent block).mono (fun _ middle kept => ?_)
        (fun _ => False.elim)
      obtain ⟨aside, off, sameBest⟩ := kept
      refine ⟨fun lighter => ⟨aside, fun other isOther => .inr ?_⟩, fun heavier => ?_⟩
      · obtain rfl := Option.some.inj (isBest.symm.trans isOther)
        rw [aside.workSum, aside.workSum] at lighter
        exact ⟨sameBest.trans isBest, lighter⟩
      · have isOff : middle.offMainChain id = true := by
          simp [offMainChain, aside.parent, link, off]
        refine ((aside.summed summed).reorganizeChain (aside.count ▸ bound) isOff).mono
          (fun _ after moved => ⟨aside.trans moved.1, fun other isOther =>
            .inl ⟨moved.2, .inr ?_⟩⟩) (fun _ moved => aside.trans moved)
        obtain rfl := Option.some.inj (isBest.symm.trans isOther)
        rw [aside.workSum, aside.workSum] at heavier
        exact Nat.lt_of_not_le heavier

/-! ## Runs -/

/-- Old nodes may be pruned, and a new node is put on top of the parent of the block. -/
structure Adds (env : Env) (block : Block) (before after : Blockchain) (parent : NodeId) :
    Prop where
  summed : Summed env after
  bestChain : after.bestChain = before.bestChain
  count : after.nodes.count = before.nodes.count + 1
  old : ∀ id < before.nodes.count, (after.nodes.get id).hash = (before.nodes.get id).hash ∧
    (after.nodes.get id).workSum = (before.nodes.get id).workSum
  found : before.index block.blockdata.prevBlockHash = some parent
  link : (after.nodes.get before.nodes.count).parent = some parent
  hash : (after.nodes.get before.nodes.count).hash = block.hash env.crypto
  workSum : (after.nodes.get before.nodes.count).workSum =
    (before.nodes.get parent).workSum + calcWork block.blockdata.bits

theorem Shrinks.adds (shrinks : Shrinks bc after) (summed : Summed env bc) {parent : NodeId}
    (found : bc.index block.blockdata.prevBlockHash = some parent) (blockHeight : UInt32) :
    Adds env block bc { after with
      nodes := after.nodes.allocate (after.nodeAbove env (some parent) blockHeight block) }
      parent := by
  obtain ⟨bound, isParent⟩ := summed.index _ _ found
  have sameBest := congrArg Blockchain.bestChain shrinks.outside
  rw [← shrinks.nodes.count] at bound
  constructor
  · refine (shrinks.summed summed).allocateAbove bound ?_ _
    rw [BlockNode.hash_of_fixed (shrinks.nodes.fixed parent), isParent]
  · exact sameBest
  · exact congrArg Nat.succ shrinks.nodes.count
  · intro id isOld
    rw [Nodes.get_allocate_of_lt (shrinks.nodes.count ▸ isOld),
      BlockNode.hash_of_fixed (shrinks.nodes.fixed id), shrinks.workSum]
    exact ⟨rfl, rfl⟩
  · exact found
  all_goals rw [← shrinks.nodes.count, Nodes.get_allocate_self]
  · rfl
  · rfl
  · rw [← shrinks.workSum parent]
    rfl

theorem maybeAcceptBlock_adds (summed : Summed env bc) {pending : List Uint256}
    (onTerms : memoryTerms.accepting pending bc block) :
    (maybeAcceptBlock env block).Ensures bc
      (fun _ after => ∃ middle parent, Adds env block bc middle parent ∧
        Chooses bc.nodes.count middle after) (Summed env) := by
  rw [maybeAcceptBlock, ensures_bind]
  refine (getPrevNodeFromBlock_inMemory onTerms).mono (fun prev before looked => ?_)
    (fun _ => False.elim)
  obtain ⟨rfl, found⟩ := looked
  simp only [checked, ensures_bind, ensures_get, ensures_ite, ensures_throw, ensures_check,
    mapError_eq_ok]
  refine ⟨fun _ => summed, fun _ => ⟨fun _ _ => ?_, fun _ _ => summed⟩⟩
  refine (pruneBlockNodes_shrinks env _).mono (fun _ pruned shrinks => ?_)
    (fun _ shrinks => shrinks.summed summed)
  simp only [allocateNode, ensures_bind, ensures_get, ensures_modify, ensures_pure]
  cases prev with
  | none =>
    -- a second block without a parent is not survived
    obtain ⟨best, isBest⟩ := Option.isSome_iff_exists.mp (shrinks.summed summed).best
    rw [connectBestChain, ensures_bind, ensures_get, isBest, Nodes.get_allocate_self]
    exact ensures_crash
  | some parent =>
    have adds := shrinks.adds summed (found parent rfl) (before.heightAbove (some parent))
    rw [shrinks.nodes.count]
    refine (connectBestChain_chooses adds.summed ?_).mono
      (fun _ _ chooses => ⟨_, parent, adds, chooses⟩)
      (fun _ remarks => remarks.summed adds.summed)
    exact adds.count ▸ Nat.lt_succ_self _

theorem maybeAcceptBlock_summed (summed : Summed env bc) {pending : List Uint256}
    (onTerms : memoryTerms.accepting pending bc block) :
    (maybeAcceptBlock env block).Ensures bc (fun _ => Summed env) (Summed env) := by
  refine (maybeAcceptBlock_adds summed onTerms).mono (fun _ after ends => ?_) (fun _ same => same)
  obtain ⟨middle, parent, adds, chooses⟩ := ends
  exact chooses.remarks.summed adds.summed

theorem fresh_summed (env : Env) : Summed env (fresh env) := by
  rw [fresh, newBlockchainWithGenesisBlock_genesis]
  refine ⟨fun id bound => ?_, fun hash id entry => ?_, rfl⟩
  · obtain rfl := Nat.lt_one_iff.mp bound
    exact ⟨by rintro _ ⟨⟩, .genesis⟩
  · simp only [Function.update_apply] at entry
    split at entry
    · next same =>
      obtain rfl := Option.some.inj entry
      exact ⟨Nat.lt_succ_self 0, same.symm⟩
    · cases entry

/-- As long as no node has to be loaded, every sum of work continues that of the parent
and starts from the genesis block. -/
theorem workSumsUp_of_run (env : Env) (deliveries : List Delivery) (bc : Blockchain)
    (meets : RunMeets env memoryTerms (fresh env) deliveries)
    (ran : run env deliveries = some bc) : WorkSumsUp env bc := by
  refine (holds_of_run (fresh_summed env) (fun before after pool summed => ?_)
    (fun _ _ _ summed onTerms => maybeAcceptBlock_summed summed onTerms) meets ran).workSumsUp
  rw [pool.same]
  exact ⟨summed.nodes, summed.index, summed.best⟩

/-- Three blocks on top of each other: the genesis block is pruned, and the sums still
count its work. -/
theorem workSumsUp_branch :
    let deliveries := Sample.deliveries (branchOn (genesisBlock smallEnv) [1, 2, 3])
    ∃ bc, run smallEnv deliveries = some bc ∧
      bc.index ((genesisBlock smallEnv).hash smallEnv.crypto) = none ∧ WorkSumsUp smallEnv bc := by
  intro deliveries
  have ends : (run smallEnv deliveries).map
      (·.index ((genesisBlock smallEnv).hash smallEnv.crypto)) = some none := by decide +kernel
  have meets : RunMeets smallEnv memoryTerms (fresh smallEnv) deliveries := by decide +kernel
  obtain ⟨bc, ran, pruned⟩ := Option.map_eq_some_iff.mp ends
  exact ⟨bc, ran, pruned, workSumsUp_of_run smallEnv _ bc meets ran⟩

/-- A chain of one block was given up for another one, and the genesis block was pruned.
Another block on top of the genesis block loads it again and adds its work to the block
that was given up, which counts it twice then. -/
theorem forkBlock_overcounted :
    let branch := forkBlock :: branchOn (genesisBlock smallEnv) [1, 2, 3, 4]
    let late := branchOn (genesisBlock smallEnv) [10]
    ∃ bc, run smallEnv (Sample.deliveries (branch ++ late)) = some bc ∧
      ¬ WorkSumsUp smallEnv bc := by
  intro branch late
  have loaded : (run smallEnv (Sample.deliveries (branch ++ late))).map (fun bc =>
      (bc.index (forkBlock.hash smallEnv.crypto), (bc.nodes.get 1).parent,
        decide ((bc.nodes.get 1).workSum =
          (bc.nodes.get 6).workSum + calcWork (bc.nodes.get 1).bits))) =
      some (some 1, some 6, false) := by decide +kernel
  obtain ⟨bc, ran, loaded⟩ := Option.map_eq_some_iff.mp loaded
  simp only [Prod.mk.injEq] at loaded
  obtain ⟨indexed, link, differs⟩ := loaded
  exact ⟨bc, ran, fun sums => of_decide_eq_false differs (sums.relative _ 1 6 indexed link)⟩

end Blockchain

end DnaPow.Ledger
