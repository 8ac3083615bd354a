import DnaPow.Ledger.TreeCalls

/-!
# Connecting and disconnecting blocks

What `ConnectBlock` and `DisconnectBlock` do to a state in order: they move the
main chain up or down by one block and leave the state in order again. A call
that fails has not moved the main chain.
-/

namespace DnaPow.Ledger

open DnaPow.Std Common Core Action

namespace ChainStore

variable {ε : Type} {crypto : Primitives} {store : ChainStore} {block : Block}

/-- Errors while a batch is built are ignored. -/
theorem persistBlocks_ne_error {reason : ε} :
    store.persistBlocks crypto block ≠ .error reason := by
  unfold persistBlocks persist writeUTXOs
  split <;> simp

/-- So the type of errors makes no difference. -/
theorem persistBlocks_eq_ok {ε' : Type} {after : ChainStore}
    (call : store.persistBlocks (ε := ε) crypto block = .ok after) :
    store.persistBlocks (ε := ε') crypto block = .ok after := by
  unfold persistBlocks persist writeUTXOs at call ⊢
  split at call <;> simp_all

theorem rollback_eq_ok {ε' : Type} {after : ChainStore}
    (call : store.rollback (ε := ε) crypto block = .ok after) :
    store.rollback (ε := ε') crypto block = .ok after := by
  unfold rollback writeUTXOs at call ⊢
  split at call <;> simp_all

theorem rollback_ne_error {reason : ε} : store.rollback crypto block ≠ .error reason := by
  unfold rollback writeUTXOs
  split <;> simp

end ChainStore

theorem Nodes.calcPastMedianTime_ne_error {ε : Type} {nodes : Nodes} {start : Option NodeId}
    {reason : ε} : nodes.calcPastMedianTime start ≠ .error reason := by
  unfold calcPastMedianTime
  split <;> simp

/-- Without a node there is no median. -/
theorem Nodes.calcPastMedianTime_none {ε : Type} (nodes : Nodes) :
    nodes.calcPastMedianTime (ε := ε) none = .panic := by
  have noNodes : nodes.lineage none = [] := by
    unfold lineage
    cases nodes.count <;> rfl
  unfold calcPastMedianTime
  rw [noNodes]
  rfl

namespace Blockchain

variable {env : Env} {known : Block → Prop} {bc after : Blockchain} {chain : List Block}
  {id : NodeId} {block : Block}

/-- The state of a node: the store goes with a main chain whose last block is the
end of the best chain, the tree is in order, and all blocks kept aside are known. -/
structure Invariant (env : Env) (known : Block → Prop) (chain : List Block) (bc : Blockchain) :
    Prop where
  mainChain : MainChain env known chain bc.store
  tree : Tree env known bc.nodes bc.index bc.depNodes
  best : ∃ id tip, bc.bestChain = some id ∧ chain.head? = some tip ∧ id < bc.nodes.count ∧
    (bc.nodes.get id).hash = tip.hash env.crypto
  blockHeight : ∀ tip ∈ chain.head?, bc.blockHeight = tip.blockdata.height
  cached : ∀ hash block, bc.blockCache hash = some block →
    block.hash env.crypto = hash ∧ ∃ below, (blockLinks env).Branch known (block :: below)
  orphans : ∀ hash, ∀ orphan ∈ bc.prevOrphans hash, known orphan.block

/-- Calls on the tree keep the invariant. -/
theorem Invariant.inOrder (invariant : Invariant env known chain bc)
    (inOrder : InOrder env known bc after) : Invariant env known chain after := by
  have outside {α : Type} (view : Blockchain → α) := congrArg view inOrder.outside
  have store : after.store = bc.store := outside Blockchain.store
  have bestChain : after.bestChain = bc.bestChain := outside Blockchain.bestChain
  have blockHeight : after.blockHeight = bc.blockHeight := outside Blockchain.blockHeight
  have blockCache : after.blockCache = bc.blockCache := outside Blockchain.blockCache
  have prevOrphans : after.prevOrphans = bc.prevOrphans := outside Blockchain.prevOrphans
  refine ⟨store ▸ invariant.mainChain, inOrder.tree, ?_, blockHeight ▸ invariant.blockHeight,
    blockCache ▸ invariant.cached, prevOrphans ▸ invariant.orphans⟩
  obtain ⟨id, tip, best, head, allocated, hash⟩ := invariant.best
  refine ⟨id, tip, bestChain.trans best, head, allocated.trans_le inOrder.grown.count, ?_⟩
  rw [BlockNode.hash_of_fixed (inOrder.grown.fixed id allocated), hash]

theorem setBestChain_sets (best : Option NodeId) :
    (setBestChain best).Ensures bc
      (fun _ after => best.isSome ∧
        ∃ medianTimePast, after = { bc with bestChain := best, medianTimePast })
      (fun _ => False) := by
  simp only [setBestChain, ensures_bind, ensures_modify, ensures_check]
  refine ⟨fun median found => ⟨?_, median, rfl⟩, fun _ => Nodes.calcPastMedianTime_ne_error⟩
  cases best with
  | none =>
    rw [Nodes.calcPastMedianTime_none] at found
    cases found
  | some id => rfl

/-- The effect of `SaveBlock` on the store and on the height. A block that is not
higher than the last one of the store is not saved. -/
inductive Saves (env : Env) (block : Block) (before : Blockchain) : ChainStore → UInt32 → Prop
  | skip (low : block.blockdata.height ≤ before.store.currentBlockHeight) :
      Saves env block before before.store before.blockHeight
  | save {store : ChainStore} (high : before.store.currentBlockHeight < block.blockdata.height)
      (persisted : before.store.persistBlocks (ε := Unit) env.crypto block = .ok store) :
      Saves env block before store block.blockdata.height

theorem saveBlock_saves (bc : Blockchain) (block : Block) :
    (saveBlock env block).Ensures bc (fun _ after => ∃ store blockHeight,
      Saves env block bc store blockHeight ∧ after = { bc with store, blockHeight })
      (fun _ => False) := by
  simp only [saveBlock, ensures_bind, ensures_get, ensures_ite, ensures_pure, ensures_check,
    ensures_modify]
  refine ⟨fun low => ⟨_, _, .skip low, rfl⟩, fun high => ⟨fun store persisted => ?_, fun _ => ?_⟩⟩
  · exact ⟨_, _, .save (UInt32.not_le.mp high) (ChainStore.persistBlocks_eq_ok persisted), rfl⟩
  · exact ChainStore.persistBlocks_ne_error

/-- The effect of `ConnectBlock`. -/
structure Connects (env : Env) (id : NodeId) (block : Block) (before after : Blockchain) :
    Prop where
  checked : checkTransactionsContext env before.store block.transactions = .ok ()
  extending : ∀ hash ∈ before.bestHash, hash = block.blockdata.prevBlockHash
  effect : ∃ store blockHeight medianTimePast, Saves env block before store blockHeight ∧
    after = { before with
      store, blockHeight, medianTimePast
      nodes := before.nodes.modify id (.withInMainChain true)
      index := Function.update before.index (before.nodes.get id).hash (some id)
      depNodes := Function.update before.depNodes block.blockdata.prevBlockHash
        (before.depNodes block.blockdata.prevBlockHash ++ [id])
      bestChain := some id }

theorem connectBlock_connects (bc : Blockchain) (id : NodeId) (block : Block) :
    (connectBlock env id block).Ensures bc (fun _ => Connects env id block bc) (· = bc) := by
  simp only [connectBlock, checked, ensures_bind, ensures_check, mapError_eq_ok, ensures_get,
    ensures_ite, ensures_throw]
  refine ⟨fun _ passed => ⟨fun _ => trivial, fun extending => ?_⟩, fun _ _ => trivial⟩
  refine (saveBlock_saves bc block).mono (fun _ saved saves => ?_) (fun _ => False.elim)
  obtain ⟨store, blockHeight, saves, rfl⟩ := saves
  simp only [modifyNode, addNodeToIndex, addDepNode, ensures_modify]
  refine (setBestChain_sets (some id)).mono (fun _ after sets => ?_) (fun _ => False.elim)
  obtain ⟨-, median, rfl⟩ := sets
  refine ⟨passed, ?_, store, blockHeight, median, saves, ?_⟩
  · intro hash found
    simpa [Option.mem_def.mp found] using extending
  · have hash : ((bc.nodes.modify id (.withInMainChain true)).get id).hash =
        (bc.nodes.get id).hash :=
      Nodes.view_modify BlockNode.hash bc.nodes id (.withInMainChain true) rfl id
    rw [hash]

/-- Connecting a block that describes the given node moves the main chain up. -/
theorem Invariant.connect (admissible : Admissible env known)
    (invariant : Invariant env known chain bc) {below : List Block}
    (branch : (blockLinks env).Branch known (block :: below)) (allocated : id < bc.nodes.count)
    (hash : (bc.nodes.get id).hash = block.hash env.crypto)
    (connects : Connects env id block bc after) :
    Invariant env known (block :: chain) after := by
  obtain ⟨best, tip, isBest, head, -, bestHash⟩ := invariant.best
  obtain ⟨rest, rfl⟩ := List.head?_eq_some_iff.mp head
  have chainBranch := invariant.mainChain.branch admissible
  have isKnown := branch.known_of_mem admissible.genesis _ List.mem_cons_self
  have linked : block.blockdata.prevBlockHash = tip.hash env.crypto := by
    rw [← bestHash]
    exact (connects.extending _ (by simp [Blockchain.bestHash, isBest])).symm
  have above := admissible.height_above branch chainBranch linked
  have low := (invariant.mainChain.represents admissible).currentBlockHeight tip rfl
  obtain ⟨store, blockHeight, median, saves, rfl⟩ := connects.effect
  cases saves with
  | skip notHigher =>
    rw [low, UInt32.le_iff_toNat_le] at notHigher
    omega
  | save high persisted =>
    have retains := Nodes.Retains.withInMainChain bc.nodes id true
    have parentHash := (invariant.tree.header_eq admissible allocated isKnown hash).1
    have indexed := invariant.tree.addNodeToIndex allocated
    refine ⟨.connect invariant.mainChain isKnown linked (height_eq_succ above) connects.checked
        persisted, ?_, ⟨id, block, rfl, rfl, allocated, ?_⟩, ?_, invariant.cached,
      invariant.orphans⟩
    · exact (indexed.addDepNode allocated parentHash).retain retains (fun _ _ same => same)
        (fun _ _ same => same)
    · rw [BlockNode.hash_of_fixed (retains.fixed id), hash]
    · rintro _ ⟨⟩
      rfl

/-- The effect of `RollbackBlock` on a block that can be read. -/
theorem rollbackBlock_rollsBack {hash : Uint256}
    (read : bc.store.getBlock env.crypto hash = .ok block) :
    (rollbackBlock env hash).Ensures bc (fun _ after => ∃ store,
      bc.store.rollback (ε := Unit) env.crypto block = .ok store ∧
        after = { bc with store, blockHeight := block.blockdata.height - 1 }) (fun _ => False) := by
  simp only [rollbackBlock, ensures_bind, ensures_get, read, ensures_check, ensures_modify]
  exact ⟨fun store rolledBack => ⟨store, ChainStore.rollback_eq_ok rolledBack, rfl⟩,
    fun _ => ChainStore.rollback_ne_error⟩

/-- The effect of `DisconnectBlock` once the parent is in the tree. -/
structure Disconnects (env : Env) (id : NodeId) (block : Block) (before after : Blockchain) :
    Prop where
  effect : ∃ parent store medianTimePast, (before.nodes.get id).parent = some parent ∧
    before.store.rollback (ε := Unit) env.crypto block = .ok store ∧
    after = { before with
      store, medianTimePast
      blockHeight := block.blockdata.height - 1
      nodes := before.nodes.modify id (.withInMainChain false)
      blockCache := Function.update before.blockCache (before.nodes.get id).hash (some block)
      bestChain := some parent }

/-- Disconnecting the last block moves the main chain down. -/
theorem Invariant.disconnect (admissible : Admissible env known) {tip : Block}
    {below : List Block} (invariant : Invariant env known (tip :: below) bc)
    (allocated : id < bc.nodes.count) (hash : (bc.nodes.get id).hash = tip.hash env.crypto)
    (disconnects : Disconnects env id tip bc after) :
    Invariant env known below after := by
  have branch := invariant.mainChain.branch admissible
  have isKnown := branch.known_of_mem admissible.genesis _ List.mem_cons_self
  obtain ⟨parent, store, median, link, rolledBack, rfl⟩ := disconnects.effect
  obtain ⟨parentAllocated, parentHash⟩ := invariant.tree.parent id allocated parent link
  rw [(invariant.tree.header_eq admissible allocated isKnown hash).1] at parentHash
  have retains := Nodes.Retains.withInMainChain bc.nodes id false
  cases branch with
  | root => exact absurd parentHash (invariant.tree.hash_ne_zero admissible parentAllocated)
  | @extend _ next below rest isKnown linked above =>
    refine ⟨.disconnect invariant.mainChain rolledBack,
      invariant.tree.retain retains (fun _ _ same => same) (fun _ _ same => same),
      ⟨parent, next, rfl, rfl, parentAllocated, ?_⟩, ?_, ?_, invariant.orphans⟩
    · rw [BlockNode.hash_of_fixed (retains.fixed parent), parentHash]
      exact linked
    · rintro _ ⟨⟩
      exact height_sub_one (.extend rest isKnown linked above)
    · intro key cached entry
      simp only [Function.update_apply] at entry
      split at entry
      · next same =>
        obtain rfl := Option.some.inj entry
        exact ⟨(same.trans hash).symm, next :: below, .extend rest isKnown linked above⟩
      · exact invariant.cached key cached entry

/-- `DisconnectBlock` of a block that was read from the store. -/
theorem disconnectBlock_invariant (admissible : Admissible env known)
    (invariant : Invariant env known chain bc) (allocated : id < bc.nodes.count)
    (read : bc.store.getBlock env.crypto (bc.nodes.get id).hash = .ok block) :
    (disconnectBlock env id block).Ensures bc
      (fun _ after => Invariant env known chain.tail after ∧ bc.nodes.Grows after.nodes)
      (Invariant env known chain) := by
  have branch := invariant.mainChain.branch admissible
  have represents := invariant.mainChain.represents admissible
  obtain ⟨best, tip, isBest, head, -, bestHash⟩ := invariant.best
  obtain ⟨rest, rfl⟩ := List.head?_eq_some_iff.mp head
  simp only [disconnectBlock, ensures_bind, ensures_get, ensures_ite, ensures_throw]
  refine ⟨fun _ => invariant, fun atEnd => ?_⟩
  -- the block that was read is the last one of the chain
  have hash : (bc.nodes.get id).hash = tip.hash env.crypto := by
    simpa [Blockchain.bestHash, isBest, bestHash, eq_comm] using atEnd
  obtain ⟨member, blockHash⟩ := represents.mem_of_getBlock
    (fun block member => admissible.sane _ (branch.known_of_mem admissible.genesis _ member)) read
  obtain rfl := branch.eq_of_hash admissible.faithful member List.mem_cons_self
    (blockHash.trans hash)
  refine (getPrevNodeFromNode_inOrder branch represents (.refl invariant.tree) id).mono
    (fun _ middle inOrder => ?_) (fun _ inOrder => invariant.inOrder inOrder)
  have sameHash := BlockNode.hash_of_fixed (inOrder.grown.fixed id allocated)
  rw [← inOrder.store_eq] at read
  refine (rollbackBlock_rollsBack read).mono (fun _ rolled rollsBack => ?_) (fun _ => False.elim)
  obtain ⟨store, rolledBack, rfl⟩ := rollsBack
  simp only [modifyNode, ensures_modify]
  refine (setBestChain_sets _).mono (fun _ after sets => ?_) (fun _ => False.elim)
  obtain ⟨hasParent, median, rfl⟩ := sets
  have sameParent : ((middle.nodes.modify id (.withInMainChain false)).get id).parent =
      (middle.nodes.get id).parent :=
    Nodes.view_modify BlockNode.parent middle.nodes id (.withInMainChain false) rfl id
  obtain ⟨parent, link⟩ := Option.isSome_iff_exists.mp hasParent
  have disconnects : Disconnects env id block middle _ :=
    ⟨parent, store, median, sameParent.symm.trans link, rolledBack, rfl⟩
  have moved := (invariant.inOrder inOrder).disconnect admissible
    (allocated.trans_le inOrder.grown.count) (sameHash.trans hash) disconnects
  rw [link, ← sameHash]
  exact ⟨moved, inOrder.grown.trans (Nodes.Retains.withInMainChain _ _ _).grows⟩

end Blockchain

end DnaPow.Ledger
