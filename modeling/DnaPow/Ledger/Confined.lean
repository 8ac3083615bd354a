import DnaPow.Ledger.ChainCalls

/-!
# What accepting a block makes known

The hashes under which a state keeps anything (in the tree, in the store or in the
cache of side-chain blocks) grow by the hash of the accepted block at most: whatever
else a reorganisation moves was known before. The orphan pool is not touched.
-/

namespace DnaPow.Ledger

open DnaPow.Std Common Core Action

namespace Blockchain

/-- Something is kept under the hash. -/
def Keeps (bc : Blockchain) (hash : Uint256) : Prop :=
  (bc.index hash).isSome ∨ (bc.store.header hash).isSome ∨ (bc.blockCache hash).isSome

/-- All that a state keeps is kept under allowed hashes, and its orphan pool is the
one of the start. -/
structure Confined (allowed : Uint256 → Prop) (start bc : Blockchain) : Prop where
  index : ∀ hash, (bc.index hash).isSome → allowed hash
  header : ∀ hash, (bc.store.header hash).isSome → allowed hash
  cached : ∀ hash, (bc.blockCache hash).isSome → allowed hash
  orphans : bc.orphans = start.orphans
  prevOrphans : bc.prevOrphans = start.prevOrphans
  oldestOrphan : bc.oldestOrphan = start.oldestOrphan

variable {env : Env} {known : Block → Prop} {allowed : Uint256 → Prop}
  {start bc after : Blockchain} {chain : List Block} {block : Block}

theorem Confined.keeps (confined : Confined allowed start bc) {hash : Uint256}
    (keeps : bc.Keeps hash) : allowed hash := by
  rcases keeps with entry | entry | entry
  · exact confined.index hash entry
  · exact confined.header hash entry
  · exact confined.cached hash entry

/-- Calls on the tree are confined if the index is. -/
theorem Confined.outside (confined : Confined allowed start bc)
    (outside : after.outside = bc.outside)
    (index : ∀ hash, (after.index hash).isSome → allowed hash) :
    Confined allowed start after := by
  have same {α : Type} (view : Blockchain → α) := congrArg view outside
  have store : after.store = bc.store := same Blockchain.store
  have blockCache : after.blockCache = bc.blockCache := same Blockchain.blockCache
  have orphans : after.orphans = bc.orphans := same Blockchain.orphans
  have prevOrphans : after.prevOrphans = bc.prevOrphans := same Blockchain.prevOrphans
  have oldestOrphan : after.oldestOrphan = bc.oldestOrphan := same Blockchain.oldestOrphan
  refine ⟨index, ?_, ?_, orphans.trans confined.orphans, prevOrphans.trans confined.prevOrphans,
    oldestOrphan.trans confined.oldestOrphan⟩
  · rw [store]
    exact confined.header
  · rw [blockCache]
    exact confined.cached

/-- Every state is confined to all hashes. -/
theorem Confined.any (bc : Blockchain) : Confined (fun _ => True) bc bc :=
  ⟨fun _ _ => trivial, fun _ _ => trivial, fun _ _ => trivial, rfl, rfl, rfl⟩

/-- Blocks may go from the cache. -/
theorem Confined.uncache (confined : Confined allowed start bc) (hash : Uint256) :
    Confined allowed start
      { bc with blockCache := Function.update bc.blockCache hash none } := by
  refine { confined with cached := fun other entry => ?_ }
  simp only [Function.update_apply] at entry
  split at entry
  · cases entry
  · exact confined.cached other entry

theorem isSome_update {α : Type} {map : Uint256 → Option α} {key hash : Uint256}
    {value : Option α} (entry : (Function.update map key value hash).isSome) :
    hash = key ∨ (map hash).isSome := by
  rw [Function.update_apply] at entry
  split at entry
  · next same => exact .inl same
  · exact .inr entry

/-! ## Calls on the tree -/

theorem adoptChildren_index (bc : Blockchain) (id : NodeId) (children : List NodeId) :
    (adoptChildren id children).Ensures bc (fun _ after => after.index = bc.index)
      (fun after => after.index = bc.index) := by
  induction children generalizing bc with
  | nil => exact rfl
  | cons child children ih =>
    simp only [adoptChildren, adoptChild, modifyNode, appendChild, ensures_bind, ensures_modify]
    exact ih _

theorem placeBlockNode_index (bc : Blockchain) (node : BlockNode) :
    (placeBlockNode node).Ensures bc (fun _ after => after.index = bc.index)
      (fun after => after.index = bc.index) := by
  rw [placeBlockNode, ensures_bind, ensures_get]
  split
  · exact rfl
  · simp only [allocateNode, ensures_bind, ensures_get, ensures_modify, ensures_pure]
    exact (adoptChildren_index _ _ _).mono (fun _ _ same => same) (fun _ same => same)
  · simp only [allocateNode, ensures_ite, ensures_throw, ensures_bind, ensures_get, ensures_modify,
      ensures_pure]
    exact ⟨fun _ => trivial, fun _ => trivial⟩

theorem loadBlockNode_index (bc : Blockchain) (header : Blockdata) (hash : Uint256) :
    (loadBlockNode header hash).Ensures bc
      (fun id after => after.index =
        Function.update bc.index (after.nodes.get id).hash (some id))
      (fun after => after.index = bc.index) := by
  simp only [loadBlockNode, addNodeToIndex, addDepNode, ensures_bind, ensures_modify, ensures_pure]
  refine (placeBlockNode_index bc _).mono (fun id after same => ?_) (fun _ same => same)
  rw [same]

section Lookup

variable (branch : (blockLinks env).Branch known chain)
  (represents : Represents env chain bc.store)
  (tree : Tree env known bc.nodes bc.index bc.depNodes)
include branch represents tree

/-- A header that is loaded was in the store. -/
theorem loadHeader_confined (confined : Confined allowed start bc) (hash : Uint256) :
    (do
      let header ← checked .store fun bc => bc.store.getHeader hash
      loadBlockNode header hash : Call NodeId).Ensures bc
      (fun _ => Confined allowed start) (Confined allowed start) := by
  have isNode := loadHeader_isNode branch represents (.refl tree) hash
  simp only [checked, ensures_bind, ensures_check, mapError_eq_ok] at isNode ⊢
  refine ⟨fun header found => ?_, fun _ _ => confined⟩
  have isAllowed : allowed hash := by
    refine confined.header hash ?_
    rw [ChainStore.getHeader, Outcome.ofOption_eq_ok, Option.map_eq_some_iff] at found
    obtain ⟨trimmed, found, -⟩ := found
    rw [found]
    rfl
  refine ((isNode.1 header found).and (loadBlockNode_index bc header hash)).mono
    (fun id after loaded => ?_) (fun after failed => ?_)
  · obtain ⟨isNode, index⟩ := loaded
    refine confined.outside isNode.inOrder.outside fun other entry => ?_
    rw [index, isNode.hash] at entry
    rcases isSome_update entry with rfl | old
    · exact isAllowed
    · exact confined.index other old
  · obtain ⟨inOrder, index⟩ := failed
    refine confined.outside inOrder.outside fun other entry => ?_
    exact confined.index other (index ▸ entry)

theorem getPrevNodeFromBlock_confined (confined : Confined allowed start bc) (block : Block) :
    (getPrevNodeFromBlock block).Ensures bc (fun _ => Confined allowed start)
      (Confined allowed start) := by
  simp only [getPrevNodeFromBlock, ensures_ite, ensures_pure, ensures_bind, ensures_get]
  refine ⟨fun _ => confined, fun _ => ?_⟩
  split
  · exact confined
  · have loaded := loadHeader_confined branch represents tree confined
      block.blockdata.prevBlockHash
    simp only [ensures_bind] at loaded ⊢
    exact loaded.mono (fun _ _ load => load.mono (fun _ _ same => same) (fun _ same => same))
      (fun _ failed => failed)

theorem getPrevNodeFromNode_confined (confined : Confined allowed start bc) (id : NodeId) :
    (getPrevNodeFromNode id).Ensures bc (fun _ => Confined allowed start)
      (Confined allowed start) := by
  simp only [getPrevNodeFromNode, ensures_bind, ensures_get]
  split
  · exact confined
  · simp only [ensures_ite, ensures_pure]
    refine ⟨fun _ => confined, fun _ => ?_⟩
    have loaded := loadHeader_confined branch represents tree confined
      (bc.nodes.get id).parentHash
    simp only [ensures_bind] at loaded ⊢
    exact loaded.mono (fun _ _ load => load.mono (fun _ _ same => same) (fun _ same => same))
      (fun _ failed => failed)

end Lookup

variable {id : NodeId}

theorem Shrinks.confined (shrinks : Shrinks bc after) (confined : Confined allowed start bc) :
    Confined allowed start after := by
  refine confined.outside shrinks.outside fun hash entry => ?_
  obtain ⟨id, found⟩ := Option.isSome_iff_exists.mp entry
  exact confined.index hash (Option.isSome_iff_exists.mpr ⟨id, shrinks.index hash id found⟩)

/-! ## Moving the main chain -/

/-- Connecting a block keeps things under the hash of the block only. -/
theorem Connects.confined (connects : Connects env id block bc after)
    (confined : Confined allowed start bc) (hash : (bc.nodes.get id).hash = block.hash env.crypto)
    (isAllowed : allowed (block.hash env.crypto)) : Confined allowed start after := by
  obtain ⟨store, blockHeight, median, saves, rfl⟩ := connects.effect
  refine ⟨fun other entry => ?_, fun other entry => ?_, confined.cached, confined.orphans,
    confined.prevOrphans, confined.oldestOrphan⟩
  · rcases isSome_update entry with rfl | old
    · exact hash ▸ isAllowed
    · exact confined.index other old
  · cases saves with
    | skip low => exact confined.header other entry
    | save high persisted =>
      simp only [(ChainStore.persisted persisted).header] at entry
      rcases isSome_update entry with rfl | old
      · exact isAllowed
      · exact confined.header other old

theorem addToSideChain_confined (confined : Confined allowed start bc)
    (isAllowed : allowed (bc.nodes.get id).hash) (parent : NodeId) (block : Block) :
    (addToSideChain id parent block).Ensures bc (fun _ => Confined allowed start)
      (fun _ => False) := by
  simp only [Blockchain.addToSideChain, modifyNode, appendChild, addNodeToIndex, ensures_bind,
    ensures_modify]
  refine ⟨fun other entry => ?_, confined.header, fun other entry => ?_, confined.orphans,
    confined.prevOrphans, confined.oldestOrphan⟩
  · rcases isSome_update entry with rfl | old
    · exact isAllowed
    · exact confined.index other old
  · rcases isSome_update entry with rfl | old
    · exact isAllowed
    · exact confined.cached other old

theorem rollbackBlock_confined (confined : Confined allowed start bc) (hash : Uint256) :
    (rollbackBlock env hash).Ensures bc (fun _ => Confined allowed start) (fun _ => False) := by
  rw [rollbackBlock, ensures_bind, ensures_get]
  split
  · exact ensures_crash
  · exact confined
  · next block read =>
    simp only [ensures_bind, ensures_check, ensures_modify]
    refine ⟨fun store rolledBack => ?_, fun _ => ChainStore.rollback_ne_error⟩
    refine { confined with header := fun other entry => ?_ }
    simp only [(ChainStore.rolledBack rolledBack).header, write_apply] at entry
    split at entry
    · cases entry
    · exact confined.header other entry

theorem disconnectBlock_confined (admissible : Admissible env known)
    (invariant : Invariant env known chain bc) (confined : Confined allowed start bc)
    (read : bc.store.getBlock env.crypto (bc.nodes.get id).hash = .ok block) :
    (disconnectBlock env id block).Ensures bc (fun _ => Confined allowed start)
      (Confined allowed start) := by
  have isAllowed : allowed (bc.nodes.get id).hash := by
    refine confined.header _ ?_
    rw [ChainStore.getBlock, Outcome.bind_eq_ok] at read
    obtain ⟨trimmed, found, -⟩ := read
    rw [Outcome.ofOption_eq_ok.mp found]
    rfl
  simp only [disconnectBlock, ensures_bind, ensures_get, ensures_ite, ensures_throw]
  refine ⟨fun _ => confined, fun _ => ?_⟩
  refine (getPrevNodeFromNode_confined (invariant.mainChain.branch admissible)
    (invariant.mainChain.represents admissible) invariant.tree confined id).mono
    (fun _ middle confined => ?_) (fun _ failed => failed)
  refine (rollbackBlock_confined confined _).mono (fun _ rolled confined => ?_) (fun _ => False.elim)
  simp only [modifyNode, ensures_modify]
  refine (setBestChain_sets _).mono (fun _ after sets => ?_) (fun _ => False.elim)
  obtain ⟨-, median, rfl⟩ := sets
  refine { confined with cached := fun other entry => ?_ }
  rcases isSome_update entry with rfl | old
  · exact isAllowed
  · exact confined.cached other old

end Blockchain

end DnaPow.Ledger
