import DnaPow.Ledger.Tree

/-!
# Calls that change the tree

Pruning, loading and looking up nodes. Each call keeps the tree and leaves
everything outside it alone; pruning moreover leaves all sums of work alone.
-/

namespace DnaPow.Ledger

open DnaPow.Std Common Core Action

namespace Blockchain

/-- The state without the tree. -/
def outside (bc : Blockchain) : Blockchain :=
  { bc with nodes := .empty, index := fun _ => none, depNodes := fun _ => [], root := none }

/-- The tree of a state is in order and has grown since the start, and everything
else is as it was at the start. -/
structure InOrder (env : Env) (known : Block → Prop) (start bc : Blockchain) : Prop where
  tree : Tree env known bc.nodes bc.index bc.depNodes
  outside : bc.outside = start.outside
  grown : start.nodes.Grows bc.nodes

theorem InOrder.refl {env : Env} {known : Block → Prop} {bc : Blockchain}
    (tree : Tree env known bc.nodes bc.index bc.depNodes) : InOrder env known bc bc :=
  ⟨tree, rfl, .refl _⟩

/-! ## Pruning -/

/-- Links and entries of the maps may have been dropped. -/
structure Shrinks (before after : Blockchain) : Prop where
  outside : after.outside = before.outside
  nodes : before.nodes.Retains after.nodes
  workSum : ∀ id, (after.nodes.get id).workSum = (before.nodes.get id).workSum
  index : ∀ hash id, after.index hash = some id → before.index hash = some id
  depNodes : ∀ hash, ∀ id ∈ after.depNodes hash, id ∈ before.depNodes hash

namespace Shrinks

theorem refl (bc : Blockchain) : Shrinks bc bc :=
  ⟨rfl, .refl _, fun _ => rfl, fun _ _ same => same, fun _ _ same => same⟩

theorem trans {first second third : Blockchain} (left : Shrinks first second)
    (right : Shrinks second third) : Shrinks first third where
  outside := right.outside.trans left.outside
  nodes := left.nodes.trans right.nodes
  workSum id := (right.workSum id).trans (left.workSum id)
  index hash id entry := left.index hash id (right.index hash id entry)
  depNodes hash id member := left.depNodes hash id (right.depNodes hash id member)

theorem inOrder {env : Env} {known : Block → Prop} {start before after : Blockchain}
    (shrinks : Shrinks before after) (inOrder : InOrder env known start before) :
    InOrder env known start after where
  tree := inOrder.tree.retain shrinks.nodes shrinks.index shrinks.depNodes
  outside := shrinks.outside.trans inOrder.outside
  grown := inOrder.grown.trans shrinks.nodes.grows

end Shrinks

theorem removeBlockNode_shrinks (bc : Blockchain) (id : NodeId) :
    (removeBlockNode id).Ensures bc (fun _ => Shrinks bc) (Shrinks bc) := by
  simp only [removeBlockNode, ensures_bind, ensures_get, ensures_ite, ensures_throw, ensures_modify]
  refine ⟨fun _ => .refl bc, fun _ => ⟨rfl, .unlinkChildren bc.nodes id,
    fun other => Nodes.workSum_unlinkChildren bc.nodes id other, fun hash other entry => ?_,
    fun hash other member => ?_⟩⟩
  · simp only [Function.update_apply] at entry
    split at entry
    · cases entry
    · exact entry
  · simp only [Function.update_apply] at member
    split at member
    · next same => exact same ▸ List.mem_of_mem_eraseP member
    · exact member

theorem removeBlockNodes_shrinks (bc : Blockchain) (ids : List NodeId) :
    (removeBlockNodes ids).Ensures bc (fun _ => Shrinks bc) (Shrinks bc) := by
  induction ids generalizing bc with
  | nil => exact .refl bc
  | cons id ids ih =>
    rw [removeBlockNodes, ensures_bind]
    refine (removeBlockNode_shrinks bc id).mono (fun _ middle first => ?_) (fun _ failed => failed)
    exact (ih middle).mono (fun _ _ rest => first.trans rest) (fun _ rest => first.trans rest)

theorem pruneBlockNodes_shrinks (env : Env) (bc : Blockchain) :
    (pruneBlockNodes env).Ensures bc (fun _ => Shrinks bc) (Shrinks bc) := by
  simp only [pruneBlockNodes, ensures_bind, ensures_get]
  split
  · exact .refl bc
  · split
    · exact .refl bc
    · rw [ensures_bind]
      refine (removeBlockNodes_shrinks bc _).mono (fun _ after removed => ?_) (fun _ failed => failed)
      exact ⟨removed.outside, removed.nodes, removed.workSum, removed.index, removed.depNodes⟩

/-! ## Loading -/

section Loading

variable {env : Env} {known : Block → Prop} {start bc : Blockchain}
  {block : Block} {below : List Block}

theorem InOrder.retain (inOrder : InOrder env known start bc) {nodes : Nodes}
    (retains : bc.nodes.Retains nodes) : InOrder env known start { bc with nodes } where
  tree := inOrder.tree.retain retains (fun _ _ same => same) (fun _ _ same => same)
  outside := inOrder.outside
  grown := inOrder.grown.trans retains.grows

/-- What a call does to the tree while it keeps what is set once. -/
structure Loads (env : Env) (known : Block → Prop) (start before after : Blockchain) : Prop where
  inOrder : InOrder env known start after
  count : after.nodes.count = before.nodes.count
  fixed : ∀ id, (after.nodes.get id).fixed = (before.nodes.get id).fixed

theorem adoptChild_loads (inOrder : InOrder env known start bc) {id child : NodeId}
    (allocated : id < bc.nodes.count)
    (linked : (bc.nodes.get child).parentHash = (bc.nodes.get id).hash) :
    (adoptChild id child).Ensures bc (fun _ => Loads env known start bc)
      (Loads env known start bc) := by
  simp only [adoptChild, modifyNode, appendChild, ensures_bind, ensures_modify]
  have parentSet := inOrder.tree.setParent allocated linked.symm
  have retains (work fuel : Nat) := (Nodes.Retains.withChild
    (bc.nodes.modify child (.withParent (some id))) id child).trans (.addWork work fuel _ child)
  have fixed (work fuel : Nat) (other : NodeId) := ((retains work fuel).fixed other).trans
    (Nodes.view_modify BlockNode.fixed bc.nodes child (.withParent (some id)) rfl other)
  exact ⟨⟨parentSet.retain (retains _ _) (fun _ _ same => same) (fun _ _ same => same),
    inOrder.outside, inOrder.grown.trans (.of_fixed (retains _ _).count (fixed _ _))⟩,
    (retains _ _).count, fixed _ _⟩

theorem adoptChildren_loads (inOrder : InOrder env known start bc) {id : NodeId}
    (allocated : id < bc.nodes.count) {children : List NodeId}
    (linked : ∀ child ∈ children, (bc.nodes.get child).parentHash = (bc.nodes.get id).hash) :
    (adoptChildren id children).Ensures bc (fun _ => Loads env known start bc)
      (Loads env known start bc) := by
  induction children generalizing bc with
  | nil => exact ⟨inOrder, rfl, fun _ => rfl⟩
  | cons child children ih =>
    rw [adoptChildren, ensures_bind]
    refine (adoptChild_loads inOrder allocated (linked child List.mem_cons_self)).mono
      (fun _ middle first => ?_) (fun _ failed => failed)
    refine (ih first.inOrder (first.count ▸ allocated) fun other member => ?_).mono
      (fun _ after rest => ?_) (fun after rest => ?_)
    · rw [BlockNode.parentHash_of_fixed (first.fixed other),
        BlockNode.hash_of_fixed (first.fixed id)]
      exact linked other (List.mem_cons_of_mem _ member)
    all_goals exact ⟨rest.inOrder, rest.count.trans first.count,
      fun other => (rest.fixed other).trans (first.fixed other)⟩

/-- A node of the tree that has the given hash. -/
structure IsNode (env : Env) (known : Block → Prop) (start : Blockchain) (hash : Uint256)
    (id : NodeId) (bc : Blockchain) : Prop where
  inOrder : InOrder env known start bc
  allocated : id < bc.nodes.count
  hash : (bc.nodes.get id).hash = hash

section

variable (inOrder : InOrder env known start bc)
include inOrder

theorem InOrder.allocate {node : BlockNode}
    (branch : (blockLinks env).Branch known (block :: below)) (describes : Describes env block node)
    (linked : ∀ parent, node.parent = some parent →
      parent < bc.nodes.count ∧ (bc.nodes.get parent).hash = node.parentHash) :
    IsNode env known start (block.hash env.crypto) bc.nodes.count
      { bc with nodes := bc.nodes.allocate node } where
  inOrder := ⟨inOrder.tree.allocate branch describes linked, inOrder.outside,
    inOrder.grown.trans (.allocate _ _)⟩
  allocated := Nat.lt_succ_self _
  hash := by
    rw [Nodes.get_allocate_self]
    exact describes.hash

theorem placeBlockNode_isNode {node : BlockNode}
    (branch : (blockLinks env).Branch known (block :: below))
    (describes : Describes env block node) (unlinked : node.parent = none) :
    (placeBlockNode node).Ensures bc (fun id after =>
      IsNode env known start (block.hash env.crypto) id after ∧
        (after.nodes.get id).parentHash = block.blockdata.prevBlockHash)
      (InOrder env known start) := by
  have alone := inOrder.allocate branch describes (by simp [unlinked])
  have prev : ((bc.nodes.allocate node).get bc.nodes.count).parentHash =
      block.blockdata.prevBlockHash := by
    rw [Nodes.get_allocate_self, describes.parentHash]
  rw [placeBlockNode, ensures_bind, ensures_get]
  split
  · next parent entry =>
    simp only [allocateNode, appendChild, modifyNode, ensures_bind, ensures_get, ensures_modify,
      ensures_pure]
    have below := inOrder.allocate branch (describes.under parent (bc.nodes.get parent)) <| by
      rintro _ ⟨⟩
      exact inOrder.tree.index _ _ entry
    have retains := Nodes.Retains.withChild
      (bc.nodes.allocate (node.under parent (bc.nodes.get parent))) parent bc.nodes.count
    refine ⟨⟨below.inOrder.retain retains, retains.count ▸ below.allocated, ?_⟩, ?_⟩
    · rw [BlockNode.hash_of_fixed (retains.fixed _), below.hash]
    · rw [BlockNode.parentHash_of_fixed (retains.fixed _), Nodes.get_allocate_self]
      exact describes.parentHash
  · next child children entry found =>
    simp only [allocateNode, ensures_bind, ensures_get, ensures_modify, ensures_pure]
    refine (adoptChildren_loads alone.inOrder alone.allocated fun child member => ?_).mono
      (fun _ after loads => ?_) (fun _ loads => loads.inOrder)
    · rw [← found] at member
      obtain ⟨bound, linked⟩ := inOrder.tree.depNodes _ child member
      rw [Nodes.get_allocate_of_lt bound, Nodes.get_allocate_self, linked]
    · refine ⟨⟨loads.inOrder, loads.count ▸ alone.allocated, ?_⟩, ?_⟩
      · rw [BlockNode.hash_of_fixed (loads.fixed _), alone.hash]
      · rw [BlockNode.parentHash_of_fixed (loads.fixed _), prev]
  · simp only [allocateNode, ensures_ite, ensures_throw, ensures_bind, ensures_get, ensures_modify,
      ensures_pure]
    exact ⟨fun _ => inOrder, fun _ => ⟨⟨⟨alone.inOrder.tree, alone.inOrder.outside,
      alone.inOrder.grown⟩, alone.allocated, alone.hash⟩, prev⟩⟩

theorem loadBlockNode_isNode (branch : (blockLinks env).Branch known (block :: below)) :
    (loadBlockNode block.blockdata (block.hash env.crypto)).Ensures bc
      (IsNode env known start (block.hash env.crypto)) (InOrder env known start) := by
  simp only [loadBlockNode, addNodeToIndex, addDepNode, ensures_bind, ensures_modify, ensures_pure]
  refine (placeBlockNode_isNode inOrder branch (describes_newBlockNode env block true) rfl).mono
    (fun id after placed => ?_) (fun _ failed => failed)
  obtain ⟨isNode, linked⟩ := placed
  have indexed := isNode.inOrder.tree.addNodeToIndex isNode.allocated
  exact ⟨⟨indexed.addDepNode isNode.allocated linked, isNode.inOrder.outside, isNode.inOrder.grown⟩,
    isNode.allocated, isNode.hash⟩

theorem InOrder.store_eq : bc.store = start.store := by
  have same := congrArg Blockchain.store inOrder.outside
  exact same

end

section Lookup

variable {chain : List Block} (branch : (blockLinks env).Branch known chain)
  (represents : Represents env chain start.store)
include branch represents

/-- A header of the store is loaded as a node of the tree. -/
theorem loadHeader_isNode (inOrder : InOrder env known start bc) (hash : Uint256) :
    (do
      let header ← checked .store fun bc => bc.store.getHeader hash
      loadBlockNode header hash : Call NodeId).Ensures bc
      (IsNode env known start hash) (InOrder env known start) := by
  simp only [checked, ensures_bind, ensures_check, mapError_eq_ok]
  refine ⟨fun header found => ?_, fun _ _ => inOrder⟩
  rw [inOrder.store_eq] at found
  obtain ⟨block, member, rfl, rfl⟩ := represents.getHeader_eq_ok.mp found
  obtain ⟨below, branch⟩ := branch.exists_below member
  exact loadBlockNode_isNode inOrder branch

/-- `GetPrevNodeFromBlock` finds the parent, in the tree or in the store. -/
theorem getPrevNodeFromBlock_isNode (inOrder : InOrder env known start bc) (block : Block) :
    (getPrevNodeFromBlock block).Ensures bc
      (fun prev after => InOrder env known start after ∧
        match prev with
        | none => block.blockdata.prevBlockHash = 0
        | some id => IsNode env known start block.blockdata.prevBlockHash id after)
      (InOrder env known start) := by
  simp only [getPrevNodeFromBlock, ensures_ite, ensures_pure, ensures_bind, ensures_get]
  refine ⟨fun zero => ⟨inOrder, zero⟩, fun _ => ?_⟩
  split
  · next id entry =>
    obtain ⟨allocated, hash⟩ := inOrder.tree.index _ _ entry
    exact ⟨inOrder, inOrder, allocated, hash⟩
  · have loaded := loadHeader_isNode branch represents inOrder block.blockdata.prevBlockHash
    simp only [ensures_bind] at loaded ⊢
    refine loaded.mono (fun header middle load => ?_) (fun _ failed => failed)
    exact load.mono (fun id after isNode => ⟨isNode.inOrder, isNode⟩) (fun _ failed => failed)

/-- `GetPrevNodeFromNode` keeps the tree. -/
theorem getPrevNodeFromNode_inOrder (inOrder : InOrder env known start bc) (id : NodeId) :
    (getPrevNodeFromNode id).Ensures bc (fun _ => InOrder env known start)
      (InOrder env known start) := by
  simp only [getPrevNodeFromNode, ensures_bind, ensures_get]
  split
  · exact inOrder
  · simp only [ensures_ite, ensures_pure]
    refine ⟨fun _ => inOrder, fun _ => ?_⟩
    have loaded := loadHeader_isNode branch represents inOrder (bc.nodes.get id).parentHash
    simp only [ensures_bind] at loaded ⊢
    refine loaded.mono (fun header middle load => ?_) (fun _ failed => failed)
    exact load.mono (fun _ _ isNode => isNode.inOrder) (fun _ failed => failed)

end Lookup

end Loading

end Blockchain

end DnaPow.Ledger
