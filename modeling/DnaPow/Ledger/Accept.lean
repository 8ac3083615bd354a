import DnaPow.Ledger.Confined

/-!
# Accepting blocks

Every call from `ReorganizeChain` up to `ProcessBlock` leaves the state with a
main chain, whether it succeeds or fails in the middle of its work, and keeps things
under the hash of the accepted block and under hashes that were known before.
-/

namespace DnaPow.Ledger

open DnaPow.Std Common Core Action

/-- All nodes of a lineage are allocated if the first one is. -/
theorem Tree.lt_of_mem_lineage {env : Env} {known : Block → Prop} {nodes : Nodes}
    {index : Uint256 → Option NodeId} {depNodes : Uint256 → List NodeId}
    (tree : Tree env known nodes index depNodes) {start : Option NodeId}
    (allocated : ∀ id ∈ start, id < nodes.count) : ∀ id ∈ nodes.lineage start, id < nodes.count :=
  Nodes.forall_mem_lineage (fun id parent bound link => (tree.parent id bound parent link).1)
    allocated

namespace Blockchain

variable {env : Env} {known : Block → Prop} {allowed : Uint256 → Prop}
  {start bc after : Blockchain} {chain : List Block} {block : Block} {id : NodeId}

/-- Blocks may go from the cache. -/
theorem Invariant.uncache (invariant : Invariant env known chain bc) (hash : Uint256) :
    Invariant env known chain
      { bc with blockCache := Function.update bc.blockCache hash none } := by
  refine { invariant with cached := fun key block entry => ?_ }
  simp only [Function.update_apply] at entry
  split at entry
  · cases entry
  · exact invariant.cached key block entry

/-- A block of a branch may be put into the cache under its hash. -/
theorem Invariant.cache (invariant : Invariant env known chain bc) {hash : Uint256}
    {block : Block} {below : List Block}
    (branch : (blockLinks env).Branch known (block :: below))
    (same : hash = block.hash env.crypto) :
    Invariant env known chain
      { bc with blockCache := Function.update bc.blockCache hash (some block) } := by
  refine { invariant with cached := fun key other entry => ?_ }
  simp only [Function.update_apply] at entry
  split at entry
  · next key_eq =>
    obtain rfl := Option.some.inj entry
    exact ⟨(key_eq.trans same).symm, below, branch⟩
  · exact invariant.cached key other entry

theorem Connects.grows {block : Block} (connects : Connects env id block bc after) :
    bc.nodes.Grows after.nodes := by
  obtain ⟨_, _, _, -, rfl⟩ := connects.effect
  exact (Nodes.Retains.withInMainChain _ _ _).grows

/-- There is a main chain that the state agrees with. -/
def Sound (env : Env) (known : Block → Prop) (bc : Blockchain) : Prop :=
  ∃ chain, Invariant env known chain bc

/-- A sound state whose tree has grown. -/
structure SoundAfter (env : Env) (known : Block → Prop) (before after : Blockchain) : Prop where
  sound : Sound env known after
  grown : before.nodes.Grows after.nodes

/-- A state of a node that is confined. -/
structure SoundlyConfined (env : Env) (known : Block → Prop) (allowed : Uint256 → Prop)
    (start bc : Blockchain) : Prop where
  sound : Sound env known bc
  confined : Confined allowed start bc

/-- The lists of `GetReorganizeNodes` consist of nodes of the tree. -/
theorem Invariant.getReorganizeNodes_lt (invariant : Invariant env known chain bc)
    (allocated : id < bc.nodes.count) :
    (∀ other ∈ (bc.getReorganizeNodes id).1, other < bc.nodes.count) ∧
      ∀ other ∈ (bc.getReorganizeNodes id).2, other < bc.nodes.count := by
  obtain ⟨best, -, isBest, -, bestAllocated, -⟩ := invariant.best
  constructor
  · intro other member
    refine invariant.tree.lt_of_mem_lineage ?_ other ((List.takeWhile_sublist _).mem member)
    rintro _ found
    obtain rfl := Option.some.inj (isBest.symm.trans found)
    exact bestAllocated
  · intro other member
    refine invariant.tree.lt_of_mem_lineage ?_ other
      ((List.takeWhile_sublist _).mem (List.mem_reverse.mp member))
    rintro _ ⟨⟩
    exact allocated

/-- Keeping a block of a side chain touches nothing on the main chain. -/
theorem Invariant.addToSideChain (invariant : Invariant env known chain bc)
    {block : Block} {below : List Block}
    (branch : (blockLinks env).Branch known (block :: below)) (allocated : id < bc.nodes.count)
    (hash : (bc.nodes.get id).hash = block.hash env.crypto) (parent : NodeId) :
    (addToSideChain id parent block).Ensures bc
      (fun _ after => Invariant env known chain after ∧ after.nodes.count = bc.nodes.count)
      (fun _ => False) := by
  simp only [Blockchain.addToSideChain, modifyNode, appendChild, addNodeToIndex, ensures_bind,
    ensures_modify]
  have cached := invariant.cache branch hash
  have retains := (Nodes.Retains.withInMainChain bc.nodes id false).trans (.withChild _ parent id)
  have tree := (invariant.tree.addNodeToIndex allocated).retain retains (fun _ _ same => same)
    (fun _ _ same => same)
  exact ⟨cached.inOrder ⟨tree, rfl, retains.grows⟩, retains.count⟩

theorem describes_nodeAbove (bc : Blockchain) (prev : Option NodeId) {blockHeight : UInt32}
    (height : block.blockdata.height = blockHeight) :
    Describes env block (bc.nodeAbove env prev blockHeight block) := by
  cases prev with
  | none => rfl
  | some parent => rw [← height]; rfl

/-- A block without a parent next to a best chain is a nil dereference. -/
theorem acceptRoot_panics (invariant : Invariant env known chain bc) {blockHeight : UInt32}
    {post : Bool → Blockchain → Prop} {fail : Blockchain → Prop} :
    (do
      let id ← allocateNode (bc.nodeAbove env none blockHeight block)
      connectBestChain env id block : Call Bool).Ensures bc post fail := by
  obtain ⟨best, -, isBest, -⟩ := invariant.best
  simp only [allocateNode, connectBestChain, ensures_bind, ensures_get, ensures_modify,
    ensures_pure, isBest, Nodes.get_allocate_self]
  exact ensures_crash

section Reorganize

variable (admissible : Admissible env known)
include admissible

section

variable (sound : SoundlyConfined env known allowed start bc)
include sound

theorem detachNodes_sound {ids : List NodeId} (allocated : ∀ id ∈ ids, id < bc.nodes.count) :
    (detachNodes env ids).Ensures bc
      (fun _ after => SoundAfter env known bc after ∧ Confined allowed start after)
      (SoundlyConfined env known allowed start) := by
  induction ids generalizing bc with
  | nil => exact ⟨⟨sound.sound, .refl _⟩, sound.confined⟩
  | cons id ids ih =>
    obtain ⟨⟨chain, invariant⟩, confined⟩ := sound
    simp only [detachNodes, checked, ensures_bind, ensures_get, ensures_check, mapError_eq_ok]
    refine ⟨fun block read => ?_, fun _ _ => ⟨⟨chain, invariant⟩, confined⟩⟩
    refine ((disconnectBlock_invariant admissible invariant (allocated id List.mem_cons_self)
      read).and (disconnectBlock_confined admissible invariant confined read)).mono
      (fun _ middle moved => ?_) (fun _ failed => ⟨⟨chain, failed.1⟩, failed.2⟩)
    obtain ⟨⟨invariant', grown⟩, confined'⟩ := moved
    refine (ih ⟨⟨_, invariant'⟩, confined'⟩ fun other member => ?_).mono
      (fun _ after rest => ⟨⟨rest.1.sound, grown.trans rest.1.grown⟩, rest.2⟩)
      (fun _ failed => failed)
    exact (allocated other (List.mem_cons_of_mem _ member)).trans_le grown.count

theorem attachNodes_sound {ids : List NodeId} (allocated : ∀ id ∈ ids, id < bc.nodes.count) :
    (attachNodes env ids).Ensures bc
      (fun _ after => SoundAfter env known bc after ∧ Confined allowed start after)
      (SoundlyConfined env known allowed start) := by
  induction ids generalizing bc with
  | nil => exact ⟨⟨sound.sound, .refl _⟩, sound.confined⟩
  | cons id ids ih =>
    obtain ⟨⟨chain, invariant⟩, confined⟩ := sound
    simp only [attachNodes, ensures_bind, ensures_get]
    split
    · exact ensures_crash
    · next block entry =>
      obtain ⟨hash, below, branch⟩ := invariant.cached _ _ entry
      have isAllowed := confined.cached _ (Option.isSome_iff_exists.mpr ⟨block, entry⟩)
      rw [ensures_bind]
      refine (connectBlock_connects bc id block).mono (fun _ middle connects => ?_)
        (fun _ same => same ▸ ⟨⟨chain, invariant⟩, confined⟩)
      have invariant' := invariant.connect admissible branch
        (allocated id List.mem_cons_self) hash.symm connects
      have confined' := connects.confined confined hash.symm (hash ▸ isAllowed)
      rw [ensures_bind, ensures_modify]
      refine (ih ⟨⟨_, invariant'.uncache _⟩, confined'.uncache _⟩ fun other member => ?_).mono
        (fun _ after rest => ⟨⟨rest.1.sound, connects.grows.trans rest.1.grown⟩, rest.2⟩)
        (fun _ failed => failed)
      exact (allocated other (List.mem_cons_of_mem _ member)).trans_le connects.grows.count

theorem reorganizeChain_sound {detach attach : List NodeId}
    (detachAllocated : ∀ id ∈ detach, id < bc.nodes.count)
    (attachAllocated : ∀ id ∈ attach, id < bc.nodes.count) :
    (reorganizeChain env detach attach).Ensures bc
      (fun _ after => SoundAfter env known bc after ∧ Confined allowed start after)
      (SoundlyConfined env known allowed start) := by
  simp only [reorganizeChain, ensures_bind, ensures_get, ensures_ite, ensures_throw]
  refine ⟨fun _ => sound, fun _ => ?_⟩
  refine (detachNodes_sound admissible sound detachAllocated).mono (fun _ middle detached => ?_)
    (fun _ failed => failed)
  obtain ⟨⟨sound, grown⟩, confined⟩ := detached
  refine (attachNodes_sound admissible ⟨sound, confined⟩ fun id member => ?_).mono
    (fun _ after attached => ⟨⟨attached.1.sound, grown.trans attached.1.grown⟩, attached.2⟩)
    (fun _ failed => failed)
  exact (attachAllocated id member).trans_le grown.count

end

theorem connectBestChain_sound (invariant : Invariant env known chain bc)
    (confined : Confined allowed start bc) {id : NodeId} {below : List Block}
    (branch : (blockLinks env).Branch known (block :: below)) (allocated : id < bc.nodes.count)
    (hash : (bc.nodes.get id).hash = block.hash env.crypto)
    (isAllowed : allowed (block.hash env.crypto)) :
    (connectBestChain env id block).Ensures bc
      (fun _ => SoundlyConfined env known allowed start)
      (SoundlyConfined env known allowed start) := by
  obtain ⟨best, tip, isBest, -⟩ := invariant.best
  rw [connectBestChain, ensures_bind, ensures_get]
  split
  · next noBest =>
    rw [isBest] at noBest
    cases noBest
  · exact ensures_crash
  · next parent _ link =>
    simp only [ensures_ite, ensures_bind, ensures_get, ensures_pure]
    refine ⟨fun _ => ?_, fun _ => ?_⟩
    · -- the block extends the best chain
      refine (connectBlock_connects bc id block).mono (fun _ middle connects => ?_)
        (fun _ same => same ▸ ⟨⟨chain, invariant⟩, confined⟩)
      have invariant' := invariant.connect admissible branch allocated hash connects
      have confined' := connects.confined confined hash isAllowed
      have retains := Nodes.Retains.withChild middle.nodes parent id
      simp only [appendChild, modifyNode, ensures_modify]
      exact ⟨⟨_, invariant'.inOrder ⟨invariant'.tree.retain retains (fun _ _ same => same)
        (fun _ _ same => same), rfl, retains.grows⟩⟩, confined'.outside rfl confined'.index⟩
    · -- the block is kept aside
      refine ((invariant.addToSideChain branch allocated hash parent).and
        (addToSideChain_confined confined (hash ▸ isAllowed) parent block)).mono
        (fun _ middle kept => ?_) (fun _ failed => failed.1.elim)
      obtain ⟨⟨invariant', count⟩, confined'⟩ := kept
      obtain ⟨detach, attach⟩ := invariant'.getReorganizeNodes_lt (count.symm ▸ allocated)
      refine ⟨fun _ => ⟨⟨chain, invariant'⟩, confined'⟩, fun _ => ?_⟩
      exact (reorganizeChain_sound admissible ⟨⟨chain, invariant'⟩, confined'⟩ detach attach).mono
        (fun _ _ moved => ⟨moved.1.sound, moved.2⟩) (fun _ failed => failed)

/-- A block whose height fits its parent node is on top of a branch. -/
theorem exists_branch (isKnown : known block) {start : Blockchain} {id : NodeId}
    (isNode : IsNode env known start block.blockdata.prevBlockHash id bc)
    (height : block.blockdata.height = bc.heightAbove (some id)) :
    ∃ below, (blockLinks env).Branch known (block :: below) := by
  obtain ⟨parent, below, branch, describes⟩ := isNode.inOrder.tree.described id isNode.allocated
  have linked := isNode.hash.symm.trans describes.hash
  have above : block.blockdata.height = parent.blockdata.height + 1 := by
    rw [height, ← describes.height]
    rfl
  exact ⟨parent :: below, .extend branch isKnown linked (admissible.height_toNat branch above)⟩

/-- The last two statements of `maybeAcceptBlock`, on a block with a parent. -/
theorem acceptAbove_sound (invariant : Invariant env known chain bc)
    (confined : Confined allowed start bc) {below : List Block}
    (branch : (blockLinks env).Branch known (block :: below)) {parent : NodeId}
    (allocated : parent < bc.nodes.count)
    (hash : (bc.nodes.get parent).hash = block.blockdata.prevBlockHash)
    (isAllowed : allowed (block.hash env.crypto)) :
    (do
      let id ← allocateNode (bc.nodeAbove env (some parent) block.blockdata.height block)
      connectBestChain env id block : Call Bool).Ensures bc
      (fun _ => SoundlyConfined env known allowed start)
      (SoundlyConfined env known allowed start) := by
  have newNode := (InOrder.refl invariant.tree).allocate branch
    (describes_nodeAbove bc (some parent) rfl) <| by
      rintro _ ⟨⟩
      exact ⟨allocated, hash⟩
  simp only [allocateNode, ensures_bind, ensures_get, ensures_modify, ensures_pure]
  exact connectBestChain_sound admissible (invariant.inOrder newNode.inOrder)
    (confined.outside rfl confined.index) branch newNode.allocated newNode.hash isAllowed

/-- Accepting a block, successfully or not, keeps things under its hash only. -/
theorem maybeAcceptBlock_confined (invariant : Invariant env known chain bc)
    (isKnown : known block) (confined : Confined allowed start bc)
    (isAllowed : allowed (block.hash env.crypto)) :
    (maybeAcceptBlock env block).Ensures bc (fun _ => SoundlyConfined env known allowed start)
      (SoundlyConfined env known allowed start) := by
  have chainBranch := invariant.mainChain.branch admissible
  have represents := invariant.mainChain.represents admissible
  rw [maybeAcceptBlock, ensures_bind]
  refine ((getPrevNodeFromBlock_isNode chainBranch represents (.refl invariant.tree) block).and
    (getPrevNodeFromBlock_confined chainBranch represents invariant.tree confined block)).mono
    (fun prev found looked => ?_)
    (fun _ failed => ⟨⟨chain, invariant.inOrder failed.1⟩, failed.2⟩)
  obtain ⟨⟨inOrder, isNode⟩, confined⟩ := looked
  have invariant := invariant.inOrder inOrder
  rw [ensures_bind, ensures_get, ensures_ite]
  refine ⟨fun _ => ⟨⟨chain, invariant⟩, confined⟩, fun height => ?_⟩
  have height : block.blockdata.height = found.heightAbove prev := not_not.mp height
  simp only [checked, ensures_bind, ensures_check, mapError_eq_ok]
  refine ⟨fun _ _ => ?_, fun _ _ => ⟨⟨chain, invariant⟩, confined⟩⟩
  have shrunk {pruned : Blockchain} (shrinks : Shrinks found pruned) :=
    invariant.inOrder (shrinks.inOrder (.refl invariant.tree))
  refine (pruneBlockNodes_shrinks env found).mono (fun _ pruned shrinks => ?_)
    (fun _ shrinks => ⟨⟨chain, shrunk shrinks⟩, shrinks.confined confined⟩)
  rw [ensures_get]
  cases prev with
  | none => exact ensures_bind.mp (acceptRoot_panics (shrunk shrinks))
  | some parent =>
    obtain ⟨below, branch⟩ := exists_branch admissible isKnown isNode height
    rw [← height]
    refine ensures_bind.mp (acceptAbove_sound admissible (shrunk shrinks)
      (shrinks.confined confined) branch (shrinks.nodes.count ▸ isNode.allocated) ?_ isAllowed)
    rw [BlockNode.hash_of_fixed (shrinks.nodes.fixed parent), isNode.hash]

theorem maybeAcceptBlock_sound (sound : Sound env known bc) (isKnown : known block) :
    (maybeAcceptBlock env block).Ensures bc (fun _ => Sound env known) (Sound env known) := by
  obtain ⟨chain, invariant⟩ := sound
  exact (maybeAcceptBlock_confined admissible invariant isKnown (.any bc) trivial).mono
    (fun _ _ accepted => accepted.sound) (fun _ failed => failed.sound)

end Reorganize

end Blockchain

end DnaPow.Ledger
