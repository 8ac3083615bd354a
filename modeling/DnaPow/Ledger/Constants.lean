import DnaPow.Ledger.Runs
import DnaPow.Std.Keeping

/-!
# What a node never changes

The hash of the genesis block and the asset that fees are paid in are set when the
node starts. Accepting a block leaves the orphan pool alone as well, and only the
reorganisation itself can find a block missing from the cache.
-/

namespace DnaPow.Ledger.Blockchain

open DnaPow.Std Common Core Action

/-- What is set once, when a node starts. -/
def constants (bc : Blockchain) : Uint256 × Uint256 := (bc.genesisHash, bc.assetID)

/-- The orphan pool. -/
structure Pool where
  orphans : List OrphanBlock
  prevOrphans : Uint256 → List OrphanBlock
  oldestOrphan : Option OrphanBlock

def pool (bc : Blockchain) : Pool := ⟨bc.orphans, bc.prevOrphans, bc.oldestOrphan⟩

/-- What accepting a block leaves alone. -/
def aside (bc : Blockchain) : (Uint256 × Uint256) × Pool := (bc.constants, bc.pool)

variable {env : Env}

/-- No check of the ledger fails because a block is missing from the cache. -/
theorem leaves_checked {ε α : Type} {name : ε → LedgerError} {check : Blockchain → Outcome ε α}
    (differs : ∀ reason, name reason ≠ .missingFromCache) :
    (checked name check).Leaves aside .missingFromCache := by
  refine leaves_check fun bc => ?_
  cases check bc with
  | ok value => exact nofun
  | error reason => exact fun same => differs reason (Outcome.error.inj same)
  | panic => exact nofun

theorem modifyNode_leaves (id : NodeId) (change : BlockNode → BlockNode) :
    (modifyNode id change).Leaves aside .missingFromCache := leaves_modify fun _ => rfl

theorem allocateNode_leaves (node : BlockNode) :
    (allocateNode node).Leaves aside .missingFromCache :=
  .read fun _ => .write (fun _ => rfl) fun _ => leaves_pure

theorem addNodeToIndex_leaves (id : NodeId) :
    (addNodeToIndex id).Leaves aside .missingFromCache := leaves_modify fun _ => rfl

theorem addDepNode_leaves (parentHash : Uint256) (id : NodeId) :
    (addDepNode parentHash id).Leaves aside .missingFromCache := leaves_modify fun _ => rfl

theorem adoptChildren_leaves (id : NodeId) (children : List NodeId) :
    (adoptChildren id children).Leaves aside .missingFromCache := by
  induction children with
  | nil => exact leaves_pure
  | cons child children ih =>
    refine Leaves.bind ?_ fun _ => ih
    exact (modifyNode_leaves _ _).bind fun _ => (modifyNode_leaves _ _).bind fun _ =>
      leaves_modify fun _ => rfl

theorem placeBlockNode_leaves (node : BlockNode) :
    (placeBlockNode node).Leaves aside .missingFromCache := by
  refine .read fun bc => ?_
  split
  · exact (allocateNode_leaves _).bind fun _ => (modifyNode_leaves _ _).bind fun _ => leaves_pure
  · exact (allocateNode_leaves _).bind fun _ => (adoptChildren_leaves _ _).bind fun _ => leaves_pure
  · exact .ite (leaves_throw nofun) ((allocateNode_leaves _).bind fun _ =>
      .write (fun _ => rfl) fun _ => leaves_pure)

theorem loadBlockNode_leaves (header : Blockdata) (hash : Uint256) :
    (loadBlockNode header hash).Leaves aside .missingFromCache :=
  (placeBlockNode_leaves _).bind fun _ => (addNodeToIndex_leaves _).bind fun _ =>
    (addDepNode_leaves _ _).bind fun _ => leaves_pure

theorem removeBlockNodes_leaves (ids : List NodeId) :
    (removeBlockNodes ids).Leaves aside .missingFromCache := by
  induction ids with
  | nil => exact leaves_pure
  | cons id ids ih =>
    refine Leaves.bind (.read fun bc => ?_) fun _ => ih
    exact .ite (leaves_throw nofun) (leaves_modify fun _ => rfl)

theorem pruneBlockNodes_leaves : (pruneBlockNodes env).Leaves aside .missingFromCache := by
  refine .read fun bc => ?_
  split
  · exact leaves_pure
  · split
    · exact leaves_pure
    · exact (removeBlockNodes_leaves _).bind fun _ => leaves_modify fun _ => rfl

theorem getPrevNodeFromBlock_leaves (block : Block) :
    (getPrevNodeFromBlock block).Leaves aside .missingFromCache := by
  refine .ite leaves_pure (.read fun bc => ?_)
  split
  · exact leaves_pure
  · exact (leaves_checked nofun).bind fun _ => (loadBlockNode_leaves _ _).bind fun _ => leaves_pure

theorem getPrevNodeFromNode_leaves (id : NodeId) :
    (getPrevNodeFromNode id).Leaves aside .missingFromCache := by
  refine .read fun bc => ?_
  dsimp only
  split
  · exact leaves_pure
  · exact .ite leaves_pure ((leaves_checked nofun).bind fun _ =>
      (loadBlockNode_leaves _ _).bind fun _ => leaves_pure)

theorem setBestChain_leaves (best : Option NodeId) :
    (setBestChain best).Leaves aside .missingFromCache :=
  .write (fun _ => rfl) fun _ => (leaves_check fun _ => Nodes.calcPastMedianTime_ne_error).bind
    fun _ => leaves_modify fun _ => rfl

theorem saveBlock_leaves (block : Block) :
    (saveBlock env block).Leaves aside .missingFromCache :=
  .read fun _ => .ite leaves_pure ((leaves_check fun _ => ChainStore.persistBlocks_ne_error).bind
    fun _ => leaves_modify fun _ => rfl)

theorem rollbackBlock_leaves (hash : Uint256) :
    (rollbackBlock env hash).Leaves aside .missingFromCache := by
  refine .read fun bc => ?_
  split
  · exact leaves_crash
  · exact leaves_pure
  · exact (leaves_check fun _ => ChainStore.rollback_ne_error).bind fun _ =>
      leaves_modify fun _ => rfl

theorem disconnectBlock_leaves (id : NodeId) (block : Block) :
    (disconnectBlock env id block).Leaves aside .missingFromCache :=
  .read fun _ => .ite (leaves_throw nofun) <| (getPrevNodeFromNode_leaves _).bind fun _ =>
    (rollbackBlock_leaves _).bind fun _ => (modifyNode_leaves _ _).bind fun _ =>
      .write (fun _ => rfl) fun _ => .read fun _ => setBestChain_leaves _

theorem connectBlock_leaves (id : NodeId) (block : Block) :
    (connectBlock env id block).Leaves aside .missingFromCache :=
  (leaves_checked nofun).bind fun _ => .read fun _ => .ite (leaves_throw nofun) <|
    (saveBlock_leaves _).bind fun _ => (modifyNode_leaves _ _).bind fun _ =>
      (addNodeToIndex_leaves _).bind fun _ => (addDepNode_leaves _ _).bind fun _ =>
        setBestChain_leaves _

theorem detachNodes_leaves (ids : List NodeId) :
    (detachNodes env ids).Leaves aside .missingFromCache := by
  induction ids with
  | nil => exact leaves_pure
  | cons id ids ih =>
    exact .read fun _ => (leaves_checked nofun).bind fun _ =>
      (disconnectBlock_leaves _ _).bind fun _ => ih

theorem attachNodes_leaves (ids : List NodeId) :
    (attachNodes env ids).Leaves aside .missingFromCache := by
  induction ids with
  | nil => exact leaves_pure
  | cons id ids ih =>
    refine .read fun bc => ?_
    dsimp only
    split
    · exact leaves_crash
    · exact (connectBlock_leaves _ _).bind fun _ => .write (fun _ => rfl) fun _ => ih

theorem connectBestChain_keeps (id : NodeId) (block : Block) :
    (connectBestChain env id block).Keeps aside := by
  refine .read fun bc => ?_
  split
  · refine (connectBlock_leaves _ _).keeps.bind fun _ => Keeps.bind ?_ fun _ => keeps_pure
    cases (bc.nodes.get id).parent with
    | none => exact keeps_pure
    | some parent => exact keeps_modify fun _ => rfl
  · exact keeps_crash
  · refine .ite ((connectBlock_leaves _ _).keeps.bind fun _ => .write (fun _ => rfl) fun _ =>
      keeps_pure) (Keeps.bind ?_ fun _ => .read fun _ => .ite keeps_pure (Keeps.bind ?_ fun _ =>
        keeps_pure))
    · exact .write (fun _ => rfl) fun _ => .write (fun _ => rfl) fun _ => .write (fun _ => rfl)
        fun _ => keeps_modify fun _ => rfl
    · exact .read fun _ => .ite keeps_throw ((detachNodes_leaves _).bind fun _ =>
        attachNodes_leaves _).keeps

theorem maybeAcceptBlock_keeps (block : Block) :
    (maybeAcceptBlock env block).Keeps aside :=
  (getPrevNodeFromBlock_leaves _).keeps.bind fun _ => .read fun _ => .ite keeps_throw <|
    keeps_check.bind fun _ => pruneBlockNodes_leaves.keeps.bind fun _ => .read fun _ =>
      (allocateNode_leaves _).keeps.bind fun _ => connectBestChain_keeps _ _

/-- The constants of a node in every state that a run reaches. -/
theorem constants_of_run {deliveries : List Delivery} {bc : Blockchain}
    (ran : run env deliveries = some bc) : bc.constants = (fresh env).constants := by
  refine @holds_of_run _ _ ⟨fun _ _ _ => True, fun _ _ => True⟩
    (fun bc => bc.constants = (fresh env).constants) _ rfl ?_ ?_
    (runMeets_of_forall (fun _ _ _ => True.intro) fun _ _ => True.intro) ran
  · intro before after pool same
    rw [pool.same]
    exact same
  · intro _ before block same _
    exact (((maybeAcceptBlock_keeps block).map Prod.fst).ensures before).mono
      (fun _ _ kept => kept.trans same) (fun _ kept => kept.trans same)

theorem fresh_constants (env : Env) :
    (fresh env).constants = ((genesisBlock env).hash env.crypto, systemToken.hash env.crypto) := by
  rw [fresh, newBlockchainWithGenesisBlock_genesis]
  rfl

theorem genesisHash_of_run {deliveries : List Delivery} {bc : Blockchain}
    (ran : run env deliveries = some bc) : bc.genesisHash = (genesisBlock env).hash env.crypto :=
  congrArg Prod.fst ((constants_of_run ran).trans (fresh_constants env))

end DnaPow.Ledger.Blockchain
