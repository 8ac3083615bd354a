import DnaPow.Ledger.BlockValidator

/-!
# The blockchain

The state of a node and the functions of `blockchain.go` that change it, up to
`ProcessBlock`. Blocks are delivered one at a time (the callers hold a lock), so
the state is passed from call to call. A failed call returns an error and leaves
behind whatever it wrote before.
-/

namespace DnaPow.Ledger

open DnaPow.Std Common Core

/-- An orphan block. The serial number tells two entries for one block apart. -/
structure OrphanBlock where
  serial : Nat
  block : Block
  expiration : Int
  deriving DecidableEq, Repr

/-- `Blockchain` together with the store. The lists of `depNodes` and
`prevOrphans` are empty where the maps of the source have no entry. -/
structure Blockchain where
  blockHeight : UInt32
  genesisHash : Uint256
  bestChain : Option NodeId
  root : Option NodeId
  nodes : Nodes
  index : Uint256 → Option NodeId
  depNodes : Uint256 → List NodeId
  orphans : List OrphanBlock
  prevOrphans : Uint256 → List OrphanBlock
  oldestOrphan : Option OrphanBlock
  orphanCount : Nat
  blockCache : Uint256 → Option Block
  medianTimePast : Nat
  assetID : Uint256
  store : ChainStore

/-- The errors of the functions below. -/
inductive LedgerError where
  | alreadyHaveBlock
  | alreadyHaveOrphan
  | sanity (reason : BlockError)
  | wrongHeight
  | context (reason : BlockError)
  | store (reason : StoreError)
  | orphanNode
  | nodeHasParent
  | missingFromCache
  | notBestChain
  | transactionContext (code : ErrCode)
  | notExtending
  | inconsistentGenesis
  deriving DecidableEq, Repr

/-- A call on the state of a node. -/
abbrev Call := Action LedgerError Blockchain

namespace Blockchain

variable (env : Env)

/-- Run a check that reads the state. -/
def checked {ε α : Type} (name : ε → LedgerError) (check : Blockchain → Outcome ε α) : Call α :=
  Action.check fun bc => mapError name (check bc)

/-! ## The tree of nodes -/

def modifyNode (id : NodeId) (change : BlockNode → BlockNode) : Call Unit :=
  Action.modify fun bc => { bc with nodes := bc.nodes.modify id change }

/-- Allocate a node. -/
def allocateNode (node : BlockNode) : Call NodeId := do
  let id := (← Action.get).nodes.count
  Action.modify fun bc => { bc with nodes := bc.nodes.allocate node }
  return id

def appendChild (parent child : NodeId) : Call Unit :=
  modifyNode parent (.withChild child)

def addNodeToIndex (id : NodeId) : Call Unit :=
  Action.modify fun bc =>
    { bc with index := Function.update bc.index (bc.nodes.get id).hash (some id) }

def addDepNode (parentHash : Uint256) (id : NodeId) : Call Unit :=
  Action.modify fun bc =>
    { bc with
      depNodes := Function.update bc.depNodes parentHash (bc.depNodes parentHash ++ [id]) }

/-- Put a loaded node above one of its children: the work of the node is added
to all that is below it. -/
def adoptChild (id child : NodeId) : Call Unit := do
  modifyNode child (.withParent (some id))
  appendChild id child
  Action.modify fun bc =>
    { bc with
      nodes := Nodes.addWork (bc.nodes.get id).workSum bc.nodes.count bc.nodes child
      root := some id }

def adoptChildren (id : NodeId) : List NodeId → Call Unit
  | [] => pure ()
  | child :: children => do
      adoptChild id child
      adoptChildren id children

/-- The cases of `LoadBlockNode`: a node below one that is there, one above some
that are there, or the first node of all. Any other node is refused. -/
def placeBlockNode (node : BlockNode) : Call NodeId := do
  let bc ← Action.get
  match bc.index node.parentHash, bc.depNodes node.hash with
  | some parent, _ => do
      let id ← allocateNode (node.under parent (bc.nodes.get parent))
      appendChild parent id
      return id
  | none, child :: children => do
      let id ← allocateNode node
      adoptChildren id (child :: children)
      return id
  | none, [] =>
      if bc.root.isSome then Action.throw .orphanNode
      else do
        let id ← allocateNode node
        Action.modify fun bc => { bc with root := some id }
        return id

/-- `LoadBlockNode`: bring a block of the main chain back into the tree. -/
def loadBlockNode (header : Blockdata) (hash : Uint256) : Call NodeId := do
  let id ← placeBlockNode ((newBlockNode header hash).withInMainChain true)
  addNodeToIndex id
  addDepNode header.prevBlockHash id
  return id

/-- `RemoveBlockNode`. -/
def removeBlockNode (id : NodeId) : Call Unit := do
  let node := (← Action.get).nodes.get id
  if node.parent.isSome then Action.throw .nodeHasParent
  else
    Action.modify fun bc =>
      { bc with
        index := Function.update bc.index node.hash none
        nodes := bc.nodes.unlinkChildren id
        depNodes := Function.update bc.depNodes node.parentHash
          (bc.nodes.removeChildNode (bc.depNodes node.parentHash) id) }

def removeBlockNodes : List NodeId → Call Unit
  | [] => pure ()
  | id :: ids => do
      removeBlockNode id
      removeBlockNodes ids

/-- `PruneBlockNodes`: forget the main chain below the last nodes to be kept. -/
def pruneBlockNodes : Call Unit := do
  let bc ← Action.get
  match (bc.nodes.lineage bc.bestChain)[(env.chainParam.minMemoryNodes - 1).toNat]? with
  | none => pure ()
  | some newRoot =>
      match (bc.nodes.get newRoot).parent with
      | none => pure ()
      | some parent => do
          removeBlockNodes (bc.nodes.lineage (some parent)).reverse
          Action.modify fun bc => { bc with root := some newRoot }

/-- `GetPrevNodeFromBlock`. A zero hash stands for no parent. -/
def getPrevNodeFromBlock (block : Block) : Call (Option NodeId) := do
  let prevHash := block.blockdata.prevBlockHash
  if prevHash = 0 then pure none
  else
    match (← Action.get).index prevHash with
    | some id => pure (some id)
    | none => do
        let header ← checked .store fun bc => bc.store.getHeader prevHash
        return some (← loadBlockNode header prevHash)

/-- `GetPrevNodeFromNode`. -/
def getPrevNodeFromNode (id : NodeId) : Call (Option NodeId) := do
  let bc ← Action.get
  let node := bc.nodes.get id
  match node.parent with
  | some parent => pure (some parent)
  | none =>
      if node.hash = bc.genesisHash then pure none
      else do
        let header ← checked .store fun bc => bc.store.getHeader node.parentHash
        return some (← loadBlockNode header node.parentHash)

/-! ## The main chain -/

/-- `SaveBlock`: nothing happens unless the block is higher than the last one. -/
def saveBlock (block : Block) : Call Unit := do
  let bc ← Action.get
  if block.blockdata.height ≤ bc.store.currentBlockHeight then pure ()
  else do
    let store ← Action.check fun bc => bc.store.persistBlocks env.crypto block
    Action.modify fun bc => { bc with store, blockHeight := block.blockdata.height }

/-- `RollbackBlock`: nothing happens if the block cannot be read. -/
def rollbackBlock (hash : Uint256) : Call Unit := do
  match (← Action.get).store.getBlock env.crypto hash with
  | .panic => Action.crash
  | .error _ => pure ()
  | .ok block => do
      let store ← Action.check fun bc => bc.store.rollback env.crypto block
      Action.modify fun bc => { bc with store, blockHeight := block.blockdata.height - 1 }

/-- Make a node the end of the best chain. -/
def setBestChain (best : Option NodeId) : Call Unit := do
  Action.modify fun bc => { bc with bestChain := best }
  let median ← Action.check fun bc => bc.nodes.calcPastMedianTime best
  Action.modify fun bc => { bc with medianTimePast := median }

/-- The hash of the end of the best chain. -/
def bestHash (bc : Blockchain) : Option Uint256 :=
  bc.bestChain.map fun id => (bc.nodes.get id).hash

/-- `DisconnectBlock`. -/
def disconnectBlock (id : NodeId) (block : Block) : Call Unit := do
  let bc ← Action.get
  let hash := (bc.nodes.get id).hash
  if bc.bestHash ≠ some hash then Action.throw .notBestChain
  else do
    let _ ← getPrevNodeFromNode id
    rollbackBlock env hash
    modifyNode id (.withInMainChain false)
    Action.modify fun bc => { bc with blockCache := Function.update bc.blockCache hash (some block) }
    setBestChain ((← Action.get).nodes.get id).parent

/-- `ConnectBlock`. -/
def connectBlock (id : NodeId) (block : Block) : Call Unit := do
  checked .transactionContext fun bc => checkTransactionsContext env bc.store block.transactions
  let prevHash := block.blockdata.prevBlockHash
  if (← Action.get).bestHash.any (· ≠ prevHash) then Action.throw .notExtending
  else do
    saveBlock env block
    modifyNode id (.withInMainChain true)
    addNodeToIndex id
    addDepNode prevHash id
    setBestChain (some id)

/-- A node that `GetReorganizeNodes` walks over: not yet on the main chain. -/
def offMainChain (bc : Blockchain) (id : NodeId) : Bool :=
  (bc.nodes.get id).parent.isSome ∧ (bc.nodes.get id).inMainChain = false

/-- `GetReorganizeNodes`: the nodes to detach, last first, and to attach, first first. -/
def getReorganizeNodes (bc : Blockchain) (id : NodeId) : List NodeId × List NodeId :=
  let lineage := bc.nodes.lineage (some id)
  let attach := (lineage.takeWhile bc.offMainChain).reverse
  let fork := (lineage.find? fun id => ¬ bc.offMainChain id).map fun id => (bc.nodes.get id).hash
  let detach := (bc.nodes.lineage bc.bestChain).takeWhile fun id =>
    (bc.nodes.get id).parent.isSome ∧ some (bc.nodes.get id).hash ≠ fork
  (detach, attach)

def detachNodes : List NodeId → Call Unit
  | [] => pure ()
  | id :: ids => do
      let hash := ((← Action.get).nodes.get id).hash
      let block ← checked .store fun bc => bc.store.getBlock env.crypto hash
      disconnectBlock env id block
      detachNodes ids

def attachNodes : List NodeId → Call Unit
  | [] => pure ()
  | id :: ids => do
      let bc ← Action.get
      let hash := (bc.nodes.get id).hash
      match bc.blockCache hash with
      | none => Action.crash
      | some block => do
          connectBlock env id block
          Action.modify fun bc => { bc with blockCache := Function.update bc.blockCache hash none }
          attachNodes ids

/-- `ReorganizeChain`. -/
def reorganizeChain (detach attach : List NodeId) : Call Unit := do
  let bc ← Action.get
  if attach.any fun id => (bc.blockCache (bc.nodes.get id).hash).isNone then
    Action.throw .missingFromCache
  else do
    detachNodes env detach
    attachNodes env attach

/-- The part of `ConnectBestChain` that keeps a block of a side chain. -/
def addToSideChain (id parent : NodeId) (block : Block) : Call Unit := do
  Action.modify fun bc =>
    { bc with
      blockCache := Function.update bc.blockCache (bc.nodes.get id).hash (some block) }
  addNodeToIndex id
  modifyNode id (.withInMainChain false)
  appendChild parent id

/-- `ConnectBestChain`; whether the block is on the main chain. -/
def connectBestChain (id : NodeId) (block : Block) : Call Bool := do
  let bc ← Action.get
  match bc.bestChain, (bc.nodes.get id).parent with
  | none, parent => do
      connectBlock env id block
      parent.forM (appendChild · id)
      return true
  | some _, none => Action.crash
  | some best, some parent =>
      if (bc.nodes.get parent).hash = (bc.nodes.get best).hash then do
        connectBlock env id block
        appendChild parent id
        return true
      else do
        addToSideChain id parent block
        let bc ← Action.get
        if (bc.nodes.get id).workSum ≤ (bc.nodes.get best).workSum then return false
        else do
          reorganizeChain env (bc.getReorganizeNodes id).1 (bc.getReorganizeNodes id).2
          return true

/-! ## Accepting blocks -/

/-- The height of a block on top of the given node. -/
def heightAbove (bc : Blockchain) (prev : Option NodeId) : UInt32 :=
  (prev.map fun id => (bc.nodes.get id).height + 1).getD 0

/-- The node of a block on top of the given one. -/
def nodeAbove (bc : Blockchain) (prev : Option NodeId) (blockHeight : UInt32) (block : Block) :
    BlockNode :=
  let node := newBlockNode block.blockdata (block.hash env.crypto)
  match prev with
  | none => node
  | some parent => { node.under parent (bc.nodes.get parent) with height := blockHeight }

/-- `maybeAcceptBlock`. -/
def maybeAcceptBlock (block : Block) : Call Bool := do
  let prev ← getPrevNodeFromBlock block
  let blockHeight := (← Action.get).heightAbove prev
  if block.blockdata.height ≠ blockHeight then Action.throw .wrongHeight
  else do
    checked .context fun bc => powCheckBlockContext env bc.nodes block prev
    pruneBlockNodes env
    let id ← allocateNode ((← Action.get).nodeAbove env prev blockHeight block)
    connectBestChain env id block

/-- `BlockExists`. -/
def blockExists (bc : Blockchain) (hash : Uint256) : Bool :=
  (bc.index hash).isSome ∨ bc.store.isBlockInStore hash

/-- `RemoveOrphanBlock`. -/
def removeOrphanBlock (orphan : OrphanBlock) : Call Unit :=
  Action.modify fun bc =>
    let hash := orphan.block.hash env.crypto
    let prevHash := orphan.block.blockdata.prevBlockHash
    { bc with
      orphans := bc.orphans.filter (·.block.hash env.crypto ≠ hash)
      prevOrphans := Function.update bc.prevOrphans prevHash
        ((bc.prevOrphans prevHash).filter (·.block.hash env.crypto ≠ hash)) }

/-- Remove orphans whose time has come. -/
def removeExpired : List OrphanBlock → Call Unit
  | [] => pure ()
  | orphan :: orphans => do
      removeOrphanBlock env orphan
      Action.modify fun bc =>
        { bc with oldestOrphan := bc.oldestOrphan.filter (· ≠ orphan) }
      removeExpired orphans

/-- The orphan that expires first, starting from the one remembered. Of two that
expire together the one that arrived first is taken; the source goes by the order
of a map. -/
def findOldest (orphans : List OrphanBlock) (oldest : Option OrphanBlock) : Option OrphanBlock :=
  orphans.foldl (fun oldest orphan =>
    match oldest with
    | none => some orphan
    | some other => if orphan.expiration < other.expiration then some orphan else some other) oldest

/-- How long an orphan is kept, in nanoseconds. -/
def orphanLifetime : Int := 3600 * 10 ^ 9

/-- The part of `AddOrphanBlock` that removes the oldest orphan from a full pool. -/
def makeRoom : Call Unit := do
  let bc ← Action.get
  if bc.orphans.length + 1 > env.chainParam.maxOrphanBlocks then
    match bc.oldestOrphan with
    | none => Action.crash
    | some oldest => do
        removeOrphanBlock env oldest
        Action.modify fun bc => { bc with oldestOrphan := none }
  else pure ()

/-- The part of `AddOrphanBlock` that puts the block into the pool. -/
def insertOrphan (now : Int) (block : Block) : Call Unit :=
  Action.modify fun bc =>
    let orphan := ⟨bc.orphanCount, block, now + orphanLifetime⟩
    let prevHash := block.blockdata.prevBlockHash
    { bc with
      orphans := bc.orphans.filter (·.block.hash env.crypto ≠ block.hash env.crypto) ++ [orphan]
      prevOrphans := Function.update bc.prevOrphans prevHash (bc.prevOrphans prevHash ++ [orphan])
      orphanCount := bc.orphanCount + 1 }

/-- `AddOrphanBlock`, at the given time. -/
def addOrphanBlock (now : Int) (block : Block) : Call Unit := do
  let bc ← Action.get
  removeExpired env (bc.orphans.filter fun orphan => orphan.expiration < now)
  Action.modify fun bc => { bc with oldestOrphan := findOldest bc.orphans bc.oldestOrphan }
  makeRoom env
  insertOrphan env now block

/-- The loop of `ProcessOrphans` over the hashes still to be processed. Every
round drops a hash or takes an orphan out of the pool. -/
def processOrphansLoop : (fuel : Nat) → List Uint256 → Call Unit
  | 0, _ => pure ()
  | _, [] => pure ()
  | fuel + 1, hash :: hashes => do
      match (← Action.get).prevOrphans hash with
      | [] => processOrphansLoop fuel hashes
      | orphan :: _ => do
          removeOrphanBlock env orphan
          let _ ← maybeAcceptBlock env orphan.block
          processOrphansLoop fuel (hash :: hashes ++ [orphan.block.hash env.crypto])

/-- `ProcessOrphans`. -/
def processOrphans (hash : Uint256) : Call Unit := do
  let bc ← Action.get
  processOrphansLoop env (2 * bc.orphans.length + 2) [hash]

end Blockchain

/-- A block handed to `ProcessBlock`, with the clock of the node: the time in
nanoseconds and the adjusted time in seconds. -/
structure Delivery where
  block : Block
  now : Int
  adjustedTime : Int

/-- What `ProcessBlock` returns with an error. -/
structure Rejection where
  inMainChain : Bool
  isOrphan : Bool
  reason : LedgerError
  deriving DecidableEq, Repr

namespace Blockchain

variable (env : Env)

/-- Return the given flags with an error. -/
def rejecting {α : Type} (inMainChain isOrphan : Bool) (call : Call α) :
    Action Rejection Blockchain α where
  run bc :=
    match call.run bc with
    | (.ok value, after) => (.ok value, after)
    | (.error reason, after) => (.error ⟨inMainChain, isOrphan, reason⟩, after)
    | (.panic, after) => (.panic, after)

/-- The checks that `ProcessBlock` makes on arrival. -/
def checkArrival (delivery : Delivery) : Call Unit := do
  let bc ← Action.get
  let hash := delivery.block.hash env.crypto
  if bc.blockExists hash then Action.throw .alreadyHaveBlock
  else if bc.orphans.any (·.block.hash env.crypto = hash) then Action.throw .alreadyHaveOrphan
  else checked .sanity fun bc =>
    powCheckBlockSanity env bc.assetID bc.store delivery.adjustedTime delivery.block

/-- Whether the parent of a block is missing. -/
def isOrphan (bc : Blockchain) (block : Block) : Bool :=
  block.blockdata.prevBlockHash ≠ 0 ∧ bc.blockExists block.blockdata.prevBlockHash = false

/-- `ProcessBlock`: whether the block is on the main chain and whether it is an orphan. -/
def processBlock (delivery : Delivery) : Action Rejection Blockchain (Bool × Bool) := do
  let block := delivery.block
  rejecting false false (checkArrival env delivery)
  if (← Action.get).isOrphan block then do
    rejecting false false (addOrphanBlock env delivery.now block)
    return (false, true)
  else do
    let inMainChain ← rejecting false true (maybeAcceptBlock env block)
    rejecting false false (processOrphans env (block.hash env.crypto))
    return (inMainChain, false)

/-! ## Starting a node -/

/-- `NewBlockchain`, on the given store. -/
def newBlockchain (store : ChainStore) : Blockchain where
  blockHeight := 0
  genesisHash := 0
  bestChain := none
  root := none
  nodes := .empty
  index _ := none
  depNodes _ := []
  orphans := []
  prevOrphans _ := []
  oldestOrphan := none
  orphanCount := 0
  blockCache _ := none
  medianTimePast := 0
  assetID := 0
  store

/-- Load the nodes of the given number of heights, from the given one upwards. -/
def loadBlockNodes : (count : Nat) → (height : UInt32) → Call Unit
  | 0, _ => pure ()
  | count + 1, height => do
      let hash ← checked .store fun bc => bc.store.getBlockHash height
      let header ← checked .store fun bc => bc.store.getHeader hash
      let id ← loadBlockNode header hash
      Action.modify fun bc => { bc with bestChain := some id }
      loadBlockNodes count (height + 1)

/-- `InitLedgerStoreWithGenesisBlock` on a store in which the genesis block was
already persisted. -/
def initLedgerStoreWithGenesisBlock : Call Unit := do
  let genesisHash := (genesisBlock env).hash env.crypto
  if (← Action.get).store.isBlockInStore genesisHash = false then Action.throw .inconsistentGenesis
  else do
    let (_, endHeight) ← checked .store fun bc => .ofOption .notFound bc.store.currentBlock
    Action.modify fun bc =>
      { bc with genesisHash, store := { bc.store with currentBlockHeight := endHeight } }
    let startHeight :=
      if endHeight > env.chainParam.minMemoryNodes then endHeight - env.chainParam.minMemoryNodes
      else 0
    loadBlockNodes (endHeight.toNat - startHeight.toNat + 1) startHeight
    Action.modify fun bc => { bc with blockHeight := bc.store.currentBlockHeight }

/-- `NewBlockchainWithGenesisBlock`: start on a store. The height that the store
keeps in memory is read from the stored current block. -/
def newBlockchainWithGenesisBlock (store : ChainStore) : Outcome LedgerError Unit × Blockchain :=
  (initLedgerStoreWithGenesisBlock env).run
    { newBlockchain { store with currentBlockHeight := 0 } with
      assetID := ((genesisCoinbase env).outputs.head?.map TxOutput.assetID).getD 0 }

/-- A fresh node. -/
def fresh : Blockchain := (newBlockchainWithGenesisBlock env (.genesis env)).2

/-! ## Runs -/

/-- Deliver one block. There is no state after a panic. -/
def deliver (bc : Blockchain) (delivery : Delivery) : Option Blockchain :=
  match (processBlock env delivery).run bc with
  | (.panic, _) => none
  | (_, after) => some after

/-- Deliver blocks one after the other, starting from a fresh node. -/
def run (deliveries : List Delivery) : Option Blockchain :=
  deliveries.foldlM (deliver env) (fresh env)

end Blockchain

end DnaPow.Ledger
