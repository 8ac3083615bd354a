import DnaPow.Ledger.Block
import DnaPow.Std.Overlay

/-!
# The chain store

The tables of the key-value store and the batches that add a block to them and
take it away again. All reads of a batch see the store as it was before the
batch; a part of the batch that fails writes nothing, and its error is ignored.
-/

namespace DnaPow.Ledger

open DnaPow.Std Common Core

/-- A stored header: the block with its transactions replaced by their hashes. -/
structure TrimmedBlock where
  blockdata : Blockdata
  txHashes : List Uint256
  deriving DecidableEq, Repr

/-- `UTXOUnspent`. -/
structure UTXOUnspent where
  txid : Uint256
  index : UInt32
  value : Fixed64
  deriving DecidableEq, Repr

/-- The key of the unspent outputs of a program: program hash, asset and height. -/
abbrev UnspentKey := Uint160 × Uint256 × UInt32

/-- The tables of `ChainStore`, named after their key prefixes, and the height
it keeps in memory. -/
structure ChainStore where
  blockHash : UInt32 → Option Uint256
  header : Uint256 → Option TrimmedBlock
  transaction : Uint256 → Option (Transaction × UInt32)
  asset : Uint256 → Option Asset
  unspent : Uint256 → Option (List UInt16)
  unspentUTXO : UnspentKey → Option (List UTXOUnspent)
  currentBlock : Option (Uint256 × UInt32)
  currentBlockHeight : UInt32

/-- The errors of reading: the key is missing, or a stored block has no transactions. -/
inductive StoreError where
  | notFound
  | noTransactions
  deriving DecidableEq, Repr

namespace ChainStore

def empty : ChainStore where
  blockHash _ := none
  header _ := none
  transaction _ := none
  asset _ := none
  unspent _ := none
  unspentUTXO _ := none
  currentBlock := none
  currentBlockHeight := 0

variable (crypto : Primitives) (store : ChainStore)

/-! ## Reading -/

def getBlockHash (height : UInt32) : Outcome StoreError Uint256 :=
  .ofOption .notFound (store.blockHash height)

def getHeader (hash : Uint256) : Outcome StoreError Blockdata :=
  .ofOption .notFound ((store.header hash).map TrimmedBlock.blockdata)

def getAsset (hash : Uint256) : Outcome StoreError Asset :=
  .ofOption .notFound (store.asset hash)

/-- `GetTransaction`. The payload of a deploy transaction is read into a code
that has not been allocated. -/
def getTransaction (hash : Uint256) : Outcome StoreError (Transaction × UInt32) :=
  match store.transaction hash with
  | none => .error .notFound
  | some (tx, height) => if tx.txType = .deploy then .panic else .ok (tx, height)

/-- `FromTrimmedData`: the Merkle root is computed again from the stored hashes. -/
def fromTrimmedData (trimmed : TrimmedBlock) : Outcome StoreError (Blockdata × List Uint256) := do
  let root ← .ofOption .noTransactions (computeRoot crypto trimmed.txHashes)
  return ({ trimmed.blockdata with transactionsRoot := root }, trimmed.txHashes)

/-- The transactions of a stored block, read one by one. -/
def getTransactions : List Uint256 → Outcome StoreError (List Transaction)
  | [] => .ok []
  | hash :: hashes => do
      let (tx, _) ← store.getTransaction hash
      return tx :: (← getTransactions hashes)

def getBlock (hash : Uint256) : Outcome StoreError Block := do
  let trimmed ← .ofOption .notFound (store.header hash)
  let (blockdata, hashes) ← fromTrimmedData crypto trimmed
  return ⟨blockdata, ← store.getTransactions hashes⟩

def isTxHashDuplicate (hash : Uint256) : Bool := (store.transaction hash).isSome

def isBlockInStore (hash : Uint256) : Bool :=
  match store.header hash with
  | none => false
  | some trimmed => trimmed.txHashes ≠ [] ∧ trimmed.blockdata.height ≤ store.currentBlockHeight

/-- `IsDoubleSpend`: some input is not among the unspent outputs. -/
def isDoubleSpend (tx : Transaction) : Bool :=
  tx.utxoInputs.any fun input =>
    match store.unspent input.referTxID with
    | none => true
    | some indexes => ¬ indexes.contains input.referTxOutputIndex

/-! ## Unspent outputs by transaction -/

/-- The indexes of the outputs of a transaction, as 16-bit numbers. -/
def outputIndexes (tx : Transaction) : List UInt16 :=
  (List.range tx.outputs.length).map UInt16.ofNat

/-- The outputs of a transaction become unspent. -/
def createOutputs (overlay : Uint256 → Option (List UInt16)) (tx : Transaction) :
    Uint256 → Option (List UInt16) :=
  if tx.outputs = [] then overlay
  else write overlay (tx.hash crypto)
    (some ((overlay (tx.hash crypto)).getD [] ++ outputIndexes tx))

/-- An input takes its output off the unspent ones; a missing transaction is an
error, a missing index is not. -/
def spendInput (overlay : Uint256 → Option (List UInt16)) (input : UTXOTxInput) :
    Option (Uint256 → Option (List UInt16)) := do
  let indexes ← readThrough overlay store.unspent input.referTxID
  let left := match indexes.findIdx? (· = input.referTxOutputIndex) with
    | some position => swapRemove indexes position
    | none => indexes
  return write overlay input.referTxID (some left)

/-- One round of the loop of `PersistUnspend`. -/
def persistUnspendTx (overlay : Uint256 → Option (List UInt16)) (tx : Transaction) :
    Option (Uint256 → Option (List UInt16)) :=
  if tx.txType = .registerAsset then some overlay
  else if tx.isCoinBaseTx then some (createOutputs crypto overlay tx)
  else tx.utxoInputs.foldlM store.spendInput (createOutputs crypto overlay tx)

/-- `PersistUnspend`. -/
def persistUnspend (block : Block) : Uint256 → Option (List UInt16) :=
  match block.transactions.foldlM (store.persistUnspendTx crypto) (fun _ => none) with
  | some overlay => writeLists store.unspent overlay
  | none => store.unspent

/-- An input that is taken back returns its output to the unspent ones. -/
def restoreInput (overlay : Uint256 → Option (List UInt16)) (input : UTXOTxInput) :
    Uint256 → Option (List UInt16) :=
  write overlay input.referTxID (some
    ((readThrough overlay store.unspent input.referTxID).getD [] ++ [input.referTxOutputIndex]))

/-- One round of the loop of `RollbackUnspend`. -/
def rollbackUnspendTx (overlay : Uint256 → Option (List UInt16)) (tx : Transaction) :
    Uint256 → Option (List UInt16) :=
  if tx.txType = .registerAsset ∨ tx.isCoinBaseTx then overlay
  else tx.utxoInputs.foldl store.restoreInput overlay

/-- `RollbackUnspend`. -/
def rollbackUnspend (block : Block) : Uint256 → Option (List UInt16) :=
  let created := (block.transactions.filter (·.txType ≠ .registerAsset)).map
    (Transaction.hash crypto)
  writeLists (fun hash => if hash ∈ created then none else store.unspent hash)
    (block.transactions.foldl store.rollbackUnspendTx fun _ => none)

/-! ## Unspent outputs by program -/

/-- An overlay of the unspent outputs by program. -/
abbrev UTXOOverlay := UnspentKey → Option (List UTXOUnspent)

/-- The output that an input refers to, with the height of its transaction.
An index beyond the outputs is a slice access out of range. -/
def referredOutput (input : UTXOTxInput) :
    Outcome StoreError (Transaction × TxOutput × UInt32) := do
  let (referTxn, height) ← store.getTransaction input.referTxID
  match referTxn.outputs[input.referTxOutputIndex.toNat]? with
  | some output => .ok (referTxn, output, height)
  | none => .panic

/-- `PersistUnspendUTXOs` on the outputs of a transaction. -/
def addUTXOs (height : UInt32) (tx : Transaction) (overlay : UTXOOverlay) : UTXOOverlay :=
  tx.outputs.zipIdx.foldl (fun overlay (output, index) =>
    let key := (output.programHash, output.assetID, height)
    write overlay key (some ((readThrough overlay store.unspentUTXO key).getD [] ++
      [⟨tx.hash crypto, UInt32.ofNat index, output.value⟩]))) overlay

/-- `PersistUnspendUTXOs` on one input. -/
def spendUTXO (overlay : UTXOOverlay) (input : UTXOTxInput) : Outcome StoreError UTXOOverlay := do
  let (referTxn, output, height) ← store.referredOutput input
  let key := (output.programHash, output.assetID, height)
  let unspents ← .ofOption .notFound (readThrough overlay store.unspentUTXO key)
  let position ← .ofOption .notFound (unspents.findIdx? fun unspent =>
    unspent.txid = referTxn.hash crypto ∧ unspent.index = input.referTxOutputIndex.toUInt32)
  return write overlay key (some (swapRemove unspents position))

def persistUTXOsTx (height : UInt32) (overlay : UTXOOverlay) (tx : Transaction) :
    Outcome StoreError UTXOOverlay :=
  if tx.txType = .registerAsset then .ok overlay
  else if tx.isCoinBaseTx then .ok (store.addUTXOs crypto height tx overlay)
  else tx.utxoInputs.foldlM (store.spendUTXO crypto) (store.addUTXOs crypto height tx overlay)

/-- `RollbackUnspendUTXOs` on one output. An output that is not found makes it
remove the first entry, and there is none in an empty list. -/
def removeUTXO (height : UInt32) (tx : Transaction) (overlay : UTXOOverlay)
    (indexed : TxOutput × Nat) : Outcome StoreError UTXOOverlay := do
  let (output, index) := indexed
  let key := (output.programHash, output.assetID, height)
  let unspents ← .ofOption .notFound (readThrough overlay store.unspentUTXO key)
  let position := (unspents.findIdx? fun unspent =>
    unspent.txid = tx.hash crypto ∧ unspent.index = UInt32.ofNat index).getD 0
  if unspents = [] then .panic else .ok (write overlay key (some (unspents.eraseIdx position)))

/-- `RollbackUnspendUTXOs` on one input. -/
def restoreUTXO (overlay : UTXOOverlay) (input : UTXOTxInput) : Outcome StoreError UTXOOverlay := do
  let (referTxn, output, height) ← store.referredOutput input
  let key := (output.programHash, output.assetID, height)
  return write overlay key (some ((readThrough overlay store.unspentUTXO key).getD [] ++
    [⟨referTxn.hash crypto, input.referTxOutputIndex.toUInt32, output.value⟩]))

def rollbackUTXOsTx (height : UInt32) (overlay : UTXOOverlay) (tx : Transaction) :
    Outcome StoreError UTXOOverlay :=
  if tx.txType = .registerAsset then .ok overlay
  else do
    let overlay ← tx.outputs.zipIdx.foldlM (store.removeUTXO crypto height tx) overlay
    if tx.isCoinBaseTx then .ok overlay
    else tx.utxoInputs.foldlM (store.restoreUTXO crypto) overlay

/-- The table of unspent outputs by program after a batch whose part for it ends
as given. -/
def writeUTXOs {ε : Type} : Outcome StoreError UTXOOverlay → Outcome ε UTXOOverlay
  | .ok overlay => .ok (writeLists store.unspentUTXO overlay)
  | .error _ => .ok store.unspentUTXO
  | .panic => .panic

/-! ## Batches -/

/-- `PersistTransactions`. -/
def persistTransactions (block : Block) : ChainStore :=
  { store with
    transaction := block.transactions.foldl (fun table tx =>
      write table (tx.hash crypto) (some (tx, block.blockdata.height))) store.transaction
    asset := block.transactions.foldl (fun table tx =>
      match tx.payload with
      | .registerAsset asset _ _ => write table (tx.hash crypto) (some asset)
      | _ => table) store.asset }

/-- `RollbackTransactions`. -/
def rollbackTransactions (block : Block) : ChainStore :=
  { store with
    transaction := block.transactions.foldl (fun table tx =>
      write table (tx.hash crypto) none) store.transaction
    asset := block.transactions.foldl (fun table tx =>
      if tx.txType = .registerAsset then write table (tx.hash crypto) none else table)
      store.asset }

/-- `persist`. -/
def persist {ε : Type} (block : Block) : Outcome ε ChainStore := do
  let unspentUTXO ← store.writeUTXOs (block.transactions.foldlM
    (store.persistUTXOsTx crypto block.blockdata.height) fun _ => none)
  return { store.persistTransactions crypto block with
    header := write store.header (block.hash crypto)
      (some ⟨block.blockdata, block.txHashes crypto⟩)
    blockHash := write store.blockHash block.blockdata.height (some (block.hash crypto))
    unspent := store.persistUnspend crypto block
    unspentUTXO
    currentBlock := some (block.hash crypto, block.blockdata.height) }

/-- `rollback`, with the height it keeps in memory. -/
def rollback {ε : Type} (block : Block) : Outcome ε ChainStore := do
  let unspentUTXO ← store.writeUTXOs (block.transactions.foldlM
    (store.rollbackUTXOsTx crypto block.blockdata.height) fun _ => none)
  return { store.rollbackTransactions crypto block with
    header := write store.header (block.hash crypto) none
    blockHash := write store.blockHash block.blockdata.height none
    unspent := store.rollbackUnspend crypto block
    unspentUTXO
    currentBlock := some (block.blockdata.prevBlockHash, block.blockdata.height - 1)
    currentBlockHeight := block.blockdata.height - 1 }

/-- `persistBlocks`: `persist`, with the height it keeps in memory. -/
def persistBlocks {ε : Type} (block : Block) : Outcome ε ChainStore := do
  return { ← store.persist crypto block with currentBlockHeight := block.blockdata.height }

/-! ## The stored chain -/

/-- The block that the tables hold at a height. -/
def blockAt (height : UInt32) : Option Block := do
  let hash ← store.blockHash height
  let trimmed ← store.header hash
  let txs ← trimmed.txHashes.mapM fun hash => (store.transaction hash).map Prod.fst
  return ⟨trimmed.blockdata, txs⟩

/-- The blocks that the tables hold at the heights up to the current one, newest first. -/
def mainChain : List Block :=
  ((List.range (store.currentBlockHeight.toNat + 1)).reverse.filterMap
    fun height => store.blockAt (UInt32.ofNat height))

/-! ## Genesis -/

/-- The store of a fresh node: an empty one in which the genesis block was persisted. -/
def genesis (env : Env) : ChainStore :=
  match empty.persist (ε := Unit) env.crypto (genesisBlock env) with
  | .ok store => store
  | _ => empty

end ChainStore

end DnaPow.Ledger
