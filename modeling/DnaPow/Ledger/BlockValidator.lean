import DnaPow.Ledger.Node
import DnaPow.Ledger.TxValidator

/-!
# Block validation

`PowCheckBlockSanity`, which a block passes when it arrives, and
`PowCheckBlockContext`, which it passes when it is placed under its parent.
-/

namespace DnaPow.Ledger

open DnaPow.Std Common Core

/-- Why a block is refused by one of the two checks. -/
inductive BlockError where
  | auxPow
  | targetTooLow
  | targetTooHigh
  | hashTooHigh
  | tooFarInFuture
  | noTransactions
  | tooManyTransactions
  | tooBig
  | firstNotCoinbase
  | secondCoinbase
  | merkleRoot
  | duplicateTransaction
  | transaction (code : ErrCode)
  | difficulty (reason : DifficultyError)
  | unexpectedDifficulty
  | timestampNotAfterMedian
  | unfinalizedTransaction
  deriving DecidableEq, Repr

/-- Pass an error on under another name. -/
def mapError {ε ε' α : Type} (name : ε → ε') : Outcome ε α → Outcome ε' α
  | .ok value => .ok value
  | .error reason => .error (name reason)
  | .panic => .panic

@[simp] theorem mapError_eq_ok {ε ε' α : Type} {name : ε → ε'} {call : Outcome ε α} {value : α} :
    mapError name call = .ok value ↔ call = .ok value := by
  cases call <;> simp [mapError]

/-- `CheckProofOfWork`. -/
def checkProofOfWork (env : Env) (header : Blockdata) : Outcome BlockError Unit := do
  let target := compactToBig header.bits
  .require (0 < target) .targetTooLow
  .require (target ≤ env.chainParam.powLimit) .targetTooHigh
  let hash := if env.coMining then header.auxPow.parBlockHeader.hash env.crypto
    else header.hash env.crypto
  .require ((hash.toNat : Int) ≤ target) .hashTooHigh

/-- The check of the auxiliary proof of work, made only by nodes that merge-mine. -/
def checkAuxPow (env : Env) (header : Blockdata) : Outcome BlockError Unit :=
  if env.coMining then do
    let committed ← header.auxPow.check env.crypto (header.hash env.crypto) AuxPow.auxPowChainID
    .require (committed = true) .auxPow
  else .ok ()

/-- The sanity checks of all transactions, in order. -/
def checkTransactionsSanity (env : Env) (assetID : Uint256) (store : ChainStore) :
    List Transaction → Outcome BlockError Unit
  | [] => .ok ()
  | tx :: txs => do
      mapError .transaction (checkTransactionSanity env assetID store tx)
      checkTransactionsSanity env assetID store txs

theorem checkTransactionsSanity_eq_ok {env : Env} {assetID : Uint256} {store : ChainStore}
    {txs : List Transaction} : checkTransactionsSanity env assetID store txs = .ok () ↔
      ∀ tx ∈ txs, checkTransactionSanity env assetID store tx = .ok () := by
  have passes : checkTransactionsSanity env assetID store txs = .ok () ↔ ∀ tx ∈ txs,
      mapError BlockError.transaction (checkTransactionSanity env assetID store tx) = .ok () :=
    Outcome.each_eq_ok rfl fun _ _ => rfl
  simpa only [mapError_eq_ok] using passes

/-- The number of seconds a timestamp may lie ahead of the adjusted time. -/
def maxTimeOffsetSeconds : Int := 2 * 60 * 60

/-- `PowCheckBlockSanity`, at the given adjusted time. -/
def powCheckBlockSanity (env : Env) (assetID : Uint256) (store : ChainStore) (adjustedTime : Int)
    (block : Block) : Outcome BlockError Unit := do
  let header := block.blockdata
  checkAuxPow env header
  checkProofOfWork env header
  .require ((header.timestamp.toNat : Int) ≤ adjustedTime + maxTimeOffsetSeconds) .tooFarInFuture
  .require (block.transactions ≠ []) .noTransactions
  .require (block.transactions.length ≤ env.maxTxInBlock) .tooManyTransactions
  .require (block.getSize ≤ env.maxBlockSize) .tooBig
  .require (block.transactions.head?.all Transaction.isCoinBaseTx) .firstNotCoinbase
  .require (∀ tx ∈ block.transactions.tail, tx.isCoinBaseTx = false) .secondCoinbase
  .require (computeRoot env.crypto (block.txHashes env.crypto) = some header.transactionsRoot)
    .merkleRoot
  .require (block.txHashes env.crypto).Nodup .duplicateTransaction
  checkTransactionsSanity env assetID store block.transactions

/-- `IsFinalizedTransaction`. -/
def isFinalizedTransaction (tx : Transaction) (blockHeight : UInt32) : Bool :=
  tx.lockTime = 0 ∨ tx.lockTime < blockHeight ∨
    ∀ input ∈ tx.utxoInputs, input.sequence = 0xffff

/-- `PowCheckBlockContext`. A block without a parent passes. -/
def powCheckBlockContext (env : Env) (nodes : Nodes) (block : Block) :
    Option NodeId → Outcome BlockError Unit
  | none => .ok ()
  | some prev => do
      let expected ← mapError .difficulty (calcNextRequiredDifficulty env.chainParam nodes prev)
      .require (block.blockdata.bits = expected) .unexpectedDifficulty
      let median ← nodes.calcPastMedianTime (some prev)
      .require (median < block.blockdata.timestamp.toNat) .timestampNotAfterMedian
      .require (∀ tx ∈ block.transactions.tail,
        isFinalizedTransaction tx ((nodes.get prev).height + 1) = true) .unfinalizedTransaction

end DnaPow.Ledger
