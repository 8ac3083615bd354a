import DnaPow.Core.Contract
import DnaPow.Ledger.Store
import Mathlib.Data.List.Dedup
import Mathlib.Data.List.Sort

/-!
# Transaction validation

The parts of a transaction that depend on the ledger (its references, its
balance, its program hashes) and the two checks of `txValidator.go`:
`checkTransactionSanity`, which is made when a block arrives, and
`checkTransactionContext`, which is made when it is connected. Detailed errors
are only logged there, so a check fails with the error code that is returned.
-/

namespace DnaPow.Ledger

open DnaPow.Std Common Core

/-- The error codes that the two checks return; success is not among them. -/
inductive ErrCode where
  | errTransactionSize
  | errInvalidInput
  | errInvalidOutput
  | errAssetPrecision
  | errTransactionPayload
  | errTransactionBalance
  | errTransactionContracts
  | errTxHashDuplicate
  | errDoubleSpend
  | errUnknownReferedTxn
  | errInvalidReferedTxn
  | errIneffectiveCoinbase
  deriving DecidableEq, Repr

/-- Replace the error of a call. -/
def withError {ε ε' α : Type} (reason : ε') : Outcome ε α → Outcome ε' α
  | .ok value => .ok value
  | .error _ => .error reason
  | .panic => .panic

@[simp] theorem withError_eq_ok {ε ε' α : Type} {reason : ε'} {call : Outcome ε α} {value : α} :
    withError reason call = .ok value ↔ call = .ok value := by
  cases call <;> simp [withError]

/-! ## References and balance -/

/-- A transaction refers to an unknown transaction or beyond its outputs. -/
inductive ReferenceError where
  | store (reason : StoreError)
  | outOfRange
  | scriptAttribute
  deriving DecidableEq, Repr

/-- The output one input refers to. -/
def getReferenceOf (store : ChainStore) (input : UTXOTxInput) :
    Outcome ReferenceError TxOutput :=
  match store.getTransaction input.referTxID with
  | .ok (referTxn, _) =>
      .ofOption .outOfRange referTxn.outputs[input.referTxOutputIndex.toNat]?
  | .error reason => .error (.store reason)
  | .panic => .panic

/-- `GetReference`: the outputs the inputs refer to, in the order of the inputs.
A registration has none, whatever its inputs. -/
def getReference (store : ChainStore) (tx : Transaction) :
    Outcome ReferenceError (List TxOutput) :=
  if tx.txType = .registerAsset then .ok []
  else tx.utxoInputs.mapM (getReferenceOf store)

/-- Amounts by asset; no asset occurs twice. -/
abbrev TransactionResult := List (Uint256 × Fixed64)

/-- Add an amount, with wrap-around, to what an asset has so far. -/
def addAmount (asset : Uint256) (value : Fixed64) : TransactionResult → TransactionResult
  | [] => [(asset, value)]
  | (other, amount) :: rest =>
      if other = asset then (other, amount + value) :: rest
      else (other, amount) :: addAmount asset value rest

/-- `GetMergedAssetIDValueFromOutputs` and its counterpart for references. -/
def mergedAssetIDValue (outputs : List TxOutput) : TransactionResult :=
  outputs.foldl (fun result output => addAmount output.assetID output.value result) []

/-- `GetTransactionResults`: by asset, what goes in minus what comes out. -/
def getTransactionResults (store : ChainStore) (tx : Transaction) :
    Outcome ReferenceError TransactionResult := do
  let outputResult := mergedAssetIDValue tx.outputs
  let inputResult := mergedAssetIDValue (← getReference store tx)
  let spent := outputResult.map fun (asset, value) =>
    (asset, (inputResult.lookup asset).getD 0 - value)
  return spent ++ inputResult.filter fun (asset, _) => (outputResult.lookup asset).isNone

/-- `GetFee`. -/
def getFee (store : ChainStore) (assetID : Uint256) (tx : Transaction) :
    Outcome ReferenceError Fixed64 :=
  match getTransactionResults store tx with
  | .ok results => .ok ((results.lookup assetID).getD 0)
  | .error _ => .ok 0
  | .panic => .panic

/-- The program hashes that script attributes add. -/
def attributeHashes : List TxAttribute → Outcome ReferenceError (List Uint160)
  | [] => .ok []
  | attr :: attributes =>
      if attr.usage = .script then do
        let hash ← .ofOption .scriptAttribute (uint160ParseFromBytes attr.data)
        return hash :: (← attributeHashes attributes)
      else attributeHashes attributes

/-- `GetProgramHashes`: without duplicates, in increasing order. -/
def getProgramHashes (store : ChainStore) (tx : Transaction) :
    Outcome ReferenceError (List Uint160) := do
  let references ← getReference store tx
  let hashes := references.map TxOutput.programHash ++ (← attributeHashes tx.attributes)
  return hashes.dedup.insertionSort (·.toNat ≤ ·.toNat)

/-- A transaction as `VerifySignableData` sees it. -/
def signableData (store : ChainStore) (tx : Transaction) : SignableData ReferenceError where
  programHashes := getProgramHashes store tx
  programs := tx.programs
  message := tx.getMessage

/-! ## Sanity -/

section Sanity

variable (env : Env) (assetID : Uint256) (store : ChainStore) (tx : Transaction)

def checkTransactionSize : Outcome ErrCode Unit :=
  .require (0 < tx.getSize ∧ tx.getSize ≤ env.maxBlockSize) .errTransactionSize

/-- The outpoint that marks a coinbase input. -/
def coinbaseOutpoint : Outpoint := ⟨0, 0xffff⟩

/-- `CheckTransactionInput`. -/
def checkTransactionInput : Outcome ErrCode Unit :=
  if tx.isCoinBaseTx then
    .require (tx.outpoints = [coinbaseOutpoint]) .errInvalidInput
  else
    .require (tx.utxoInputs ≠ [] ∧ coinbaseOutpoint ∉ tx.outpoints ∧ tx.outpoints.Nodup)
      .errInvalidInput

/-- `CheckTransactionOutput`. -/
def checkTransactionOutput : Outcome ErrCode Unit :=
  if tx.isCoinBaseTx then
    .require (2 ≤ tx.outputs.length ∧ (∀ output ∈ tx.outputs, output.assetID = assetID) ∧
      ∃ output ∈ tx.outputs, env.crypto.toAddress output.programHash = env.foundationAddress)
      .errInvalidOutput
  else
    .require (tx.outputs ≠ []) .errInvalidOutput

/-- `checkAmountPrecise`: whether an amount has digits below the precision. A
precision above 8 makes the divisor zero. -/
def checkAmountPrecise {ε : Type} (amount : Fixed64) (precision : UInt8) : Outcome ε Bool :=
  if precision > 8 then .panic
  else .ok (amount.toInt % (10 ^ (8 - precision.toNat) : Int) ≠ 0)

/-- `CheckAssetPrecision`, output by output. -/
def checkAssetPrecision : List TxOutput → Outcome ErrCode Unit
  | [] => .ok ()
  | output :: outputs => do
      let asset ← withError .errAssetPrecision (store.getAsset output.assetID)
      let imprecise ← checkAmountPrecise output.value asset.precision
      .require (imprecise = false) .errAssetPrecision
      checkAssetPrecision outputs

/-- `CheckTransactionPayload`. -/
def checkTransactionPayload : Outcome ErrCode Unit :=
  match tx.payload with
  | .registerAsset asset amount _ => do
      .require (asset.precision ≤ 8) .errTransactionPayload
      let imprecise ← checkAmountPrecise amount asset.precision
      .require (imprecise = false) .errTransactionPayload
  | _ => .ok ()

/-- `CheckTransactionBalance`. -/
def checkTransactionBalance : Outcome ErrCode Unit := do
  .require (∀ output ∈ tx.outputs, 0 < output.value) .errTransactionBalance
  let results ← withError .errTransactionBalance (getTransactionResults store tx)
  .require (results.all fun result => env.minTxFee ≤ result.2) .errTransactionBalance

/-- `CheckTransactionContracts`. -/
def checkTransactionContracts : Outcome ErrCode Unit :=
  withError .errTransactionContracts (verifySignableData env.crypto (signableData store tx))

/-- `CheckTransactionSanity`. A coinbase transaction is done before its balance. -/
def checkTransactionSanity : Outcome ErrCode Unit := do
  checkTransactionSize env tx
  checkTransactionInput tx
  checkTransactionOutput env assetID tx
  checkAssetPrecision store tx.outputs
  checkTransactionPayload tx
  if tx.isCoinBaseTx then .ok ()
  else do
    checkTransactionBalance env store tx
    checkTransactionContracts env store tx

end Sanity

/-! ## Context -/

section Context

variable (env : Env) (store : ChainStore)

/-- What `CheckTransactionContext` requires of one input. -/
def checkInputContext (input : UTXOTxInput) : Outcome ErrCode Unit := do
  let (referTxn, _) ← withError .errUnknownReferedTxn (store.getTransaction input.referTxID)
  match referTxn.outputs[input.referTxOutputIndex.toNat]? with
  | none => .panic
  | some output => do
      .require (0 < output.value) .errInvalidReferedTxn
      .require (¬ (referTxn.isCoinBaseTx = true ∧
        store.currentBlockHeight - referTxn.lockTime < env.chainParam.spendCoinbaseSpan))
        .errIneffectiveCoinbase

def checkInputsContext : List UTXOTxInput → Outcome ErrCode Unit
  | [] => .ok ()
  | input :: inputs => do
      checkInputContext env store input
      checkInputsContext inputs

/-- `CheckTransactionContext`. -/
def checkTransactionContext (tx : Transaction) : Outcome ErrCode Unit := do
  .require (store.isTxHashDuplicate (tx.hash env.crypto) = false) .errTxHashDuplicate
  if tx.isCoinBaseTx then .ok ()
  else do
    .require (store.isDoubleSpend tx = false) .errDoubleSpend
    checkInputsContext env store tx.utxoInputs

/-- The context checks of all transactions of a block, in order. -/
def checkTransactionsContext : List Transaction → Outcome ErrCode Unit
  | [] => .ok ()
  | tx :: txs => do
      checkTransactionContext env store tx
      checkTransactionsContext txs

variable {env store}

theorem checkInputContext_eq_ok {input : UTXOTxInput} :
    checkInputContext env store input = .ok () ↔
      ∃ referTxn height output, store.getTransaction input.referTxID = .ok (referTxn, height) ∧
        referTxn.outputs[input.referTxOutputIndex.toNat]? = some output ∧ 0 < output.value ∧
        ¬ (referTxn.isCoinBaseTx = true ∧
          store.currentBlockHeight - referTxn.lockTime < env.chainParam.spendCoinbaseSpan) := by
  simp only [checkInputContext, Outcome.bind_eq_ok, withError_eq_ok, Prod.exists]
  refine exists_congr fun referTxn => exists_congr fun height => ?_
  cases referTxn.outputs[input.referTxOutputIndex.toNat]? with
  | none => simp
  | some output => simp [Outcome.bind_eq_ok]

theorem checkInputsContext_eq_ok {inputs : List UTXOTxInput} :
    checkInputsContext env store inputs = .ok () ↔
      ∀ input ∈ inputs, checkInputContext env store input = .ok () :=
  Outcome.each_eq_ok rfl fun _ _ => rfl

theorem checkTransactionContext_eq_ok {tx : Transaction} :
    checkTransactionContext env store tx = .ok () ↔
      store.transaction (tx.hash env.crypto) = none ∧ (tx.isCoinBaseTx = false →
        store.isDoubleSpend tx = false ∧
          ∀ input ∈ tx.utxoInputs, checkInputContext env store input = .ok ()) := by
  rw [← checkInputsContext_eq_ok]
  cases coinbase : tx.isCoinBaseTx <;>
    simp [checkTransactionContext, coinbase, ChainStore.isTxHashDuplicate]

theorem checkTransactionsContext_eq_ok {txs : List Transaction} :
    checkTransactionsContext env store txs = .ok () ↔
      ∀ tx ∈ txs, checkTransactionContext env store tx = .ok () :=
  Outcome.each_eq_ok rfl fun _ _ => rfl

end Context

end DnaPow.Ledger
