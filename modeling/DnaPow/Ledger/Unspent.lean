import DnaPow.Ledger.StoreRefinement
import DnaPow.Std.Accounting

/-!
# Unspent outputs by transaction

What a batch does to the table of unspent outputs, as an account: what it leaves,
with what the inputs of the block consume, is what there was, with what the
outputs of the block create. On the main chain an output is then in the table
exactly when it is an output of the chain and no input of the chain consumes it.
This needs blocks in which no outpoint is consumed twice, since all reads of a
batch see the store before it.
-/

namespace DnaPow.Ledger

open DnaPow.Std Common Core

/-! ## One batch -/

/-- The key and the entry of an outpoint in the table. -/
def Outpoint.entry (outpoint : Outpoint) : Uint256 × UInt16 :=
  (outpoint.referTxID, outpoint.referTxOutputIndex)

theorem Outpoint.entry_injective : Outpoint.entry.Injective := fun _ _ same =>
  Outpoint.ext (congrArg Prod.fst same) (congrArg Prod.snd same)

/-- The outputs that a transaction adds to the table. A registration adds none. -/
def createdBy (crypto : Primitives) (tx : Transaction) : List Outpoint :=
  if tx.txType = .registerAsset then []
  else (ChainStore.outputIndexes tx).map (⟨tx.hash crypto, ·⟩)

/-- The outputs that a transaction takes off the table. A registration takes none,
whatever its inputs are. -/
def consumedBy (tx : Transaction) : List Outpoint :=
  if tx.txType = .registerAsset ∨ tx.isCoinBaseTx then [] else tx.outpoints

/-- The outpoints that the inputs of a transaction consume. -/
def spentBy (tx : Transaction) : List Outpoint :=
  if tx.isCoinBaseTx then [] else tx.outpoints

/-- The outpoints that the inputs of a block consume. -/
def spentOutpoints (block : Block) : List Outpoint := block.transactions.flatMap spentBy

theorem mem_createdBy {crypto : Primitives} {tx : Transaction} {outpoint : Outpoint} :
    outpoint ∈ createdBy crypto tx ↔ tx.txType ≠ .registerAsset ∧
      tx.hash crypto = outpoint.referTxID ∧
      outpoint.referTxOutputIndex ∈ ChainStore.outputIndexes tx := by
  unfold createdBy
  split
  · next registration => simp [registration]
  · next notRegistration =>
    simp only [List.mem_map, notRegistration, ne_eq, not_false_eq_true, true_and]
    constructor
    · rintro ⟨index, member, rfl⟩
      exact ⟨rfl, member⟩
    · rintro ⟨sameHash, member⟩
      exact ⟨_, member, Outpoint.ext sameHash rfl⟩

/-- How often each output is in a table of unspent outputs. -/
def unspentAccount (table : Uint256 → Option (List UInt16)) (outpoint : Outpoint) : Nat :=
  listed table (Outpoint.entry outpoint)

section Batch

variable {crypto : Primitives} {store : ChainStore} {overlay table : Uint256 → Option (List UInt16)}
  {tx : Transaction}

theorem unspentAccount_pos {outpoint : Outpoint} :
    0 < unspentAccount table outpoint ↔
      outpoint.referTxOutputIndex ∈ itemsOf table outpoint.referTxID :=
  listed_pos

theorem unspentAccount_append {txid : Uint256} (indexes : List UInt16) :
    unspentAccount (readThrough (write overlay txid
      (some (itemsOf (readThrough overlay table) txid ++ indexes))) table) =
    unspentAccount (readThrough overlay table) +
      occurrences (indexes.map (Outpoint.mk txid)) := by
  funext outpoint
  have entries : indexes.map (Prod.mk txid) =
      (indexes.map (Outpoint.mk txid)).map Outpoint.entry := by
    rw [List.map_map]
    rfl
  rw [Pi.add_apply, unspentAccount, listed_append, Pi.add_apply, entries,
    occurrences_map Outpoint.entry_injective]
  rfl

theorem createOutputs_account (fresh : itemsOf store.unspent (tx.hash crypto) = []) :
    unspentAccount (readThrough (ChainStore.createOutputs crypto overlay tx) store.unspent) =
      unspentAccount (readThrough overlay store.unspent) +
        occurrences ((ChainStore.outputIndexes tx).map (Outpoint.mk (tx.hash crypto))) := by
  unfold ChainStore.createOutputs
  split
  · next empty => simp [ChainStore.outputIndexes, empty]
  · have start : (overlay (tx.hash crypto)).getD [] =
        itemsOf (readThrough overlay store.unspent) (tx.hash crypto) := by
      unfold itemsOf readThrough
      cases written : overlay (tx.hash crypto) with
      | none => exact fresh.symm
      | some items => rfl
    rw [start, unspentAccount_append]

theorem spendInput_account {input : UTXOTxInput}
    (enough : occurrences [input.toOutpoint] ≤ unspentAccount (readThrough overlay store.unspent)) :
    ∃ overlay', store.spendInput overlay input = pure overlay' ∧
      unspentAccount (readThrough overlay' store.unspent) + occurrences [input.toOutpoint] =
        unspentAccount (readThrough overlay store.unspent) + 0 := by
  have positive : 0 < unspentAccount (readThrough overlay store.unspent) input.toOutpoint :=
    (occurrences_pos.mpr (List.mem_singleton.mpr rfl)).trans_le (enough input.toOutpoint)
  have member := unspentAccount_pos.mp positive
  obtain ⟨items, found, isItem⟩ := exists_of_mem_itemsOf member
  obtain ⟨position, isPosition, removed⟩ := swapRemove_of_mem isItem
    (· = input.referTxOutputIndex) fun other _ => decide_eq_true_iff
  obtain rfl := itemsOf_eq_of_some found
  refine ⟨write overlay input.referTxID
      (some (swapRemove (itemsOf (readThrough overlay store.unspent) input.referTxID) position)),
    by simp [ChainStore.spendInput, found, isPosition], funext fun outpoint => ?_⟩
  have account := congrFun (listed_remove member removed) (Outpoint.entry outpoint)
  have entries := occurrences_map Outpoint.entry_injective [input.toOutpoint] outpoint
  rw [Pi.add_apply] at account ⊢
  rw [add_zero, ← entries]
  exact account

/-- One transaction of a batch. -/
theorem persistUnspendTx_account (fresh : itemsOf store.unspent (tx.hash crypto) = [])
    (enough : occurrences (consumedBy tx) ≤ unspentAccount (readThrough overlay store.unspent)) :
    ∃ overlay', store.persistUnspendTx crypto overlay tx = pure overlay' ∧
      unspentAccount (readThrough overlay' store.unspent) + occurrences (consumedBy tx) =
        unspentAccount (readThrough overlay store.unspent) + occurrences (createdBy crypto tx) := by
  unfold ChainStore.persistUnspendTx consumedBy createdBy
  by_cases registration : tx.txType = .registerAsset
  · exact ⟨overlay, by simp [registration], by simp [registration]⟩
  · by_cases coinbase : tx.isCoinBaseTx
    · refine ⟨ChainStore.createOutputs crypto overlay tx, by simp [registration, coinbase], ?_⟩
      simp [registration, coinbase, createOutputs_account fresh]
    · have consumed : occurrences (consumedBy tx) =
          (tx.utxoInputs.map fun input => occurrences [input.toOutpoint]).sum := by
        rw [sum_occurrences, consumedBy, if_neg (by simp [registration, coinbase]),
          Transaction.outpoints, List.map_eq_flatMap]
      have created : unspentAccount (readThrough (ChainStore.createOutputs crypto overlay tx)
          store.unspent) = _ := createOutputs_account fresh
      have enoughCreated := enough.trans (le_self_add.trans_eq created.symm)
      rw [consumed] at enoughCreated
      obtain ⟨overlay', spent, account⟩ := foldlM_account
        (fun overlay => unspentAccount (readThrough overlay store.unspent)) (fun _ => 0)
        (fun input : UTXOTxInput => occurrences [input.toOutpoint])
        (fun input _ overlay => spendInput_account) _ enoughCreated
      refine ⟨overlay', by simpa [registration, coinbase] using spent, ?_⟩
      rw [← consumed, created, List.map_const', List.sum_replicate, nsmul_zero, add_zero] at account
      rw [if_neg registration]
      exact account

/-- The table after a batch. -/
theorem persistUnspend_account {block : Block}
    (fresh : ∀ tx ∈ block.transactions, itemsOf store.unspent (tx.hash crypto) = [])
    (enough : occurrences (block.transactions.flatMap consumedBy) ≤ unspentAccount store.unspent) :
    unspentAccount (store.persistUnspend crypto block) +
        occurrences (block.transactions.flatMap consumedBy) =
      unspentAccount store.unspent + occurrences (block.transactions.flatMap (createdBy crypto)) := by
  rw [← sum_occurrences] at enough
  obtain ⟨overlay, folded, account⟩ := foldlM_account
    (fun overlay => unspentAccount (readThrough overlay store.unspent))
    (fun tx => occurrences (createdBy crypto tx)) (fun tx => occurrences (consumedBy tx))
    (fun tx member overlay => persistUnspendTx_account (fresh tx member))
    (fun _ => none) enough
  rw [sum_occurrences, sum_occurrences] at account
  rw [ChainStore.persistUnspend]
  change (block.transactions.foldlM (store.persistUnspendTx crypto) fun _ => none) = some overlay
    at folded
  rw [folded]
  have written : unspentAccount (writeLists store.unspent overlay) =
      unspentAccount (readThrough overlay store.unspent) :=
    funext fun outpoint => congrFun listed_writeLists _
  rw [written, account]
  rfl

theorem restoreInput_account (input : UTXOTxInput) :
    unspentAccount (readThrough (store.restoreInput overlay input) store.unspent) =
      unspentAccount (readThrough overlay store.unspent) + occurrences [input.toOutpoint] :=
  unspentAccount_append [input.referTxOutputIndex]

theorem rollbackUnspendTx_account (tx : Transaction) :
    unspentAccount (readThrough (store.rollbackUnspendTx overlay tx) store.unspent) =
      unspentAccount (readThrough overlay store.unspent) + occurrences (consumedBy tx) := by
  unfold ChainStore.rollbackUnspendTx consumedBy
  split
  · simp
  · rw [foldl_account (fun overlay => unspentAccount (readThrough overlay store.unspent))
      (fun input : UTXOTxInput => occurrences [input.toOutpoint])
      (fun input _ overlay => restoreInput_account input), sum_occurrences, Transaction.outpoints,
      List.map_eq_flatMap]

/-- A batch that is taken back writes no key that its inputs do not refer to. -/
theorem rollbackUnspendTx_frame {txid : Uint256}
    (other : txid ∉ (consumedBy tx).map Outpoint.referTxID) (unwritten : overlay txid = none) :
    store.rollbackUnspendTx overlay tx txid = none := by
  unfold ChainStore.rollbackUnspendTx
  unfold consumedBy at other
  split
  · exact unwritten
  · next isRegular =>
    rw [if_neg isRegular, Transaction.outpoints, List.map_map] at other
    refine List.foldlRecOn
      (motive := fun overlay : Uint256 → Option (List UInt16) => overlay txid = none)
      tx.utxoInputs _ unwritten fun overlay unwritten input member => ?_
    have different : txid ≠ input.referTxID := fun same =>
      other (same ▸ List.mem_map_of_mem member)
    rw [ChainStore.restoreInput, write_apply, if_neg different, unwritten]

/-- The table after a batch was taken back, where no input of the batch refers to
a transaction of it. -/
theorem rollbackUnspend_account {block : Block}
    (apart : ∀ outpoint ∈ block.transactions.flatMap consumedBy,
      outpoint.referTxID ∉ block.txHashes crypto) (outpoint : Outpoint) :
    unspentAccount (store.rollbackUnspend crypto block) outpoint =
      if ∃ tx ∈ block.transactions, tx.txType ≠ .registerAsset ∧
        tx.hash crypto = outpoint.referTxID then 0
      else unspentAccount store.unspent outpoint +
        occurrences (block.transactions.flatMap consumedBy) outpoint := by
  have folded := congrFun (foldl_account
    (fun overlay => unspentAccount (readThrough overlay store.unspent))
    (fun tx => occurrences (consumedBy tx))
    (fun tx (_ : tx ∈ block.transactions) overlay => rollbackUnspendTx_account tx) fun _ => none)
    outpoint
  rw [sum_occurrences] at folded
  have created : (outpoint.referTxID ∈ (block.transactions.filter (·.txType ≠ .registerAsset)).map
      (Transaction.hash crypto)) ↔ ∃ tx ∈ block.transactions, tx.txType ≠ .registerAsset ∧
        tx.hash crypto = outpoint.referTxID := by
    simp [and_assoc]
  rw [ChainStore.rollbackUnspend, unspentAccount, listed_writeLists, Outpoint.entry]
  simp only [listed, itemsOf, readThrough, created]
  split
  · next isCreated =>
    obtain ⟨tx, member, -, sameHash⟩ := isCreated
    have unwritten : block.transactions.foldl store.rollbackUnspendTx (fun _ => none)
        outpoint.referTxID = none := by
      refine List.foldlRecOn (motive := fun overlay : Uint256 → Option (List UInt16) =>
          overlay outpoint.referTxID = none)
        block.transactions _ rfl fun overlay unwritten other otherMember => ?_
      refine rollbackUnspendTx_frame (fun found => ?_) unwritten
      obtain ⟨spent, spentMember, sameTx⟩ := List.mem_map.mp found
      refine apart spent (List.mem_flatMap.mpr ⟨other, otherMember, spentMember⟩) ?_
      exact sameTx ▸ sameHash ▸ List.mem_map_of_mem member
    simp [unwritten]
  · exact folded

end Batch

end DnaPow.Ledger
