import DnaPow.Ledger.Spending

/-!
# Persisting a block and taking it back

A store is consistent if its indexes list the same outputs and its tables reach up
to its current height, as every store of a run of regular blocks does. On such a
store `rollback` undoes `persistBlocks`, up to the order inside the lists of the
indexes.
-/

namespace DnaPow.Ledger

open DnaPow.Std Common Core

/-- A store whose indexes list the given outputs and whose tables reach up to its
current height. -/
structure Consistent (crypto : Primitives) (live : Outpoint → Prop) (store : ChainStore) : Prop
    extends Indexed crypto live store where
  transaction_le : ∀ hash tx height, store.transaction hash = some (tx, height) →
    height ≤ store.currentBlockHeight
  blockHash_le : ∀ height, store.blockHash height ≠ none → height ≤ store.currentBlockHeight
  asset : ∀ hash, store.transaction hash = none → store.asset hash = none
  noEmptyList : NoEmptyList store

/-- A new block on top of the current one. -/
structure Extends (crypto : Primitives) (store : ChainStore) (block : Block) : Prop where
  parent : store.currentBlock = some (block.blockdata.prevBlockHash, store.currentBlockHeight)
  height : block.blockdata.height.toNat = store.currentBlockHeight.toNat + 1
  fresh : store.header (block.hash crypto) = none

/-- Two tables of lists with the same keys and, up to order, the same lists. -/
def SameLists {κ α : Type} (map map' : κ → Option (List α)) : Prop :=
  ∀ key, (map' key = none ↔ map key = none) ∧ (itemsOf map' key).Perm (itemsOf map key)

/-- The same store, up to the order inside the lists of the indexes. -/
structure SameStore (store store' : ChainStore) : Prop where
  header : store'.header = store.header
  blockHash : store'.blockHash = store.blockHash
  transaction : store'.transaction = store.transaction
  asset : store'.asset = store.asset
  currentBlock : store'.currentBlock = store.currentBlock
  currentBlockHeight : store'.currentBlockHeight = store.currentBlockHeight
  unspent : SameLists store.unspent store'.unspent
  unspentUTXO : SameLists store.unspentUTXO store'.unspentUTXO

section RoundTrip

variable {env : Env} {live : Outpoint → Prop} {store after : ChainStore} {block : Block}

/-- Both tables hold what they held before. -/
theorem Indexed.accounts_restored (indexed : Indexed env.crypto live store)
    (fits : Fits env store block) (persisted : Persisted env.crypto block store after)
    (account : Accounted env.crypto block store after.unspentUTXO)
    {final : ChainStore} (takenBack : TakenBack env.crypto block after final) :
    listed final.unspent = listed store.unspent ∧
      listed final.unspentUTXO = listed store.unspentUTXO := by
  have unspentAccount_eq := indexed.persistUnspend_account fits
  rw [← persisted.unspent] at unspentAccount_eq
  constructor
  · funext (txid, index)
    have final_eq := takenBack.unspent ⟨txid, index⟩
    change unspentAccount final.unspent ⟨txid, index⟩ = unspentAccount store.unspent ⟨txid, index⟩
    have here := congrFun unspentAccount_eq ⟨txid, index⟩
    simp only [Pi.add_apply] at here
    split at final_eq
    · next created =>
      obtain ⟨tx, member, -, rfl⟩ := created
      have notListed : unspentAccount store.unspent ⟨tx.hash env.crypto, index⟩ = 0 := by
        refine Nat.eq_zero_of_not_pos fun positive => ?_
        exact indexed.not_live_of_tx fits member rfl
          ((indexed.unspent_mem _).mp (unspentAccount_pos.mp positive))
      rw [final_eq, notListed]
    · next notCreated =>
      have notAdded : occurrences (block.transactions.flatMap (createdBy env.crypto))
          ⟨txid, index⟩ = 0 := by
        refine occurrences_eq_zero fun member => notCreated ?_
        obtain ⟨tx, txMember, created⟩ := List.mem_flatMap.mp member
        obtain ⟨notRegistration, sameHash, -⟩ := mem_createdBy.mp created
        exact ⟨tx, txMember, notRegistration, sameHash⟩
      omega
  · funext placed
    have final_eq := takenBack.unspentUTXO placed
    rw [indexed.placesOf_eq fits persisted] at final_eq
    have here := congrFun account placed
    simp only [Pi.add_apply] at here
    split at final_eq
    · next isOwn => rw [final_eq, indexed.listed_own_eq_zero fits isOwn]
    · next other =>
      have notAdded : occurrences (block.transactions.flatMap
          (utxosOf env.crypto block.blockdata.height)) placed = 0 := by
        refine occurrences_eq_zero fun member => other ?_
        obtain ⟨tx, -, created⟩ := List.mem_flatMap.mp member
        exact (of_mem_utxosOf created).1
      omega

theorem sameLists_of_listed_eq {κ α : Type} [DecidableEq α] {map map' : κ → Option (List α)}
    (same : listed map' = listed map) (nonempty : ∀ key, map key ≠ some [])
    (nonempty' : ∀ key, map' key ≠ some []) : SameLists map map' := by
  intro key
  have perm := perm_of_listed_eq same key
  refine ⟨?_, perm⟩
  rw [← itemsOf_eq_nil_iff (nonempty key), ← itemsOf_eq_nil_iff (nonempty' key)]
  exact ⟨fun empty => (empty ▸ perm).nil_eq.symm, fun empty => (empty ▸ perm).eq_nil⟩

theorem nodup_consumed {txs : List Transaction} (spentOnce : (txs.flatMap spentBy).Nodup) :
    (txs.flatMap consumedBy).Nodup := by
  have each (tx : Transaction) : (consumedBy tx).Sublist (spentBy tx) := by
    unfold consumedBy spentBy
    split
    · exact List.nil_sublist _
    · next isRegular => rw [if_neg (not_or.mp isRegular).2]
  refine List.Nodup.sublist ?_ spentOnce
  clear spentOnce
  induction txs with
  | nil => exact List.Sublist.slnil
  | cons tx txs ih =>
    rw [List.flatMap_cons, List.flatMap_cons]
    exact (each tx).append ih

/-- Persisting a new block on top of a consistent store and taking it back gives
the same store. -/
theorem rollback_persistBlocks (env : Env) (live : Outpoint → Prop) (store : ChainStore)
    (block : Block) (consistent : Consistent env.crypto live store)
    (isNew : Extends env.crypto store block)
    (checked : checkTransactionsContext env store block.transactions = .ok ())
    (spentOnce : (spentOutpoints block).Nodup) :
    ∃ after final, store.persistBlocks (ε := Unit) env.crypto block = .ok after ∧
      after.rollback (ε := Unit) env.crypto block = .ok final ∧ SameStore store final := by
  have fits : Fits env store block := ⟨checked, nodup_consumed spentOnce, fun hash tx height stored => by
    have bound := UInt32.le_iff_toNat_le.mp (consistent.transaction_le hash tx height stored)
    rintro rfl
    have := isNew.height
    omega⟩
  obtain ⟨after, persisted, account⟩ := consistent.toIndexed.persistBlocks_eq_ok fits
  have writes := ChainStore.persisted persisted
  obtain ⟨final, rolledBack, takenBack⟩ :=
    (consistent.toIndexed.removable fits writes account).rollback_eq_ok
  refine ⟨after, final, persisted, rolledBack, ?_⟩
  have deletes := ChainStore.rolledBack rolledBack
  have noEmptyList := consistent.noEmptyList.persistBlocks persisted
  have noEmptyList' := noEmptyList.rollback rolledBack
  obtain ⟨unspent, unspentUTXO⟩ :=
    consistent.toIndexed.accounts_restored fits writes account takenBack
  have height : block.blockdata.height - 1 = store.currentBlockHeight := by
    rw [height_eq_succ isNew.height, UInt32.add_sub_cancel]
  have fresh : ∀ tx ∈ block.transactions, store.transaction (tx.hash env.crypto) = none :=
    fun tx member => transaction_eq_none_of_checked
      (checkTransactionsContext_eq_ok.mp checked tx member)
  have freeHeight : store.blockHash block.blockdata.height = none := by
    by_contra stored
    have bound := UInt32.le_iff_toNat_le.mp (consistent.blockHash_le _ stored)
    have := isNew.height
    omega
  exact {
    header := by
      rw [deletes.header, writes.header, write, Function.update_idem, ← isNew.fresh,
        Function.update_eq_self]
    blockHash := by
      rw [deletes.blockHash, writes.blockHash, write, Function.update_idem, ← freeHeight,
        Function.update_eq_self]
    transaction := by
      rw [deletes.transaction, ChainStore.rollbackTransactions, writes.transaction]
      exact foldl_write_none fresh
    asset := by
      rw [deletes.asset, rollbackTransactions_asset, writes.asset, persistTransactions_asset]
      refine foldl_write_none fun entry member => ?_
      obtain ⟨tx, txMember, asset, -, rfl⟩ := mem_blockAssets.mp member
      exact consistent.asset _ (fresh tx txMember)
    currentBlock := by rw [deletes.currentBlock, height, isNew.parent]
    currentBlockHeight := by rw [deletes.currentBlockHeight, height]
    unspent := sameLists_of_listed_eq unspent consistent.noEmptyList.unspent noEmptyList'.unspent
    unspentUTXO := sameLists_of_listed_eq unspentUTXO consistent.noEmptyList.unspentUTXO
      noEmptyList'.unspentUTXO }

end RoundTrip

/-! ## Stores of runs -/

variable {env : Env} {known : Block → Prop}

/-- Every store along such a history is consistent. -/
theorem MainChain.consistent (admissible : Admissible env known)
    (regular : ∀ block, known block → Regular block) {chain : List Block} {store : ChainStore}
    (mainChain : MainChain env known chain store) :
    Consistent env.crypto (Available env chain) store := by
  have tracks := mainChain.tracks admissible regular
  have represents := mainChain.represents admissible
  have branch := mainChain.branch admissible
  have low : ∀ block ∈ chain, block.blockdata.height ≤ store.currentBlockHeight := by
    intro block member
    cases chain with
    | nil => cases member
    | cons tip below =>
      rw [represents.currentBlockHeight tip rfl, UInt32.le_iff_toNat_le]
      rcases List.mem_cons.mp member with rfl | lower
      · exact Nat.le_refl _
      · exact ((List.pairwise_cons.mp branch.height_lt).1 block lower).le
  refine ⟨tracks.indexed, ?_, ?_, ?_, tracks.noEmptyList⟩
  · intro hash tx height stored
    obtain ⟨block, member, -, -, rfl⟩ :=
      mem_transactionEntries.mp ((represents.transaction _ _).mp stored)
    exact low block member
  · intro height stored
    obtain ⟨hash, found⟩ := Option.ne_none_iff_exists'.mp stored
    obtain ⟨block, member, same⟩ := List.mem_map.mp ((represents.blockHash _ _).mp found)
    exact (Prod.mk.inj same).1 ▸ low block member
  · intro hash missing
    rw [represents.transaction.eq_none_iff] at missing
    exact represents.asset.eq_none_iff.mpr (mt mem_transactionEntries_of_asset missing)

namespace Blockchain

/-- The last of the two blocks can be persisted on the store of the first one and
taken back. -/
theorem rollback_persist_spendingBlock :
    ∃ bc after final, run .sample (Sample.deliveries [firstBlock]) = some bc ∧
      bc.store.persistBlocks (ε := Unit) Env.sample.crypto spendingBlock = .ok after ∧
      after.rollback (ε := Unit) Env.sample.crypto spendingBlock = .ok final ∧
      SameStore bc.store final := by
  have facts : (run .sample (Sample.deliveries [firstBlock])).map (fun bc =>
      (bc.store.currentBlock, bc.store.currentBlockHeight,
        decide (bc.store.header (spendingBlock.hash Env.sample.crypto) = none),
        checkTransactionsContext .sample bc.store spendingBlock.transactions)) =
      some (some (spendingBlock.blockdata.prevBlockHash, 1), 1, true, .ok ()) := by decide +kernel
  obtain ⟨bc, ran, facts⟩ := Option.map_eq_some_iff.mp facts
  simp only [Prod.mk.injEq, decide_eq_true_eq] at facts
  obtain ⟨parent, height, fresh, checked⟩ := facts
  have apart : HashesApart .sample (Sample.deliveries [firstBlock]) := by
    refine ⟨?_, ?_, ?_⟩ <;> decide +kernel
  have few : (Sample.deliveries [firstBlock]).length + 1 < 2 ^ 32 := by decide +kernel
  have regular : ∀ delivery ∈ Sample.deliveries [firstBlock], Regular delivery.block := by
    decide +kernel
  have consistent := (mainChain_of_run apart few ran).consistent (admissible_delivered apart few)
    (regular_of_delivered regular)
  have isNew : Extends Env.sample.crypto bc.store spendingBlock :=
    ⟨by rw [parent, height], by rw [height]; decide +kernel, fresh⟩
  obtain ⟨after, final, persisted, rolledBack, same⟩ :=
    rollback_persistBlocks .sample _ bc.store spendingBlock consistent isNew checked
      (by decide +kernel)
  exact ⟨bc, after, final, ran, persisted, rolledBack, same⟩

end Blockchain

end DnaPow.Ledger
