import DnaPow.Ledger.Spending
import DnaPow.Std.Keeping

/-!
# What the inputs of the main chain refer to

Every input of the main chain refers to a transaction of an earlier block, whatever
the blocks spend twice. The table of unspent outputs need not be right for this: it
is enough that it has no entry for a transaction that is not on the chain.
-/

namespace DnaPow.Ledger

open DnaPow.Std Common Core

/-- The hash of a transaction of the chain, registrations apart. -/
def OnChain (env : Env) (chain : List Block) (txid : Uint256) : Prop :=
  ∃ block ∈ chain, ∃ tx ∈ block.transactions, tx.txType ≠ .registerAsset ∧
    tx.hash env.crypto = txid

/-- Every input of the chain refers to a transaction below its block. -/
def RefersBelow (env : Env) : List Block → Prop
  | [] => True
  | block :: below =>
      (∀ outpoint ∈ spentOutpoints block, OnChain env below outpoint.referTxID) ∧
        RefersBelow env below

/-- The table of unspent outputs and the inputs know no transactions but those of
the chain. -/
structure Referring (env : Env) (chain : List Block) (store : ChainStore) : Prop where
  listed : ∀ txid, itemsOf store.unspent txid ≠ [] → OnChain env chain txid
  below : RefersBelow env chain

section Frame

variable {crypto : Primitives} {store : ChainStore} {block : Block} {txid : Uint256}
  {tx : Transaction}

/-- Spending an input leaves a key with entries only where there were some. -/
theorem spendInput_listed {overlay after : Uint256 → Option (List UInt16)} {input : UTXOTxInput}
    (spent : store.spendInput overlay input = some after)
    (listed : itemsOf (readThrough after store.unspent) txid ≠ []) :
    itemsOf (readThrough overlay store.unspent) txid ≠ [] := by
  simp only [ChainStore.spendInput, Option.pure_def, Option.bind_eq_bind,
    Option.bind_eq_some_iff, Option.some.injEq] at spent
  obtain ⟨indexes, found, rfl⟩ := spent
  rw [itemsOf_readThrough_write] at listed
  split at listed
  · next same =>
    subst same
    rw [itemsOf_eq_of_some found]
    rintro rfl
    exact listed rfl
  · exact listed

theorem createOutputs_listed {overlay : Uint256 → Option (List UInt16)}
    (other : tx.hash crypto ≠ txid) :
    itemsOf (readThrough (ChainStore.createOutputs crypto overlay tx) store.unspent) txid =
      itemsOf (readThrough overlay store.unspent) txid := by
  unfold ChainStore.createOutputs
  split
  · rfl
  · rw [itemsOf_readThrough_write, if_neg (Ne.symm other)]

theorem persistUnspendTx_listed {overlay after : Uint256 → Option (List UInt16)}
    (persisted : store.persistUnspendTx crypto overlay tx = some after)
    (other : tx.txType ≠ .registerAsset → tx.hash crypto ≠ txid)
    (listed : itemsOf (readThrough after store.unspent) txid ≠ []) :
    itemsOf (readThrough overlay store.unspent) txid ≠ [] := by
  unfold ChainStore.persistUnspendTx at persisted
  split at persisted
  · exact Option.some.inj persisted ▸ listed
  · next notRegistration =>
    rw [← createOutputs_listed (other notRegistration)]
    split at persisted
    · exact Option.some.inj persisted ▸ listed
    · revert listed
      refine foldlM_keeps (fun overlay' =>
        itemsOf (readThrough overlay' store.unspent) txid ≠ [] → _) ?_ id persisted
      intro input _ before after ih spent listed
      exact ih (spendInput_listed spent listed)

/-- A batch gives entries only to keys that had some and to its own transactions. -/
theorem persistUnspend_listed
    (other : ∀ tx ∈ block.transactions, tx.txType ≠ .registerAsset → tx.hash crypto ≠ txid)
    (listed : itemsOf (store.persistUnspend crypto block) txid ≠ []) :
    itemsOf store.unspent txid ≠ [] := by
  unfold ChainStore.persistUnspend at listed
  split at listed
  · next overlay folded =>
    rw [itemsOf_writeLists] at listed
    revert listed
    refine foldlM_keeps (fun overlay' =>
      itemsOf (readThrough overlay' store.unspent) txid ≠ [] → _) ?_ id folded
    intro tx member before after ih persisted listed
    exact ih (persistUnspendTx_listed persisted (other tx member) listed)
  · exact listed

/-- A batch that is taken back gives entries only to keys that had some and that are
not its own, and to those its inputs refer to. -/
theorem rollbackUnspend_listed (listed : itemsOf (store.rollbackUnspend crypto block) txid ≠ []) :
    (∃ outpoint ∈ spentOutpoints block, outpoint.referTxID = txid) ∨
      itemsOf store.unspent txid ≠ [] ∧
        ∀ tx ∈ block.transactions, tx.txType ≠ .registerAsset → tx.hash crypto ≠ txid := by
  by_cases referred : ∃ outpoint ∈ spentOutpoints block, outpoint.referTxID = txid
  · exact .inl referred
  · refine .inr ?_
    have unwritten : block.transactions.foldl store.rollbackUnspendTx (fun _ => none) txid = none := by
      refine List.foldlRecOn (motive := fun overlay : Uint256 → Option (List UInt16) =>
        overlay txid = none) block.transactions _ rfl fun overlay unwritten tx member => ?_
      refine rollbackUnspendTx_frame (fun found => ?_) unwritten
      obtain ⟨outpoint, consumed, rfl⟩ := List.mem_map.mp found
      refine referred ⟨outpoint, List.mem_flatMap.mpr ⟨tx, member, ?_⟩, rfl⟩
      unfold consumedBy at consumed
      split at consumed
      · simp at consumed
      · next isRegular => rwa [spentBy, if_neg fun coinbase => isRegular (.inr coinbase)]
    rw [ChainStore.rollbackUnspend, itemsOf_writeLists, itemsOf, readThrough, unwritten,
      Option.none_or] at listed
    split at listed
    · exact absurd rfl listed
    · next notCreated =>
      refine ⟨listed, fun tx member notRegistration same => notCreated ?_⟩
      exact List.mem_map.mpr ⟨tx, by simp [member, notRegistration], same⟩

/-- The inputs of a transaction that passed the context check have entries. -/
theorem listed_of_checked {env : Env}
    (checked : checkTransactionContext env store tx = .ok ()) (notCoinbase : tx.isCoinBaseTx = false)
    {input : UTXOTxInput} (member : input ∈ tx.utxoInputs) :
    itemsOf store.unspent input.referTxID ≠ [] := by
  have unspent := ((checkTransactionContext_eq_ok.mp checked).2 notCoinbase).1
  rw [ChainStore.isDoubleSpend, List.any_eq_false] at unspent
  have found := unspent input member
  unfold itemsOf
  cases entry : store.unspent input.referTxID with
  | none => simp [entry] at found
  | some indexes =>
    rw [entry] at found
    rintro rfl
    simp at found

end Frame

section Chain

variable {env : Env} {block : Block} {below : List Block} {txid : Uint256}

theorem OnChain.cons (onChain : OnChain env below txid) : OnChain env (block :: below) txid := by
  obtain ⟨other, member, rest⟩ := onChain
  exact ⟨other, List.mem_cons_of_mem _ member, rest⟩

/-- What an input of the chain consumes is an output of a transaction of the chain. -/
theorem RefersBelow.onChain {chain : List Block} (refers : RefersBelow env chain)
    {outpoint : Outpoint} (spent : outpoint ∈ chain.flatMap spentOutpoints) :
    OnChain env chain outpoint.referTxID := by
  induction chain with
  | nil => cases spent
  | cons block below ih =>
    rw [List.flatMap_cons, List.mem_append] at spent
    rcases spent with here | lower
    · exact (refers.1 outpoint here).cons
    · exact (ih refers.2 lower).cons

theorem RefersBelow.of_suffix {chain : List Block} (refers : RefersBelow env chain)
    (suffix : below <:+ chain) : RefersBelow env below := by
  induction chain with
  | nil => exact List.suffix_nil.mp suffix ▸ refers
  | cons block rest ih =>
    rcases List.suffix_cons_iff.mp suffix with rfl | lower
    · exact refers
    · exact ih refers.2 lower

end Chain

namespace Referring

variable {env : Env} {block : Block} {below : List Block} {before after : ChainStore}

theorem connect (referring : Referring env below before)
    (checked : checkTransactionsContext env before block.transactions = .ok ())
    (persisted : Persisted env.crypto block before after) :
    Referring env (block :: below) after where
  listed txid isListed := by
    rw [persisted.unspent] at isListed
    by_cases created : ∃ tx ∈ block.transactions, tx.txType ≠ .registerAsset ∧
        tx.hash env.crypto = txid
    · obtain ⟨tx, member, rest⟩ := created
      exact ⟨block, List.mem_cons_self, tx, member, rest⟩
    · refine (referring.listed txid (persistUnspend_listed ?_ isListed)).cons
      intro tx member notRegistration same
      exact created ⟨tx, member, notRegistration, same⟩
  below := by
    refine ⟨fun outpoint spent => ?_, referring.below⟩
    obtain ⟨tx, member, notCoinbase, input, inputMember, rfl⟩ := exists_input_of_spent spent
    have passed := checkTransactionsContext_eq_ok.mp checked tx member
    exact referring.listed _ (listed_of_checked passed notCoinbase inputMember)

theorem disconnect (referring : Referring env (block :: below) before)
    (rolledBack : RolledBack env.crypto block before after) : Referring env below after where
  listed txid isListed := by
    rw [rolledBack.unspent] at isListed
    rcases rollbackUnspend_listed isListed with ⟨outpoint, spent, rfl⟩ | ⟨wasListed, other⟩
    · exact referring.below.1 outpoint spent
    · obtain ⟨source, member, tx, txMember, notRegistration, same⟩ := referring.listed txid wasListed
      rcases List.mem_cons.mp member with rfl | lower
      · exact absurd same (other tx txMember notRegistration)
      · exact ⟨source, lower, tx, txMember, notRegistration, same⟩
  below := referring.below.2

end Referring

/-- Along every history of the main chain its inputs refer to earlier transactions. -/
theorem MainChain.referring {env : Env} {known : Block → Prop} {chain : List Block}
    {store : ChainStore} (mainChain : MainChain env known chain store) :
    Referring env chain store := by
  induction mainChain with
  | genesis =>
    have nothing : Referring env [] .empty := ⟨by simp [itemsOf, ChainStore.empty], trivial⟩
    have persisted : Persisted env.crypto (genesisBlock env) .empty (.genesis env) :=
      ChainStore.persisted (ε := Unit) rfl
    exact nothing.connect rfl persisted
  | connect chain isKnown linked above checked persisted ih =>
    exact ih.connect checked (ChainStore.persisted persisted)
  | disconnect chain rolledBack ih => exact ih.disconnect (ChainStore.rolledBack rolledBack)

end DnaPow.Ledger
