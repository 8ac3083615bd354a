import DnaPow.Ledger.Unspent

/-!
# Unspent outputs by program

What a batch does to the table of unspent outputs by program, as an account. The
entries that an input refers to are found in the list of the height of their
transaction; the entries of the block itself are all in lists of its own height,
which hold nothing else.
-/

namespace DnaPow.Ledger

open DnaPow.Std Common Core

/-- An entry of the table with its key. -/
abbrev Placed := UnspentKey × UTXOUnspent

/-- The height that a key is about. -/
def UnspentKey.height (key : UnspentKey) : UInt32 := key.2.2

/-- The entry of one output. -/
def utxo (crypto : Primitives) (height : UInt32) (tx : Transaction) (indexed : TxOutput × Nat) :
    Placed :=
  ((indexed.1.programHash, indexed.1.assetID, height),
    ⟨tx.hash crypto, UInt32.ofNat indexed.2, indexed.1.value⟩)

/-- The entries that a transaction adds to the table. A registration adds none. -/
def utxosOf (crypto : Primitives) (height : UInt32) (tx : Transaction) : List Placed :=
  if tx.txType = .registerAsset then [] else tx.outputs.zipIdx.map (utxo crypto height tx)

/-- The entry of the output that an outpoint names. -/
def ChainStore.place (store : ChainStore) (outpoint : Outpoint) : Option Placed := do
  let (tx, height) ← store.transaction outpoint.referTxID
  let output ← tx.outputs[outpoint.referTxOutputIndex.toNat]?
  return ((output.programHash, output.assetID, height),
    ⟨outpoint.referTxID, outpoint.referTxOutputIndex.toUInt32, output.value⟩)

section Batch

variable {crypto : Primitives} {store : ChainStore} {overlay : ChainStore.UTXOOverlay}
  {valid : Placed → Prop}

theorem addUTXOs_account (height : UInt32) (tx : Transaction) :
    listed (readThrough (store.addUTXOs crypto height tx overlay) store.unspentUTXO) =
      listed (readThrough overlay store.unspentUTXO) +
        occurrences (tx.outputs.zipIdx.map (utxo crypto height tx)) := by
  rw [ChainStore.addUTXOs, foldl_account
    (fun overlay => listed (readThrough overlay store.unspentUTXO))
    (fun indexed => occurrences [utxo crypto height tx indexed])
    (fun indexed _ overlay => listed_append _), sum_occurrences, List.map_eq_flatMap]

/-- The output that an input refers to can be read, and this is its entry. -/
def Reads (crypto : Primitives) (store : ChainStore) (input : UTXOTxInput) (placed : Placed) : Prop :=
  ∃ referTxn output height, store.referredOutput input = .ok (referTxn, output, height) ∧
    placed = ((output.programHash, output.assetID, height),
      ⟨referTxn.hash crypto, input.referTxOutputIndex.toUInt32, output.value⟩)

/-- An entry is the only one of its transaction and index in its list. -/
def Alone (valid : Placed → Prop) (placed : Placed) : Prop :=
  ∀ entry, valid (placed.1, entry) → entry.txid = placed.2.txid → entry.index = placed.2.index →
    entry = placed.2

theorem spendUTXO_account {input : UTXOTxInput} {placed : Placed}
    (reads : Reads crypto store input placed) (alone : Alone valid placed)
    (isValid : ∀ p, 0 < listed (readThrough overlay store.unspentUTXO) p → valid p)
    (enough : occurrences [placed] ≤ listed (readThrough overlay store.unspentUTXO)) :
    ∃ overlay', store.spendUTXO crypto overlay input = pure overlay' ∧
      listed (readThrough overlay' store.unspentUTXO) + occurrences [placed] =
        listed (readThrough overlay store.unspentUTXO) + 0 := by
  obtain ⟨referTxn, output, height, read, rfl⟩ := reads
  have member := listed_pos.mp
    ((occurrences_pos.mpr (List.mem_singleton.mpr rfl)).trans_le (enough _))
  obtain ⟨items, found, isItem⟩ := exists_of_mem_itemsOf member
  obtain rfl := itemsOf_eq_of_some found
  obtain ⟨position, isPosition, removed⟩ := swapRemove_of_mem isItem
      (fun unspent => decide (unspent.txid = referTxn.hash crypto ∧
        unspent.index = input.referTxOutputIndex.toUInt32)) <| by
    intro other otherMember
    rw [decide_eq_true_iff]
    constructor
    · rintro ⟨sameTx, sameIndex⟩
      exact alone other (isValid _ (listed_pos.mpr otherMember)) sameTx sameIndex
    · rintro rfl
      exact ⟨rfl, rfl⟩
  refine ⟨_, ?_, (listed_remove member removed).trans (add_zero _).symm⟩
  simp only [ChainStore.spendUTXO, read, Outcome.bind_ok, found, Outcome.ofOption, isPosition]

/-- The entries of the outputs that a transaction takes off the table. -/
def placesOf (store : ChainStore) (tx : Transaction) : List Placed :=
  (consumedBy tx).flatMap fun outpoint => (store.place outpoint).toList

theorem sum_places (inputs : List UTXOTxInput) :
    (inputs.map fun input => occurrences (store.place input.toOutpoint).toList).sum =
      occurrences ((inputs.map UTXOTxInput.toOutpoint).flatMap fun outpoint =>
        (store.place outpoint).toList) := by
  rw [sum_occurrences, List.flatMap_map]

/-- The inputs of a transaction that takes outputs off the table can be read, and
their entries are told apart by transaction and index. -/
def ReadsAll (crypto : Primitives) (store : ChainStore) (valid : Placed → Prop) (tx : Transaction) :
    Prop :=
  ¬ (tx.txType = .registerAsset ∨ tx.isCoinBaseTx) → ∀ input ∈ tx.utxoInputs,
    ∃ placed, store.place input.toOutpoint = some placed ∧ Reads crypto store input placed ∧
      Alone valid placed

theorem persistUTXOsTx_account {height : UInt32} {tx : Transaction}
    (reads : ReadsAll crypto store valid tx)
    (createsValid : ∀ p ∈ utxosOf crypto height tx, valid p)
    (isValid : ∀ p, 0 < listed (readThrough overlay store.unspentUTXO) p → valid p)
    (enough : occurrences (placesOf store tx) ≤ listed (readThrough overlay store.unspentUTXO)) :
    ∃ overlay', store.persistUTXOsTx crypto height overlay tx = pure overlay' ∧
      listed (readThrough overlay' store.unspentUTXO) + occurrences (placesOf store tx) =
        listed (readThrough overlay store.unspentUTXO) +
          occurrences (utxosOf crypto height tx) := by
  by_cases registration : tx.txType = .registerAsset
  · exact ⟨overlay, if_pos registration, by simp [placesOf, consumedBy, utxosOf, registration]⟩
  have created : utxosOf crypto height tx = tx.outputs.zipIdx.map (utxo crypto height tx) :=
    if_neg registration
  have account : listed (readThrough (store.addUTXOs crypto height tx overlay) store.unspentUTXO) =
      _ := addUTXOs_account height tx
  rw [← created] at account
  by_cases coinbase : tx.isCoinBaseTx
  · refine ⟨store.addUTXOs crypto height tx overlay, ?_, ?_⟩
    · simp [ChainStore.persistUTXOsTx, registration, coinbase]
    · simp [placesOf, consumedBy, coinbase, account]
  have isRegular : ¬ (tx.txType = .registerAsset ∨ tx.isCoinBaseTx) :=
    not_or.mpr ⟨registration, coinbase⟩
  rw [placesOf, consumedBy, if_neg isRegular, Transaction.outpoints, ← sum_places] at enough ⊢
  obtain ⟨overlay', folded, account'⟩ := foldlM_account_of
    (fun overlay => listed (readThrough overlay store.unspentUTXO)) (fun _ => 0)
    (fun input : UTXOTxInput => occurrences (store.place input.toOutpoint).toList) valid
    (fun input member overlay isValid enough => by
      obtain ⟨placed, place, read, alone⟩ := reads isRegular input member
      rw [place] at enough ⊢
      exact spendUTXO_account read alone isValid enough)
    (fun _ _ _ positive => absurd positive (lt_irrefl _))
    (store.addUTXOs crypto height tx overlay)
    (fun p positive => by
      rw [account, Pi.add_apply, Nat.add_pos_iff_pos_or_pos] at positive
      exact positive.elim (isValid p) fun created => createsValid p (occurrences_pos.mp created))
    (enough.trans (le_self_add.trans_eq account.symm))
  refine ⟨overlay', by simpa [ChainStore.persistUTXOsTx, registration, coinbase] using folded, ?_⟩
  rwa [List.map_const', List.sum_replicate, nsmul_zero, add_zero, account] at account'

/-- The table by program after a block, as an account. -/
def Accounted (crypto : Primitives) (block : Block) (store : ChainStore)
    (table : UnspentKey → Option (List UTXOUnspent)) : Prop :=
  listed table + occurrences (block.transactions.flatMap (placesOf store)) =
    listed store.unspentUTXO +
      occurrences (block.transactions.flatMap (utxosOf crypto block.blockdata.height))

/-- The part of a batch for the table. -/
theorem persistUTXOs_account {block : Block}
    (reads : ∀ tx ∈ block.transactions, ReadsAll crypto store valid tx)
    (createsValid : ∀ p ∈ block.transactions.flatMap (utxosOf crypto block.blockdata.height),
      valid p) (isValid : ∀ p, 0 < listed store.unspentUTXO p → valid p)
    (enough : occurrences (block.transactions.flatMap (placesOf store)) ≤
      listed store.unspentUTXO) :
    ∃ overlay, block.transactions.foldlM (store.persistUTXOsTx crypto block.blockdata.height)
        (fun _ => none) = .ok overlay ∧
      Accounted crypto block store (writeLists store.unspentUTXO overlay) := by
  rw [← sum_occurrences] at enough
  obtain ⟨overlay, folded, account⟩ := foldlM_account_of
    (fun overlay => listed (readThrough overlay store.unspentUTXO))
    (fun tx => occurrences (utxosOf crypto block.blockdata.height tx))
    (fun tx => occurrences (placesOf store tx)) valid
    (fun tx member overlay isValid enough => persistUTXOsTx_account (reads tx member)
      (fun p created => createsValid p (List.mem_flatMap.mpr ⟨tx, member, created⟩)) isValid enough)
    (fun tx member p positive =>
      createsValid p (List.mem_flatMap.mpr ⟨tx, member, occurrences_pos.mp positive⟩))
    (fun _ => none) isValid enough
  rw [sum_occurrences, sum_occurrences, ← listed_writeLists] at account
  exact ⟨overlay, folded, account⟩

/-! ## Taking a batch back -/

/-- The account of a batch that is taken back: the lists of its own height are
only counted, since what is not found there is removed from the front. -/
def remaining (height : UInt32) (map : UnspentKey → Option (List UTXOUnspent)) : Placed → Nat :=
  fun placed =>
    if UnspentKey.height placed.1 = height then (itemsOf map placed.1).length else listed map placed

section Remaining

variable {height : UInt32} {table : UnspentKey → Option (List UTXOUnspent)} {key : UnspentKey}

theorem remaining_remove (own : UnspentKey.height key = height) {position : Nat}
    (bound : position < (itemsOf (readThrough overlay table) key).length) :
    (remaining height (readThrough (write overlay key
        (some ((itemsOf (readThrough overlay table) key).eraseIdx position))) table) +
        fun placed => occurrences [key] placed.1) =
      remaining height (readThrough overlay table) := by
  funext placed
  simp only [remaining, listed, Pi.add_apply, itemsOf_readThrough_write]
  by_cases same : placed.1 = key
  · simp only [same, own, if_true, List.length_eraseIdx_of_lt bound, occurrences_singleton_self]
    omega
  · rw [occurrences_eq_zero (by simpa using same)]
    simp [same]

theorem remaining_append (other : UnspentKey.height key ≠ height) (items : List UTXOUnspent) :
    remaining height (readThrough (write overlay key
      (some (itemsOf (readThrough overlay table) key ++ items))) table) =
    remaining height (readThrough overlay table) + occurrences (items.map (Prod.mk key)) := by
  funext placed
  simp only [remaining, Pi.add_apply, listed_append, itemsOf_readThrough_write]
  split
  · next own =>
    have different : placed.1 ≠ key := fun same => other (same ▸ own)
    have absent : placed ∉ items.map (Prod.mk key) := by
      rintro member
      obtain ⟨_, -, rfl⟩ := List.mem_map.mp member
      exact different rfl
    rw [if_neg different, occurrences_eq_zero absent, Nat.add_zero]
  · rfl

end Remaining

variable {height : UInt32} {tx : Transaction} {placed : Placed}

theorem removeUTXO_account {indexed : TxOutput × Nat}
    (enough : (fun placed : Placed => occurrences [(utxo crypto height tx indexed).1] placed.1) ≤
      remaining height (readThrough overlay store.unspentUTXO)) :
    ∃ overlay', store.removeUTXO crypto height tx overlay indexed = pure overlay' ∧
      (remaining height (readThrough overlay' store.unspentUTXO) +
          fun placed => occurrences [(utxo crypto height tx indexed).1] placed.1) =
        remaining height (readThrough overlay store.unspentUTXO) + 0 := by
  obtain ⟨output, index⟩ := indexed
  have positive := (occurrences_pos.mpr (List.mem_singleton.mpr rfl)).trans_le
    (enough (utxo crypto height tx (output, index)))
  simp only [remaining, utxo, UnspentKey.height, if_true] at positive
  obtain ⟨entry, member⟩ := List.exists_mem_of_length_pos positive
  obtain ⟨items, found, -⟩ := exists_of_mem_itemsOf member
  obtain rfl := itemsOf_eq_of_some found
  have nonempty := List.ne_nil_of_length_pos positive
  refine ⟨_, ?_, (remaining_remove rfl (findIdx?_getD_lt nonempty fun unspent =>
    unspent.txid = tx.hash crypto ∧ unspent.index = UInt32.ofNat index)).trans (add_zero _).symm⟩
  simp only [ChainStore.removeUTXO, found, Outcome.ofOption, Outcome.bind_ok, if_neg nonempty]
  rfl

theorem restoreUTXO_account {input : UTXOTxInput}
    (reads : Reads crypto store input placed) (earlier : UnspentKey.height placed.1 ≠ height) :
    ∃ overlay', store.restoreUTXO crypto overlay input = pure overlay' ∧
      remaining height (readThrough overlay' store.unspentUTXO) + 0 =
        remaining height (readThrough overlay store.unspentUTXO) + occurrences [placed] := by
  obtain ⟨referTxn, output, height', read, rfl⟩ := reads
  refine ⟨_, ?_, (add_zero _).trans (remaining_append earlier
    [⟨referTxn.hash crypto, input.referTxOutputIndex.toUInt32, output.value⟩])⟩
  simp only [ChainStore.restoreUTXO, read, Outcome.bind_ok]
  rfl

/-- The keys of the entries that a transaction added. -/
def keysOf (crypto : Primitives) (height : UInt32) (tx : Transaction) : Placed → Nat :=
  fun placed => occurrences ((utxosOf crypto height tx).map Prod.fst) placed.1

/-- The inputs of a transaction that takes outputs off the table can be read, and
their entries are not of the given height. -/
def RestoresAll (crypto : Primitives) (store : ChainStore) (height : UInt32) (tx : Transaction) :
    Prop :=
  ¬ (tx.txType = .registerAsset ∨ tx.isCoinBaseTx) → ∀ input ∈ tx.utxoInputs,
    ∃ placed, store.place input.toOutpoint = some placed ∧ Reads crypto store input placed ∧
      UnspentKey.height placed.1 ≠ height

theorem rollbackUTXOsTx_account (restores : RestoresAll crypto store height tx)
    (enough : keysOf crypto height tx ≤ remaining height (readThrough overlay store.unspentUTXO)) :
    ∃ overlay', store.rollbackUTXOsTx crypto height overlay tx = pure overlay' ∧
      remaining height (readThrough overlay' store.unspentUTXO) + keysOf crypto height tx =
        remaining height (readThrough overlay store.unspentUTXO) +
          occurrences (placesOf store tx) := by
  by_cases registration : tx.txType = .registerAsset
  · refine ⟨overlay, if_pos registration, ?_⟩
    have nothing : keysOf crypto height tx = 0 := by
      funext placed
      simp [keysOf, utxosOf, registration]
    simp [nothing, placesOf, consumedBy, registration]
  have removed : keysOf crypto height tx = (tx.outputs.zipIdx.map fun indexed =>
      (fun placed : Placed => occurrences [(utxo crypto height tx indexed).1] placed.1)).sum := by
    rw [sum_occurrences_view Prod.fst, ← List.map_eq_flatMap]
    funext placed
    rw [keysOf, utxosOf, if_neg registration, List.map_map]
    rfl
  rw [removed] at enough ⊢
  obtain ⟨middle, folded, account⟩ := foldlM_account
    (fun overlay => remaining height (readThrough overlay store.unspentUTXO)) (fun _ => 0)
    (fun indexed (placed : Placed) => occurrences [(utxo crypto height tx indexed).1] placed.1)
    (fun indexed _ overlay => removeUTXO_account) overlay enough
  rw [List.map_const', List.sum_replicate, nsmul_zero, add_zero] at account
  by_cases coinbase : tx.isCoinBaseTx
  · refine ⟨middle, ?_, ?_⟩
    · simpa [ChainStore.rollbackUTXOsTx, registration, coinbase] using folded
    · simp [placesOf, consumedBy, coinbase, account]
  have isRegular : ¬ (tx.txType = .registerAsset ∨ tx.isCoinBaseTx) :=
    not_or.mpr ⟨registration, coinbase⟩
  obtain ⟨overlay', folded', account'⟩ := foldlM_account
    (fun overlay => remaining height (readThrough overlay store.unspentUTXO))
    (fun input : UTXOTxInput => occurrences (store.place input.toOutpoint).toList) (fun _ => 0)
    (fun input member overlay _ => by
      obtain ⟨placed, place, read, earlier⟩ := restores isRegular input member
      rw [place]
      exact restoreUTXO_account read earlier) middle (by simp)
  rw [List.map_const', List.sum_replicate, nsmul_zero, add_zero, sum_places] at account'
  refine ⟨overlay', ?_, ?_⟩
  · simp only [ChainStore.rollbackUTXOsTx, registration, coinbase, folded]
    simpa using folded'
  · rw [placesOf, consumedBy, if_neg isRegular, Transaction.outpoints, account', add_right_comm,
      account]

theorem of_mem_utxosOf (member : placed ∈ utxosOf crypto height tx) :
    UnspentKey.height placed.1 = height ∧ placed.2.txid = tx.hash crypto := by
  unfold utxosOf at member
  split at member
  · simp at member
  · obtain ⟨indexed, -, rfl⟩ := List.mem_map.mp member
    exact ⟨rfl, rfl⟩

theorem height_of_mem_placesOf (restores : RestoresAll crypto store height tx)
    (member : placed ∈ placesOf store tx) : UnspentKey.height placed.1 ≠ height := by
  unfold placesOf consumedBy at member
  split at member
  · simp at member
  · next isRegular =>
    obtain ⟨outpoint, consumed, found⟩ := List.mem_flatMap.mp member
    obtain ⟨input, inputMember, rfl⟩ := List.mem_map.mp consumed
    obtain ⟨other, place, -, earlier⟩ := restores isRegular input inputMember
    rw [place, Option.toList_some, List.mem_singleton] at found
    exact found ▸ earlier

/-- The part of a batch for the table, taken back: the lists of the height of the
block, which hold its own outputs, become empty. -/
theorem rollbackUTXOs_account {block : Block}
    (restores : ∀ tx ∈ block.transactions,
      RestoresAll crypto store block.blockdata.height tx)
    (own : ∀ placed : Placed, UnspentKey.height placed.1 = block.blockdata.height →
      listed store.unspentUTXO placed =
        occurrences (block.transactions.flatMap (utxosOf crypto block.blockdata.height)) placed) :
    ∃ overlay, block.transactions.foldlM (store.rollbackUTXOsTx crypto block.blockdata.height)
        (fun _ => none) = .ok overlay ∧
      ∀ placed : Placed, listed (writeLists store.unspentUTXO overlay) placed =
        if UnspentKey.height placed.1 = block.blockdata.height then 0
        else listed store.unspentUTXO placed +
          occurrences (block.transactions.flatMap (placesOf store)) placed := by
  have keys : (block.transactions.map (keysOf crypto block.blockdata.height)).sum =
      fun placed => occurrences ((block.transactions.flatMap
        (utxosOf crypto block.blockdata.height)).map Prod.fst) placed.1 := by
    rw [List.map_flatMap]
    exact sum_occurrences_view Prod.fst block.transactions fun tx =>
      (utxosOf crypto block.blockdata.height tx).map Prod.fst
  have counted : ∀ placed : Placed, UnspentKey.height placed.1 = block.blockdata.height →
      (itemsOf store.unspentUTXO placed.1).length = occurrences ((block.transactions.flatMap
        (utxosOf crypto block.blockdata.height)).map Prod.fst) placed.1 :=
    fun placed isOwn => length_itemsOf_of_listed fun item => own (placed.1, item) isOwn
  have elsewhere : ∀ placed : Placed, UnspentKey.height placed.1 ≠ block.blockdata.height →
      occurrences ((block.transactions.flatMap
        (utxosOf crypto block.blockdata.height)).map Prod.fst) placed.1 = 0 := by
    intro placed other
    refine occurrences_eq_zero fun member => ?_
    obtain ⟨found, isFound, same⟩ := List.mem_map.mp member
    obtain ⟨tx, -, created⟩ := List.mem_flatMap.mp isFound
    exact other (same ▸ (of_mem_utxosOf created).1)
  obtain ⟨overlay, folded, account⟩ := foldlM_account
    (fun overlay => remaining block.blockdata.height (readThrough overlay store.unspentUTXO))
    (fun tx => occurrences (placesOf store tx)) (keysOf crypto block.blockdata.height)
    (fun tx member overlay => rollbackUTXOsTx_account (restores tx member)) (fun _ => none) <| by
      rw [keys]
      intro placed
      change _ ≤ remaining _ store.unspentUTXO placed
      unfold remaining
      split
      · next isOwn => exact (counted placed isOwn).ge
      · next other => exact (elsewhere placed other).le.trans (Nat.zero_le _)
  refine ⟨overlay, folded, fun placed => ?_⟩
  have here := congrFun account placed
  rw [keys, sum_occurrences] at here
  simp only [Pi.add_apply, remaining] at here
  rw [listed_writeLists]
  split
  · next isOwn =>
    have notConsumed : occurrences (block.transactions.flatMap (placesOf store)) placed = 0 := by
      refine occurrences_eq_zero fun member => ?_
      obtain ⟨tx, txMember, found⟩ := List.mem_flatMap.mp member
      exact height_of_mem_placesOf (restores tx txMember) found isOwn
    have start : (itemsOf (readThrough (fun _ => none) store.unspentUTXO) placed.1).length =
        _ := counted placed isOwn
    rw [if_pos isOwn, if_pos isOwn, notConsumed, start] at here
    have empty : itemsOf (readThrough overlay store.unspentUTXO) placed.1 = [] :=
      List.length_eq_zero_iff.mp (by omega)
    simp [listed, empty]
  · next other =>
    rw [if_neg other, if_neg other, elsewhere placed other] at here
    exact here

end Batch

end DnaPow.Ledger
