import DnaPow.Ledger.UnspentUTXO

/-!
# The two indexes of unspent outputs

The tables of unspent outputs by transaction and by program list the same outputs,
each once. A block that passes the context checks and consumes no outpoint twice
changes both tables in the same way, and taking it back restores them.
-/

namespace DnaPow.Ledger

open DnaPow.Std Common Core

/-! ## The invariant -/

/-- Both tables list exactly the given outputs, each once, and stored transactions
are found under their own hash. -/
structure Indexed (crypto : Primitives) (live : Outpoint → Prop) (store : ChainStore) : Prop where
  unspent_nodup : ∀ txid, (itemsOf store.unspent txid).Nodup
  unspent_mem : ∀ outpoint : Outpoint,
    outpoint.referTxOutputIndex ∈ itemsOf store.unspent outpoint.referTxID ↔ live outpoint
  utxo_nodup : ∀ key, (itemsOf store.unspentUTXO key).Nodup
  utxo_mem : ∀ key entry, entry ∈ itemsOf store.unspentUTXO key ↔
    ∃ outpoint, live outpoint ∧ store.place outpoint = some (key, entry)
  placed : ∀ outpoint, live outpoint → ∃ placed, store.place outpoint = some placed
  keyed : ∀ hash tx height, store.transaction hash = some (tx, height) → tx.hash crypto = hash

section Place

variable {store : ChainStore} {outpoint other : Outpoint} {placed : Placed}

theorem ChainStore.place_eq_some : store.place outpoint = some placed ↔
    ∃ tx height output, store.transaction outpoint.referTxID = some (tx, height) ∧
      tx.outputs[outpoint.referTxOutputIndex.toNat]? = some output ∧
      placed = ((output.programHash, output.assetID, height),
        ⟨outpoint.referTxID, outpoint.referTxOutputIndex.toUInt32, output.value⟩) := by
  simp only [ChainStore.place, Option.bind_eq_bind, Option.bind_eq_some_iff, Option.pure_def,
    Option.some_inj, Prod.exists, eq_comm (a := placed)]
  constructor
  · rintro ⟨tx, height, stored, output, isOutput, same⟩
    exact ⟨tx, height, output, stored, isOutput, same⟩
  · rintro ⟨tx, height, output, stored, isOutput, same⟩
    exact ⟨tx, height, stored, output, isOutput, same⟩

theorem ChainStore.transaction_of_getTransaction {hash : Uint256} {tx : Transaction}
    {height : UInt32} (read : store.getTransaction hash = .ok (tx, height)) :
    store.transaction hash = some (tx, height) := by
  unfold ChainStore.getTransaction at read
  split at read
  · cases read
  · next stored =>
    split at read
    · cases read
    · obtain ⟨⟩ := Outcome.ok.inj read
      exact stored

/-- An entry names its outpoint. -/
theorem ChainStore.place_injective (place : store.place outpoint = some placed)
    {entry : UTXOUnspent} {key : UnspentKey} (place' : store.place other = some (key, entry))
    (sameTx : entry.txid = placed.2.txid) (sameIndex : entry.index = placed.2.index) :
    other = outpoint := by
  obtain ⟨_, _, _, -, -, rfl⟩ := place_eq_some.mp place
  obtain ⟨_, _, _, -, -, same⟩ := place_eq_some.mp place'
  obtain rfl := congrArg Prod.snd same
  exact Outpoint.ext sameTx (UInt16.toUInt32_inj.mp sameIndex)

end Place

/-! ## A block on top of the store -/

/-- A block that passes the context checks on a store, at a height of its own,
and consumes no outpoint twice. -/
structure Fits (env : Env) (store : ChainStore) (block : Block) : Prop where
  checked : checkTransactionsContext env store block.transactions = .ok ()
  spentOnce : (block.transactions.flatMap consumedBy).Nodup
  height : ∀ hash tx height, store.transaction hash = some (tx, height) →
    height ≠ block.blockdata.height

section Connect

variable {env : Env} {live : Outpoint → Prop} {store : ChainStore} {block : Block}

/-- What a checked transaction reads of an input. -/
theorem reads_of_checked (keyed : ∀ hash tx height, store.transaction hash = some (tx, height) →
      tx.hash env.crypto = hash) {tx : Transaction}
    (checked : checkTransactionContext env store tx = .ok ()) (regular : tx.isCoinBaseTx = false)
    {input : UTXOTxInput} (member : input ∈ tx.utxoInputs) :
    ∃ placed, store.place input.toOutpoint = some placed ∧ Reads env.crypto store input placed := by
  have passed := ((checkTransactionContext_eq_ok.mp checked).2 regular).2 input member
  obtain ⟨referTxn, height, output, read, isOutput, -⟩ := checkInputContext_eq_ok.mp passed
  have stored := ChainStore.transaction_of_getTransaction read
  refine ⟨_, ChainStore.place_eq_some.mpr ⟨referTxn, height, output, stored, isOutput, rfl⟩,
    referTxn, output, height, ?_, ?_⟩
  · simp [ChainStore.referredOutput, read, isOutput]
  · rw [keyed _ _ _ stored]

theorem mem_consumedBy {tx : Transaction} {outpoint : Outpoint} :
    outpoint ∈ consumedBy tx ↔ tx.txType ≠ .registerAsset ∧ tx.isCoinBaseTx = false ∧
      ∃ input ∈ tx.utxoInputs, input.toOutpoint = outpoint := by
  unfold consumedBy Transaction.outpoints
  split
  · next ignored =>
    simp only [List.not_mem_nil, false_iff, not_and]
    intro notRegistration notCoinbase
    rcases ignored with registration | coinbase
    · exact absurd registration notRegistration
    · simp [coinbase] at notCoinbase
  · next isRegular =>
    obtain ⟨notRegistration, notCoinbase⟩ := not_or.mp isRegular
    simp [notRegistration, notCoinbase]

theorem flatMap_placesOf (txs : List Transaction) :
    txs.flatMap (placesOf store) = (txs.flatMap consumedBy).filterMap store.place := by
  rw [List.filterMap_eq_flatMap_toList, List.flatMap_assoc]
  rfl

variable (indexed : Indexed env.crypto live store) (fits : Fits env store block)
include indexed fits

variable {outpoint : Outpoint}

/-- The inputs of a checked block consume listed outputs. -/
theorem Indexed.consumed_live (consumed : outpoint ∈ block.transactions.flatMap consumedBy)
    : live outpoint := by
  obtain ⟨tx, member, consumed⟩ := List.mem_flatMap.mp consumed
  obtain ⟨-, regular, input, inputMember, rfl⟩ := mem_consumedBy.mp consumed
  have passed := checkTransactionsContext_eq_ok.mp fits.checked tx member
  have single := ((checkTransactionContext_eq_ok.mp passed).2 regular).1
  have found := List.any_eq_false.mp single input inputMember
  refine (indexed.unspent_mem _).mp ?_
  cases stored : store.unspent input.referTxID with
  | none => simp [stored] at found
  | some indexes => simpa [itemsOf, stored] using found

theorem Indexed.not_live_of_tx {tx : Transaction} (member : tx ∈ block.transactions)
    (sameHash : tx.hash env.crypto = outpoint.referTxID) :
    ¬ live outpoint := by
  intro isLive
  obtain ⟨placed, place⟩ := indexed.placed _ isLive
  obtain ⟨_, _, _, stored, -⟩ := ChainStore.place_eq_some.mp place
  have passed := checkTransactionsContext_eq_ok.mp fits.checked tx member
  rw [← sameHash, transaction_eq_none_of_checked passed] at stored
  cases stored

theorem Indexed.referTxID_not_mem (isLive : live outpoint) :
    outpoint.referTxID ∉ block.txHashes env.crypto := by
  intro found
  obtain ⟨tx, member, same⟩ := List.mem_map.mp found
  exact indexed.not_live_of_tx fits member same isLive

theorem Indexed.persistUnspend_account :
    unspentAccount (store.persistUnspend env.crypto block) +
        occurrences (block.transactions.flatMap consumedBy) =
      unspentAccount store.unspent +
        occurrences (block.transactions.flatMap (createdBy env.crypto)) := by
  refine Ledger.persistUnspend_account (fun tx member => ?_) ?_
  · refine List.eq_nil_iff_forall_not_mem.mpr fun index found => ?_
    exact indexed.not_live_of_tx fits member rfl
      ((indexed.unspent_mem ⟨tx.hash env.crypto, index⟩).mp found)
  · refine occurrences_le_of_subset fits.spentOnce fun outpoint consumed => ?_
    exact unspentAccount_pos.mpr
      ((indexed.unspent_mem outpoint).mpr (indexed.consumed_live fits consumed))

omit indexed fits in
/-- Every entry that an input of the block consumes is that of one of its outpoints. -/
theorem mem_places {placed : Placed}
    (member : placed ∈ block.transactions.flatMap (placesOf store)) :
    ∃ outpoint ∈ block.transactions.flatMap consumedBy, store.place outpoint = some placed := by
  rw [flatMap_placesOf] at member
  exact List.mem_filterMap.mp member

omit indexed in
theorem places_nodup : (block.transactions.flatMap (placesOf store)).Nodup := by
  rw [flatMap_placesOf]
  refine fits.spentOnce.filterMap fun outpoint other placed place place' => ?_
  exact (ChainStore.place_injective place place' rfl rfl).symm

/-- The entries in the table, and those that the block adds, are told apart by
transaction and index. -/
theorem Indexed.readsAll {tx : Transaction} (member : tx ∈ block.transactions) :
    ReadsAll env.crypto store (fun placed =>
      0 < listed store.unspentUTXO placed ∨ placed.2.txid ∈ block.txHashes env.crypto) tx := by
  intro isRegular input inputMember
  obtain ⟨notRegistration, notCoinbase⟩ := not_or.mp isRegular
  have regular : tx.isCoinBaseTx = false := by simpa using notCoinbase
  have passed := checkTransactionsContext_eq_ok.mp fits.checked tx member
  obtain ⟨placed, place, reads⟩ := reads_of_checked indexed.keyed passed regular inputMember
  refine ⟨placed, place, reads, fun entry valid sameTx sameIndex => ?_⟩
  rcases valid with isListed | isNew
  · obtain ⟨other, -, place'⟩ := (indexed.utxo_mem _ _).mp (listed_pos.mp isListed)
    obtain rfl := ChainStore.place_injective place place' sameTx sameIndex
    exact congrArg Prod.snd (Option.some.inj (place'.symm.trans place))
  · obtain ⟨_, _, _, -, -, rfl⟩ := ChainStore.place_eq_some.mp place
    have isLive : live input.toOutpoint := indexed.consumed_live fits <|
      List.mem_flatMap.mpr ⟨tx, member, mem_consumedBy.mpr
        ⟨notRegistration, regular, input, inputMember, rfl⟩⟩
    have sameTx : entry.txid = input.referTxID := sameTx
    exact absurd (sameTx ▸ isNew) (indexed.referTxID_not_mem fits isLive)

theorem Indexed.persistUTXOs_account :
    ∃ overlay, block.transactions.foldlM (store.persistUTXOsTx env.crypto block.blockdata.height)
        (fun _ => none) = .ok overlay ∧
      Accounted env.crypto block store (writeLists store.unspentUTXO overlay) := by
  refine Ledger.persistUTXOs_account (fun tx => indexed.readsAll fits) (fun placed created => ?_)
    (fun placed => .inl) ?_
  · obtain ⟨tx, member, created⟩ := List.mem_flatMap.mp created
    exact .inr ((of_mem_utxosOf created).2 ▸ List.mem_map_of_mem member)
  · refine occurrences_le_of_subset (places_nodup fits) fun placed member => ?_
    obtain ⟨outpoint, consumed, place⟩ := mem_places member
    exact listed_pos.mpr ((indexed.utxo_mem _ _).mpr
      ⟨outpoint, indexed.consumed_live fits consumed, place⟩)

/-- The block can be persisted. -/
theorem Indexed.persistBlocks_eq_ok {ε : Type} :
    ∃ after, store.persistBlocks (ε := ε) env.crypto block = .ok after ∧
      Accounted env.crypto block store after.unspentUTXO := by
  obtain ⟨overlay, folded, account⟩ := indexed.persistUTXOs_account fits
  obtain ⟨after, call, written⟩ : ∃ after, store.persistBlocks (ε := ε) env.crypto block =
      .ok after ∧ after.unspentUTXO = writeLists store.unspentUTXO overlay := by
    simp [ChainStore.persistBlocks, ChainStore.persist, folded, ChainStore.writeUTXOs]
  exact ⟨after, call, written ▸ account⟩

end Connect

/-! ## Taking the block back -/

section Disconnect

variable {env : Env} {store : ChainStore} {block : Block}

/-- A block whose inputs refer to readable transactions of other heights, on a
store in which the lists of its height hold its own outputs. -/
structure Removable (crypto : Primitives) (store : ChainStore) (block : Block) : Prop where
  restores : ∀ tx ∈ block.transactions, RestoresAll crypto store block.blockdata.height tx
  own : ∀ placed : Placed, UnspentKey.height placed.1 = block.blockdata.height →
    listed store.unspentUTXO placed =
      occurrences (block.transactions.flatMap (utxosOf crypto block.blockdata.height)) placed
  apart : ∀ outpoint ∈ block.transactions.flatMap consumedBy,
    outpoint.referTxID ∉ block.txHashes crypto

/-- What taking a block back leaves in the two tables. -/
structure TakenBack (crypto : Primitives) (block : Block) (before after : ChainStore) : Prop where
  unspent : ∀ outpoint, unspentAccount after.unspent outpoint =
    if ∃ tx ∈ block.transactions, tx.txType ≠ .registerAsset ∧
      tx.hash crypto = outpoint.referTxID then 0
    else unspentAccount before.unspent outpoint +
      occurrences (block.transactions.flatMap consumedBy) outpoint
  unspentUTXO : ∀ placed : Placed, listed after.unspentUTXO placed =
    if UnspentKey.height placed.1 = block.blockdata.height then 0
    else listed before.unspentUTXO placed +
      occurrences (block.transactions.flatMap (placesOf before)) placed

theorem Removable.rollback_eq_ok {crypto : Primitives} {ε : Type}
    (removable : Removable crypto store block) :
    ∃ after, store.rollback (ε := ε) crypto block = .ok after ∧
      TakenBack crypto block store after := by
  obtain ⟨overlay, folded, account⟩ := rollbackUTXOs_account removable.restores removable.own
  obtain ⟨after, call, unspent, written⟩ : ∃ after, store.rollback (ε := ε) crypto block =
      .ok after ∧ after.unspent = store.rollbackUnspend crypto block ∧
        after.unspentUTXO = writeLists store.unspentUTXO overlay := by
    simp [ChainStore.rollback, folded, ChainStore.writeUTXOs]
  exact ⟨after, call, fun outpoint => unspent ▸ rollbackUnspend_account removable.apart outpoint,
    written ▸ account⟩

end Disconnect

/-! ## Lists that become empty -/

/-- No key of an index has an empty list. -/
structure NoEmptyList (store : ChainStore) : Prop where
  unspent : ∀ txid, store.unspent txid ≠ some []
  unspentUTXO : ∀ key, store.unspentUTXO key ≠ some []

section NoEmptyList

variable {ε : Type} {crypto : Primitives} {store after : ChainStore} {block : Block}

theorem writeUTXOs_ne_nil (nonempty : ∀ key, store.unspentUTXO key ≠ some [])
    {folded : Outcome StoreError ChainStore.UTXOOverlay} {table : ChainStore.UTXOOverlay}
    (written : store.writeUTXOs (ε := ε) folded = .ok table) (key : UnspentKey) :
    table key ≠ some [] := by
  cases folded with
  | ok overlay =>
    obtain rfl := Outcome.ok.inj written
    exact writeLists_ne_nil nonempty key
  | error reason =>
    obtain rfl := Outcome.ok.inj written
    exact nonempty key
  | panic => cases written

theorem NoEmptyList.persistBlocks (noEmptyList : NoEmptyList store)
    (call : store.persistBlocks (ε := ε) crypto block = .ok after) : NoEmptyList after := by
  simp only [ChainStore.persistBlocks, ChainStore.persist, Outcome.bind_eq_ok, Outcome.pure_eq,
    Outcome.ok.injEq] at call
  obtain ⟨_, ⟨table, written, rfl⟩, rfl⟩ := call
  refine ⟨fun txid => ?_, writeUTXOs_ne_nil noEmptyList.unspentUTXO written⟩
  change store.persistUnspend crypto block txid ≠ some []
  unfold ChainStore.persistUnspend
  cases block.transactions.foldlM (store.persistUnspendTx crypto) fun _ => none with
  | none => exact noEmptyList.unspent txid
  | some overlay => exact writeLists_ne_nil noEmptyList.unspent txid

theorem NoEmptyList.rollback (noEmptyList : NoEmptyList store)
    (call : store.rollback (ε := ε) crypto block = .ok after) : NoEmptyList after := by
  simp only [ChainStore.rollback, Outcome.bind_eq_ok, Outcome.pure_eq, Outcome.ok.injEq] at call
  obtain ⟨table, written, rfl⟩ := call
  refine ⟨writeLists_ne_nil fun txid => ?_, writeUTXOs_ne_nil noEmptyList.unspentUTXO written⟩
  split
  · simp
  · exact noEmptyList.unspent txid

end NoEmptyList

/-! ## A block just persisted -/

section JustPersisted

variable {env : Env} {live : Outpoint → Prop} {store after : ChainStore} {block : Block}
  {placed : Placed}

theorem Persisted.transaction_eq {crypto : Primitives} (persisted : Persisted crypto block store after)
    {hash : Uint256} (other : hash ∉ block.txHashes crypto) :
    after.transaction hash = store.transaction hash := by
  rw [persisted.transaction]
  exact foldl_write_of_not_mem other

theorem ChainStore.place_congr {outpoint : Outpoint}
    (same : after.transaction outpoint.referTxID = store.transaction outpoint.referTxID) :
    after.place outpoint = store.place outpoint := by
  rw [ChainStore.place, ChainStore.place, same]

theorem Reads.congr {crypto : Primitives} {input : UTXOTxInput}
    (same : after.transaction input.referTxID = store.transaction input.referTxID)
    (reads : Reads crypto store input placed) : Reads crypto after input placed := by
  have sameRead : after.getTransaction input.referTxID = store.getTransaction input.referTxID := by
    rw [ChainStore.getTransaction, ChainStore.getTransaction, same]
  obtain ⟨referTxn, output, height, read, isPlaced⟩ := reads
  refine ⟨referTxn, output, height, ?_, isPlaced⟩
  rwa [ChainStore.referredOutput, sameRead]

/-- No entry of the store has the height of the block. -/
theorem Fits.height_ne (fits : Fits env store block) {outpoint : Outpoint}
    (place : store.place outpoint = some placed) :
    UnspentKey.height placed.1 ≠ block.blockdata.height := by
  obtain ⟨_, _, _, stored, -, rfl⟩ := ChainStore.place_eq_some.mp place
  exact fits.height _ _ _ stored

theorem Indexed.listed_own_eq_zero (indexed : Indexed env.crypto live store)
    (fits : Fits env store block) (isOwn : UnspentKey.height placed.1 = block.blockdata.height) :
    listed store.unspentUTXO placed = 0 := by
  refine Nat.eq_zero_of_not_pos fun positive => ?_
  obtain ⟨outpoint, -, place⟩ := (indexed.utxo_mem _ _).mp (listed_pos.mp positive)
  exact fits.height_ne place isOwn

/-- The outputs that the block consumes are found as before. -/
theorem Indexed.placesOf_eq (indexed : Indexed env.crypto live store)
    (fits : Fits env store block) (persisted : Persisted env.crypto block store after) :
    block.transactions.flatMap (placesOf after) = block.transactions.flatMap (placesOf store) := by
  rw [flatMap_placesOf, flatMap_placesOf]
  refine List.filterMap_congr fun outpoint consumed => ?_
  have isLive := indexed.consumed_live fits consumed
  rw [ChainStore.place_congr (persisted.transaction_eq (indexed.referTxID_not_mem fits isLive))]

/-- A block just persisted can be taken back. -/
theorem Indexed.removable (indexed : Indexed env.crypto live store) (fits : Fits env store block)
    (persisted : Persisted env.crypto block store after)
    (account : Accounted env.crypto block store after.unspentUTXO) :
    Removable env.crypto after block where
  restores := by
    intro tx member isRegular input inputMember
    obtain ⟨placed, place, reads, -⟩ := indexed.readsAll fits member isRegular input inputMember
    obtain ⟨notRegistration, notCoinbase⟩ := not_or.mp isRegular
    have isLive : live input.toOutpoint := indexed.consumed_live fits <|
      List.mem_flatMap.mpr ⟨tx, member, mem_consumedBy.mpr
        ⟨notRegistration, by simpa using notCoinbase, input, inputMember, rfl⟩⟩
    have same := persisted.transaction_eq (indexed.referTxID_not_mem fits isLive)
    exact ⟨placed, (ChainStore.place_congr same).trans place, reads.congr same,
      fits.height_ne place⟩
  own := by
    intro placed isOwn
    have notConsumed : occurrences (block.transactions.flatMap (placesOf store)) placed = 0 := by
      refine occurrences_eq_zero fun member => ?_
      obtain ⟨outpoint, -, place⟩ := mem_places member
      exact fits.height_ne place isOwn
    have notListed := indexed.listed_own_eq_zero fits isOwn
    have here := congrFun account placed
    simpa only [Pi.add_apply, notConsumed, notListed, Nat.add_zero, Nat.zero_add] using here
  apart := fun outpoint consumed =>
    indexed.referTxID_not_mem fits (indexed.consumed_live fits consumed)

end JustPersisted

/-! ## What a step leaves listed -/

section Steps

variable {env : Env} {live : Outpoint → Prop} {store after : ChainStore} {block : Block}
  {crypto : Primitives}

theorem place_inj {outpoint other : Outpoint} {placed : Placed}
    (place : store.place outpoint = some placed) (place' : store.place other = some placed) :
    outpoint = other :=
  ChainStore.place_injective place' place rfl rfl

/-- An index invariant from the accounts of the two tables. -/
theorem Indexed.of_accounts
    (once : ∀ outpoint, unspentAccount store.unspent outpoint ≤ 1)
    (positive : ∀ outpoint, 0 < unspentAccount store.unspent outpoint ↔ live outpoint)
    (agree : ∀ outpoint placed, store.place outpoint = some placed →
      listed store.unspentUTXO placed = unspentAccount store.unspent outpoint)
    (known : ∀ placed, 0 < listed store.unspentUTXO placed →
      ∃ outpoint, store.place outpoint = some placed)
    (placed : ∀ outpoint, live outpoint → ∃ placed, store.place outpoint = some placed)
    (keyed : ∀ hash tx height, store.transaction hash = some (tx, height) → tx.hash crypto = hash) :
    Indexed crypto live store where
  unspent_nodup txid := List.nodup_iff_count_le_one.mpr fun index => once ⟨txid, index⟩
  unspent_mem outpoint := unspentAccount_pos.symm.trans (positive outpoint)
  utxo_nodup key := by
    refine List.nodup_iff_count_le_one.mpr fun entry => ?_
    change listed store.unspentUTXO (key, entry) ≤ 1
    rcases Nat.eq_zero_or_pos (listed store.unspentUTXO (key, entry)) with none | some
    · omega
    · obtain ⟨outpoint, place⟩ := known _ some
      exact agree _ _ place ▸ once outpoint
  utxo_mem key entry := by
    rw [← listed_pos]
    constructor
    · intro isListed
      obtain ⟨outpoint, place⟩ := known _ isListed
      exact ⟨outpoint, (positive outpoint).mp (agree _ _ place ▸ isListed), place⟩
    · rintro ⟨outpoint, isLive, place⟩
      exact agree _ _ place ▸ (positive outpoint).mpr isLive
  placed := placed
  keyed := keyed

theorem Indexed.once (indexed : Indexed crypto live store)
    (outpoint : Outpoint) : unspentAccount store.unspent outpoint ≤ 1 :=
  List.nodup_iff_count_le_one.mp (indexed.unspent_nodup outpoint.referTxID) _

theorem Indexed.positive (indexed : Indexed crypto live store)
    (outpoint : Outpoint) : 0 < unspentAccount store.unspent outpoint ↔ live outpoint :=
  unspentAccount_pos.trans (indexed.unspent_mem outpoint)

/-- The table by program has each output as often as the table by transaction. -/
theorem Indexed.agree (indexed : Indexed crypto live store)
    {outpoint : Outpoint} {placed : Placed} (place : store.place outpoint = some placed) :
    listed store.unspentUTXO placed = unspentAccount store.unspent outpoint := by
  have once : listed store.unspentUTXO placed ≤ 1 :=
    List.nodup_iff_count_le_one.mp (indexed.utxo_nodup placed.1) _
  have once' := indexed.once outpoint
  have positive : 0 < listed store.unspentUTXO placed ↔ live outpoint := by
    refine (listed_pos.trans (indexed.utxo_mem _ _)).trans ⟨?_, fun isLive => ⟨_, isLive, place⟩⟩
    rintro ⟨other, isLive, place'⟩
    exact place_inj place place' ▸ isLive
  have positive' := indexed.positive outpoint
  have same := positive.trans positive'.symm
  omega

/-- The tables after a block whose outputs have distinct entries. -/
theorem Indexed.connect (indexed : Indexed env.crypto live store) (fits : Fits env store block)
    (persisted : Persisted env.crypto block store after)
    (account : Accounted env.crypto block store after.unspentUTXO)
    (createdOnce : (block.transactions.flatMap (createdBy env.crypto)).Nodup)
    (createdPlaced : ∀ outpoint ∈ block.transactions.flatMap (createdBy env.crypto),
      ∃ placed, after.place outpoint = some placed)
    (utxos : block.transactions.flatMap (utxosOf env.crypto block.blockdata.height) =
      (block.transactions.flatMap (createdBy env.crypto)).filterMap after.place)
    (keyed : ∀ hash tx height, after.transaction hash = some (tx, height) →
      tx.hash env.crypto = hash) :
    Indexed env.crypto (fun outpoint =>
      (live outpoint ∨ outpoint ∈ block.transactions.flatMap (createdBy env.crypto)) ∧
        outpoint ∉ block.transactions.flatMap consumedBy) after := by
  have same {outpoint : Outpoint} (isLive : live outpoint) :
      after.place outpoint = store.place outpoint :=
    ChainStore.place_congr (persisted.transaction_eq (indexed.referTxID_not_mem fits isLive))
  have unspent := indexed.persistUnspend_account fits
  rw [← persisted.unspent] at unspent
  have step (outpoint : Outpoint) := congrFun unspent outpoint
  simp only [Pi.add_apply] at step
  have createdNew (outpoint : Outpoint)
      (created : outpoint ∈ block.transactions.flatMap (createdBy env.crypto)) :
      ¬ live outpoint := by
    obtain ⟨tx, member, created⟩ := List.mem_flatMap.mp created
    obtain ⟨-, sameHash, -⟩ := mem_createdBy.mp created
    exact indexed.not_live_of_tx fits member sameHash
  have facts (outpoint : Outpoint) :
      unspentAccount after.unspent outpoint ≤ 1 ∧ (0 < unspentAccount after.unspent outpoint ↔
        (live outpoint ∨ outpoint ∈ block.transactions.flatMap (createdBy env.crypto)) ∧
          outpoint ∉ block.transactions.flatMap consumedBy) := by
    have once := indexed.once outpoint
    have createdAtMost := occurrences_le_one.mp createdOnce outpoint
    have consumedAtMost := occurrences_le_one.mp fits.spentOnce outpoint
    have consumedLive : outpoint ∈ block.transactions.flatMap consumedBy → live outpoint :=
      indexed.consumed_live fits
    have created := createdNew outpoint
    rw [← occurrences_pos, ← indexed.positive] at created consumedLive
    rw [← occurrences_pos, ← occurrences_pos, ← indexed.positive]
    have := step outpoint
    omega
  have known (placed : Placed) (positive : 0 < listed after.unspentUTXO placed) :
      ∃ outpoint, after.place outpoint = some placed := by
    have here := congrFun account placed
    simp only [Pi.add_apply] at here
    rcases Nat.eq_zero_or_pos (listed store.unspentUTXO placed) with none | some
    · have added : placed ∈ block.transactions.flatMap
          (utxosOf env.crypto block.blockdata.height) := occurrences_pos.mp (by omega)
      rw [utxos] at added
      obtain ⟨outpoint, -, place⟩ := List.mem_filterMap.mp added
      exact ⟨outpoint, place⟩
    · obtain ⟨outpoint, isLive, place⟩ := (indexed.utxo_mem _ _).mp (listed_pos.mp some)
      exact ⟨outpoint, (same isLive).trans place⟩
  refine Indexed.of_accounts (fun outpoint => (facts outpoint).1)
    (fun outpoint => (facts outpoint).2) (fun outpoint placed place => ?_) known ?_ keyed
  · have here := congrFun account placed
    rw [← indexed.placesOf_eq fits persisted, flatMap_placesOf, utxos, Pi.add_apply, Pi.add_apply,
      occurrences_filterMap (fun _ _ _ => place_inj) place,
      occurrences_filterMap (fun _ _ _ => place_inj) place] at here
    have before : listed store.unspentUTXO placed = unspentAccount store.unspent outpoint := by
      by_cases isLive : live outpoint
      · exact indexed.agree ((same isLive).symm.trans place)
      · have notUnspent : ¬ 0 < unspentAccount store.unspent outpoint :=
          mt (indexed.positive outpoint).mp isLive
        have notListed : ¬ 0 < listed store.unspentUTXO placed := by
          intro positive
          obtain ⟨other, isLive', place'⟩ := (indexed.utxo_mem _ _).mp (listed_pos.mp positive)
          exact isLive (place_inj ((same isLive').trans place') place ▸ isLive')
        omega
    have := step outpoint
    omega
  · rintro outpoint ⟨isLive | created, -⟩
    · obtain ⟨placed, place⟩ := indexed.placed outpoint isLive
      exact ⟨placed, (same isLive).trans place⟩
    · exact createdPlaced outpoint created

theorem RolledBack.transaction_eq (rolledBack : RolledBack crypto block store after)
    (hash : Uint256) :
    after.transaction hash =
      if hash ∈ block.txHashes crypto then none else store.transaction hash := by
  rw [rolledBack.transaction]
  split
  · next written => exact foldl_write_of_mem written fun _ _ _ => rfl
  · next other => exact foldl_write_of_not_mem other

/-- The tables after a block is taken back that lies on top of its store: its
transactions, and no others, are stored with its height. -/
theorem Indexed.disconnect (indexed : Indexed crypto live store)
    (removable : Removable crypto store block) (takenBack : TakenBack crypto block store after)
    (rolledBack : RolledBack crypto block store after)
    (consumedOnce : (block.transactions.flatMap consumedBy).Nodup)
    (consumedGone : ∀ outpoint ∈ block.transactions.flatMap consumedBy, ¬ live outpoint)
    (onTop : ∀ hash tx height, store.transaction hash = some (tx, height) →
      (height = block.blockdata.height ↔ hash ∈ block.txHashes crypto))
    (ownCreated : ∀ outpoint, live outpoint → outpoint.referTxID ∈ block.txHashes crypto →
      ∃ tx ∈ block.transactions, tx.txType ≠ .registerAsset ∧
        tx.hash crypto = outpoint.referTxID) :
    Indexed crypto (fun outpoint =>
      (live outpoint ∧ outpoint.referTxID ∉ block.txHashes crypto) ∨
        outpoint ∈ block.transactions.flatMap consumedBy) after := by
  have same {outpoint : Outpoint} (other : outpoint.referTxID ∉ block.txHashes crypto) :
      after.place outpoint = store.place outpoint :=
    ChainStore.place_congr (by rw [rolledBack.transaction_eq, if_neg other])
  have own {outpoint : Outpoint} {placed : Placed} (place : store.place outpoint = some placed) :
      UnspentKey.height placed.1 = block.blockdata.height ↔
        outpoint.referTxID ∈ block.txHashes crypto := by
    obtain ⟨_, _, _, stored, -, rfl⟩ := ChainStore.place_eq_some.mp place
    exact onTop _ _ _ stored
  have placeBefore {outpoint : Outpoint} {placed : Placed}
      (place : after.place outpoint = some placed) :
      outpoint.referTxID ∉ block.txHashes crypto ∧ store.place outpoint = some placed := by
    obtain ⟨_, _, _, stored, -⟩ := ChainStore.place_eq_some.mp place
    rw [rolledBack.transaction_eq] at stored
    split at stored
    · cases stored
    · next other => exact ⟨other, (same other).symm.trans place⟩
  have facts (outpoint : Outpoint) :
      unspentAccount after.unspent outpoint ≤ 1 ∧ (0 < unspentAccount after.unspent outpoint ↔
        (live outpoint ∧ outpoint.referTxID ∉ block.txHashes crypto) ∨
          outpoint ∈ block.transactions.flatMap consumedBy) := by
    have here := takenBack.unspent outpoint
    have once := indexed.once outpoint
    have consumedAtMost := occurrences_le_one.mp consumedOnce outpoint
    have gone := consumedGone outpoint
    rw [← occurrences_pos, ← indexed.positive] at gone
    split at here
    · next created =>
      obtain ⟨tx, member, -, sameHash⟩ := created
      have isOwn : outpoint.referTxID ∈ block.txHashes crypto :=
        sameHash ▸ List.mem_map_of_mem member
      have notConsumed : outpoint ∉ block.transactions.flatMap consumedBy :=
        fun consumed => removable.apart outpoint consumed isOwn
      simp [here, isOwn, notConsumed]
    · next notCreated =>
      have notOwn : live outpoint → outpoint.referTxID ∉ block.txHashes crypto :=
        fun isLive isOwn => notCreated (ownCreated outpoint isLive isOwn)
      rw [and_iff_left_of_imp notOwn, ← occurrences_pos, ← indexed.positive]
      omega
  have known (placed : Placed) (positive : 0 < listed after.unspentUTXO placed) :
      ∃ outpoint, after.place outpoint = some placed := by
    have here := takenBack.unspentUTXO placed
    split at here
    · omega
    · next other =>
      obtain ⟨outpoint, place⟩ : ∃ outpoint, store.place outpoint = some placed := by
        rcases Nat.eq_zero_or_pos (listed store.unspentUTXO placed) with none | some
        · obtain ⟨outpoint, -, place⟩ := mem_places (occurrences_pos.mp (by omega :
            0 < occurrences (block.transactions.flatMap (placesOf store)) placed))
          exact ⟨outpoint, place⟩
        · obtain ⟨outpoint, -, place⟩ := (indexed.utxo_mem _ _).mp (listed_pos.mp some)
          exact ⟨outpoint, place⟩
      exact ⟨outpoint, (same (mt (own place).mpr other)).trans place⟩
  refine Indexed.of_accounts (fun outpoint => (facts outpoint).1)
    (fun outpoint => (facts outpoint).2) (fun outpoint placed place => ?_) known ?_ ?_
  · obtain ⟨notOwn, place⟩ := placeBefore place
    have here := takenBack.unspentUTXO placed
    rw [if_neg (mt (own place).mp notOwn), flatMap_placesOf,
      occurrences_filterMap (fun _ _ _ => place_inj) place, indexed.agree place] at here
    rw [here, takenBack.unspent, if_neg]
    rintro ⟨tx, member, -, sameHash⟩
    exact notOwn (sameHash ▸ List.mem_map_of_mem member)
  · rintro outpoint (⟨isLive, notOwn⟩ | consumed)
    · obtain ⟨placed, place⟩ := indexed.placed outpoint isLive
      exact ⟨placed, (same notOwn).trans place⟩
    · obtain ⟨tx, member, consumedByTx⟩ := List.mem_flatMap.mp consumed
      obtain ⟨notRegistration, notCoinbase, input, inputMember, rfl⟩ :=
        mem_consumedBy.mp consumedByTx
      obtain ⟨placed, place, -⟩ := removable.restores tx member
        (by simp [notRegistration, notCoinbase]) input inputMember
      exact ⟨placed, (same (removable.apart _ consumed)).trans place⟩
  · intro hash tx height stored
    rw [rolledBack.transaction_eq] at stored
    split at stored
    · cases stored
    · exact indexed.keyed hash tx height stored

end Steps

end DnaPow.Ledger
