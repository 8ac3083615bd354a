import DnaPow.Ledger.Indexes

/-!
# The outputs of the main chain

Which outputs of the main chain are available: those that no input of the chain
consumes. In every history of the main chain whose blocks are regular both
indexes list exactly these.
-/

namespace DnaPow.Ledger

open DnaPow.Std Common Core

/-! ## Regular blocks -/

/-- A transaction whose effect on the indexes is the intended one: its outputs can
be numbered with 16 bits, and if it is a registration, whose inputs the indexes
ignore, it has none. -/
structure RegularTx (tx : Transaction) : Prop where
  fewOutputs : tx.outputs.length ≤ 2 ^ 16
  registration : tx.txType = .registerAsset → tx.utxoInputs = []

instance (tx : Transaction) : Decidable (RegularTx tx) :=
  decidable_of_iff (tx.outputs.length ≤ 2 ^ 16 ∧ (tx.txType = .registerAsset → tx.utxoInputs = []))
    ⟨fun ⟨few, registration⟩ => ⟨few, registration⟩, fun ⟨few, registration⟩ => ⟨few, registration⟩⟩

/-- A block whose effect on the indexes is the intended one. -/
structure Regular (block : Block) : Prop where
  spentOnce : (spentOutpoints block).Nodup
  txs : ∀ tx ∈ block.transactions, RegularTx tx

instance (block : Block) : Decidable (Regular block) :=
  decidable_of_iff ((spentOutpoints block).Nodup ∧ ∀ tx ∈ block.transactions, RegularTx tx)
    ⟨fun ⟨spentOnce, txs⟩ => ⟨spentOnce, txs⟩, fun ⟨spentOnce, txs⟩ => ⟨spentOnce, txs⟩⟩

theorem regular_genesisBlock (env : Env) : Regular (genesisBlock env) where
  spentOnce := List.nodup_nil
  txs := by
    have first : RegularTx (genesisCoinbase env) := ⟨by simp [genesisCoinbase], by rintro ⟨⟩⟩
    have second : RegularTx systemToken := ⟨by decide, fun _ => rfl⟩
    simp [genesisBlock, first, second]

theorem RegularTx.consumedBy_eq {tx : Transaction} (regular : RegularTx tx) :
    consumedBy tx = spentBy tx := by
  unfold consumedBy spentBy
  by_cases registration : tx.txType = .registerAsset
  · simp [Transaction.outpoints, regular.registration registration]
  · simp [registration]

theorem Regular.consumed_eq {block : Block} (regular : Regular block) :
    block.transactions.flatMap consumedBy = spentOutpoints block :=
  List.flatMap_congr fun tx member => (regular.txs tx member).consumedBy_eq

section Created

variable {crypto : Primitives} {block : Block}
  {tx : Transaction} {store : ChainStore} {height : UInt32}

theorem RegularTx.outputIndexes_nodup (regular : RegularTx tx) :
    (ChainStore.outputIndexes tx).Nodup := by
  have few := regular.fewOutputs
  refine List.Nodup.map_on (fun i member j member' same => ?_) List.nodup_range
  have := congrArg UInt16.toNat same
  simp only [UInt16.toNat_ofNat', List.mem_range] at *
  omega

theorem Regular.created_nodup (regular : Regular block)
    (distinct : (block.txHashes crypto).Nodup) :
    (block.transactions.flatMap (createdBy crypto)).Nodup := by
  refine List.nodup_flatMap.mpr ⟨fun tx member => ?_, ?_⟩
  · unfold createdBy
    split
    · exact List.nodup_nil
    · exact (regular.txs tx member).outputIndexes_nodup.map fun _ _ same =>
        congrArg Outpoint.referTxOutputIndex same
  · refine (List.pairwise_map.mp distinct).imp fun different => ?_
    rintro outpoint created created'
    exact different ((mem_createdBy.mp created).2.1.trans (mem_createdBy.mp created').2.1.symm)

/-- A list with its positions, read position by position. -/
theorem filterMap_range'_eq_zipIdx {α β : Type} {read : Nat → Option β} {entry : α × Nat → β} :
    ∀ (list : List α) (start : Nat),
      (∀ position item, list[position]? = some item →
        read (start + position) = some (entry (item, start + position))) →
      (List.range' start list.length).filterMap read = (list.zipIdx start).map entry := by
  intro list
  induction list with
  | nil => exact fun _ _ => rfl
  | cons item list ih =>
    intro start reads
    have first : read start = some (entry (item, start)) := reads 0 item rfl
    have rest := ih (start + 1) fun position other found => by
      have later := reads (position + 1) other found
      rwa [← Nat.add_assoc, Nat.add_right_comm] at later
    rw [List.length_cons, List.range'_succ, List.filterMap_cons_some first, rest,
      List.zipIdx_cons, List.map_cons]

theorem RegularTx.place_eq (regular : RegularTx tx)
    (stored : store.transaction (tx.hash crypto) = some (tx, height))
    {position : Nat} {output : TxOutput} (isOutput : tx.outputs[position]? = some output) :
    store.place ⟨tx.hash crypto, UInt16.ofNat position⟩ =
      some (utxo crypto height tx (output, position)) := by
  have few := regular.fewOutputs
  have bound := (List.getElem?_eq_some_iff.mp isOutput).1
  have sameNat : (UInt16.ofNat position).toNat = position := by
    simp only [UInt16.toNat_ofNat']
    omega
  have sameIndex : (UInt16.ofNat position).toUInt32 = UInt32.ofNat position := by
    apply UInt32.toNat_inj.mp
    simp only [UInt16.toNat_toUInt32, sameNat, UInt32.toNat_ofNat']
    omega
  refine ChainStore.place_eq_some.mpr ⟨tx, height, output, stored, ?_, ?_⟩
  · rwa [sameNat]
  · rw [sameIndex]
    rfl

/-- The entries of the outputs of a transaction are those of the outpoints it creates. -/
theorem RegularTx.utxosOf_eq (regular : RegularTx tx)
    (stored : store.transaction (tx.hash crypto) = some (tx, height)) :
    utxosOf crypto height tx = (createdBy crypto tx).filterMap store.place := by
  unfold utxosOf createdBy ChainStore.outputIndexes
  split
  · rfl
  · rw [List.filterMap_map, List.filterMap_map, List.range_eq_range']
    refine (filterMap_range'_eq_zipIdx tx.outputs 0 fun position output isOutput => ?_).symm
    rw [Nat.zero_add]
    exact regular.place_eq stored isOutput

theorem Regular.utxos_eq (regular : Regular block)
    (stored : ∀ tx ∈ block.transactions, store.transaction (tx.hash crypto) = some (tx, height)) :
    block.transactions.flatMap (utxosOf crypto height) =
      (block.transactions.flatMap (createdBy crypto)).filterMap store.place := by
  rw [List.filterMap_flatMap]
  exact List.flatMap_congr fun tx member => (regular.txs tx member).utxosOf_eq (stored tx member)

theorem RegularTx.exists_place (regular : RegularTx tx)
    (stored : store.transaction (tx.hash crypto) = some (tx, height))
    {outpoint : Outpoint} (created : outpoint ∈ createdBy crypto tx) :
    ∃ placed, store.place outpoint = some placed := by
  obtain ⟨-, sameHash, isIndex⟩ := mem_createdBy.mp created
  obtain ⟨position, bound, isPosition⟩ := List.mem_map.mp isIndex
  have isOutput := List.getElem?_eq_getElem (List.mem_range.mp bound)
  obtain rfl : ⟨tx.hash crypto, UInt16.ofNat position⟩ = outpoint := Outpoint.ext sameHash isPosition
  exact ⟨_, regular.place_eq stored isOutput⟩

end Created

/-! ## Available outputs -/

section Chain

variable (env : Env)

/-- An output of the chain. -/
def IsOutput (chain : List Block) (outpoint : Outpoint) : Prop :=
  ∃ block ∈ chain, ∃ tx ∈ block.transactions, outpoint ∈ createdBy env.crypto tx

/-- An output of the chain that no input of the chain consumes. -/
def Available (chain : List Block) (outpoint : Outpoint) : Prop :=
  IsOutput env chain outpoint ∧ outpoint ∉ chain.flatMap spentOutpoints

/-- The transaction of an outpoint can be read from a store that holds the chain. -/
def Readable (chain : List Block) (outpoint : Outpoint) : Prop :=
  ∀ block ∈ chain, ∀ tx ∈ block.transactions, tx.hash env.crypto = outpoint.referTxID →
    tx.txType ≠ .deploy

/-- Every input of the chain consumes an output that was available, and readable,
below its block. -/
def SpendsAvailable : List Block → Prop
  | [] => True
  | block :: below =>
      (∀ outpoint ∈ spentOutpoints block, Available env below outpoint ∧
        Readable env below outpoint) ∧ SpendsAvailable below

/-- No outpoint is consumed by two inputs of the chain. -/
def NoDoubleSpend (chain : List Block) : Prop := (chain.flatMap spentOutpoints).Nodup

instance (chain : List Block) : Decidable (NoDoubleSpend chain) :=
  inferInstanceAs (Decidable (chain.flatMap spentOutpoints).Nodup)

end Chain

section Chain

variable {env : Env} {chain : List Block} {outpoint : Outpoint}

theorem SpendsAvailable.noDoubleSpend (regular : ∀ block ∈ chain, Regular block)
    (spends : SpendsAvailable env chain) : NoDoubleSpend chain := by
  induction chain with
  | nil => exact List.nodup_nil
  | cons block below ih =>
    obtain ⟨regularBlock, regular⟩ := List.forall_mem_cons.mp regular
    rw [NoDoubleSpend, List.flatMap_cons]
    refine List.nodup_append.mpr ⟨regularBlock.spentOnce, ih regular spends.2, ?_⟩
    rintro outpoint spent _ spentBelow rfl
    exact (spends.1 outpoint spent).1.2 spentBelow

theorem IsOutput.mem_transactionEntries (output : IsOutput env chain outpoint) :
    outpoint.referTxID ∈ (transactionEntries env chain).map Prod.fst := by
  obtain ⟨block, blockMember, tx, txMember, created⟩ := output
  exact mem_map_fst_transactionEntries.mpr
    ⟨block, blockMember, tx, txMember, (mem_createdBy.mp created).2.1⟩

theorem IsOutput.cons_iff {block : Block} :
    IsOutput env (block :: chain) outpoint ↔
      outpoint ∈ block.transactions.flatMap (createdBy env.crypto) ∨
        IsOutput env chain outpoint := by
  simp only [IsOutput, List.mem_cons, exists_eq_or_imp, List.mem_flatMap]

/-- An output that some input of the chain consumes is one of the chain. -/
theorem SpendsAvailable.isOutput (spends : SpendsAvailable env chain)
    (spent : outpoint ∈ chain.flatMap spentOutpoints) : IsOutput env chain outpoint := by
  induction chain with
  | nil => simp at spent
  | cons block below ih =>
    refine IsOutput.cons_iff.mpr (.inr ?_)
    rcases List.mem_append.mp (List.flatMap_cons ▸ spent) with here | lower
    · exact (spends.1 outpoint here).1.1
    · exact ih spends.2 lower

end Chain

/-! ## Agreement with the chain -/

/-- The two indexes agree with the chain and with each other: an output is listed
by transaction exactly when it is available, an entry is listed by program exactly
when it is that of an available output, and nothing is listed twice. -/
structure IndexesAgree (env : Env) (chain : List Block) (store : ChainStore) : Prop where
  unspent : ∀ outpoint : Outpoint,
    outpoint.referTxOutputIndex ∈ itemsOf store.unspent outpoint.referTxID ↔
      Available env chain outpoint
  unspentUTXO : ∀ key entry, entry ∈ itemsOf store.unspentUTXO key ↔
    ∃ block ∈ chain, ∃ tx ∈ block.transactions, ∃ (index : UInt16) (output : TxOutput),
      tx.outputs[index.toNat]? = some output ∧
      key = (output.programHash, output.assetID, block.blockdata.height) ∧
      entry = ⟨tx.hash env.crypto, index.toUInt32, output.value⟩ ∧
      Available env chain ⟨tx.hash env.crypto, index⟩
  unspent_nodup : ∀ txid, (itemsOf store.unspent txid).Nodup
  utxo_nodup : ∀ key, (itemsOf store.unspentUTXO key).Nodup

/-! ## Histories of the main chain -/

/-- Both indexes list exactly the available outputs of the chain. -/
structure Tracks (env : Env) (chain : List Block) (store : ChainStore) : Prop where
  indexed : Indexed env.crypto (Available env chain) store
  noEmptyList : NoEmptyList store
  spends : SpendsAvailable env chain

section Steps

variable {env : Env} {known : Block → Prop} {block : Block} {below : List Block}
  {before after : ChainStore}

theorem Indexed.congr {crypto : Primitives} {live live' : Outpoint → Prop}
    (indexed : Indexed crypto live before) (same : ∀ outpoint, live outpoint ↔ live' outpoint) :
    Indexed crypto live' before := by
  obtain rfl : live = live' := funext fun outpoint => propext (same outpoint)
  exact indexed

theorem Represents.keyed {chain : List Block} (represents : Represents env chain before)
    (hash : Uint256) (tx : Transaction) (height : UInt32)
    (stored : before.transaction hash = some (tx, height)) : tx.hash env.crypto = hash := by
  obtain ⟨_, -, -, sameHash, -⟩ := mem_transactionEntries.mp ((represents.transaction _ _).mp stored)
  exact sameHash

theorem Represents.stored {chain : List Block} (represents : Represents env chain before)
    {other : Block} (member : other ∈ chain) {tx : Transaction} (txMember : tx ∈ other.transactions) :
    before.transaction (tx.hash env.crypto) = some (tx, other.blockdata.height) :=
  (represents.transaction _ _).mpr
    (mem_transactionEntries.mpr ⟨other, member, txMember, rfl, rfl⟩)

/-- A checked block consumes outputs of transactions that can be read. -/
theorem Represents.readable (represents : Represents env below before)
    (checked : checkTransactionsContext env before block.transactions = .ok ())
    {outpoint : Outpoint} (spent : outpoint ∈ spentOutpoints block) :
    Readable env below outpoint := by
  obtain ⟨tx, member, spent⟩ := List.mem_flatMap.mp spent
  unfold spentBy at spent
  split at spent
  · simp at spent
  · next notCoinbase =>
    obtain ⟨input, inputMember, rfl⟩ := List.mem_map.mp spent
    have passed := checkTransactionContext_eq_ok.mp
      (checkTransactionsContext_eq_ok.mp checked tx member)
    obtain ⟨referTxn, height, output, read, -⟩ :=
      checkInputContext_eq_ok.mp ((passed.2 (by simpa using notCoinbase)).2 input inputMember)
    intro other otherMember tx' txMember sameHash deploy
    have stored := represents.getTransaction_eq otherMember txMember
    rw [sameHash, read, if_pos deploy] at stored
    cases stored

section Connect

variable (admissible : Admissible env known)
  (branch : (blockLinks env).Branch known (block :: below)) (regular : Regular block)
include admissible branch regular

theorem Represents.fits (represents : Represents env below before)
    (checked : checkTransactionsContext env before block.transactions = .ok ()) :
    Fits env before block where
  checked := checked
  spentOnce := regular.consumed_eq ▸ regular.spentOnce
  height := by
    intro hash tx height stored
    obtain ⟨other, member, -, -, rfl⟩ :=
      mem_transactionEntries.mp ((represents.transaction _ _).mp stored)
    exact (hash_and_height_fresh admissible branch member).2

theorem Tracks.connect (tracks : Tracks env below before) (represents : Represents env below before)
    (checked : checkTransactionsContext env before block.transactions = .ok ())
    (persisted : before.persistBlocks (ε := Unit) env.crypto block = .ok after) :
    Tracks env (block :: below) after := by
  have fits := represents.fits admissible branch regular checked
  have writes := ChainStore.persisted persisted
  have represents' := represents.connect admissible branch checked writes
  have isKnown := branch.known_of_mem admissible.genesis _ List.mem_cons_self
  have stored {tx : Transaction} (member : tx ∈ block.transactions) :=
    represents'.stored List.mem_cons_self member
  obtain ⟨_, call, account⟩ := tracks.indexed.persistBlocks_eq_ok (ε := Unit) fits
  obtain rfl := Outcome.ok.inj (call.symm.trans persisted)
  have indexed := tracks.indexed.connect fits writes account
    (regular.created_nodup (admissible.sane _ isKnown).distinct)
    (fun outpoint created => by
      obtain ⟨tx, member, created⟩ := List.mem_flatMap.mp created
      exact (regular.txs tx member).exists_place (stored member) created)
    (regular.utxos_eq fun tx => stored) represents'.keyed
  have newHash {outpoint : Outpoint}
      (created : outpoint ∈ block.transactions.flatMap (createdBy env.crypto)) :
      ¬ IsOutput env below outpoint := by
    intro output
    obtain ⟨tx, member, created⟩ := List.mem_flatMap.mp created
    refine represents'.tx_fresh admissible branch member ?_
    exact (mem_createdBy.mp created).2.1 ▸ output.mem_transactionEntries
  have available {outpoint : Outpoint} (spent : outpoint ∈ spentOutpoints block) :
      Available env below outpoint :=
    tracks.indexed.consumed_live fits (regular.consumed_eq ▸ spent)
  refine ⟨indexed.congr fun outpoint => ?_, tracks.noEmptyList.persistBlocks persisted,
    fun outpoint spent => ⟨available spent, ?_⟩, tracks.spends⟩
  · rw [regular.consumed_eq, Available, Available, IsOutput.cons_iff, List.flatMap_cons,
      List.mem_append, not_or]
    by_cases created : outpoint ∈ block.transactions.flatMap (createdBy env.crypto)
    · have notSpent : outpoint ∉ below.flatMap spentOutpoints := fun spent =>
        newHash created (tracks.spends.isOutput spent)
      simp [created, notSpent]
    · simp only [created, or_false, false_or]
      exact and_right_comm.trans and_assoc
  · exact represents.readable checked spent

end Connect

section Disconnect

variable (admissible : Admissible env known) (regular : ∀ block, known block → Regular block)
  (branch : (blockLinks env).Branch known (block :: below))
  (represents : Represents env (block :: below) before)
include admissible branch represents

omit represents in
theorem regular_of_mem {other : Block} (member : other ∈ block :: below)
    (regular : ∀ block, known block → Regular block) : Regular other :=
  regular other (branch.known_of_mem admissible.genesis other member)

/-- The transactions of the last block are those stored with its height. -/
theorem Represents.onTop (hash : Uint256) (tx : Transaction) (height : UInt32)
    (stored : before.transaction hash = some (tx, height)) :
    height = block.blockdata.height ↔ hash ∈ block.txHashes env.crypto := by
  obtain ⟨other, member, txMember, rfl, rfl⟩ :=
    mem_transactionEntries.mp ((represents.transaction _ _).mp stored)
  constructor
  · intro sameHeight
    rcases List.mem_cons.mp member with rfl | lower
    · exact List.mem_map_of_mem txMember
    · exact absurd sameHeight (hash_and_height_fresh admissible branch lower).2
  · intro found
    obtain ⟨tx', txMember', sameHash⟩ := List.mem_map.mp found
    rcases List.mem_cons.mp member with rfl | lower
    · rfl
    · refine absurd ?_ (represents.tx_fresh admissible branch txMember')
      exact mem_map_fst_transactionEntries.mpr ⟨other, lower, tx, txMember, sameHash.symm⟩

/-- The outputs of the last block are exactly the available ones of its transactions. -/
theorem Tracks.mem_created_iff (tracks : Tracks env (block :: below) before) {outpoint : Outpoint}
    (own : outpoint.referTxID ∈ block.txHashes env.crypto) :
    outpoint ∈ block.transactions.flatMap (createdBy env.crypto) ↔
      Available env (block :: below) outpoint := by
  have notBelow : ¬ IsOutput env below outpoint := by
    intro output
    obtain ⟨tx, member, sameHash⟩ := List.mem_map.mp own
    exact represents.tx_fresh admissible branch member (sameHash ▸ output.mem_transactionEntries)
  rw [Available, IsOutput.cons_iff, or_iff_left notBelow, iff_self_and]
  rintro - spent
  rcases List.mem_append.mp (List.flatMap_cons ▸ spent) with here | lower
  · exact notBelow (tracks.spends.1 outpoint here).1.1
  · exact notBelow (tracks.spends.2.isOutput lower)

include regular

/-- The last block of a chain can be taken back. -/
theorem Tracks.removable (tracks : Tracks env (block :: below) before) :
    Removable env.crypto before block where
  restores := by
    intro tx member isRegular input inputMember
    have regularBlock := regular_of_mem admissible branch List.mem_cons_self regular
    obtain ⟨notRegistration, notCoinbase⟩ := not_or.mp isRegular
    have consumed : input.toOutpoint ∈ spentOutpoints block :=
      regularBlock.consumed_eq ▸ List.mem_flatMap.mpr ⟨tx, member, mem_consumedBy.mpr
        ⟨notRegistration, by simpa using notCoinbase, input, inputMember, rfl⟩⟩
    obtain ⟨⟨⟨other, lower, tx', txMember, created⟩, -⟩, readable⟩ :=
      tracks.spends.1 _ consumed
    have lower' := List.mem_cons_of_mem block lower
    have sameHash := (mem_createdBy.mp created).2.1
    have stored := represents.stored lower' txMember
    have regularTx := (regular_of_mem admissible branch lower' regular).txs tx' txMember
    obtain ⟨placed, place⟩ := regularTx.exists_place stored created
    refine ⟨placed, place, ?_, ?_⟩
    · obtain ⟨tx'', height, output, stored', isOutput, rfl⟩ := ChainStore.place_eq_some.mp place
      have read := represents.getTransaction_eq lower' txMember
      rw [if_neg (readable other lower tx' txMember sameHash), sameHash] at read
      rw [sameHash] at stored
      obtain ⟨rfl, rfl⟩ := Prod.mk.inj (Option.some.inj (stored.symm.trans stored'))
      refine ⟨tx', output, other.blockdata.height, ?_, by rw [sameHash]⟩
      simp [ChainStore.referredOutput, read, isOutput]
    · obtain ⟨_, _, _, stored', -, rfl⟩ := ChainStore.place_eq_some.mp place
      rw [← sameHash, stored] at stored'
      obtain ⟨rfl, rfl⟩ := Prod.mk.inj (Option.some.inj stored')
      exact (hash_and_height_fresh admissible branch lower).2
  own := by
    intro placed isOwn
    have regularBlock := regular_of_mem admissible branch List.mem_cons_self regular
    have isKnown := branch.known_of_mem admissible.genesis _ List.mem_cons_self
    rw [regularBlock.utxos_eq fun tx => represents.stored List.mem_cons_self]
    by_cases exists_place : ∃ outpoint, before.place outpoint = some placed
    · obtain ⟨outpoint, place⟩ := exists_place
      have own : outpoint.referTxID ∈ block.txHashes env.crypto := by
        obtain ⟨_, _, _, stored, -, rfl⟩ := ChainStore.place_eq_some.mp place
        exact (represents.onTop admissible branch _ _ _ stored).mp isOwn
      rw [occurrences_filterMap (fun _ _ _ => place_inj) place, tracks.indexed.agree place]
      have created := tracks.mem_created_iff admissible branch represents own
      rw [← occurrences_pos, ← tracks.indexed.positive] at created
      have once := tracks.indexed.once outpoint
      have createdOnce := occurrences_le_one.mp
        (regularBlock.created_nodup (admissible.sane _ isKnown).distinct) outpoint
      omega
    · have notCreated : placed ∉ (block.transactions.flatMap (createdBy env.crypto)).filterMap
          before.place := by
        intro member
        obtain ⟨outpoint, -, place⟩ := List.mem_filterMap.mp member
        exact exists_place ⟨outpoint, place⟩
      rw [occurrences_eq_zero notCreated]
      refine Nat.eq_zero_of_not_pos fun positive => exists_place ?_
      obtain ⟨outpoint, -, place⟩ := (tracks.indexed.utxo_mem _ _).mp (listed_pos.mp positive)
      exact ⟨outpoint, place⟩
  apart := by
    intro outpoint consumed found
    rw [(regular_of_mem admissible branch List.mem_cons_self regular).consumed_eq] at consumed
    obtain ⟨tx, member, sameHash⟩ := List.mem_map.mp found
    have output := (tracks.spends.1 outpoint consumed).1.1
    exact represents.tx_fresh admissible branch member (sameHash ▸ output.mem_transactionEntries)

theorem Tracks.disconnect (tracks : Tracks env (block :: below) before)
    (rolledBack : before.rollback (ε := Unit) env.crypto block = .ok after) :
    Tracks env below after := by
  have regularBlock := regular_of_mem admissible branch List.mem_cons_self regular
  have removable := tracks.removable admissible regular branch represents
  obtain ⟨_, call, takenBack⟩ := removable.rollback_eq_ok (ε := Unit)
  obtain rfl := Outcome.ok.inj (call.symm.trans rolledBack)
  have indexed := tracks.indexed.disconnect removable takenBack (ChainStore.rolledBack rolledBack)
    (regularBlock.consumed_eq ▸ regularBlock.spentOnce)
    (fun outpoint consumed available => available.2 (List.mem_flatMap.mpr
      ⟨block, List.mem_cons_self, regularBlock.consumed_eq ▸ consumed⟩))
    (represents.onTop admissible branch)
    (fun outpoint available isOwn => by
      have created := (tracks.mem_created_iff admissible branch represents isOwn).mpr available
      obtain ⟨tx, member, created⟩ := List.mem_flatMap.mp created
      obtain ⟨notRegistration, sameHash, -⟩ := mem_createdBy.mp created
      exact ⟨tx, member, notRegistration, sameHash⟩)
  refine ⟨indexed.congr fun outpoint => ?_, tracks.noEmptyList.rollback rolledBack,
    tracks.spends.2⟩
  rw [regularBlock.consumed_eq]
  constructor
  · rintro (⟨⟨output, notSpent⟩, notOwn⟩ | spent)
    · rw [List.flatMap_cons, List.mem_append, not_or] at notSpent
      refine ⟨(IsOutput.cons_iff.mp output).resolve_left fun created => notOwn ?_, notSpent.2⟩
      obtain ⟨tx, member, created⟩ := List.mem_flatMap.mp created
      exact (mem_createdBy.mp created).2.1 ▸ List.mem_map_of_mem member
    · exact (tracks.spends.1 outpoint spent).1
  · intro available
    by_cases spent : outpoint ∈ spentOutpoints block
    · exact .inr spent
    · refine .inl ⟨⟨IsOutput.cons_iff.mpr (.inr available.1), ?_⟩, fun isOwn => ?_⟩
      · rw [List.flatMap_cons, List.mem_append, not_or]
        exact ⟨spent, available.2⟩
      · obtain ⟨tx, member, sameHash⟩ := List.mem_map.mp isOwn
        exact represents.tx_fresh admissible branch member
          (sameHash ▸ available.1.mem_transactionEntries)

end Disconnect

theorem Tracks.indexesAgree {chain : List Block} (tracks : Tracks env chain before)
    (represents : Represents env chain before) : IndexesAgree env chain before where
  unspent := tracks.indexed.unspent_mem
  unspentUTXO := by
    intro key entry
    rw [tracks.indexed.utxo_mem]
    constructor
    · rintro ⟨⟨txid, index⟩, available, place⟩
      obtain ⟨tx, height, output, stored, isOutput, same⟩ := ChainStore.place_eq_some.mp place
      obtain ⟨rfl, rfl⟩ := Prod.mk.inj same
      obtain ⟨block, member, txMember, rfl, rfl⟩ :=
        mem_transactionEntries.mp ((represents.transaction _ _).mp stored)
      exact ⟨block, member, tx, txMember, index, output, isOutput, rfl, rfl, available⟩
    · rintro ⟨block, member, tx, txMember, index, output, isOutput, rfl, rfl, available⟩
      exact ⟨_, available, ChainStore.place_eq_some.mpr
        ⟨tx, _, output, represents.stored member txMember, isOutput, rfl⟩⟩
  unspent_nodup := tracks.indexed.unspent_nodup
  utxo_nodup := tracks.indexed.utxo_nodup

theorem tracks_genesis (admissible : Admissible env known) :
    Tracks env [genesisBlock env] (.genesis env) := by
  have nothing : Tracks env [] .empty := by
    have unwritten : NoEmptyList .empty := by constructor <;> simp [ChainStore.empty]
    refine ⟨?_, unwritten, trivial⟩
    refine Indexed.of_accounts (fun _ => Nat.zero_le 1) (fun _ => ?_) (fun _ _ _ => rfl) ?_ ?_ ?_
    · simp [unspentAccount, listed, itemsOf, ChainStore.empty, Available, IsOutput]
    · exact fun _ positive => absurd positive (Nat.lt_irrefl 0)
    · exact fun outpoint available => by simp [Available, IsOutput] at available
    · simp [ChainStore.empty]
  exact nothing.connect admissible .root (regular_genesisBlock env) represents_empty rfl rfl

/-- Along every history of the main chain whose blocks are regular both indexes
list exactly the available outputs. -/
theorem MainChain.tracks (admissible : Admissible env known)
    (regular : ∀ block, known block → Regular block) {chain : List Block} {store : ChainStore}
    (mainChain : MainChain env known chain store) : Tracks env chain store := by
  induction mainChain with
  | genesis => exact tracks_genesis admissible
  | connect chain isKnown linked above checked persisted ih =>
    have branch := (MainChain.connect chain isKnown linked above checked persisted).branch admissible
    exact ih.connect admissible branch (regular _ isKnown) (chain.represents admissible) checked
      persisted
  | disconnect chain rolledBack ih =>
    exact ih.disconnect admissible regular (chain.branch admissible)
      (chain.represents admissible) rolledBack

end Steps

end DnaPow.Ledger
