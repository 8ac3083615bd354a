import DnaPow.Ledger.Chain

/-!
# The store holds the main chain

The tables of the store under every sequence of connected and disconnected
blocks: headers by hash, hashes by height and transactions by hash are those of
the main chain. Reading a block back gives the block that was persisted, unless
one of its transactions cannot be read.
-/

namespace DnaPow.Ledger

open DnaPow.Std Common Core

/-! ## What a batch writes -/

/-- What `persistBlocks` leaves behind, up to the unspent outputs by program. -/
structure Persisted (crypto : Primitives) (block : Block) (before after : ChainStore) : Prop where
  header : after.header =
    write before.header (block.hash crypto) (some ⟨block.blockdata, block.txHashes crypto⟩)
  blockHash : after.blockHash =
    write before.blockHash block.blockdata.height (some (block.hash crypto))
  transaction : after.transaction = (before.persistTransactions crypto block).transaction
  asset : after.asset = (before.persistTransactions crypto block).asset
  unspent : after.unspent = before.persistUnspend crypto block
  currentBlock : after.currentBlock = some (block.hash crypto, block.blockdata.height)
  currentBlockHeight : after.currentBlockHeight = block.blockdata.height

theorem ChainStore.persisted {ε : Type} {crypto : Primitives} {block : Block}
    {before after : ChainStore}
    (call : before.persistBlocks (ε := ε) crypto block = .ok after) :
    Persisted crypto block before after := by
  simp only [persistBlocks, persist, Outcome.bind_eq_ok, Outcome.pure_eq, Outcome.ok.injEq] at call
  obtain ⟨_, ⟨_, -, rfl⟩, rfl⟩ := call
  constructor <;> rfl

/-- What `rollback` leaves behind, up to the unspent outputs by program. -/
structure RolledBack (crypto : Primitives) (block : Block) (before after : ChainStore) :
    Prop where
  header : after.header = write before.header (block.hash crypto) none
  blockHash : after.blockHash = write before.blockHash block.blockdata.height none
  transaction : after.transaction = (before.rollbackTransactions crypto block).transaction
  asset : after.asset = (before.rollbackTransactions crypto block).asset
  unspent : after.unspent = before.rollbackUnspend crypto block
  currentBlock : after.currentBlock =
    some (block.blockdata.prevBlockHash, block.blockdata.height - 1)
  currentBlockHeight : after.currentBlockHeight = block.blockdata.height - 1

theorem ChainStore.rolledBack {ε : Type} {crypto : Primitives} {block : Block}
    {before after : ChainStore} (call : before.rollback (ε := ε) crypto block = .ok after) :
    RolledBack crypto block before after := by
  simp only [rollback, Outcome.bind_eq_ok, Outcome.pure_eq, Outcome.ok.injEq] at call
  obtain ⟨_, -, rfl⟩ := call
  constructor <;> rfl

/-! ## What the tables hold -/

/-- The asset that a transaction registers. -/
def registeredAsset (tx : Transaction) : Option Asset :=
  match tx.payload with
  | .registerAsset asset _ _ => some asset
  | _ => none

variable (env : Env)

/-- The entries of the tables for a chain. -/
def headerEntries (chain : List Block) : List (Uint256 × TrimmedBlock) :=
  chain.map fun block => (block.hash env.crypto, ⟨block.blockdata, block.txHashes env.crypto⟩)

def blockHashEntries (chain : List Block) : List (UInt32 × Uint256) :=
  chain.map fun block => (block.blockdata.height, block.hash env.crypto)

def blockTransactions (block : Block) : List (Uint256 × Transaction × UInt32) :=
  block.transactions.map fun tx => (tx.hash env.crypto, tx, block.blockdata.height)

def transactionEntries (chain : List Block) : List (Uint256 × Transaction × UInt32) :=
  chain.flatMap (blockTransactions env)

def blockAssets (block : Block) : List (Uint256 × Asset) :=
  block.transactions.filterMap fun tx =>
    (registeredAsset tx).map (tx.hash env.crypto, ·)

def assetEntries (chain : List Block) : List (Uint256 × Asset) :=
  chain.flatMap (blockAssets env)

/-- The store holds the chain. -/
structure Represents (chain : List Block) (store : ChainStore) : Prop where
  header : Holds store.header (headerEntries env chain)
  blockHash : Holds store.blockHash (blockHashEntries env chain)
  transaction : Holds store.transaction (transactionEntries env chain)
  asset : Holds store.asset (assetEntries env chain)
  currentBlockHeight : ∀ tip ∈ chain.head?, store.currentBlockHeight = tip.blockdata.height
  currentBlock : ∀ tip ∈ chain.head?,
    store.currentBlock = some (tip.hash env.crypto, tip.blockdata.height)

variable {env} {known : Block → Prop}
  {chain : List Block} {hash : Uint256} {block : Block} {store : ChainStore}

@[simp] theorem map_fst_blockTransactions (block : Block) :
    (blockTransactions env block).map Prod.fst = block.txHashes env.crypto := by
  simp only [blockTransactions, List.map_map]
  rfl

@[simp] theorem transactionEntries_cons (block : Block) (below : List Block) :
    transactionEntries env (block :: below) =
      blockTransactions env block ++ transactionEntries env below :=
  List.flatMap_cons

theorem mem_transactionEntries {tx : Transaction} {height : UInt32} :
    (hash, tx, height) ∈ transactionEntries env chain ↔
      ∃ block ∈ chain, tx ∈ block.transactions ∧ tx.hash env.crypto = hash ∧
        block.blockdata.height = height := by
  simp only [transactionEntries, blockTransactions, List.mem_flatMap, List.mem_map, Prod.mk.injEq]
  constructor
  · rintro ⟨block, member, tx, txMember, rfl, rfl, rfl⟩
    exact ⟨block, member, txMember, rfl, rfl⟩
  · rintro ⟨block, member, txMember, rfl, rfl⟩
    exact ⟨block, member, tx, txMember, rfl, rfl, rfl⟩

/-- The transactions of a chain, by hash. -/
theorem mem_map_fst_transactionEntries :
    hash ∈ (transactionEntries env chain).map Prod.fst ↔
      ∃ block ∈ chain, ∃ tx ∈ block.transactions, tx.hash env.crypto = hash := by
  constructor
  · intro member
    obtain ⟨⟨_, tx, height⟩, entry, rfl⟩ := List.mem_map.mp member
    obtain ⟨block, blockMember, txMember, sameHash, -⟩ := mem_transactionEntries.mp entry
    exact ⟨block, blockMember, tx, txMember, sameHash⟩
  · rintro ⟨block, blockMember, tx, txMember, sameHash⟩
    exact List.mem_map.mpr ⟨(hash, tx, block.blockdata.height),
      mem_transactionEntries.mpr ⟨block, blockMember, txMember, sameHash, rfl⟩, rfl⟩

theorem mem_blockAssets {entry : Uint256 × Asset} :
    entry ∈ blockAssets env block ↔ ∃ tx ∈ block.transactions, ∃ asset,
      registeredAsset tx = some asset ∧ (tx.hash env.crypto, asset) = entry := by
  simp only [blockAssets, List.mem_filterMap, Option.map_eq_some_iff]

theorem map_fst_blockAssets_sublist (block : Block) :
    ((blockAssets env block).map Prod.fst).Sublist (block.txHashes env.crypto) := by
  unfold blockAssets Block.txHashes
  induction block.transactions with
  | nil => exact List.Sublist.slnil
  | cons tx txs ih =>
    cases registered : registeredAsset tx with
    | none =>
      rw [List.filterMap_cons_none (by simp [registered]), List.map_cons]
      exact ih.cons _
    | some asset =>
      rw [List.filterMap_cons_some (by simp [registered]; rfl), List.map_cons, List.map_cons]
      exact ih.cons_cons _

/-- Assets are found under the hashes of transactions. -/
theorem mem_transactionEntries_of_asset (member : hash ∈ (assetEntries env chain).map Prod.fst) :
    hash ∈ (transactionEntries env chain).map Prod.fst := by
  obtain ⟨entry, isEntry, rfl⟩ := List.mem_map.mp member
  obtain ⟨block, blockMember, inBlock⟩ := List.mem_flatMap.mp isEntry
  obtain ⟨tx, txMember, asset, -, rfl⟩ := mem_blockAssets.mp inBlock
  exact mem_map_fst_transactionEntries.mpr ⟨block, blockMember, tx, txMember, rfl⟩

theorem persistTransactions_asset :
    (store.persistTransactions env.crypto block).asset = (blockAssets env block).foldl
      (fun table entry => write table entry.1 (some entry.2)) store.asset := by
  rw [blockAssets, List.foldl_filterMap]
  refine congrArg (fun step => block.transactions.foldl step store.asset) ?_
  funext table tx
  unfold registeredAsset
  cases tx.payload <;> rfl

theorem rollbackTransactions_asset :
    (store.rollbackTransactions env.crypto block).asset = (blockAssets env block).foldl
      (fun table entry => write table entry.1 none) store.asset := by
  rw [blockAssets, List.foldl_filterMap]
  refine congrArg (fun step => block.transactions.foldl step store.asset) ?_
  funext table tx
  unfold registeredAsset Transaction.txType
  cases tx.payload <;> rfl

/-- A transaction that passes the context check is not in the store. -/
theorem transaction_eq_none_of_checked {tx : Transaction}
    (checked : checkTransactionContext env store tx = .ok ()) :
    store.transaction (tx.hash env.crypto) = none :=
  (checkTransactionContext_eq_ok.mp checked).1

/-- The height below the last block is that of its parent. -/
theorem height_sub_one {block tip : Block} {below : List Block}
    (branch : (blockLinks env).Branch known (block :: tip :: below)) :
    block.blockdata.height - 1 = tip.blockdata.height := by
  cases branch with
  | extend rest isKnown linked above => rw [height_eq_succ above, UInt32.add_sub_cancel]

section Steps

variable (admissible : Admissible env known)
include admissible

variable {block : Block} {below : List Block}

section

variable (branch : (blockLinks env).Branch known (block :: below))
include branch

/-- A block on top of a chain differs from all blocks below in hash and height. -/
theorem hash_and_height_fresh {other : Block} (member : other ∈ below) :
    other.hash env.crypto ≠ block.hash env.crypto ∧
      other.blockdata.height ≠ block.blockdata.height := by
  have lower : other.blockdata.height.toNat < block.blockdata.height.toNat :=
    (List.pairwise_cons.mp branch.height_lt).1 other member
  constructor
  · intro same
    have equal := branch.eq_of_hash admissible.faithful (List.mem_cons_of_mem _ member)
      List.mem_cons_self same
    exact absurd lower (by simp [equal])
  · intro same
    exact absurd lower (by simp [same])

theorem Represents.connect {before after : ChainStore}
    (represents : Represents env below before)
    (checked : checkTransactionsContext env before block.transactions = .ok ())
    (persisted : Persisted env.crypto block before after) :
    Represents env (block :: below) after where
  header := by
    rw [persisted.header]
    refine represents.header.insert_one (represents.header.eq_none_iff.mpr ?_)
    simp only [headerEntries, List.map_map, List.mem_map, not_exists, not_and]
    exact fun other member => (hash_and_height_fresh admissible branch member).1
  blockHash := by
    rw [persisted.blockHash]
    refine represents.blockHash.insert_one (represents.blockHash.eq_none_iff.mpr ?_)
    simp only [blockHashEntries, List.map_map, List.mem_map, not_exists, not_and]
    exact fun other member => (hash_and_height_fresh admissible branch member).2
  transaction := by
    have isKnown := branch.known_of_mem admissible.genesis _ List.mem_cons_self
    have distinct : ((blockTransactions env block).map Prod.fst).Nodup := by
      simpa using (admissible.sane _ isKnown).distinct
    rw [persisted.transaction, transactionEntries_cons]
    have inserted := represents.transaction.insert distinct <| by
        intro entry member
        obtain ⟨tx, txMember, rfl⟩ := List.mem_map.mp member
        exact transaction_eq_none_of_checked (checkTransactionsContext_eq_ok.mp checked tx txMember)
    rwa [blockTransactions, List.foldl_map] at inserted
  asset := by
    have isKnown := branch.known_of_mem admissible.genesis _ List.mem_cons_self
    rw [persisted.asset, persistTransactions_asset]
    refine represents.asset.insert
      ((admissible.sane _ isKnown).distinct.sublist (map_fst_blockAssets_sublist block)) ?_
    intro entry member
    obtain ⟨tx, txMember, asset, -, rfl⟩ := mem_blockAssets.mp member
    have fresh := transaction_eq_none_of_checked
      (checkTransactionsContext_eq_ok.mp checked tx txMember)
    rw [represents.transaction.eq_none_iff] at fresh
    exact represents.asset.eq_none_iff.mpr (mt mem_transactionEntries_of_asset fresh)
  currentBlockHeight := by
    rintro tip ⟨⟩
    exact persisted.currentBlockHeight
  currentBlock := by
    rintro tip ⟨⟩
    exact persisted.currentBlock

/-- No transaction of the last block is one of a block below: it would lie at two
heights. -/
theorem Represents.tx_fresh {store : ChainStore}
    (represents : Represents env (block :: below) store) {tx : Transaction}
    (txMember : tx ∈ block.transactions) :
    tx.hash env.crypto ∉ (transactionEntries env below).map Prod.fst := by
  intro found
  obtain ⟨other, otherMember, tx', txMember', sameHash⟩ := mem_map_fst_transactionEntries.mp found
  have equal := represents.transaction.functional
    (mem_transactionEntries.mpr ⟨block, List.mem_cons_self, txMember, rfl, rfl⟩)
    (mem_transactionEntries.mpr ⟨other, List.mem_cons_of_mem _ otherMember, txMember', sameHash, rfl⟩)
  exact (hash_and_height_fresh admissible branch otherMember).2 (congrArg Prod.snd equal.symm)

end

theorem Represents.disconnect {block tip : Block}
    {before after : ChainStore}
    (branch : (blockLinks env).Branch known (block :: tip :: below))
    (represents : Represents env (block :: tip :: below) before)
    (rolledBack : RolledBack env.crypto block before after) :
    Represents env (tip :: below) after where
  header := by
    rw [rolledBack.header]
    refine represents.header.delete_one ?_
    simp only [List.map_map, List.mem_map, not_exists, not_and]
    exact fun other member => (hash_and_height_fresh admissible branch member).1
  blockHash := by
    rw [rolledBack.blockHash]
    refine represents.blockHash.delete_one ?_
    simp only [List.map_map, List.mem_map, not_exists, not_and]
    exact fun other member => (hash_and_height_fresh admissible branch member).2
  transaction := by
    have held := represents.transaction
    rw [transactionEntries_cons] at held
    have deleted := held.delete <| by
      intro entry member
      obtain ⟨tx, txMember, rfl⟩ := List.mem_map.mp member
      exact represents.tx_fresh admissible branch txMember
    rw [rolledBack.transaction]
    rwa [blockTransactions, List.foldl_map] at deleted
  asset := by
    rw [rolledBack.asset, rollbackTransactions_asset]
    have held : Holds before.asset (blockAssets env block ++ assetEntries env (tip :: below)) :=
      represents.asset
    refine held.delete ?_
    intro entry member
    obtain ⟨tx, txMember, asset, -, rfl⟩ := mem_blockAssets.mp member
    exact mt mem_transactionEntries_of_asset (represents.tx_fresh admissible branch txMember)
  currentBlockHeight := by
    rintro _ ⟨⟩
    rw [rolledBack.currentBlockHeight, height_sub_one branch]
  currentBlock := by
    rintro _ ⟨⟩
    cases branch with
    | extend rest isKnown linked above =>
      rw [rolledBack.currentBlock, height_sub_one (.extend rest isKnown linked above)]
      exact congrArg some (Prod.ext linked rfl)

omit admissible in
theorem represents_empty : Represents env [] .empty := by
  constructor <;> simp [Holds, ChainStore.empty, headerEntries, blockHashEntries,
    transactionEntries, assetEntries]

theorem represents_genesis : Represents env [genesisBlock env] (.genesis env) := by
  have persisted : Persisted env.crypto (genesisBlock env) .empty (.genesis env) :=
    ChainStore.persisted (ε := Unit) rfl
  exact represents_empty.connect admissible .root rfl persisted

/-- Along every history of the main chain the store holds exactly the chain. -/
theorem MainChain.represents {chain : List Block} {store : ChainStore}
    (mainChain : MainChain env known chain store) : Represents env chain store := by
  induction mainChain with
  | genesis => exact represents_genesis admissible
  | connect chain isKnown linked above checked persisted ih =>
    have branch := (MainChain.connect chain isKnown linked above checked persisted).branch admissible
    exact ih.connect admissible branch checked (ChainStore.persisted persisted)
  | disconnect chain rolledBack ih =>
    exact ih.disconnect admissible (chain.branch admissible) (ChainStore.rolledBack rolledBack)

end Steps

/-! ## Reading back -/

namespace Represents

variable {chain : List Block} {store : ChainStore} (represents : Represents env chain store)
include represents

variable {hash : Uint256} {block : Block}

theorem getBlockHash_eq_ok {height : UInt32} :
    store.getBlockHash height = .ok hash ↔
      ∃ block ∈ chain, block.blockdata.height = height ∧ block.hash env.crypto = hash := by
  rw [ChainStore.getBlockHash, Outcome.ofOption_eq_ok, represents.blockHash]
  simp [blockHashEntries]

theorem getHeader_eq_ok {header : Blockdata} :
    store.getHeader hash = .ok header ↔
      ∃ block ∈ chain, block.hash env.crypto = hash ∧ block.blockdata = header := by
  simp only [ChainStore.getHeader, Outcome.ofOption_eq_ok, Option.map_eq_some_iff,
    represents.header _ _, headerEntries, List.mem_map, Prod.mk.injEq]
  constructor
  · rintro ⟨_, ⟨block, member, sameHash, rfl⟩, sameHeader⟩
    exact ⟨block, member, sameHash, sameHeader⟩
  · rintro ⟨block, member, sameHash, sameHeader⟩
    exact ⟨_, ⟨block, member, sameHash, rfl⟩, sameHeader⟩

theorem getTransaction_eq (member : block ∈ chain) {tx : Transaction}
    (txMember : tx ∈ block.transactions) :
    store.getTransaction (tx.hash env.crypto) =
      if tx.txType = .deploy then .panic else .ok (tx, block.blockdata.height) := by
  have stored := (represents.transaction _ _).mpr
    (mem_transactionEntries.mpr ⟨block, member, txMember, rfl, rfl⟩)
  rw [ChainStore.getTransaction, stored]

theorem getTransaction_eq_ok {tx : Transaction} {height : UInt32} :
    store.getTransaction hash = .ok (tx, height) ↔
      (∃ block ∈ chain, tx ∈ block.transactions ∧ tx.hash env.crypto = hash ∧
        block.blockdata.height = height) ∧ tx.txType ≠ .deploy := by
  rw [← mem_transactionEntries, ← represents.transaction, ChainStore.getTransaction]
  cases store.transaction hash with
  | none => simp
  | some stored =>
    obtain ⟨tx', height'⟩ := stored
    by_cases deploy : tx'.txType = .deploy
    · simp only [deploy, if_true, reduceCtorEq, Option.some_inj, false_iff, not_and, not_not]
      rintro ⟨⟩
      exact deploy
    · simp only [deploy, if_false, Outcome.ok.injEq, Option.some_inj, iff_self_and]
      rintro ⟨⟩
      exact deploy

theorem getTransactions_eq (member : block ∈ chain) {txs : List Transaction}
    (among : ∀ tx ∈ txs, tx ∈ block.transactions) :
    store.getTransactions (txs.map (Transaction.hash env.crypto)) =
      if ∃ tx ∈ txs, tx.txType = .deploy then .panic else .ok txs := by
  induction txs with
  | nil => simp [ChainStore.getTransactions]
  | cons tx txs ih =>
    have first := represents.getTransaction_eq member (among tx List.mem_cons_self)
    have rest := ih fun other otherMember => among other (List.mem_cons_of_mem _ otherMember)
    rw [List.map_cons, ChainStore.getTransactions, first, rest]
    by_cases deploy : tx.txType = .deploy
    · simp [deploy]
    · by_cases later : ∃ tx ∈ txs, tx.txType = .deploy
      · simp [deploy, later]
      · simp [deploy, later]

/-- A block of the chain is read back as it was persisted, unless it deploys code. -/
theorem getBlock_eq (member : block ∈ chain) (sane : Sane env block) :
    store.getBlock env.crypto (block.hash env.crypto) =
      if ∃ tx ∈ block.transactions, tx.txType = .deploy then .panic else .ok block := by
  have stored : store.header (block.hash env.crypto) =
      some ⟨block.blockdata, block.txHashes env.crypto⟩ :=
    (represents.header _ _).mpr (List.mem_map_of_mem member)
  have txs := represents.getTransactions_eq member fun tx txMember => txMember
  change store.getTransactions (block.txHashes env.crypto) = _ at txs
  simp only [ChainStore.getBlock, stored, ChainStore.fromTrimmedData, sane.root, Outcome.ofOption,
    Outcome.bind_ok, Outcome.pure_eq, txs]
  split <;> rfl

theorem getBlock_eq_error (other : ∀ block ∈ chain, block.hash env.crypto ≠ hash) :
    store.getBlock env.crypto hash = .error .notFound := by
  have missing : store.header hash = none := by
    rw [represents.header.eq_none_iff]
    simpa [headerEntries] using other
  simp [ChainStore.getBlock, missing, Outcome.ofOption]

/-- Whatever block is read is one of the chain. -/
theorem mem_of_getBlock (sane : ∀ block ∈ chain, Sane env block)
    (read : store.getBlock env.crypto hash = .ok block) :
    block ∈ chain ∧ block.hash env.crypto = hash := by
  by_cases found : ∃ other ∈ chain, other.hash env.crypto = hash
  · obtain ⟨other, member, rfl⟩ := found
    rw [represents.getBlock_eq member (sane other member)] at read
    split at read
    · cases read
    · obtain rfl := Outcome.ok.inj read
      exact ⟨member, rfl⟩
  · rw [represents.getBlock_eq_error (by simpa using found)] at read
    cases read

theorem blockAt_eq (member : block ∈ chain) :
    store.blockAt block.blockdata.height = some block := by
  have hash : store.blockHash block.blockdata.height = some (block.hash env.crypto) :=
    (represents.blockHash _ _).mpr (List.mem_map_of_mem member)
  have trimmed : store.header (block.hash env.crypto) =
      some ⟨block.blockdata, block.txHashes env.crypto⟩ :=
    (represents.header _ _).mpr (List.mem_map_of_mem member)
  have txs (among : List Transaction) (sub : ∀ tx ∈ among, tx ∈ block.transactions) :
      (among.map (Transaction.hash env.crypto)).mapM
        (fun hash => (store.transaction hash).map Prod.fst) = some among := by
    induction among with
    | nil => rfl
    | cons tx among ih =>
      have stored := (represents.transaction _ _).mpr (mem_transactionEntries.mpr
        ⟨block, member, sub tx List.mem_cons_self, rfl, rfl⟩)
      have rest := ih fun other member => sub other (List.mem_cons_of_mem _ member)
      simp [List.mapM_cons, stored, rest]
  have all := txs block.transactions fun tx member => member
  change (block.txHashes env.crypto).mapM _ = _ at all
  simp [ChainStore.blockAt, hash, trimmed, all]

/-- The chain can be read off the tables. -/
theorem mainChain_eq (branch : (blockLinks env).Branch known chain) :
    store.mainChain = chain := by
  have length : store.currentBlockHeight.toNat + 1 = chain.length := by
    cases chain with
    | nil => cases branch
    | cons tip below =>
      rw [represents.currentBlockHeight tip rfl]
      exact branch.height_eq_length rfl tip rfl
  rw [ChainStore.mainChain, length]
  refine branch.filterMap_range rfl fun block member => ?_
  change store.blockAt (UInt32.ofNat block.blockdata.height.toNat) = some block
  rw [UInt32.ofNat_toNat, represents.blockAt_eq member]

end Represents

end DnaPow.Ledger
