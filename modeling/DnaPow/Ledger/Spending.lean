import DnaPow.Ledger.Refinement
import DnaPow.Ledger.Outputs

/-!
# What main chains spend

Which outputs the blocks of the main chain consume, in every state that a node
reaches by processing blocks.
-/

namespace DnaPow.Ledger

open DnaPow.Std Common Core

/-! ## Maturity -/

/-- An input of the chain that consumes an output of a coinbase transaction lies at
least the given number of blocks above it. -/
def Mature (env : Env) (span : Nat) (chain : List Block) : Prop :=
  ∀ block ∈ chain, ∀ outpoint ∈ spentOutpoints block,
    ∀ source ∈ chain, ∀ coinbase ∈ source.transactions, coinbase.isCoinBaseTx →
      coinbase.hash env.crypto = outpoint.referTxID →
      source.blockdata.height.toNat + span ≤ block.blockdata.height.toNat

/-- The coinbase transactions of a block carry its height, or one less. -/
def Dated (block : Block) : Prop :=
  ∀ tx ∈ block.transactions, tx.isCoinBaseTx →
    tx.lockTime = block.blockdata.height ∨ tx.lockTime + 1 = block.blockdata.height

instance (block : Block) : Decidable (Dated block) :=
  inferInstanceAs (Decidable (∀ tx ∈ block.transactions, tx.isCoinBaseTx →
    tx.lockTime = block.blockdata.height ∨ tx.lockTime + 1 = block.blockdata.height))

theorem dated_genesisBlock (env : Env) : Dated (genesisBlock env) := by
  simp [Dated, genesisBlock, genesisCoinbase, systemToken, Transaction.isCoinBaseTx,
    Transaction.txType]

/-- What the check of one input says about a coinbase transaction that carries the
height of its block. -/
theorem mature_of_check {tip height lockTime span : UInt32} (low : height.toNat ≤ tip.toNat)
    (dated : lockTime = height ∨ lockTime + 1 = height) (passed : ¬ tip - lockTime < span) :
    height.toNat + span.toNat ≤ tip.toNat + 1 := by
  rw [UInt32.lt_iff_toNat_lt, UInt32.toNat_sub] at passed
  have lockTime_lt := lockTime.toNat_lt
  rcases dated with rfl | rfl
  · omega
  · simp only [UInt32.toNat_add, UInt32.reduceToNat] at low ⊢
    omega

/-- What a block consumes is consumed by an input of one of its transactions other
than coinbase ones. -/
theorem exists_input_of_spent {block : Block} {outpoint : Outpoint}
    (spent : outpoint ∈ spentOutpoints block) :
    ∃ tx ∈ block.transactions, tx.isCoinBaseTx = false ∧
      ∃ input ∈ tx.utxoInputs, input.toOutpoint = outpoint := by
  obtain ⟨tx, member, spent⟩ := List.mem_flatMap.mp spent
  unfold spentBy at spent
  split at spent
  · simp at spent
  · next notCoinbase => exact ⟨tx, member, by simpa using notCoinbase, List.mem_map.mp spent⟩

theorem MainChain.mature {env : Env} {known : Block → Prop} (admissible : Admissible env known)
    (dated : ∀ block, known block → Dated block) {chain : List Block} {store : ChainStore}
    (mainChain : MainChain env known chain store) :
    Mature env env.chainParam.spendCoinbaseSpan.toNat chain := by
  intro block member outpoint spent source sourceMember coinbase cbMember isCoinbase sameHash
  have branch := mainChain.branch admissible
  obtain ⟨upper, below, rfl⟩ := List.append_of_mem member
  have suffix := List.suffix_append upper (block :: below)
  cases branch.of_suffix suffix with
  | root => simp [blockLinks, genesisBlock, spentOutpoints, spentBy, genesisCoinbase, systemToken,
      Transaction.isCoinBaseTx, Transaction.txType, Transaction.outpoints] at spent
  | @extend _ tip below rest isKnown linked above =>
    obtain ⟨store', mainChain', checked⟩ := mainChain.checked_of_suffix suffix
    have represents' := mainChain'.represents admissible
    obtain ⟨tx, txMember, notCoinbase, input, inputMember, rfl⟩ := exists_input_of_spent spent
    have passed := checkTransactionContext_eq_ok.mp
      (checkTransactionsContext_eq_ok.mp checked tx txMember)
    obtain ⟨referTxn, height, output, read, -, -, immature⟩ :=
      checkInputContext_eq_ok.mp ((passed.2 notCoinbase).2 input inputMember)
    obtain ⟨⟨other, lower, otherMember, sameHash', rfl⟩, -⟩ :=
      represents'.getTransaction_eq_ok.mp read
    -- both names of the transaction lie on the main chain
    have otherMember' := suffix.subset (List.mem_cons_of_mem block lower)
    have equal := (mainChain.represents admissible).transaction.functional
      (mem_transactionEntries.mpr ⟨other, otherMember', otherMember, sameHash', rfl⟩)
      (mem_transactionEntries.mpr ⟨source, sourceMember, cbMember, sameHash, rfl⟩)
    obtain ⟨rfl, sameHeight⟩ := Prod.mk.inj equal
    rw [represents'.currentBlockHeight tip rfl] at immature
    have low : source.blockdata.height.toNat ≤ tip.blockdata.height.toNat := by
      rw [← sameHeight]
      rcases List.mem_cons.mp lower with rfl | lower
      · exact Nat.le_refl _
      · exact ((List.pairwise_cons.mp rest.height_lt).1 other lower).le
    have above : block.blockdata.height.toNat = tip.blockdata.height.toNat + 1 := above
    have sourceKnown := branch.known_of_mem admissible.genesis _ sourceMember
    rw [above]
    exact mature_of_check low (dated source sourceKnown referTxn cbMember isCoinbase)
      fun early => immature ⟨isCoinbase, early⟩

namespace Blockchain

variable {env : Env} {deliveries : List Delivery} {bc : Blockchain}

/-- The tables of the store hold a main chain of delivered blocks. -/
theorem mainChain_of_run (apart : HashesApart env deliveries)
    (few : deliveries.length + 1 < 2 ^ 32) (ran : run env deliveries = some bc) :
    MainChain env (Delivered env deliveries) bc.store.mainChain bc.store := by
  have admissible := admissible_delivered apart few
  obtain ⟨chain, invariant⟩ := run_sound apart few ran
  have represents := invariant.mainChain.represents admissible
  rw [represents.mainChain_eq (invariant.mainChain.branch admissible)]
  exact invariant.mainChain

/-! ## Spending twice -/

theorem regular_of_delivered (regular : ∀ delivery ∈ deliveries, Regular delivery.block)
    (block : Block) (delivered : Delivered env deliveries block) : Regular block := by
  rcases delivered with rfl | ⟨⟨delivery, member, rfl⟩, -⟩
  · exact regular_genesisBlock env
  · exact regular delivery member

/-- In every state that a run of regular blocks reaches, no outpoint is consumed
twice on the main chain. -/
theorem noDoubleSpend_of_run (env : Env) (deliveries : List Delivery) (bc : Blockchain)
    (apart : HashesApart env deliveries) (few : deliveries.length + 1 < 2 ^ 32)
    (regular : ∀ delivery ∈ deliveries, Regular delivery.block)
    (ran : run env deliveries = some bc) : NoDoubleSpend bc.store.mainChain := by
  have admissible := admissible_delivered apart few
  have mainChain := mainChain_of_run apart few ran
  have regular : ∀ block, Delivered env deliveries block → Regular block :=
    regular_of_delivered regular
  have tracks := mainChain.tracks admissible regular
  exact tracks.spends.noDoubleSpend fun block member =>
    regular block ((mainChain.branch admissible).known_of_mem admissible.genesis block member)

/-- A block that spends the coinbase of the first block. -/
def spendingBlock : Block :=
  Sample.block firstBlock [Sample.coinbase 2 2 5000,
    Sample.spend .transferAsset (Sample.coinbase 1 0x80000000 5000) 1000]

theorem noDoubleSpend_spendingBlock :
    ∃ bc, run .sample (Sample.deliveries [firstBlock, spendingBlock]) = some bc ∧
      bc.store.mainChain.length = 3 ∧ NoDoubleSpend bc.store.mainChain := by
  have ends : (run .sample (Sample.deliveries [firstBlock, spendingBlock])).map
      (·.store.mainChain.length) = some 3 := by decide +kernel
  obtain ⟨bc, ran, length⟩ := Option.map_eq_some_iff.mp ends
  refine ⟨bc, ran, length, noDoubleSpend_of_run .sample _ bc ⟨?_, ?_, ?_⟩ ?_ ?_ ran⟩ <;>
    decide +kernel

/-- A block with two transactions that spend one output of the first block. -/
def doubleSpendingBlock : Block :=
  Sample.block firstBlock [Sample.coinbase 2 2 5000,
    Sample.spend .transferAsset (Sample.coinbase 1 0x80000000 5000) 1000,
    Sample.spend .transferAsset (Sample.coinbase 1 0x80000000 5000) 2000]

theorem doubleSpendingBlock_connected :
    ∃ bc, run .sample (Sample.deliveries [firstBlock, doubleSpendingBlock]) = some bc ∧
      ¬ NoDoubleSpend bc.store.mainChain := by
  have twice : (run .sample (Sample.deliveries [firstBlock, doubleSpendingBlock])).map
      (fun bc => decide (NoDoubleSpend bc.store.mainChain)) = some false := by decide +kernel
  obtain ⟨bc, ran, twice⟩ := Option.map_eq_some_iff.mp twice
  exact ⟨bc, ran, of_decide_eq_false twice⟩

/-! ## The indexes -/

/-- In every state that a run of regular blocks reaches, the two indexes agree with
the main chain and with each other. -/
theorem indexesAgree_of_run (env : Env) (deliveries : List Delivery) (bc : Blockchain)
    (apart : HashesApart env deliveries) (few : deliveries.length + 1 < 2 ^ 32)
    (regular : ∀ delivery ∈ deliveries, Regular delivery.block)
    (ran : run env deliveries = some bc) : IndexesAgree env bc.store.mainChain bc.store := by
  have admissible := admissible_delivered apart few
  have mainChain := mainChain_of_run apart few ran
  have tracks := mainChain.tracks admissible (regular_of_delivered regular)
  exact tracks.indexesAgree (mainChain.represents admissible)

theorem indexesAgree_spendingBlock :
    ∃ bc, run .sample (Sample.deliveries [firstBlock, spendingBlock]) = some bc ∧
      bc.store.mainChain.length = 3 ∧ IndexesAgree .sample bc.store.mainChain bc.store := by
  have ends : (run .sample (Sample.deliveries [firstBlock, spendingBlock])).map
      (·.store.mainChain.length) = some 3 := by decide +kernel
  obtain ⟨bc, ran, length⟩ := Option.map_eq_some_iff.mp ends
  refine ⟨bc, ran, length, indexesAgree_of_run .sample _ bc ⟨?_, ?_, ?_⟩ ?_ ?_ ran⟩ <;>
    decide +kernel

/-- The output that is spent twice is gone from one index and still in the other. -/
theorem doubleSpendingBlock_indexes_differ :
    ∃ bc, run .sample (Sample.deliveries [firstBlock, doubleSpendingBlock]) = some bc ∧
      ¬ IndexesAgree .sample bc.store.mainChain bc.store := by
  let txid := (Sample.coinbase 1 0x80000000 5000).hash Env.sample.crypto
  let key : UnspentKey := (Env.sample.foundationProgramHash, systemToken.hash Env.sample.crypto, 1)
  have differ : (run .sample (Sample.deliveries [firstBlock, doubleSpendingBlock])).map (fun bc =>
      (decide (⟨txid, 0, 5000⟩ ∈ itemsOf bc.store.unspentUTXO key),
        decide (0 ∈ itemsOf bc.store.unspent txid))) = some (true, false) := by decide +kernel
  obtain ⟨bc, ran, differ⟩ := Option.map_eq_some_iff.mp differ
  obtain ⟨byProgram, byTransaction⟩ := Prod.mk.inj differ
  refine ⟨bc, ran, fun agree => of_decide_eq_false byTransaction ?_⟩
  obtain ⟨_, -, tx, -, index, _, -, -, same, available⟩ :=
    (agree.unspentUTXO _ _).mp (of_decide_eq_true byProgram)
  obtain ⟨sameTx, sameIndex, -⟩ := UTXOUnspent.mk.inj same
  obtain rfl : index = 0 := UInt16.toUInt32_inj.mp sameIndex.symm
  exact sameTx ▸ (agree.unspent _).mpr available

/-! ## Immature coinbases -/

/-- In every state that a run reaches whose blocks date their coinbase transactions,
coinbase outputs are spent only after the required number of blocks. -/
theorem mature_of_run (env : Env) (deliveries : List Delivery) (bc : Blockchain)
    (apart : HashesApart env deliveries) (few : deliveries.length + 1 < 2 ^ 32)
    (dated : ∀ delivery ∈ deliveries, Dated delivery.block)
    (ran : run env deliveries = some bc) :
    Mature env env.chainParam.spendCoinbaseSpan.toNat bc.store.mainChain := by
  refine (mainChain_of_run apart few ran).mature (admissible_delivered apart few) fun block => ?_
  rintro (rfl | ⟨⟨delivery, member, rfl⟩, -⟩)
  · exact dated_genesisBlock env
  · exact dated delivery member

/-- The sample parameters with coinbase outputs that can be spent in the next block. -/
def quickEnv : Env :=
  { Env.sample with chainParam := { Env.sample.chainParam with spendCoinbaseSpan := 1 } }

theorem mature_datedBlocks :
    let first := Sample.block (genesisBlock quickEnv) [Sample.coinbase 1 0 5000]
    let second := Sample.block first [Sample.coinbase 2 2 5000,
      Sample.spend .transferAsset (Sample.coinbase 1 0 5000) 1000]
    ∃ bc, run quickEnv (Sample.deliveries [first, second]) = some bc ∧
      bc.store.mainChain.length = 3 ∧ Mature quickEnv 1 bc.store.mainChain := by
  intro first second
  have ends : (run quickEnv (Sample.deliveries [first, second])).map
      (·.store.mainChain.length) = some 3 := by decide +kernel
  obtain ⟨bc, ran, length⟩ := Option.map_eq_some_iff.mp ends
  refine ⟨bc, ran, length, mature_of_run quickEnv _ bc ⟨?_, ?_, ?_⟩ ?_ ?_ ran⟩ <;>
    decide +kernel

/-- The coinbase of the first block is spent one block later, where 100 are required. -/
theorem spendingBlock_immature :
    ∃ bc, run .sample (Sample.deliveries [firstBlock, spendingBlock]) = some bc ∧
      ¬ Mature .sample Env.sample.chainParam.spendCoinbaseSpan.toNat bc.store.mainChain := by
  have chain : (run .sample (Sample.deliveries [firstBlock, spendingBlock])).map
      (·.store.mainChain) = some [spendingBlock, firstBlock, genesisBlock .sample] := by
    decide +kernel
  obtain ⟨bc, ran, chain⟩ := Option.map_eq_some_iff.mp chain
  refine ⟨bc, ran, fun mature => ?_⟩
  rw [chain] at mature
  have spent := mature spendingBlock (by simp)
    ⟨(Sample.coinbase 1 0x80000000 5000).hash Env.sample.crypto, 0⟩ (by decide +kernel)
    firstBlock (by simp) (Sample.coinbase 1 0x80000000 5000) (by decide +kernel) rfl rfl
  exact absurd spent (by decide +kernel)

end Blockchain

end DnaPow.Ledger
