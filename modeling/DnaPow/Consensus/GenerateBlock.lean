import DnaPow.Common.Address
import DnaPow.Consensus.SolveBlock
import DnaPow.Net.TransactionPool

/-!
# The block template of a miner

`GenerateBlock` puts transactions of the pool behind a coinbase transaction, as long as they
fit, and takes the rest of the header from the tip of the chain. A solved template passes what
depends on the chain. Of the sanity check it passes what concerns the root, the first
transaction and the number of transactions; the miner does not look for a second coinbase
transaction, and it forgets the header when it adds up the size.
-/

namespace DnaPow.Consensus

open DnaPow.Std Common Core Ledger Net

/-- What the miner is given, and what it computes in floating point. -/
structure Miner where
  base58 : Base58
  payToAddr : Bytes
  minerInfo : Bytes
  /-- The random bytes of the nonce attribute. -/
  nonce : Bytes
  calcBlockSubsidy : UInt32 → Fixed64
  /-- Three tenths of the reward. -/
  rewardFoundation : Fixed64 → Fixed64

inductive TemplateError where
  | address (reason : AddressError)
  | difficulty (reason : DifficultyError)
  deriving DecidableEq, Repr

/-- A transaction of the pool, and the fee that was recorded when it entered. -/
abbrev Offer := Transaction × Fixed64

/-- The variables of the loop over the pool. -/
structure Selection where
  transactions : List Transaction
  calcTxsSize : Nat
  calcTxsAmount : Nat
  totalFee : Fixed64

section Template

variable (env : Env) (miner : Miner) (bc : Blockchain)

/-- The transaction of `CreateCoinbaseTrx`, for an address that was decoded. The values of the
outputs are zero until the fees are known. -/
def createCoinbaseTrx (nextBlockHeight : UInt32) (minerProgramHash : Uint160)
    (foundation rest : Fixed64) : Transaction where
  payloadVersion := 4
  payload := .coinBase miner.minerInfo
  attributes := [⟨.nonce, miner.nonce⟩]
  utxoInputs := [⟨coinbaseOutpoint, 0xffffffff⟩]
  outputs := [⟨bc.assetID, foundation, env.foundationProgramHash⟩,
    ⟨bc.assetID, rest, minerProgramHash⟩]
  lockTime := nextBlockHeight
  programs := []

/-- The fee of a transaction that the loop takes, or nothing if it goes on without it. -/
def takes {ε : Type} (nextBlockHeight : UInt32) (offer : Offer) : Outcome ε (Option Fixed64) :=
  if isFinalizedTransaction offer.1 nextBlockHeight = false then .ok none
  else
    match checkTransactionContext env bc.store offer.1 with
    | .panic => .panic
    | .error _ => .ok none
    | .ok () =>
        match getFee bc.store bc.assetID offer.1 with
        | .ok fee => .ok (if fee = offer.2 then some fee else none)
        | _ => .panic

/-- The loop over the pool. -/
def selectTransactions {ε : Type} (nextBlockHeight : UInt32) :
    List Offer → Selection → Outcome ε Selection
  | [], selection => .ok selection
  | offer :: txPool, selection =>
      if env.maxBlockSize < offer.1.getSize + selection.calcTxsSize then .ok selection
      else if env.maxTxInBlock ≤ selection.calcTxsAmount then .ok selection
      else do
        match ← takes env bc nextBlockHeight offer with
        | none => selectTransactions nextBlockHeight txPool selection
        | some fee =>
            selectTransactions nextBlockHeight txPool
              ⟨selection.transactions ++ [offer.1], selection.calcTxsSize + offer.1.getSize,
                selection.calcTxsAmount + 1, selection.totalFee + fee⟩

/-- `MedianAdjustedTime`, in seconds. -/
def medianAdjustedTime (adjustedTime : Int) : Int :=
  if adjustedTime < bc.medianTimePast + 1 then bc.medianTimePast + 1 else adjustedTime

/-- `GenerateBlock`, with the pool in the order that sorting left it in. -/
def generateBlock (adjustedTime : Int) (txPool : List Offer) : Outcome TemplateError Block := do
  let nextBlockHeight := bc.blockHeight + 1
  let minerProgramHash ←
    mapError .address (toScriptHash env.crypto miner.base58 miner.payToAddr)
  let coinBaseTx := createCoinbaseTrx env miner bc nextBlockHeight minerProgramHash
  match bc.bestChain with
  | none => .panic
  | some tip => do
      let selection ←
        selectTransactions env bc nextBlockHeight txPool ⟨[], (coinBaseTx 0 0).getSize, 1, 0⟩
      let reward := selection.totalFee + miner.calcBlockSubsidy nextBlockHeight
      let foundation := miner.rewardFoundation reward
      let transactions := coinBaseTx foundation (reward - foundation) :: selection.transactions
      let bits ← mapError .difficulty (calcNextRequiredDifficulty env.chainParam bc.nodes tip)
      return {
        blockdata := {
          version := 0
          prevBlockHash := (bc.nodes.get tip).hash
          transactionsRoot :=
            (computeRoot env.crypto (transactions.map (Transaction.hash env.crypto))).getD 0
          timestamp := .ofInt (medianAdjustedTime bc adjustedTime)
          bits
          height := nextBlockHeight
          nonce := 0
          auxPow := .empty }
        transactions }

end Template

section Properties

variable {env : Env} {miner : Miner} {bc : Blockchain} {adjustedTime : Int}
  {txPool chosen : List Offer} {block : Block}

/-- An offer that the loop takes: final, admitted by the store and with the fee recorded. -/
structure Acceptable (env : Env) (bc : Blockchain) (offer : Offer) : Prop where
  final : isFinalizedTransaction offer.1 (bc.blockHeight + 1) = true
  checked : checkTransactionContext env bc.store offer.1 = .ok ()
  fee : getFee bc.store bc.assetID offer.1 = .ok offer.2

theorem Acceptable.of_takes {offer : Offer} {fee : Fixed64}
    (took : takes (ε := TemplateError) env bc (bc.blockHeight + 1) offer = .ok (some fee)) :
    Acceptable env bc offer ∧ fee = offer.2 := by
  unfold takes at took
  split at took
  · cases took
  · rename_i final
    split at took
    · cases took
    · cases took
    · rename_i checked
      split at took
      · rename_i hasFee
        split at took
        · rename_i same
          cases took
          exact ⟨⟨by simpa using final, checked, same ▸ hasFee⟩, same⟩
        · cases took
      · cases took

/-- The loop goes from one state to another by taking the given offers. -/
structure Takes (env : Env) (bc : Blockchain) (chosen : List Offer) (start after : Selection) :
    Prop where
  acceptable : ∀ offer ∈ chosen, Acceptable env bc offer
  transactions : after.transactions = start.transactions ++ chosen.map Prod.fst
  few : start.calcTxsAmount + chosen.length ≤ max start.calcTxsAmount env.maxTxInBlock
  totalFee : after.totalFee = start.totalFee + (chosen.map Prod.snd).sum

theorem exists_takes {start after : Selection}
    (selected : selectTransactions env bc (bc.blockHeight + 1) txPool start =
      (.ok after : Outcome TemplateError Selection)) :
    ∃ chosen, chosen.Sublist txPool ∧ Takes env bc chosen start after := by
  have done : Takes env bc [] after after := ⟨by simp, by simp, by simp, by simp⟩
  induction txPool generalizing start with
  | nil =>
    cases selected
    exact ⟨[], .refl _, done⟩
  | cons offer txPool ih =>
    rw [selectTransactions] at selected
    split_ifs at selected with full many
    · cases selected
      exact ⟨[], List.nil_sublist _, done⟩
    · cases selected
      exact ⟨[], List.nil_sublist _, done⟩
    · obtain ⟨answer, took, selected⟩ := Outcome.bind_eq_ok.mp selected
      cases answer with
      | none =>
        obtain ⟨chosen, sublist, run⟩ := ih selected
        exact ⟨chosen, sublist.cons _, run⟩
      | some fee =>
        obtain ⟨chosen, sublist, run⟩ := ih selected
        obtain ⟨acceptable, rfl⟩ := Acceptable.of_takes took
        refine ⟨offer :: chosen, sublist.cons_cons _,
          List.forall_mem_cons.mpr ⟨acceptable, run.acceptable⟩, ?_, ?_, ?_⟩
        · simpa using run.transactions
        · have few := run.few
          simp only [List.length_cons] at few ⊢
          omega
        · simp only [run.totalFee, List.map_cons, List.sum_cons, Int64.add_assoc]

/-- The parts of a template. -/
structure Template (env : Env) (miner : Miner) (bc : Blockchain) (adjustedTime : Int)
    (tip : NodeId) (chosen : List Offer) (block : Block) : Prop where
  best : bc.bestChain = some tip
  acceptable : ∀ offer ∈ chosen, Acceptable env bc offer
  few : 1 + chosen.length ≤ max 1 env.maxTxInBlock
  transactions : ∃ minerProgramHash foundation, block.transactions =
    createCoinbaseTrx env miner bc (bc.blockHeight + 1) minerProgramHash foundation
      ((chosen.map Prod.snd).sum + miner.calcBlockSubsidy (bc.blockHeight + 1) - foundation) ::
        chosen.map Prod.fst
  root : computeRoot env.crypto (block.txHashes env.crypto) = some block.blockdata.transactionsRoot
  timestamp : block.blockdata.timestamp = .ofInt (medianAdjustedTime bc adjustedTime)
  bits : calcNextRequiredDifficulty env.chainParam bc.nodes tip = .ok block.blockdata.bits

theorem exists_template
    (generated : generateBlock env miner bc adjustedTime txPool = .ok block) :
    ∃ tip chosen, chosen.Sublist txPool ∧ Template env miner bc adjustedTime tip chosen block := by
  simp only [generateBlock, Outcome.bind_eq_ok, mapError_eq_ok] at generated
  obtain ⟨minerProgramHash, -, generated⟩ := generated
  cases best : bc.bestChain with
  | none => simp [best] at generated
  | some tip =>
    simp only [best, Outcome.bind_eq_ok, mapError_eq_ok] at generated
    obtain ⟨selection, selected, bits, required, same⟩ := generated
    obtain ⟨chosen, sublist, run⟩ := exists_takes selected
    simp only [run.totalFee, run.transactions, Int64.zero_add, List.nil_append] at same
    cases same
    exact ⟨tip, chosen, sublist, best, run.acceptable, run.few, ⟨minerProgramHash, _, rfl⟩,
      by simp [computeRoot, Block.txHashes], rfl, required⟩

/-! ## What a template passes -/

open Ledger.Blockchain Net.Sample

/-- A miner whose addresses are decimal. -/
def decimalMiner : Miner where
  base58 := ⟨some, some, fun _ => ⟨_, rfl, rfl⟩⟩
  payToAddr := formatUint (ofBigEndian (addressBytes Env.sample.crypto 7))
  minerInfo := []
  nonce := List.replicate 8 0
  calcBlockSubsidy _ := 1000
  rewardFoundation reward := reward / 10 * 3

def oneBlock : Blockchain :=
  (run .sample (Ledger.Sample.deliveries [firstBlock])).getD (fresh .sample)

/-- The template for a pool with one transaction. -/
def payment : Block :=
  (generateBlock .sample decimalMiner oneBlock 1506816010 [(contained, 4000)]).toOption.getD
    firstBlock

theorem generated_payment :
    generateBlock .sample decimalMiner oneBlock 1506816010 [(contained, 4000)] = .ok payment := by
  decide +kernel

/-- A solved template passes the checks against its parent, and its transactions those against
the store, if the local clock or the median time that the chain remembers is up to date. -/
theorem powCheckBlockContext_solved
    (generated : generateBlock env miner bc adjustedTime txPool = .ok block) (nonce : UInt32)
    {tip : NodeId} {median : Nat}
    (best : bc.bestChain = some tip) (height : bc.blockHeight = (bc.nodes.get tip).height)
    (hasMedian : bc.nodes.calcPastMedianTime (ε := BlockError) (some tip) = .ok median)
    (late : median ≤ bc.medianTimePast ∨ (median : Int) < adjustedTime)
    (early : medianAdjustedTime bc adjustedTime < 2 ^ 32) :
    powCheckBlockContext env bc.nodes (withNonce block nonce) bc.bestChain = .ok () ∧
      checkTransactionsContext env bc.store block.transactions.tail = .ok () := by
  obtain ⟨tip', chosen, -, template⟩ := exists_template generated
  obtain ⟨_, _, transactions⟩ := template.transactions
  cases best.symm.trans template.best
  have later : median < medianAdjustedTime bc adjustedTime := by
    unfold medianAdjustedTime
    split <;> omega
  simp only [best, powCheckBlockContext, withNonce, template.bits, mapError, Outcome.bind_ok,
    hasMedian, Outcome.require_eq_ok, Outcome.bind_eq_ok, template.timestamp, transactions,
    List.tail_cons, checkTransactionsContext_eq_ok, List.forall_mem_map, ← height,
    UInt32.ofInt, UInt32.toNat_ofNat']
  exact ⟨⟨(), trivial, (), by omega, fun offer member => (template.acceptable offer member).final⟩,
    fun offer member => (template.acceptable offer member).checked⟩

theorem powCheckBlockContext_solved_payment :
    powCheckBlockContext .sample oneBlock.nodes (withNonce payment 5) oneBlock.bestChain =
      .ok () := by
  have best : oneBlock.bestChain = some 1 := by decide +kernel
  have hasMedian : oneBlock.nodes.calcPastMedianTime (ε := BlockError) (some 1) =
      .ok 1506816001 := by decide +kernel
  exact (powCheckBlockContext_solved generated_payment 5 best (by decide +kernel) hasMedian
    (.inr (by decide)) (by decide +kernel)).1

/-- The coinbase transaction of a template pays the subsidy and the fees of the others. -/
theorem coinbase_pays
    (generated : generateBlock env miner bc adjustedTime txPool = .ok block) :
    ∃ coinbase fees, block.transactions.head? = some coinbase ∧
      List.Forall₂ (fun tx fee => getFee bc.store bc.assetID tx = .ok fee)
        block.transactions.tail fees ∧
      (coinbase.outputs.map TxOutput.value).sum =
        fees.sum + miner.calcBlockSubsidy (bc.blockHeight + 1) := by
  obtain ⟨_, chosen, -, template⟩ := exists_template generated
  obtain ⟨_, _, transactions⟩ := template.transactions
  refine ⟨_, chosen.map Prod.snd, by rw [transactions]; rfl, ?_, ?_⟩
  · rw [transactions, List.tail_cons, List.forall₂_map_left_iff, List.forall₂_map_right_iff,
      List.forall₂_same]
    exact fun offer member => (template.acceptable offer member).fee
  · simp only [createCoinbaseTrx, List.map_cons, List.map_nil, List.sum_cons, List.sum_nil,
      Int64.add_zero]
    rw [Int64.add_comm, Int64.sub_add_cancel]

theorem coinbase_pays_payment : ∃ coinbase fees, payment.transactions.head? = some coinbase ∧
    List.Forall₂ (fun tx fee => getFee oneBlock.store oneBlock.assetID tx = .ok fee)
      payment.transactions.tail fees ∧
    (coinbase.outputs.map TxOutput.value).sum =
      fees.sum + decimalMiner.calcBlockSubsidy (oneBlock.blockHeight + 1) :=
  coinbase_pays generated_payment

/-- Behind the coinbase transaction, no output is consumed twice, and none that was consumed
before, if the miner is given transactions of an indexed pool. -/
theorem generateBlock_disjoint
    (generated : generateBlock env miner bc adjustedTime txPool = .ok block) {pool : TXNPool env}
    (indexed : pool.Indexed)
    (listed : ∀ offer ∈ txPool, pool.txnList (offer.1.hash env.crypto) = some offer.1)
    (once : (txPool.map fun offer => offer.1.hash env.crypto).Nodup) :
    block.transactions.tail.Pairwise (fun first second =>
        (references first).Disjoint (references second)) ∧
      ∀ tx ∈ block.transactions.tail, tx.isCoinBaseTx = false →
        bc.store.isDoubleSpend tx = false := by
  obtain ⟨_, chosen, sublist, template⟩ := exists_template generated
  obtain ⟨_, _, transactions⟩ := template.transactions
  rw [transactions, List.tail_cons, List.pairwise_map, List.forall_mem_map]
  constructor
  · refine (List.pairwise_map.mp (once.sublist (sublist.map _))).imp_of_mem ?_
    intro first second member member' distinct o consumed consumed'
    have owner := indexed.registered _ _ (listed first (sublist.subset member)) o consumed
    rw [indexed.registered _ _ (listed second (sublist.subset member')) o consumed'] at owner
    exact distinct (congrArg _ (Option.some.inj owner).symm)
  · intro offer member notCoinbase
    have checked := (template.acceptable offer member).checked
    exact ((checkTransactionContext_eq_ok.mp checked).2 notCoinbase).1

theorem generateBlock_disjoint_payment : ∃ pool : TXNPool .sample, pool.Indexed ∧
    pool.txnList (contained.hash Env.sample.crypto) = some contained ∧
    ∀ tx ∈ payment.transactions.tail, tx.isCoinBaseTx = false →
      oneBlock.store.isDoubleSpend tx = false := by
  have accepted : ((TXNPool.init .sample).appendTxnPool oneBlock.assetID oneBlock.store
      contained).toOption.bind (·.txnList (contained.hash Env.sample.crypto)) = some contained := by
    decide +kernel
  obtain ⟨pool, appended, listed⟩ := Option.bind_eq_some_iff.mp accepted
  have indexed := TXNPool.indexed_init.appendTxnPool nofun (Outcome.toOption_eq_some.mp appended)
  exact ⟨pool, indexed, listed, (generateBlock_disjoint generated_payment indexed
    (List.forall_mem_singleton.mpr listed) (List.nodup_singleton _)).2⟩

/-- What the miner leaves open of the sanity check. -/
theorem powCheckBlockSanity_solved_iff
    (generated : generateBlock env miner bc adjustedTime txPool = .ok block) (nonce : UInt32)
    (now : Int) (room : 1 ≤ env.maxTxInBlock) :
    powCheckBlockSanity env bc.assetID bc.store now (withNonce block nonce) = .ok () ↔
      checkAuxPow env (withNonce block nonce).blockdata = .ok () ∧
      checkProofOfWork env (withNonce block nonce).blockdata = .ok () ∧
      (block.blockdata.timestamp.toNat : Int) ≤ now + maxTimeOffsetSeconds ∧
      (withNonce block nonce).getSize ≤ env.maxBlockSize ∧
      (∀ tx ∈ block.transactions.tail, tx.isCoinBaseTx = false) ∧
      (block.txHashes env.crypto).Nodup ∧
      ∀ tx ∈ block.transactions, checkTransactionSanity env bc.assetID bc.store tx = .ok () := by
  obtain ⟨_, chosen, -, template⟩ := exists_template generated
  obtain ⟨_, _, transactions⟩ := template.transactions
  have few : block.transactions.length ≤ env.maxTxInBlock := by
    have := template.few
    rw [transactions, List.length_cons, List.length_map]
    omega
  have some : block.transactions ≠ [] := by simp [transactions]
  have first : block.transactions.head?.all Transaction.isCoinBaseTx = true := by
    rw [transactions]
    rfl
  simp only [powCheckBlockSanity, Outcome.bind_eq_ok, Outcome.require_eq_ok,
    checkTransactionsSanity_eq_ok]
  constructor
  · rintro ⟨_, aux, _, work, _, time, _, -, _, -, _, size, _, -, _, others, _, -, _, distinct, sane⟩
    exact ⟨aux, work, time, size, others, distinct, sane⟩
  · rintro ⟨aux, work, time, size, others, distinct, sane⟩
    exact ⟨(), aux, (), work, (), time, (), some, (), few, (), size, (), first, (), others, (),
      template.root, (), distinct, sane⟩

theorem powCheckBlockSanity_solved_payment : powCheckBlockSanity .sample oneBlock.assetID
    oneBlock.store 1506816010 (withNonce payment 5) = .ok () :=
  (powCheckBlockSanity_solved_iff generated_payment 5 _ (by decide)).mpr (by decide +kernel)

end Properties

end DnaPow.Consensus
