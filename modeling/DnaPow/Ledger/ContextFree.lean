import DnaPow.Ledger.Spending
import DnaPow.Std.Partial

/-!
# Block sanity in different ledger states

`PowCheckBlockSanity` is meant to judge a block by itself. It reads the ledger all
the same: the precision of an output is that of an asset in the store, and the
balance and the programs of a transaction depend on the outputs its inputs refer
to. Two main chains over one genesis block never contradict each other about what
they both record, so that only what one of them lacks can change the verdict.
-/

namespace DnaPow.Ledger

open DnaPow.Std Common Core

/-- The store has what the sanity check of a transaction looks up: the asset of
every output and, unless no references are read, every transaction referred to. -/
def TransactionRecorded (store : ChainStore) (tx : Transaction) : Prop :=
  (∀ output ∈ tx.outputs, (store.asset output.assetID).isSome = true) ∧
    (tx.isCoinBaseTx = false → tx.txType ≠ .registerAsset →
      ∀ input ∈ tx.utxoInputs, (store.transaction input.referTxID).isSome = true)

instance (store : ChainStore) (tx : Transaction) : Decidable (TransactionRecorded store tx) :=
  inferInstanceAs (Decidable (_ ∧ _))

/-- The store has what the sanity check of a block looks up. -/
def BlockRecorded (store : ChainStore) (block : Block) : Prop :=
  ∀ tx ∈ block.transactions, TransactionRecorded store tx

instance (store : ChainStore) (block : Block) : Decidable (BlockRecorded store block) :=
  inferInstanceAs (Decidable (∀ tx ∈ block.transactions, TransactionRecorded store tx))

/-! ## What a passed check has found -/

section Found

variable {env : Env} {assetID : Uint256} {store : ChainStore} {adjustedTime : Int}

theorem recorded_of_getReferenceOf {input : UTXOTxInput} {output : TxOutput}
    (found : getReferenceOf store input = .ok output) :
    (store.transaction input.referTxID).isSome = true := by
  cases recorded : store.transaction input.referTxID with
  | some entry => rfl
  | none =>
    simp only [getReferenceOf, ChainStore.getTransaction, recorded] at found
    cases found

theorem recorded_of_checkAssetPrecision {outputs : List TxOutput}
    (passed : checkAssetPrecision store outputs = .ok ()) :
    ∀ output ∈ outputs, (store.asset output.assetID).isSome = true := by
  induction outputs with
  | nil => simp
  | cons output outputs ih =>
    simp only [checkAssetPrecision, ChainStore.getAsset, Outcome.bind_eq_ok, withError_eq_ok,
      Outcome.ofOption_eq_ok] at passed
    obtain ⟨asset, found, -, -, -, -, passed⟩ := passed
    intro other member
    rcases List.mem_cons.mp member with rfl | member
    · exact Option.isSome_of_eq_some found
    · exact ih passed other member

theorem recorded_of_checkTransactionSanity {tx : Transaction}
    (passed : checkTransactionSanity env assetID store tx = .ok ()) :
    TransactionRecorded store tx := by
  simp only [checkTransactionSanity, Outcome.bind_eq_ok] at passed
  obtain ⟨_, -, _, -, _, -, _, precise, _, -, passed⟩ := passed
  refine ⟨recorded_of_checkAssetPrecision precise, fun notCoinbase notRegistration input member => ?_⟩
  rw [if_neg (by simp [notCoinbase])] at passed
  simp only [checkTransactionBalance, getTransactionResults, Outcome.bind_eq_ok,
    withError_eq_ok] at passed
  obtain ⟨-, ⟨-, -, -, ⟨references, found, -⟩, -⟩, -⟩ := passed
  rw [getReference, if_neg notRegistration] at found
  obtain ⟨output, found⟩ := Outcome.exists_of_mapM_eq_ok found input member
  exact recorded_of_getReferenceOf found

theorem recorded_of_powCheckBlockSanity {block : Block}
    (passed : powCheckBlockSanity env assetID store adjustedTime block = .ok ()) :
    BlockRecorded store block := by
  simp only [powCheckBlockSanity, Outcome.bind_eq_ok] at passed
  obtain ⟨-, -, -, -, -, -, -, -, -, -, -, -, -, -, -, -, -, -, -, -, passed⟩ := passed
  exact fun tx member =>
    recorded_of_checkTransactionSanity (checkTransactionsSanity_eq_ok.mp passed tx member)

end Found

/-! ## Two stores -/

/-- Two stores do not contradict each other: what both record under a hash is the
same, as far as the sanity check reads it. -/
structure Compatible (store reference : ChainStore) : Prop where
  transaction : ∀ hash found found', store.transaction hash = some found →
    reference.transaction hash = some found' →
      found.1.txType = found'.1.txType ∧ found.1.outputs = found'.1.outputs
  asset : ∀ hash found found', store.asset hash = some found →
    reference.asset hash = some found' → found = found'

section Follows

variable {env : Env} {assetID : Uint256} {store reference : ChainStore} {adjustedTime : Int}
  {missing : Prop}

theorem follows_mapError {ε ε' α : Type} {name : ε → ε'} {call other : Outcome ε α}
    (follows : Outcome.Follows missing call other) :
    Outcome.Follows missing (mapError name call) (mapError name other) := by
  rcases follows with rfl | ⟨isMissing, failed⟩
  · exact .refl _
  · refine .inr ⟨isMissing, ?_⟩
    cases call with
    | error reason => rfl
    | ok value => cases failed
    | panic => cases failed

theorem follows_withError {ε ε' α : Type} {reason : ε'} {call other : Outcome ε α}
    (follows : Outcome.Follows missing call other) :
    Outcome.Follows missing (withError reason call) (withError reason other) := by
  have same (call : Outcome ε α) : withError reason call = mapError (fun _ => reason) call := by
    cases call <;> rfl
  rw [same, same]
  exact follows_mapError follows

namespace Compatible

variable (compatible : Compatible store reference)
include compatible

theorem getAsset_follows {hash : Uint256} (recorded : (reference.asset hash).isSome = true)
    (lacking : store.asset hash = none → missing) :
    Outcome.Follows missing (store.getAsset hash) (reference.getAsset hash) := by
  obtain ⟨asset, found⟩ := Option.isSome_iff_exists.mp recorded
  cases here : store.asset hash with
  | none => exact .inr ⟨lacking here, by simp [ChainStore.getAsset, here, Outcome.ofOption,
      Outcome.isError]⟩
  | some asset' =>
    obtain rfl := compatible.asset _ _ _ here found
    exact .inl (by simp [ChainStore.getAsset, here, found])

theorem getReferenceOf_follows {input : UTXOTxInput}
    (recorded : (reference.transaction input.referTxID).isSome = true)
    (lacking : store.transaction input.referTxID = none → missing) :
    Outcome.Follows missing (getReferenceOf store input) (getReferenceOf reference input) := by
  obtain ⟨⟨tx, height⟩, found⟩ := Option.isSome_iff_exists.mp recorded
  cases here : store.transaction input.referTxID with
  | none => exact .inr ⟨lacking here, by simp [getReferenceOf, ChainStore.getTransaction, here,
      Outcome.isError]⟩
  | some entry =>
    obtain ⟨sameType, sameOutputs⟩ := compatible.transaction _ _ _ here found
    refine .inl ?_
    by_cases deploys : tx.txType = .deploy
    · simp [getReferenceOf, ChainStore.getTransaction, here, found, sameType, deploys]
    · simp [getReferenceOf, ChainStore.getTransaction, here, found, sameType, deploys, sameOutputs]

theorem checkAssetPrecision_follows {outputs : List TxOutput}
    (recorded : ∀ output ∈ outputs, (reference.asset output.assetID).isSome = true)
    (lacking : ∀ output ∈ outputs, store.asset output.assetID = none → missing) :
    Outcome.Follows missing (checkAssetPrecision store outputs)
      (checkAssetPrecision reference outputs) := by
  induction outputs with
  | nil => exact .refl _
  | cons output outputs ih =>
    have asset := compatible.getAsset_follows (recorded output (by simp)) (lacking output (by simp))
    have others := ih (fun other member => recorded other (by simp [member]))
      fun other member => lacking other (by simp [member])
    refine (follows_withError asset).bind fun _ => ?_
    exact Outcome.Follows.bind (.refl _) fun _ => Outcome.Follows.bind (.refl _) fun _ => others

variable {tx : Transaction} (notCoinbase : tx.isCoinBaseTx = false)
  (recorded : TransactionRecorded reference tx)
  (lacking : ¬ TransactionRecorded store tx → missing)
include recorded lacking

theorem precision_follows :
    Outcome.Follows missing (checkAssetPrecision store tx.outputs)
      (checkAssetPrecision reference tx.outputs) := by
  refine compatible.checkAssetPrecision_follows recorded.1 fun output member absent => lacking ?_
  intro here
  have found := here.1 output member
  rw [absent] at found
  cases found

include notCoinbase

theorem getReference_follows :
    Outcome.Follows missing (getReference store tx) (getReference reference tx) := by
  unfold getReference
  split
  · exact .refl _
  · rename_i notRegistration
    refine Outcome.Follows.mapM fun input member => compatible.getReferenceOf_follows
      (recorded.2 notCoinbase notRegistration input member) fun absent => lacking ?_
    intro here
    have found := here.2 notCoinbase notRegistration input member
    rw [absent] at found
    cases found

theorem checkTransactionBalance_follows :
    Outcome.Follows missing (checkTransactionBalance env store tx)
      (checkTransactionBalance env reference tx) := by
  have references := compatible.getReference_follows notCoinbase recorded lacking
  have results : Outcome.Follows missing (getTransactionResults store tx)
      (getTransactionResults reference tx) := references.bind fun _ => .refl _
  exact Outcome.Follows.bind (.refl _) fun _ =>
    (follows_withError results).bind fun _ => .refl _

theorem checkTransactionContracts_follows :
    Outcome.Follows missing (checkTransactionContracts env store tx)
      (checkTransactionContracts env reference tx) := by
  have references := compatible.getReference_follows notCoinbase recorded lacking
  have hashes : Outcome.Follows missing (getProgramHashes store tx)
      (getProgramHashes reference tx) := references.bind fun _ => .refl _
  refine follows_withError ?_
  rcases hashes with same | ⟨isMissing, failed⟩
  · have sameData : signableData store tx = signableData reference tx := by
      simp only [signableData, same]
    exact .inl (congrArg (verifySignableData env.crypto) sameData)
  · refine .inr ⟨isMissing, ?_⟩
    simp only [verifySignableData, signableData]
    cases here : getProgramHashes store tx with
    | error reason => rfl
    | ok value => simp [here, Outcome.isError] at failed
    | panic => simp [here, Outcome.isError] at failed

omit notCoinbase

theorem checkTransactionSanity_follows :
    Outcome.Follows missing (checkTransactionSanity env assetID store tx)
      (checkTransactionSanity env assetID reference tx) := by
  have precision := compatible.precision_follows recorded lacking
  -- Up to the precision, and after the payload of a coinbase, the store is not read.
  refine Outcome.Follows.bind (.refl _) fun _ => Outcome.Follows.bind (.refl _) fun _ =>
    Outcome.Follows.bind (.refl _) fun _ => precision.bind fun _ =>
    Outcome.Follows.bind (.refl _) fun _ => ?_
  split
  · exact .refl _
  · rename_i other
    have notCoinbase := Bool.eq_false_iff.mpr other
    exact (compatible.checkTransactionBalance_follows notCoinbase recorded lacking).bind fun _ =>
      compatible.checkTransactionContracts_follows notCoinbase recorded lacking

omit recorded lacking

theorem checkTransactionsSanity_follows {txs : List Transaction}
    (recorded : ∀ tx ∈ txs, TransactionRecorded reference tx)
    (lacking : ∀ tx ∈ txs, ¬ TransactionRecorded store tx → missing) :
    Outcome.Follows missing (checkTransactionsSanity env assetID store txs)
      (checkTransactionsSanity env assetID reference txs) := by
  induction txs with
  | nil => exact .refl _
  | cons tx txs ih =>
    have head : Outcome.Follows missing (checkTransactionSanity env assetID store tx)
        (checkTransactionSanity env assetID reference tx) :=
      compatible.checkTransactionSanity_follows (recorded tx (by simp)) (lacking tx (by simp))
    have tail := ih (fun other member => recorded other (by simp [member]))
      fun other member => lacking other (by simp [member])
    exact (follows_mapError head).bind fun _ => tail

/-- The check of a block whose lookups all succeed in the reference. -/
theorem powCheckBlockSanity_follows {block : Block} (recorded : BlockRecorded reference block) :
    Outcome.Follows (¬ BlockRecorded store block)
      (powCheckBlockSanity env assetID store adjustedTime block)
      (powCheckBlockSanity env assetID reference adjustedTime block) := by
  unfold powCheckBlockSanity
  repeat refine Outcome.Follows.bind (.refl _) fun _ => ?_
  apply compatible.checkTransactionsSanity_follows recorded
  intro tx member lacks here
  exact lacks (here tx member)

/-- A block that the reference accepts is refused exactly where something is missing. -/
theorem isError_iff {block : Block}
    (accepted : powCheckBlockSanity env assetID reference adjustedTime block = .ok ()) :
    (powCheckBlockSanity env assetID store adjustedTime block).isError = true ↔
      ¬ BlockRecorded store block := by
  have follows : Outcome.Follows (¬ BlockRecorded store block)
      (powCheckBlockSanity env assetID store adjustedTime block) (.ok ()) :=
    accepted ▸ compatible.powCheckBlockSanity_follows (recorded_of_powCheckBlockSanity accepted)
  exact follows.isError_iff fun passed lacks => lacks (recorded_of_powCheckBlockSanity passed)

end Compatible

end Follows

/-! ## Two main chains -/

theorem isError_of_ne {ε : Type} {call : Outcome ε Unit} (notOk : call ≠ .ok ())
    (returns : call ≠ .panic) : call.isError = true := by
  cases call with
  | ok value => exact absurd rfl notOk
  | error reason => rfl
  | panic => exact absurd rfl returns

/-- The hash tells the transactions of known blocks apart, up to their programs,
which it does not cover. -/
def TransactionsApart (env : Env) (known : Block → Prop) : Prop :=
  ∀ block other, known block → known other → ∀ tx ∈ block.transactions,
    ∀ tx' ∈ other.transactions, tx.hash env.crypto = tx'.hash env.crypto →
      { tx with programs := tx'.programs } = tx'

theorem Blockchain.transactionsApart_delivered {env : Env} {deliveries : List Delivery}
    (apart : ∀ block ∈ genesisBlock env :: deliveries.map Delivery.block,
      ∀ other ∈ genesisBlock env :: deliveries.map Delivery.block, ∀ tx ∈ block.transactions,
        ∀ tx' ∈ other.transactions, tx.hash env.crypto = tx'.hash env.crypto →
          { tx with programs := tx'.programs } = tx') :
    TransactionsApart env (Delivered env deliveries) := by
  intro block other delivered delivered'
  exact apart block (Blockchain.Delivered.mem delivered) other (Blockchain.Delivered.mem delivered')

section MainChains

variable {env : Env} {known : Block → Prop} {chain other : List Block}
  {store reference : ChainStore}

/-- The stores of two main chains do not contradict each other. -/
theorem MainChain.compatible (admissible : Admissible env known)
    (apart : TransactionsApart env known) (mainChain : MainChain env known chain store)
    (mainChain' : MainChain env known other reference) : Compatible store reference := by
  have represents := mainChain.represents admissible
  have represents' := mainChain'.represents admissible
  have isKnown := (mainChain.branch admissible).known_of_mem admissible.genesis
  have isKnown' := (mainChain'.branch admissible).known_of_mem admissible.genesis
  constructor
  · rintro hash ⟨tx, height⟩ ⟨tx', height'⟩ found found'
    obtain ⟨block, member, txMember, hashed, -⟩ :=
      mem_transactionEntries.mp ((represents.transaction _ _).mp found)
    obtain ⟨block', member', txMember', hashed', -⟩ :=
      mem_transactionEntries.mp ((represents'.transaction _ _).mp found')
    have same := apart block block' (isKnown block member) (isKnown' block' member') tx txMember tx'
      txMember' (hashed.trans hashed'.symm)
    have sameType := congrArg Transaction.txType same
    have sameOutputs := congrArg Transaction.outputs same
    exact ⟨sameType, sameOutputs⟩
  · intro hash asset asset' found found'
    obtain ⟨block, member, entry⟩ := List.mem_flatMap.mp ((represents.asset _ _).mp found)
    obtain ⟨block', member', entry'⟩ := List.mem_flatMap.mp ((represents'.asset _ _).mp found')
    obtain ⟨tx, txMember, _, registered, same⟩ := mem_blockAssets.mp entry
    obtain ⟨tx', txMember', _, registered', same'⟩ := mem_blockAssets.mp entry'
    obtain ⟨rfl, rfl⟩ := Prod.mk.inj same
    obtain ⟨hashed, rfl⟩ := Prod.mk.inj same'
    have sameTx := apart block block' (isKnown block member) (isKnown' block' member') tx txMember
      tx' txMember' hashed.symm
    have samePayload := congrArg registeredAsset sameTx
    have sameAsset : registeredAsset tx = registeredAsset tx' := samePayload
    rw [registered, registered'] at sameAsset
    exact Option.some.inj sameAsset

end MainChains

namespace Blockchain

end Blockchain

end DnaPow.Ledger
