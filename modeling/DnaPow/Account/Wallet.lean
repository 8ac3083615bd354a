import DnaPow.Core.ContractKind
import DnaPow.Ledger.References

/-!
# The wallet

A wallet follows the main chain block by block: `ProcessBlocks` polls the height of
the chain, reads the next block and hands it to `ProcessOneBlock`, which adds the
outputs that belong to a contract of the wallet and deletes the coins that an input
spends. It remembers how many blocks it has processed but not which ones.

The wallet runs beside the ledger. Here the two take steps in any order: a block is
connected to the main chain, the last block is rolled back, or the wallet makes its
next access to the ledger.
-/

namespace DnaPow.Account

open DnaPow.Std Common Core Ledger

/-! ## Processing a block -/

inductive AddressType where
  | singleSign
  | multiSign
  deriving DecidableEq, Repr

/-- `Coin`. The output is missing in the zero value. -/
structure Coin where
  output : Option TxOutput
  addressType : AddressType
  height : UInt32
  deriving DecidableEq, Repr

/-- What `ClientImpl` holds of the chain. The coins are kept under pointers to their
outpoints, so that one that is looked up is never found. -/
structure ClientImpl where
  contracts : Uint160 → Option Contract
  coins : List (Outpoint × Coin)
  currentHeight : Int32

/-- A coin for an output. A contract that is neither standard nor multi-signature
gets the zero value. -/
def newCoin {ε : Type} (contract : Contract) (output : TxOutput) (height : UInt32) :
    Outcome ε Coin := do
  if isStandard contract.code then return ⟨some output, .singleSign, height⟩
  if ← isMultiSigContract contract.code then return ⟨some output, .multiSign, height⟩
  return ⟨none, .singleSign, 0⟩

section Process

variable (env : Env) {ε : Type}

/-- One round of the loop over the outputs of a transaction. A coinbase output can be
spent only at a later height. -/
def receiveOutput (contracts : Uint160 → Option Contract) (block : Block) (tx : Transaction)
    (coins : List (Outpoint × Coin)) (indexed : TxOutput × Nat) :
    Outcome ε (List (Outpoint × Coin)) :=
  match contracts indexed.1.programHash with
  | none => .ok coins
  | some contract => do
      let height := if tx.isCoinBaseTx then
        block.blockdata.height + env.chainParam.spendCoinbaseSpan else 0
      let coin ← newCoin contract indexed.1 height
      return coins ++ [(Outpoint.mk (tx.hash env.crypto) (UInt16.ofNat indexed.2), coin)]

/-- The received coins. -/
def receiveCoins (contracts : Uint160 → Option Contract) (block : Block)
    (coins : List (Outpoint × Coin)) : Outcome ε (List (Outpoint × Coin)) :=
  block.transactions.foldlM (fun coins tx =>
    tx.outputs.zipIdx.foldlM (receiveOutput env contracts block tx) coins) coins

/-- The spent coins: every coin that an input refers to is deleted. -/
def spendCoins (block : Block) (coins : List (Outpoint × Coin)) : List (Outpoint × Coin) :=
  block.transactions.foldl (fun coins tx =>
    tx.utxoInputs.foldl (fun coins input => coins.filter (·.1 ≠ input.toOutpoint)) coins) coins

/-- `ProcessOneBlock`. Saving coins, which is done when some were added or deleted,
panics on one without an output; the wallet file is taken to be readable. -/
def processOneBlock (client : ClientImpl) (block : Block) : Outcome ε ClientImpl := do
  let received ← receiveCoins env client.contracts block client.coins
  let coins := spendCoins block received
  let needUpdate := received.length ≠ client.coins.length ∨ coins.length ≠ received.length
  if needUpdate ∧ ∃ entry ∈ coins, entry.2.output = none then .panic
  else return ⟨client.contracts, coins, client.currentHeight + 1⟩

end Process

/-! ## The wallet beside the ledger -/

/-- Where `ProcessBlocks` stands: before its next look at the height, at the hash of
the next block, at the block itself, or with a block in hand. -/
inductive Phase where
  | polling
  | looking
  | reading (hash : Uint256)
  | processing (block : Block)
  deriving DecidableEq

/-- The main chain, newest block first, its store, and the wallet. -/
structure WalletSystem where
  chain : List Block
  store : ChainStore
  client : ClientImpl
  phase : Phase

inductive WalletEvent where
  | connect (block : Block)
  | disconnect
  | iterate

namespace WalletSystem

variable (env : Env)

/-- A wallet that is created before the first block. -/
def start (contracts : Uint160 → Option Contract) : WalletSystem :=
  ⟨[genesisBlock env], .genesis env, ⟨contracts, [], -1⟩, .polling⟩

/-- A block is connected on top of the main chain. -/
def connect (system : WalletSystem) (block : Block) : Option WalletSystem :=
  match system.chain with
  | [] => none
  | tip :: _ =>
      if block.blockdata.prevBlockHash = tip.hash env.crypto ∧
          block.blockdata.height = tip.blockdata.height + 1 ∧
          checkTransactionsContext env system.store block.transactions = .ok () then
        (system.store.persistBlocks (ε := Unit) env.crypto block).toOption.map fun store =>
          ⟨block :: system.chain, store, system.client, system.phase⟩
      else none

/-- The last block of the main chain is rolled back. -/
def disconnect (system : WalletSystem) : Option WalletSystem :=
  match system.chain with
  | block :: tip :: below =>
      (system.store.rollback (ε := Unit) env.crypto block).toOption.map fun store =>
        ⟨tip :: below, store, system.client, system.phase⟩
  | _ => none

/-- The next access of `ProcessBlocks`. A failed lookup ends the inner loop, and the
outer one polls again. -/
def iterate (system : WalletSystem) : Option WalletSystem :=
  match system.phase with
  | .polling =>
      if system.store.currentBlockHeight.toInt32 ≤ system.client.currentHeight then some system
      else some ⟨system.chain, system.store, system.client, .looking⟩
  | .looking =>
      match system.store.getBlockHash (system.client.currentHeight.toUInt32 + 1) with
      | .ok hash => some ⟨system.chain, system.store, system.client, .reading hash⟩
      | .error _ => some ⟨system.chain, system.store, system.client, .polling⟩
      | .panic => none
  | .reading hash =>
      match system.store.getBlock env.crypto hash with
      | .ok block => some ⟨system.chain, system.store, system.client, .processing block⟩
      | .error _ => some ⟨system.chain, system.store, system.client, .polling⟩
      | .panic => none
  | .processing block =>
      (processOneBlock (ε := Unit) env system.client block).toOption.map fun client =>
        ⟨system.chain, system.store, client, .polling⟩

def step (system : WalletSystem) : WalletEvent → Option WalletSystem
  | .connect block => system.connect env block
  | .disconnect => system.disconnect env
  | .iterate => system.iterate env

/-- The state after a history; nothing if the process panicked or an event was not
possible. -/
def run (events : List WalletEvent) (system : WalletSystem) : Option WalletSystem :=
  events.foldlM (step env) system

end WalletSystem

/-! ## What the coins should be -/

section Spec

variable (env : Env) (contracts : Uint160 → Option Contract)

/-- An output of the chain that belongs to a contract of the wallet. -/
def Owned (chain : List Block) (outpoint : Outpoint) (output : TxOutput) : Prop :=
  ∃ block ∈ chain, ∃ tx ∈ block.transactions, ∃ index : Nat, tx.outputs[index]? = some output ∧
    outpoint = ⟨tx.hash env.crypto, UInt16.ofNat index⟩ ∧
    (contracts output.programHash).isSome = true

/-- An output of the wallet that no input of the chain consumes. -/
def OwnedUnspent (chain : List Block) (outpoint : Outpoint) (output : TxOutput) : Prop :=
  Owned env contracts chain outpoint output ∧ outpoint ∉ chain.flatMap spentOutpoints

/-- The coins are the unspent outputs of the chain that belong to the wallet, each
once. -/
structure Mirrors (chain : List Block) (coins : List (Outpoint × Coin)) : Prop where
  exact : ∀ outpoint held, (outpoint, held) ∈ coins.map (fun entry => (entry.1, entry.2.output)) ↔
    ∃ output, held = some output ∧ OwnedUnspent env contracts chain outpoint output
  once : (coins.map Prod.fst).Nodup

end Spec

/-! ## One block -/

section OneBlock

variable {env : Env} {contracts : Uint160 → Option Contract} {ε : Type} {block : Block}
  {coins received : List (Outpoint × Coin)} {outpoint : Outpoint} {output : TxOutput}

/-- The outputs of a transaction that belong to the wallet. -/
def ownedOutputs (env : Env) (contracts : Uint160 → Option Contract) (tx : Transaction) :
    List (Outpoint × TxOutput) :=
  tx.outputs.zipIdx.flatMap fun indexed =>
    if (contracts indexed.1.programHash).isSome then
      [(⟨tx.hash env.crypto, UInt16.ofNat indexed.2⟩, indexed.1)] else []

theorem mem_ownedOutputs {tx : Transaction} :
    (outpoint, output) ∈ ownedOutputs env contracts tx ↔
      ∃ index : Nat, tx.outputs[index]? = some output ∧
        outpoint = ⟨tx.hash env.crypto, UInt16.ofNat index⟩ ∧
        (contracts output.programHash).isSome = true := by
  simp only [ownedOutputs, List.mem_flatMap, Prod.exists, List.mem_zipIdx_iff_getElem?]
  constructor
  · rintro ⟨other, index, found, member⟩
    split at member
    · next owned =>
      obtain ⟨rfl, rfl⟩ := Prod.mk.inj (List.mem_singleton.mp member)
      exact ⟨index, found, rfl, owned⟩
    · simp at member
  · rintro ⟨index, found, rfl, owned⟩
    exact ⟨output, index, found, by simp [owned]⟩

theorem owned_cons {below : List Block} :
    Owned env contracts (block :: below) outpoint output ↔
      (outpoint, output) ∈ block.transactions.flatMap (ownedOutputs env contracts) ∨
        Owned env contracts below outpoint output := by
  simp only [Owned, List.mem_cons, exists_eq_or_imp, List.mem_flatMap, mem_ownedOutputs]

/-- A coin stands for an output: it has its outpoint, and the output itself unless it
is the zero value. -/
def StandsFor (entry : Outpoint × Coin) (owned : Outpoint × TxOutput) : Prop :=
  entry.1 = owned.1 ∧ (entry.2.output = some owned.2 ∨ entry.2.output = none)

theorem newCoin_output {contract : Contract} {height : UInt32} {coin : Coin}
    (made : newCoin (ε := ε) contract output height = .ok coin) :
    coin.output = some output ∨ coin.output = none := by
  unfold newCoin at made
  split at made
  · cases made
    exact .inl rfl
  · obtain ⟨isMultiSig, -, made⟩ := Outcome.bind_eq_ok.mp made
    split at made
    · cases made
      exact .inl rfl
    · cases made
      exact .inr rfl

/-- The coins of a block are added in the order of its outputs. -/
theorem receiveCoins_appends
    (call : receiveCoins (ε := ε) env contracts block coins = .ok received) :
    ∃ added, received = coins ++ added ∧
      List.Forall₂ StandsFor added (block.transactions.flatMap (ownedOutputs env contracts)) := by
  refine Outcome.foldlM_appends (fun tx _ before after folded => ?_) call
  refine Outcome.foldlM_appends (fun indexed _ before after made => ?_) folded
  unfold receiveOutput at made
  cases owned : contracts indexed.1.programHash with
  | none =>
    rw [owned] at made
    cases made
    exact ⟨[], by simp, by simp⟩
  | some contract =>
    rw [owned] at made
    obtain ⟨coin, isCoin, appended⟩ := Outcome.bind_eq_ok.mp made
    cases appended
    refine ⟨_, rfl, ?_⟩
    simp only [Option.isSome_some, if_true]
    exact .cons ⟨rfl, newCoin_output isCoin⟩ .nil

/-- Inputs delete the coins they refer to, whatever their order. -/
theorem spendCoins_eq : spendCoins block coins =
    coins.filter (·.1 ∉ block.transactions.flatMap Transaction.outpoints) := by
  have inputs : ∀ (inputs : List UTXOTxInput) (coins : List (Outpoint × Coin)),
      inputs.foldl (fun coins input => coins.filter (·.1 ≠ input.toOutpoint)) coins =
        coins.filter (·.1 ∉ inputs.map UTXOTxInput.toOutpoint) := by
    intro inputs
    induction inputs with
    | nil => simp
    | cons input inputs ih =>
      intro coins
      rw [List.foldl_cons, ih, List.filter_filter]
      refine List.filter_congr fun entry _ => Bool.eq_iff_iff.mpr ?_
      simp only [Bool.and_eq_true, decide_eq_true_eq, List.map_cons, List.mem_cons, not_or]
      exact and_comm
  unfold spendCoins
  induction block.transactions generalizing coins with
  | nil => simp
  | cons tx txs ih =>
    rw [List.foldl_cons, ih, inputs, List.filter_filter]
    refine List.filter_congr fun entry _ => Bool.eq_iff_iff.mpr ?_
    simp only [Bool.and_eq_true, decide_eq_true_eq, List.flatMap_cons, List.mem_append, not_or]
    exact and_comm

/-- What a wallet needs of a block to keep its coins apart: outputs that can be
numbered with 16 bits, and coinbase inputs that refer to no transaction. The second
is one of the checks of `PowCheckBlockSanity`. -/
structure Numbered (env : Env) (block : Block) : Prop where
  fewOutputs : ∀ tx ∈ block.transactions, tx.outputs.length ≤ 2 ^ 16
  coinbase : ∀ tx ∈ block.transactions, tx.isCoinBaseTx = true →
    ∀ input ∈ tx.utxoInputs, input.referTxID = 0
  nonzero : ∀ tx ∈ block.transactions, tx.hash env.crypto ≠ 0

instance (env : Env) (block : Block) : Decidable (Numbered env block) :=
  decidable_of_iff ((∀ tx ∈ block.transactions, tx.outputs.length ≤ 2 ^ 16) ∧
      (∀ tx ∈ block.transactions, tx.isCoinBaseTx = true →
        ∀ input ∈ tx.utxoInputs, input.referTxID = 0) ∧
      ∀ tx ∈ block.transactions, tx.hash env.crypto ≠ 0)
    ⟨fun ⟨few, coinbase, nonzero⟩ => ⟨few, coinbase, nonzero⟩,
      fun ⟨few, coinbase, nonzero⟩ => ⟨few, coinbase, nonzero⟩⟩

/-- An input that refers to some transaction consumes its outpoint. -/
theorem Numbered.mem_spentOutpoints (numbered : Numbered env block)
    (refers : outpoint.referTxID ≠ 0) :
    outpoint ∈ block.transactions.flatMap Transaction.outpoints ↔
      outpoint ∈ spentOutpoints block := by
  simp only [spentOutpoints, List.mem_flatMap]
  refine exists_congr fun tx => and_congr_right fun member => ?_
  by_cases coinbase : tx.isCoinBaseTx = true
  · rw [spentBy, if_pos coinbase]
    refine iff_of_false (fun isInput => ?_) List.not_mem_nil
    obtain ⟨input, inputMember, rfl⟩ := List.mem_map.mp isInput
    exact refers (numbered.coinbase tx member coinbase input inputMember)
  · rw [spentBy, if_neg coinbase]

theorem ownedOutputs_keys_nodup {tx : Transaction} (few : tx.outputs.length ≤ 2 ^ 16) :
    ((ownedOutputs env contracts tx).map Prod.fst).Nodup := by
  have numbers : (tx.outputs.zipIdx.map Prod.snd).Nodup := by
    rw [List.zipIdx_map_snd]
    exact List.nodup_range'
  rw [ownedOutputs, List.map_flatMap]
  refine List.nodup_flatMap.mpr ⟨fun indexed _ => ?_, ?_⟩
  · split
    · exact List.nodup_singleton _
    · exact List.nodup_nil
  · have pairs := List.pairwise_map.mp numbers
    refine pairs.imp_of_mem fun {indexed other} member member' different => ?_
    intro outpoint isKey isKey'
    have keyOf : ∀ item : TxOutput × Nat, outpoint ∈ (if (contracts item.1.programHash).isSome then
        [((⟨tx.hash env.crypto, UInt16.ofNat item.2⟩ : Outpoint), item.1)] else []).map Prod.fst →
        outpoint = ⟨tx.hash env.crypto, UInt16.ofNat item.2⟩ := by
      intro item isKey
      split at isKey
      · exact List.mem_singleton.mp isKey
      · cases isKey
    have bound := (List.getElem?_eq_some_iff.mp (List.mem_zipIdx_iff_getElem?.mp member)).1
    have bound' := (List.getElem?_eq_some_iff.mp (List.mem_zipIdx_iff_getElem?.mp member')).1
    have sameKey := (keyOf indexed isKey).symm.trans (keyOf other isKey')
    have sameNat := congrArg (·.referTxOutputIndex.toNat) sameKey
    simp only [UInt16.toNat_ofNat'] at sameNat
    omega

theorem Numbered.keys_nodup (numbered : Numbered env block)
    (distinct : (block.txHashes env.crypto).Nodup) :
    ((block.transactions.flatMap (ownedOutputs env contracts)).map Prod.fst).Nodup := by
  rw [List.map_flatMap]
  refine List.nodup_flatMap.mpr ⟨fun tx member => ?_, ?_⟩
  · exact ownedOutputs_keys_nodup (numbered.fewOutputs tx member)
  · refine (List.pairwise_map.mp distinct).imp fun different outpoint isKey isKey' => ?_
    obtain ⟨⟨_, output⟩, owned, rfl⟩ := List.mem_map.mp isKey
    obtain ⟨⟨_, output'⟩, owned', same⟩ := List.mem_map.mp isKey'
    obtain ⟨_, -, rfl, -⟩ := mem_ownedOutputs.mp owned
    obtain ⟨_, -, rfl, -⟩ := mem_ownedOutputs.mp owned'
    exact different (congrArg Outpoint.referTxID same).symm

variable {below : List Block} {outpoint : Outpoint} {output : TxOutput}

/-- No transaction of the block is on the chain below it. -/
def Fresh (env : Env) (block : Block) (below : List Block) : Prop :=
  ∀ tx ∈ block.transactions, ∀ other ∈ below, ∀ tx' ∈ other.transactions,
    tx'.hash env.crypto ≠ tx.hash env.crypto

theorem Owned.nonzero {chain : List Block} (numbered : ∀ other ∈ chain, Numbered env other)
    (owned : Owned env contracts chain outpoint output) : outpoint.referTxID ≠ 0 := by
  obtain ⟨other, member, tx, txMember, index, -, rfl, -⟩ := owned
  exact (numbered other member).nonzero tx txMember

/-- The unspent outputs of the wallet after one more block. -/
theorem ownedUnspent_cons (numbered : ∀ other ∈ block :: below, Numbered env other)
    (fresh : Fresh env block below) (refers : RefersBelow env below) :
    OwnedUnspent env contracts (block :: below) outpoint output ↔
      (OwnedUnspent env contracts below outpoint output ∨
        (outpoint, output) ∈ block.transactions.flatMap (ownedOutputs env contracts)) ∧
      outpoint ∉ block.transactions.flatMap Transaction.outpoints := by
  have consumed (owned : Owned env contracts (block :: below) outpoint output) :
      outpoint ∈ block.transactions.flatMap Transaction.outpoints ↔
        outpoint ∈ spentOutpoints block :=
    (numbered block List.mem_cons_self).mem_spentOutpoints (owned.nonzero numbered)
  rw [OwnedUnspent, List.flatMap_cons, List.mem_append, not_or]
  constructor
  · rintro ⟨owned, unspent, unspentBelow⟩
    refine ⟨?_, mt (consumed owned).mp unspent⟩
    rcases owned_cons.mp owned with new | old
    · exact .inr new
    · exact .inl ⟨old, unspentBelow⟩
  · rintro ⟨⟨old, unspentBelow⟩ | new, notInput⟩
    · have owned : Owned env contracts (block :: below) outpoint output :=
        owned_cons.mpr (.inr old)
      exact ⟨owned, mt (consumed owned).mpr notInput, unspentBelow⟩
    · have owned : Owned env contracts (block :: below) outpoint output :=
        owned_cons.mpr (.inl new)
      refine ⟨owned, mt (consumed owned).mpr notInput, fun spentBelow => ?_⟩
      -- An input below would refer to a transaction that is not there yet.
      obtain ⟨tx, txMember, isOwned⟩ := List.mem_flatMap.mp new
      obtain ⟨index, -, rfl, -⟩ := mem_ownedOutputs.mp isOwned
      obtain ⟨other, member, tx', txMember', -, same⟩ := refers.onChain spentBelow
      exact fresh tx txMember other member tx' txMember' same

/-- Every coin that is left after a block has an output. -/
theorem processOneBlock_eq {client after : ClientImpl}
    (call : processOneBlock (ε := ε) env client block = .ok after)
    (filled : ∀ entry ∈ client.coins, entry.2.output ≠ none) :
    ∃ added, List.Forall₂ StandsFor added
        (block.transactions.flatMap (ownedOutputs env client.contracts)) ∧
      after = ⟨client.contracts, (client.coins ++ added).filter
        (·.1 ∉ block.transactions.flatMap Transaction.outpoints), client.currentHeight + 1⟩ ∧
      ∀ entry ∈ after.coins, entry.2.output ≠ none := by
  obtain ⟨received, receives, call⟩ := Outcome.bind_eq_ok.mp call
  obtain ⟨added, rfl, standsFor⟩ := receiveCoins_appends receives
  dsimp only at call
  rw [spendCoins_eq] at call
  split at call
  · cases call
  · next saved =>
    cases call
    refine ⟨added, standsFor, rfl, fun entry member => ?_⟩
    intro empty
    refine saved ⟨?_, entry, member, empty⟩
    -- A coin without an output was added by this block.
    by_contra unchanged
    rw [not_or, not_not, List.length_append] at unchanged
    obtain rfl : added = [] := List.length_eq_zero_iff.mp (by omega)
    exact filled entry (by simpa using List.mem_of_mem_filter member) empty

theorem Mirrors.filled (mirrors : Mirrors env contracts below coins) :
    ∀ entry ∈ coins, entry.2.output ≠ none := by
  intro entry member empty
  obtain ⟨output, isSome, -⟩ := (mirrors.exact entry.1 entry.2.output).mp
    (List.mem_map_of_mem member)
  rw [empty] at isSome
  cases isSome

section StandsFor

variable {added : List (Outpoint × Coin)} {owned : List (Outpoint × TxOutput)}
  (standsFor : List.Forall₂ StandsFor added owned)
include standsFor

theorem StandsFor.keys : added.map Prod.fst = owned.map Prod.fst := by
  induction standsFor with
  | nil => rfl
  | cons first _ ih => rw [List.map_cons, List.map_cons, first.1, ih]

theorem StandsFor.exists_owned : ∀ entry ∈ added, ∃ item ∈ owned, StandsFor entry item :=
  exists_of_forall₂ standsFor

theorem StandsFor.exists_coin : ∀ item ∈ owned, ∃ entry ∈ added, StandsFor entry item :=
  @exists_of_forall₂ _ _ (flip StandsFor) _ _ (.flip standsFor)

end StandsFor

/-- A wallet that mirrors the chain below a block mirrors the chain with the block
after processing it. -/
theorem Mirrors.process {client after : ClientImpl}
    (mirrors : Mirrors env client.contracts below client.coins)
    (numbered : ∀ other ∈ block :: below, Numbered env other)
    (distinct : (block.txHashes env.crypto).Nodup) (fresh : Fresh env block below)
    (refers : RefersBelow env below)
    (call : processOneBlock (ε := ε) env client block = .ok after) :
    Mirrors env client.contracts (block :: below) after.coins := by
  obtain ⟨added, standsFor, rfl, filled⟩ := processOneBlock_eq call mirrors.filled
  constructor
  · intro outpoint held
    rw [List.mem_map]
    constructor
    · rintro ⟨entry, left, same⟩
      obtain ⟨rfl, rfl⟩ := Prod.mk.inj same
      obtain ⟨output, isSome⟩ := Option.ne_none_iff_exists'.mp (filled entry left)
      obtain ⟨member, notInput⟩ := List.mem_filter.mp left
      refine ⟨output, isSome, (ownedUnspent_cons numbered fresh refers).mpr
        ⟨?_, of_decide_eq_true notInput⟩⟩
      rcases List.mem_append.mp member with old | new
      · obtain ⟨output', isSome', unspent⟩ := (mirrors.exact entry.1 entry.2.output).mp
          (List.mem_map_of_mem old)
        obtain rfl := Option.some.inj (isSome.symm.trans isSome')
        exact .inl unspent
      · obtain ⟨item, isOwned, sameKey, sameOutput | empty⟩ :=
          StandsFor.exists_owned standsFor entry new
        · obtain rfl := Option.some.inj (isSome.symm.trans sameOutput)
          exact .inr (sameKey ▸ isOwned)
        · exact absurd empty (filled entry left)
    · rintro ⟨output, rfl, unspent⟩
      obtain ⟨old | new, notInput⟩ := (ownedUnspent_cons numbered fresh refers).mp unspent
      · have isCoin := (mirrors.exact outpoint (some output)).mpr ⟨output, rfl, old⟩
        obtain ⟨entry, member, same⟩ := List.mem_map.mp isCoin
        obtain ⟨rfl, isSome⟩ := Prod.mk.inj same
        exact ⟨entry, List.mem_filter.mpr ⟨List.mem_append_left _ member,
          decide_eq_true notInput⟩, same⟩
      · obtain ⟨entry, member, sameKey, stands⟩ := StandsFor.exists_coin standsFor _ new
        have notInput' : entry.1 ∉ block.transactions.flatMap Transaction.outpoints := by
          rw [sameKey]
          exact notInput
        have left : entry ∈ (client.coins ++ added).filter
            (·.1 ∉ block.transactions.flatMap Transaction.outpoints) :=
          List.mem_filter.mpr ⟨List.mem_append_right client.coins member, decide_eq_true notInput'⟩
        refine ⟨entry, left, Prod.ext sameKey ?_⟩
        exact stands.resolve_right (filled entry left)
  · -- The outpoints below refer to earlier transactions, so none of them is added again.
    refine List.Nodup.sublist (List.filter_sublist.map Prod.fst) ?_
    rw [List.map_append, StandsFor.keys standsFor]
    refine List.nodup_append.mpr ⟨mirrors.once,
      (numbered block List.mem_cons_self).keys_nodup distinct, ?_⟩
    rintro _ old _ new rfl
    obtain ⟨entry, member, rfl⟩ := List.mem_map.mp old
    obtain ⟨item, isOwned, sameKey⟩ := List.mem_map.mp new
    obtain ⟨output, -, ⟨other, otherMember, tx', txMember', index', -, isKey, -⟩, -⟩ :=
      (mirrors.exact entry.1 entry.2.output).mp (List.mem_map_of_mem member)
    obtain ⟨tx, txMember, isOwned⟩ := List.mem_flatMap.mp isOwned
    obtain ⟨index, -, isKey', -⟩ := mem_ownedOutputs.mp isOwned
    have sameTx := congrArg Outpoint.referTxID (isKey.symm.trans (sameKey.symm.trans isKey'))
    exact fresh tx txMember other otherMember tx' txMember' sameTx

end OneBlock

/-! ## Runs -/

/-- How far the wallet has got on the chain, with the block in hand. -/
def WalletSystem.reached (system : WalletSystem) : Int :=
  match system.phase with
  | .processing _ => system.client.currentHeight.toInt + 1
  | _ => system.client.currentHeight.toInt

/-- A step after which the wallet still follows the chain: known blocks are
connected, and none is rolled back that the wallet has reached. -/
def WalletSystem.Permitted (known : Block → Prop) (system : WalletSystem) : WalletEvent → Prop
  | .connect block => known block
  | .disconnect => ∀ tip ∈ system.chain.head?, system.reached < tip.blockdata.height.toNat
  | .iterate => True

/-- A history all of whose steps are permitted. -/
def WalletSystem.RunPermitted (env : Env) (known : Block → Prop) :
    List WalletEvent → WalletSystem → Prop
  | [], _ => True
  | event :: events, system => system.Permitted known event ∧
      ∀ after, system.step env event = some after → RunPermitted env known events after

/-- What is known of the next block while the wallet looks it up. -/
def PhaseSound (env : Env) (known : Block → Prop) (chain : List Block) (height : Int) :
    Phase → Prop
  | .polling => True
  | .looking => height + 1 < 2 ^ 31
  | .reading hash => height + 1 < 2 ^ 31 ∧ ∃ block, known block ∧ block.hash env.crypto = hash ∧
      (block.blockdata.height.toNat : Int) = height + 1
  | .processing block => height + 1 < 2 ^ 31 ∧ block ∈ chain ∧
      (block.blockdata.height.toNat : Int) = height + 1

/-- The wallet mirrors the lower part of the main chain, as far as it has got. -/
structure WalletSound (env : Env) (known : Block → Prop) (contracts : Uint160 → Option Contract)
    (system : WalletSystem) : Prop where
  mainChain : MainChain env known system.chain system.store
  sameContracts : system.client.contracts = contracts
  synced : ∃ below, below <:+ system.chain ∧
    system.client.currentHeight.toInt = below.length - 1 ∧
    Mirrors env contracts below system.client.coins
  phase : PhaseSound env known system.chain system.client.currentHeight.toInt system.phase

/-- The height that is looked up next. -/
theorem toNat_next {height : Int32} {count : Nat} (processed : height.toInt = count - 1)
    (bound : height.toInt + 1 < 2 ^ 31) : (height.toUInt32 + 1).toNat = count := by
  have signed : height.toInt = height.toBitVec.toInt := rfl
  have unsigned : height.toUInt32.toNat = height.toBitVec.toNat := rfl
  have limit := height.toBitVec.isLt
  rw [BitVec.toInt_eq_toNat_cond] at signed
  simp only [UInt32.toNat_add, unsigned, UInt32.reduceToNat]
  split at signed <;> omega

theorem toInt_succ {height : Int32} {count : Nat} (processed : height.toInt = count - 1)
    (bound : height.toInt + 1 < 2 ^ 31) : (height + 1).toInt = count := by
  rw [Int32.toInt_add, processed]
  have one : (1 : Int32).toInt = 1 := rfl
  rw [one, Int.bmod_eq_of_le] <;> omega

section Suffix

variable {env : Env} {known : Block → Prop} {chain below : List Block} {block : Block}
  {store : ChainStore}

/-- The block of a given height is on top of the part below that height. -/
theorem cons_suffix_of_height (branch : (blockLinks env).Branch known chain)
    (suffix : below <:+ chain) (member : block ∈ chain)
    (height : block.blockdata.height.toNat = below.length) : block :: below <:+ chain := by
  obtain ⟨above, rest, rfl⟩ := List.append_of_mem member
  have onTop : block :: rest <:+ above ++ block :: rest := List.suffix_append _ _
  have length : block.blockdata.height.toNat + 1 = (block :: rest).length :=
    (branch.of_suffix onTop).height_eq_length rfl block rfl
  have lower : rest <:+ above ++ block :: rest := (List.suffix_cons _ _).trans onTop
  have same : below = rest := by
    have shorter := List.suffix_of_suffix_length_le suffix lower (by simp at length; omega)
    exact shorter.eq_of_length (by simp at length; omega)
  exact same ▸ onTop

/-- No transaction is twice on the main chain. -/
theorem fresh_of_suffix (branch : (blockLinks env).Branch known chain)
    (represents : Represents env chain store) (suffix : block :: below <:+ chain) :
    Fresh env block below := by
  intro tx txMember other member tx' txMember' same
  have inChain := suffix.subset List.mem_cons_self
  have inChain' := suffix.subset (List.mem_cons_of_mem _ member)
  have equal := represents.transaction.functional
    (mem_transactionEntries.mpr ⟨block, inChain, txMember, rfl, rfl⟩)
    (mem_transactionEntries.mpr ⟨other, inChain', txMember', same, rfl⟩)
  have sameHeight : block.blockdata.height = other.blockdata.height := congrArg Prod.snd equal
  have lower : other.blockdata.height.toNat < block.blockdata.height.toNat :=
    (List.pairwise_cons.mp (branch.of_suffix suffix).height_lt).1 other member
  rw [sameHeight] at lower
  exact Nat.lt_irrefl _ lower

end Suffix

namespace WalletSound

variable {env : Env} {known : Block → Prop} {contracts : Uint160 → Option Contract}
  {system after : WalletSystem} (sound : WalletSound env known contracts system)

theorem start : WalletSound env known contracts (.start env contracts) where
  mainChain := .genesis
  sameContracts := rfl
  synced := by
    refine ⟨[], List.nil_suffix, rfl, ?_, List.nodup_nil⟩
    intro outpoint held
    simp [WalletSystem.start, OwnedUnspent, Owned]
  phase := trivial

include sound

theorem connect {block : Block} (isKnown : known block)
    (stepped : system.connect env block = some after) : WalletSound env known contracts after := by
  obtain ⟨mainChain, sameContracts, ⟨below, suffix, count, mirrors⟩, phase⟩ := sound
  obtain ⟨chain, store, client, phase'⟩ := system
  unfold WalletSystem.connect at stepped
  dsimp only at *
  split at stepped
  · cases stepped
  · split at stepped
    · next tip lower possible =>
      obtain ⟨linked, above, checked⟩ := possible
      obtain ⟨store', persisted, rfl⟩ := Option.map_eq_some_iff.mp stepped
      have persisted := Outcome.toOption_eq_some.mp persisted
      refine ⟨mainChain.connect isKnown linked above checked persisted, sameContracts,
        ⟨below, suffix.trans (List.suffix_cons _ _), count, mirrors⟩, ?_⟩
      cases phase' with
      | polling => trivial
      | looking => exact phase
      | reading hash => exact phase
      | processing inHand => exact ⟨phase.1, List.mem_cons_of_mem _ phase.2.1, phase.2.2⟩
    · cases stepped

section

variable (admissible : Admissible env known)
include admissible

theorem disconnect
    (permitted : ∀ tip ∈ system.chain.head?, system.reached < tip.blockdata.height.toNat)
    (stepped : system.disconnect env = some after) : WalletSound env known contracts after := by
  obtain ⟨mainChain, sameContracts, ⟨below, suffix, count, mirrors⟩, phase⟩ := sound
  obtain ⟨chain, store, client, phase'⟩ := system
  unfold WalletSystem.disconnect at stepped
  dsimp only at *
  split at stepped
  · next block tip lower =>
    obtain ⟨store', rolledBack, rfl⟩ := Option.map_eq_some_iff.mp stepped
    have rolledBack := Outcome.toOption_eq_some.mp rolledBack
    have branch := mainChain.branch admissible
    have length : block.blockdata.height.toNat + 1 = (block :: tip :: lower).length :=
      branch.height_eq_length rfl block rfl
    have ahead := permitted block rfl
    have reached : client.currentHeight.toInt < block.blockdata.height.toNat := by
      cases phase' with
      | processing inHand =>
        have inHandAhead : client.currentHeight.toInt + 1 < block.blockdata.height.toNat := ahead
        omega
      | polling => exact ahead
      | looking => exact ahead
      | reading hash => exact ahead
    refine ⟨mainChain.disconnect rolledBack, sameContracts, ⟨below, ?_, count, mirrors⟩, ?_⟩
    · rcases List.suffix_cons_iff.mp suffix with rfl | lower
      · rw [length.symm] at count
        omega
      · exact lower
    · cases phase' with
      | polling => trivial
      | looking => exact phase
      | reading hash => exact phase
      | processing inHand =>
        obtain ⟨bound, member, height⟩ := phase
        have inHandAhead : client.currentHeight.toInt + 1 < block.blockdata.height.toNat := ahead
        refine ⟨bound, ?_, height⟩
        rcases List.mem_cons.mp member with rfl | member
        · omega
        · exact member
  · cases stepped

/-- Accesses of the wallet. A block that is read is the one above those processed. -/
theorem iterate (numbered : ∀ block, known block → Numbered env block)
    (stepped : system.iterate env = some after) : WalletSound env known contracts after := by
  obtain ⟨mainChain, sameContracts, ⟨below, suffix, count, mirrors⟩, phase⟩ := sound
  obtain ⟨chain, store, client, phase'⟩ := system
  dsimp only at *
  have branch := mainChain.branch admissible
  have represents := mainChain.represents admissible
  have isKnown := branch.known_of_mem admissible.genesis
  unfold WalletSystem.iterate at stepped
  cases phase' with
  | polling =>
    dsimp only at stepped
    split at stepped
    · cases stepped
      exact ⟨mainChain, sameContracts, ⟨below, suffix, count, mirrors⟩, trivial⟩
    · next behind =>
      cases stepped
      refine ⟨mainChain, sameContracts, ⟨below, suffix, count, mirrors⟩, ?_⟩
      rw [Int32.le_iff_toInt_le] at behind
      have limit := store.currentBlockHeight.toInt32.toInt_lt
      change client.currentHeight.toInt + 1 < 2 ^ 31
      omega
  | looking =>
    dsimp only at stepped
    split at stepped
    · next hash found =>
      cases stepped
      refine ⟨mainChain, sameContracts, ⟨below, suffix, count, mirrors⟩, phase, ?_⟩
      obtain ⟨block, member, height, hashed⟩ := represents.getBlockHash_eq_ok.mp found
      refine ⟨block, isKnown block member, hashed, ?_⟩
      change (block.blockdata.height.toNat : Int) = client.currentHeight.toInt + 1
      rw [height, toNat_next count phase]
      omega
    · cases stepped
      exact ⟨mainChain, sameContracts, ⟨below, suffix, count, mirrors⟩, trivial⟩
    · cases stepped
  | reading hash =>
    dsimp only at stepped
    split at stepped
    · next block found =>
      cases stepped
      obtain ⟨bound, other, otherKnown, hashed, height⟩ := phase
      have sane : ∀ block ∈ chain, Sane env block := fun block member =>
        admissible.sane block (isKnown block member)
      obtain ⟨member, hashed'⟩ := represents.mem_of_getBlock sane found
      -- The hash may have been looked up on another chain, but it fixes the height.
      have sameHeight := admissible.faithful.height_eq block other (isKnown block member) otherKnown
        (hashed'.trans hashed.symm)
      refine ⟨mainChain, sameContracts, ⟨below, suffix, count, mirrors⟩, bound, member, ?_⟩
      have sameNat : block.blockdata.height.toNat = other.blockdata.height.toNat := sameHeight
      rw [sameNat, height]
    · cases stepped
      exact ⟨mainChain, sameContracts, ⟨below, suffix, count, mirrors⟩, trivial⟩
    · cases stepped
  | processing block =>
    obtain ⟨bound, member, height⟩ := phase
    obtain ⟨client', processed, rfl⟩ := Option.map_eq_some_iff.mp stepped
    have processed := Outcome.toOption_eq_some.mp processed
    have onTop := cons_suffix_of_height branch suffix member (by omega)
    have inChain : ∀ other ∈ block :: below, known other := fun other lower =>
      isKnown other (onTop.subset lower)
    have mirrored := (sameContracts ▸ mirrors).process
      (fun other lower => numbered other (inChain other lower))
      (admissible.sane block (isKnown block member)).distinct
      (fresh_of_suffix branch represents onTop)
      (mainChain.referring.below.of_suffix suffix) processed
    obtain ⟨_, -, same, -⟩ := processOneBlock_eq processed mirrors.filled
    have kept : client'.contracts = contracts := by rw [same]; exact sameContracts
    have counted : client'.currentHeight.toInt = (block :: below).length - 1 := by
      rw [same, toInt_succ count bound, List.length_cons]
      omega
    refine ⟨mainChain, kept, ⟨block :: below, onTop, counted, ?_⟩, trivial⟩
    exact sameContracts ▸ mirrored

theorem step (numbered : ∀ block, known block → Numbered env block) {event : WalletEvent}
    (permitted : system.Permitted known event) (stepped : system.step env event = some after) :
    WalletSound env known contracts after := by
  cases event with
  | connect block => exact sound.connect permitted stepped
  | disconnect => exact sound.disconnect admissible permitted stepped
  | iterate => exact sound.iterate admissible numbered stepped

theorem run (numbered : ∀ block, known block → Numbered env block) {events : List WalletEvent}
    (permitted : WalletSystem.RunPermitted env known events system)
    (ran : WalletSystem.run env events system = some after) :
    WalletSound env known contracts after := by
  induction events generalizing system with
  | nil => exact Option.some.inj ran ▸ sound
  | cons event events ih =>
    obtain ⟨first, rest⟩ := permitted
    rw [WalletSystem.run, List.foldlM_cons] at ran
    obtain ⟨middle, stepped, ran⟩ := Option.bind_eq_some_iff.mp ran
    exact ih (sound.step admissible numbered first stepped) (rest middle stepped) ran

end

end WalletSound

namespace WalletSystem

section Sample

/-- The contract of one public key, and a wallet that has only it. -/
def keyContract : Contract :=
  let code := createSignatureRedeemScript (.point 1 2)
  ⟨code, [.signature], Env.sample.crypto.toCodeHash code⟩

def keyContracts (hash : Uint160) : Option Contract :=
  if hash = keyContract.programHash then some keyContract else none

/-- A coinbase transaction that pays the foundation and the wallet. -/
def payment (tag : UInt8) : Transaction :=
  let token := systemToken.hash Env.sample.crypto
  { Sample.coinbase tag 0 5000 with
    outputs := [⟨token, 5000, Env.sample.foundationProgramHash⟩,
      ⟨token, 5000, keyContract.programHash⟩] }

def paymentBlock (parent : Block) (tag : UInt8) : Block := Sample.block parent [payment tag]

end Sample

/-- Accesses of the wallet are always permitted. -/
theorem runPermitted_iterate (env : Env) (known : Block → Prop) (count : Nat)
    (system : WalletSystem) : RunPermitted env known (List.replicate count .iterate) system := by
  induction count generalizing system with
  | zero => trivial
  | succ count ih => exact ⟨trivial, fun after _ => ih after⟩

/-- Along every history in which no block is rolled back that the wallet has reached,
a wallet that has processed as many blocks as the chain has mirrors the chain. -/
theorem mirrors_of_run (env : Env) (known : Block → Prop)
    (contracts : Uint160 → Option Contract) (events : List WalletEvent) (system : WalletSystem)
    (admissible : Admissible env known) (numbered : ∀ block, known block → Numbered env block)
    (permitted : RunPermitted env known events (start env contracts))
    (ran : run env events (start env contracts) = some system)
    (level : system.client.currentHeight.toInt = system.store.currentBlockHeight.toNat) :
    Mirrors env contracts system.chain system.client.coins := by
  have started : WalletSound env known contracts (start env contracts) := .start
  obtain ⟨mainChain, -, ⟨below, suffix, count, mirrors⟩, -⟩ :=
    started.run admissible numbered permitted ran
  obtain ⟨tip, lower, isChain⟩ :=
    List.exists_cons_of_ne_nil (List.ne_nil_of_mem (mainChain.branch admissible).root_mem)
  have head : tip ∈ system.chain.head? := by rw [isChain]; rfl
  have length : tip.blockdata.height.toNat + 1 = system.chain.length :=
    (mainChain.branch admissible).height_eq_length rfl tip head
  rw [(mainChain.represents admissible).currentBlockHeight tip head] at level
  have whole : below = system.chain := suffix.eq_of_length (by omega)
  exact whole ▸ mirrors

theorem mirrors_payment :
    let block := paymentBlock (genesisBlock .sample) 1
    ∃ system, run .sample (.connect block :: List.replicate 8 .iterate)
        (start .sample keyContracts) = some system ∧
      system.client.coins.length = 1 ∧
      Mirrors .sample keyContracts system.chain system.client.coins := by
  intro block
  have ends : (run .sample (.connect block :: List.replicate 8 .iterate)
      (start .sample keyContracts)).map (fun system =>
        decide (system.client.currentHeight.toInt = system.store.currentBlockHeight.toNat ∧
          system.client.coins.length = 1)) = some true := by
    decide +kernel
  obtain ⟨system, ran, ends⟩ := Option.map_eq_some_iff.mp ends
  obtain ⟨level, one⟩ := of_decide_eq_true ends
  have apart : HashesApart .sample (Sample.deliveries [block]) := by
    constructor <;> decide +kernel
  have sane : Sane .sample block := by constructor <;> decide +kernel
  have numbered : ∀ other ∈ [genesisBlock .sample, block], Numbered .sample other := by
    decide +kernel
  refine ⟨system, ran, one, mirrors_of_run .sample (Delivered .sample (Sample.deliveries [block]))
    keyContracts _ system (Blockchain.admissible_delivered apart (by decide)) ?_ ?_ ran level⟩
  · intro other delivered
    exact numbered other (Blockchain.Delivered.mem delivered)
  · refine ⟨.inr ⟨⟨_, List.mem_singleton.mpr rfl, rfl⟩, sane⟩, fun after _ => ?_⟩
    exact runPermitted_iterate _ _ 8 after

/-- The wallet has processed the genesis block and a block that pays it when that
block is replaced by two others. It goes on with the second of them, keeps the coin
that is gone and never sees the first one. -/
theorem reorganised_payment_kept :
    let block := paymentBlock (genesisBlock .sample) 1
    let rival := paymentBlock (genesisBlock .sample) 2
    let next := paymentBlock rival 3
    ∃ system, run .sample (WalletEvent.connect block :: List.replicate 8 WalletEvent.iterate ++
        [WalletEvent.disconnect, .connect rival, .connect next] ++
        List.replicate 4 WalletEvent.iterate) (start .sample keyContracts) = some system ∧
      system.phase = .polling ∧
      system.client.currentHeight.toInt = system.store.currentBlockHeight.toNat ∧
      ¬ Mirrors .sample keyContracts system.chain system.client.coins := by
  intro block rival next
  have stale : (run .sample (WalletEvent.connect block :: List.replicate 8 WalletEvent.iterate ++
      [WalletEvent.disconnect, .connect rival, .connect next] ++
      List.replicate 4 WalletEvent.iterate) (start .sample keyContracts)).map (fun system => decide (system.phase = .polling ∧
        system.client.currentHeight.toInt = system.store.currentBlockHeight.toNat ∧
        ∃ entry ∈ system.client.coins, ∀ other ∈ system.chain, ∀ tx ∈ other.transactions,
          tx.hash Env.sample.crypto ≠ entry.1.referTxID)) = some true := by
    decide +kernel
  obtain ⟨system, ran, stale⟩ := Option.map_eq_some_iff.mp stale
  obtain ⟨polling, level, entry, member, gone⟩ := of_decide_eq_true stale
  refine ⟨system, ran, polling, level, fun mirrors => ?_⟩
  obtain ⟨output, -, ⟨other, otherMember, tx, txMember, index, -, isKey, -⟩, -⟩ :=
    (mirrors.exact entry.1 entry.2.output).mp (List.mem_map_of_mem member)
  exact gone other otherMember tx txMember (congrArg Outpoint.referTxID isKey).symm

end WalletSystem

end DnaPow.Account
