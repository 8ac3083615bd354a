import DnaPow.Ledger.Accept
import DnaPow.Ledger.RunRules
import Mathlib.Data.List.Perm.Subperm

/-!
# Runs

Whole runs from a fresh node: every state that is reached has a main chain.
-/

namespace DnaPow.Ledger

open DnaPow.Std Common Core Action

namespace Blockchain

variable {env : Env} {known : Block → Prop} {bc after : Blockchain} {chain : List Block}

theorem Invariant.pool (invariant : Invariant env known chain bc)
    (pool : PoolOnly (known ·.block) bc after) : Invariant env known chain after := by
  rw [pool.same]
  exact { invariant with orphans := pool.allowed }

/-! ## A fresh node -/

/-- The node of the genesis block. -/
def genesisNode (env : Env) : BlockNode :=
  (newBlockNode (genesisBlock env).blockdata ((genesisBlock env).hash env.crypto)).withInMainChain
    true

/-- Starting on the store that holds the genesis block succeeds. -/
theorem newBlockchainWithGenesisBlock_genesis (env : Env) :
    newBlockchainWithGenesisBlock env (.genesis env) =
      (.ok (), { newBlockchain (.genesis env) with
        genesisHash := (genesisBlock env).hash env.crypto
        bestChain := some 0
        root := some 0
        nodes := Nodes.empty.allocate (genesisNode env)
        index := Function.update (fun _ => none) ((genesisBlock env).hash env.crypto) (some 0)
        depNodes := Function.update (fun _ => []) 0 [0]
        assetID := systemToken.hash env.crypto }) := by
  have header : (ChainStore.genesis env).header ((genesisBlock env).hash env.crypto) =
      some ⟨(genesisBlock env).blockdata, (genesisBlock env).txHashes env.crypto⟩ :=
    Function.update_self ..
  have inStore : (ChainStore.genesis env).isBlockInStore ((genesisBlock env).hash env.crypto) =
      true := by
    simp only [ChainStore.isBlockInStore, header]
    rfl
  change (initLedgerStoreWithGenesisBlock env).run
    { newBlockchain (.genesis env) with assetID := systemToken.hash env.crypto } = _
  have consistent : ¬ ((newBlockchain (.genesis env)).store.isBlockInStore
      ((genesisBlock env).hash env.crypto) = false) := by
    simpa [newBlockchain] using inStore
  rw [initLedgerStoreWithGenesisBlock, run_bind_of_ok (run_get _), if_neg consistent]
  let start : Blockchain := { newBlockchain (.genesis env) with
    genesisHash := (genesisBlock env).hash env.crypto
    assetID := systemToken.hash env.crypto }
  -- the only height is that of the genesis block
  have heights : (if (0 : UInt32) > env.chainParam.minMemoryNodes then
      0 - env.chainParam.minMemoryNodes else 0) = 0 := if_neg (by simp)
  change (do
    loadBlockNodes (UInt32.toNat 0 - UInt32.toNat (if (0 : UInt32) > env.chainParam.minMemoryNodes
      then 0 - env.chainParam.minMemoryNodes else 0) + 1)
      (if (0 : UInt32) > env.chainParam.minMemoryNodes then 0 - env.chainParam.minMemoryNodes else 0)
    Action.modify fun bc => { bc with blockHeight := bc.store.currentBlockHeight } :
      Call Unit).run start = _
  rw [heights]
  have blockHash : (checked .store fun bc => bc.store.getBlockHash 0 : Call Uint256).run start =
      (.ok ((genesisBlock env).hash env.crypto), start) := rfl
  have getHeader : (checked .store fun bc =>
      bc.store.getHeader ((genesisBlock env).hash env.crypto) : Call Blockdata).run start =
      (.ok (genesisBlock env).blockdata, start) := by
    simp only [checked, run_check, start, newBlockchain, ChainStore.getHeader, header]
    rfl
  change (loadBlockNodes 1 0 >>= fun _ => _ : Call Unit).run start = _
  rw [run_bind, loadBlockNodes, run_bind_of_ok blockHash, run_bind_of_ok getHeader]
  rfl

theorem fresh_invariant (env : Env) (known : Block → Prop) :
    Invariant env known [genesisBlock env] (fresh env) := by
  have nothing : Tree env known .empty (fun _ => none) (fun _ => []) :=
    ⟨nofun, nofun, nofun, nofun⟩
  have one := nothing.allocate .root (describes_newBlockNode env (genesisBlock env) true) nofun
  have indexed := (one.addNodeToIndex (Nat.lt_succ_self 0)).addDepNode (Nat.lt_succ_self 0) rfl
  rw [fresh, newBlockchainWithGenesisBlock_genesis]
  refine ⟨.genesis, indexed, ⟨0, genesisBlock env, rfl, rfl, Nat.lt_succ_self 0, rfl⟩, ?_, nofun,
    nofun⟩
  rintro _ ⟨⟩
  rfl

/-! ## Runs -/

section Sound

variable {block : Block} {orphan : OrphanBlock}

theorem Sound.withoutOrphan (sound : Sound env known bc) (orphan : OrphanBlock) :
    Sound env known (bc.withoutOrphan env orphan) := by
  obtain ⟨chain, invariant⟩ := sound
  have pool : PoolOnly (known ·.block) bc bc := ⟨rfl, invariant.orphans⟩
  exact ⟨chain, invariant.pool (pool.withoutOrphan orphan bc.oldestOrphan)⟩

theorem Sound.takeOrphan (sound : Sound env known bc) {hash : Uint256}
    {others : List OrphanBlock} (found : bc.prevOrphans hash = orphan :: others) :
    Sound env known (bc.withoutOrphan env orphan) ∧ known orphan.block := by
  refine ⟨sound.withoutOrphan orphan, ?_⟩
  obtain ⟨chain, invariant⟩ := sound
  exact invariant.orphans hash orphan (found ▸ List.mem_cons_self)

theorem Sound.arrives {terms : Terms} (sound : Sound env known bc) {delivery : Delivery}
    (isKnown : Sane env delivery.block → known delivery.block) :
    Arrives env terms (Sound env known) (fun _ => known) delivery bc := by
  intro sane _ _
  obtain ⟨chain, invariant⟩ := sound
  refine ⟨isKnown sane, fun _ => ?_⟩
  exact (addOrphanBlock_pool invariant.orphans fun orphan same => same ▸ isKnown sane).mono
    (fun _ _ pool => ⟨chain, invariant.pool pool⟩) (fun _ => id)

/-- Every state that a run reaches has a main chain of known blocks. -/
theorem run_sound_of_known (admissible : Admissible env known) {deliveries : List Delivery}
    (isKnown : ∀ delivery ∈ deliveries, Sane env delivery.block → known delivery.block)
    (ran : run env deliveries = some bc) : Sound env known bc := by
  refine @run_rule _ _ ⟨fun _ _ _ => True, fun _ _ => True⟩ _ (fun _ => known) _ ?_ ?_ ?_
    ⟨_, fresh_invariant env _⟩ (runMeets_of_forall (fun _ _ _ => True.intro) fun _ _ => True.intro)
    ran
  · exact fun _ bc hash orphan others sound found _ => sound.takeOrphan found
  · exact fun _ bc block sound isKnown _ => maybeAcceptBlock_sound admissible sound isKnown
  · exact fun delivery member bc sound => sound.arrives (isKnown delivery member)

end Sound

end Blockchain

/-- The blocks that a run can come to know: the genesis block and the sane ones of
those delivered. -/
def Delivered (env : Env) (deliveries : List Delivery) (block : Block) : Prop :=
  block = genesisBlock env ∨ (∃ delivery ∈ deliveries, delivery.block = block) ∧ Sane env block

/-- What is assumed of the hash function on the blocks of a run: it tells their
headers apart, its value is never the one that stands for no parent, and it tells
the two transactions of the genesis block apart. -/
structure HashesApart (env : Env) (deliveries : List Delivery) : Prop where
  headers : ∀ block ∈ genesisBlock env :: deliveries.map Delivery.block,
    ∀ other ∈ genesisBlock env :: deliveries.map Delivery.block,
      block.hash env.crypto = other.hash env.crypto →
        block.blockdata.serializeUnsigned = other.blockdata.serializeUnsigned
  nonzero : ∀ block ∈ genesisBlock env :: deliveries.map Delivery.block,
    block.hash env.crypto ≠ 0
  genesis : ((genesisBlock env).txHashes env.crypto).Nodup

namespace Blockchain

variable {env : Env} {bc : Blockchain} {deliveries : List Delivery}

theorem Delivered.mem {block : Block} (delivered : Delivered env deliveries block) :
    block ∈ genesisBlock env :: deliveries.map Delivery.block := by
  rcases delivered with rfl | ⟨⟨delivery, member, rfl⟩, -⟩
  · exact List.mem_cons_self
  · exact List.mem_cons_of_mem _ (List.mem_map_of_mem member)

theorem sane_genesisBlock (distinct : ((genesisBlock env).txHashes env.crypto).Nodup) :
    Sane env (genesisBlock env) where
  root := rfl
  distinct := distinct
  first := rfl
  others tx member := by
    obtain rfl := List.mem_singleton.mp member
    rfl

/-- A branch of delivered blocks has no block twice. -/
theorem length_le_of_branch {chain : List Block}
    (branch : (blockLinks env).Branch (Delivered env deliveries) chain) :
    chain.length ≤ deliveries.length + 1 := by
  have distinct : chain.Nodup := branch.height_lt.imp fun lower same => by
    rw [same] at lower
    exact Nat.lt_irrefl _ lower
  have among : chain ⊆ genesisBlock env :: deliveries.map Delivery.block := fun block member =>
    Delivered.mem (branch.known_of_mem (.inl rfl) block member)
  simpa using (List.subperm_of_subset distinct among).length_le

theorem admissible_delivered (apart : HashesApart env deliveries)
    (few : deliveries.length + 1 < 2 ^ 32) : Admissible env (Delivered env deliveries) where
  genesis := .inl rfl
  sane block delivered := by
    rcases delivered with rfl | ⟨-, sane⟩
    · exact sane_genesisBlock apart.genesis
    · exact sane
  distinct _ _ delivered delivered' := apart.headers _ (Delivered.mem delivered) _
    (Delivered.mem delivered')
  nonzero _ delivered := apart.nonzero _ (Delivered.mem delivered)
  bounded _ branch := (length_le_of_branch branch).trans_lt few

/-- Every state that a run reaches has a main chain. -/
theorem run_sound (apart : HashesApart env deliveries)
    (few : deliveries.length + 1 < 2 ^ 32)
    (ran : run env deliveries = some bc) : Sound env (Delivered env deliveries) bc := by
  refine run_sound_of_known (admissible_delivered apart few) (fun delivery member sane => ?_) ran
  exact .inr ⟨⟨delivery, member, rfl⟩, sane⟩

end Blockchain

/-! ## Sample blocks

Blocks for the sample parameters, on which runs can be evaluated. -/

namespace Sample

/-- A coinbase transaction that pays the given amount twice to the foundation,
whose script always succeeds. The tag keeps two of them apart. -/
def coinbase (tag : UInt8) (lockTime : UInt32) (amount : Fixed64) : Transaction where
  payloadVersion := 4
  payload := .coinBase [tag]
  attributes := []
  utxoInputs := [⟨coinbaseOutpoint, 0⟩]
  outputs := List.replicate 2
    ⟨systemToken.hash Env.sample.crypto, amount, Env.sample.foundationProgramHash⟩
  lockTime
  programs := []

/-- A transaction that spends the first output of another one. -/
def spend (payload : Payload) (source : Transaction) (amount : Fixed64) : Transaction where
  payloadVersion := 0
  payload
  attributes := []
  utxoInputs := [⟨⟨source.hash Env.sample.crypto, 0⟩, 0⟩]
  outputs := [⟨systemToken.hash Env.sample.crypto, amount, Env.sample.foundationProgramHash⟩]
  lockTime := 0
  programs := [⟨[0x51], []⟩]

/-- A block on top of another one. -/
def block (parent : Block) (transactions : List Transaction) : Block where
  blockdata := {
    version := 0
    prevBlockHash := parent.hash Env.sample.crypto
    transactionsRoot := (computeRoot Env.sample.crypto
      (transactions.map (Transaction.hash Env.sample.crypto))).getD 0
    timestamp := parent.blockdata.timestamp + 1
    bits := Env.sample.chainParam.powLimitBits
    height := parent.blockdata.height + 1
    nonce := 0
    auxPow := .empty }
  transactions

/-- Blocks delivered at one time, near that of the genesis block. -/
def deliveries (blocks : List Block) : List Delivery := blocks.map (⟨·, 0, 1506816000⟩)

end Sample

end DnaPow.Ledger
