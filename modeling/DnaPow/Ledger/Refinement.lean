import DnaPow.Ledger.Runs

/-!
# The store refines the best chain

What the read functions of the store return in any state that a run reaches,
compared with the best chain in memory.
-/

namespace DnaPow.Ledger

open DnaPow.Std Common Core Action

/-- The ancestors of a node that are in memory are the first blocks of its branch. -/
theorem Tree.lineage_prefix {env : Env} {known : Block → Prop} {nodes : Nodes}
    {index : Uint256 → Option NodeId} {depNodes : Uint256 → List NodeId}
    (tree : Tree env known nodes index depNodes) (admissible : Admissible env known)
    {id : NodeId} (allocated : id < nodes.count) {block : Block} {below : List Block}
    (branch : (blockLinks env).Branch known (block :: below))
    (hash : (nodes.get id).hash = block.hash env.crypto) :
    (nodes.lineage (some id)).map (fun id => (nodes.get id).hash) <+:
      (block :: below).map (Block.hash env.crypto) := by
  have follow : ∀ (fuel : Nat) (id : NodeId) (block : Block) (below : List Block),
      id < nodes.count → (blockLinks env).Branch known (block :: below) →
      (nodes.get id).hash = block.hash env.crypto →
      (nodes.follow fuel (some id)).map (fun id => (nodes.get id).hash) <+:
        (block :: below).map (Block.hash env.crypto) := by
    intro fuel
    induction fuel with
    | zero => exact fun _ _ _ _ _ _ => List.nil_prefix
    | succ fuel ih =>
      intro id block below allocated branch hash
      have isKnown := branch.known_of_mem admissible.genesis _ List.mem_cons_self
      refine List.cons_prefix_cons.mpr ⟨hash, ?_⟩
      cases link : (nodes.get id).parent with
      | none => cases fuel <;> exact List.nil_prefix
      | some parent =>
        obtain ⟨parentAllocated, parentHash⟩ := tree.parent id allocated parent link
        rw [(tree.header_eq admissible allocated isKnown hash).1] at parentHash
        cases branch with
        | root => exact absurd parentHash (tree.hash_ne_zero admissible parentAllocated)
        | @extend _ next below rest isKnown linked above =>
          exact ih parent next below parentAllocated rest (parentHash.trans linked)
  exact follow nodes.count id block below allocated branch hash

namespace Blockchain

/-- The state agrees with the store on the given main chain, newest block first. -/
structure StoreRefines (env : Env) (bc : Blockchain) (best : NodeId) (chain : List Block) :
    Prop where
  isBest : bc.bestChain = some best
  /-- The ancestors in memory are those of the chain. -/
  ancestors : (bc.nodes.lineage (some best)).map (fun id => (bc.nodes.get id).hash) <+:
    chain.map (Block.hash env.crypto)
  blockHeight : bc.blockHeight = (bc.nodes.get best).height
  currentBlockHeight : bc.store.currentBlockHeight = (bc.nodes.get best).height
  getBlockHash_isOk : ∀ height, (∃ hash, bc.store.getBlockHash height = .ok hash) ↔
    height ≤ (bc.nodes.get best).height
  getBlockHash : ∀ height hash, bc.store.getBlockHash height = .ok hash ↔
    ∃ block ∈ chain, block.blockdata.height = height ∧ block.hash env.crypto = hash
  getHeader : ∀ height hash, bc.store.getBlockHash height = .ok hash →
    ∃ header, bc.store.getHeader hash = .ok header ∧
      (height ≠ 0 → bc.store.getBlockHash (height - 1) = .ok header.prevBlockHash)
  getBlock : ∀ hash block, bc.store.getBlock env.crypto hash = .ok block ↔
    block ∈ chain ∧ block.hash env.crypto = hash
  getTransaction : ∀ hash tx height, bc.store.getTransaction hash = .ok (tx, height) ↔
    ∃ block ∈ chain, tx ∈ block.transactions ∧ tx.hash env.crypto = hash ∧
      block.blockdata.height = height

variable {env : Env} {known : Block → Prop} {bc : Blockchain}

theorem Invariant.storeRefines (admissible : Admissible env known) {chain : List Block}
    (invariant : Invariant env known chain bc)
    (readable : ∀ block ∈ chain, ∀ tx ∈ block.transactions, tx.txType ≠ .deploy) :
    ∃ best, StoreRefines env bc best chain := by
  have branch := invariant.mainChain.branch admissible
  have represents := invariant.mainChain.represents admissible
  obtain ⟨best, tip, isBest, head, allocated, hash⟩ := invariant.best
  obtain ⟨below, rfl⟩ := List.head?_eq_some_iff.mp head
  have isKnown := branch.known_of_mem admissible.genesis _ List.mem_cons_self
  have height := (invariant.tree.header_eq admissible allocated isKnown hash).2
  have low : ∀ block ∈ tip :: below, block.blockdata.height ≤ tip.blockdata.height := by
    intro block member
    rw [UInt32.le_iff_toNat_le]
    rcases List.mem_cons.mp member with rfl | member
    · exact Nat.le_refl _
    · exact ((List.pairwise_cons.mp branch.height_lt).1 block member).le
  refine ⟨best, isBest, invariant.tree.lineage_prefix admissible allocated branch hash, ?_, ?_,
    ?_, ?_, ?_, ?_, ?_⟩
  · rw [height, invariant.blockHeight tip rfl]
  · rw [height, represents.currentBlockHeight tip rfl]
  · intro h
    rw [height]
    constructor
    · rintro ⟨found, ok⟩
      obtain ⟨block, member, rfl, -⟩ := represents.getBlockHash_eq_ok.mp ok
      exact low block member
    · intro bound
      obtain ⟨block, member, same⟩ :=
        branch.exists_height rfl (UInt32.le_iff_toNat_le.mp bound)
      exact ⟨_, represents.getBlockHash_eq_ok.mpr ⟨block, member, UInt32.toNat_inj.mp same, rfl⟩⟩
  · exact fun h x => represents.getBlockHash_eq_ok
  · intro h x ok
    obtain ⟨block, member, rfl, rfl⟩ := represents.getBlockHash_eq_ok.mp ok
    refine ⟨_, represents.getHeader_eq_ok.mpr ⟨block, member, rfl, rfl⟩, fun nonzero => ?_⟩
    obtain ⟨parent, parentMember, linked, above⟩ := branch.exists_parent rfl member
      fun zero => nonzero (UInt32.toNat_inj.mp zero)
    rw [height_eq_succ above, UInt32.add_sub_cancel]
    exact represents.getBlockHash_eq_ok.mpr ⟨parent, parentMember, rfl, linked.symm⟩
  · intro x block
    have sane : ∀ block ∈ tip :: below, Sane env block := fun block member =>
      admissible.sane _ (branch.known_of_mem admissible.genesis _ member)
    constructor
    · exact represents.mem_of_getBlock sane
    · rintro ⟨member, rfl⟩
      rw [represents.getBlock_eq member (sane block member), if_neg]
      rintro ⟨tx, txMember, deploy⟩
      exact readable block member tx txMember deploy
  · intro x tx h
    rw [represents.getTransaction_eq_ok]
    exact and_iff_left_of_imp fun ⟨block, member, txMember, _⟩ => readable block member tx txMember

/-- In every state that a run without deploy transactions reaches, the store
refines the best chain. -/
theorem storeRefines_of_run (env : Env) (deliveries : List Delivery) (bc : Blockchain)
    (apart : HashesApart env deliveries) (few : deliveries.length + 1 < 2 ^ 32)
    (readable : ∀ delivery ∈ deliveries, ∀ tx ∈ delivery.block.transactions,
      tx.txType ≠ .deploy)
    (ran : run env deliveries = some bc) :
    ∃ best chain, (blockLinks env).Branch (Delivered env deliveries) chain ∧
      StoreRefines env bc best chain := by
  have admissible := admissible_delivered apart few
  obtain ⟨chain, invariant⟩ := run_sound apart few ran
  have branch := invariant.mainChain.branch admissible
  have chainReadable : ∀ block ∈ chain, ∀ tx ∈ block.transactions, tx.txType ≠ .deploy := by
    intro block member
    rcases branch.known_of_mem admissible.genesis block member with rfl | ⟨⟨delivery, found, rfl⟩, -⟩
    · simp [genesisBlock, genesisCoinbase, systemToken, Transaction.txType]
    · exact readable delivery found
  obtain ⟨best, refines⟩ := invariant.storeRefines admissible chainReadable
  exact ⟨best, chain, branch, refines⟩

/-- A block on the genesis block whose coinbase output is spendable at once. -/
def firstBlock : Block := Sample.block (genesisBlock .sample) [Sample.coinbase 1 0x80000000 5000]

theorem storeRefines_firstBlock :
    ∃ bc, run .sample (Sample.deliveries [firstBlock]) = some bc ∧
      ∃ best chain, (blockLinks .sample).Branch
        (Delivered .sample (Sample.deliveries [firstBlock])) chain ∧
          StoreRefines .sample bc best chain := by
  have ends : (run .sample (Sample.deliveries [firstBlock])).isSome = true := by decide +kernel
  obtain ⟨bc, ran⟩ := Option.isSome_iff_exists.mp ends
  refine ⟨bc, ran, storeRefines_of_run .sample _ bc ⟨?_, ?_, ?_⟩ ?_ ?_ ran⟩ <;> decide +kernel

/-- A block that deploys code, paid from the first block. -/
def deployingBlock : Block :=
  Sample.block firstBlock [Sample.coinbase 2 2 5000,
    Sample.spend (.deployCode ⟨[], []⟩ [] [] [] [] []) (Sample.coinbase 1 0x80000000 5000) 1000]

/-- The last block is on the main chain and cannot be read back. -/
theorem deployingBlock_unreadable :
    ∃ bc, run .sample (Sample.deliveries [firstBlock, deployingBlock]) = some bc ∧
      ¬ ∃ best chain, StoreRefines .sample bc best chain := by
  have hash : (run .sample (Sample.deliveries [firstBlock, deployingBlock])).map
      (·.store.getBlockHash 2) = some (.ok (deployingBlock.hash Env.sample.crypto)) := by
    decide +kernel
  have unreadable : (run .sample (Sample.deliveries [firstBlock, deployingBlock])).map
      (·.store.getBlock Env.sample.crypto (deployingBlock.hash Env.sample.crypto)) =
        some .panic := by
    decide +kernel
  obtain ⟨bc, ran, hash⟩ := Option.map_eq_some_iff.mp hash
  rw [ran, Option.map_some, Option.some_inj] at unreadable
  refine ⟨bc, ran, ?_⟩
  rintro ⟨best, chain, refines⟩
  obtain ⟨block, member, -, same⟩ := (refines.getBlockHash 2 _).mp hash
  have read := (refines.getBlock _ block).mpr ⟨member, same⟩
  exact absurd (unreadable.symm.trans read) nofun

end Blockchain

end DnaPow.Ledger
