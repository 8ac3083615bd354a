import DnaPow.Ledger.BlockValidator
import DnaPow.Std.HashChain

/-!
# The main chain and its store

The main chain as an abstract machine: it starts as the genesis block, grows by
a block that passes the context checks and shrinks by its last block, and the
store is changed along with it. Whatever the order of these steps, the tables of
the store then hold the blocks of the chain and nothing else (`Represents`).
-/

namespace DnaPow.Ledger

open DnaPow.Std Common Core

/-- Blocks are linked by the hashes of their headers. -/
def blockLinks (env : Env) : Links Block Uint256 where
  hash := Block.hash env.crypto
  prev block := block.blockdata.prevBlockHash
  height block := block.blockdata.height.toNat
  root := genesisBlock env

/-- What the sanity check establishes about a block whatever the ledger. -/
structure Sane (env : Env) (block : Block) : Prop where
  root : computeRoot env.crypto (block.txHashes env.crypto) =
    some block.blockdata.transactionsRoot
  distinct : (block.txHashes env.crypto).Nodup
  first : block.transactions.head?.all Transaction.isCoinBaseTx
  others : ∀ tx ∈ block.transactions.tail, tx.isCoinBaseTx = false

theorem Sane.of_check {env : Env} {assetID : Uint256} {store : ChainStore} {adjustedTime : Int}
    {block : Block} (passed : powCheckBlockSanity env assetID store adjustedTime block = .ok ()) :
    Sane env block := by
  simp only [powCheckBlockSanity, Outcome.bind_eq_ok, Outcome.require_eq_ok] at passed
  obtain ⟨-, -, -, -, -, -, -, -, -, -, -, -, -, first, -, others, -, root, -, distinct, -⟩ := passed
  exact ⟨root, distinct, first, others⟩

/-- The blocks a node may come to know: sane ones that their hashes tell apart,
none of which can be mistaken for the parent of the genesis block, and not so many
that a height wraps around. -/
structure Admissible (env : Env) (known : Block → Prop) : Prop where
  genesis : known (genesisBlock env)
  sane : ∀ block, known block → Sane env block
  distinct : ∀ block other, known block → known other →
    block.hash env.crypto = other.hash env.crypto →
      block.blockdata.serializeUnsigned = other.blockdata.serializeUnsigned
  nonzero : ∀ block, known block → block.hash env.crypto ≠ 0
  bounded : ∀ chain, (blockLinks env).Branch known chain → chain.length < 2 ^ 32

/-- The main chain, newest block first, and the store that goes with it. -/
inductive MainChain (env : Env) (known : Block → Prop) : List Block → ChainStore → Prop
  | genesis : MainChain env known [genesisBlock env] (.genesis env)
  | connect {block tip : Block} {below : List Block} {store store' : ChainStore}
      (chain : MainChain env known (tip :: below) store) (isKnown : known block)
      (linked : block.blockdata.prevBlockHash = tip.hash env.crypto)
      (above : block.blockdata.height = tip.blockdata.height + 1)
      (checked : checkTransactionsContext env store block.transactions = .ok ())
      (persisted : store.persistBlocks (ε := Unit) env.crypto block = .ok store') :
      MainChain env known (block :: tip :: below) store'
  | disconnect {block tip : Block} {below : List Block} {store store' : ChainStore}
      (chain : MainChain env known (block :: tip :: below) store)
      (rolledBack : store.rollback (ε := Unit) env.crypto block = .ok store') :
      MainChain env known (tip :: below) store'

variable {env : Env} {known : Block → Prop}

namespace Admissible

variable (admissible : Admissible env known)
include admissible

theorem blockdata_eq {block other : Block} (isKnown : known block) (isKnown' : known other)
    (same : block.hash env.crypto = other.hash env.crypto) :
    { block.blockdata with auxPow := other.blockdata.auxPow } = other.blockdata :=
  Blockdata.serializeUnsigned_inj (admissible.distinct _ _ isKnown isKnown' same)

theorem faithful : (blockLinks env).Faithful known where
  known_root := admissible.genesis
  height_root := rfl
  prev_eq _ _ isKnown isKnown' same := by
    have sameField := congrArg Blockdata.prevBlockHash
      (admissible.blockdata_eq isKnown isKnown' same)
    exact sameField
  height_eq _ _ isKnown isKnown' same := by
    have sameField := congrArg (·.height.toNat) (admissible.blockdata_eq isKnown isKnown' same)
    exact sameField

/-- The height above a branch does not wrap around. -/
theorem height_toNat {tip : Block} {below : List Block}
    (branch : (blockLinks env).Branch known (tip :: below)) {height : UInt32}
    (above : height = tip.blockdata.height + 1) : height.toNat = tip.blockdata.height.toNat + 1 := by
  have length : tip.blockdata.height.toNat + 1 = (tip :: below).length :=
    branch.height_eq_length rfl tip rfl
  have bound := admissible.bounded _ branch
  simp only [above, UInt32.toNat_add, UInt32.reduceToNat]
  omega

/-- A block of a branch on top of the last block of another one is one higher. -/
theorem height_above {block tip : Block} {below rest : List Block}
    (branch : (blockLinks env).Branch known (block :: below))
    (branch' : (blockLinks env).Branch known (tip :: rest))
    (linked : block.blockdata.prevBlockHash = tip.hash env.crypto) :
    block.blockdata.height.toNat = tip.blockdata.height.toNat + 1 := by
  have isKnown' := branch'.known_of_mem admissible.genesis _ List.mem_cons_self
  cases branch with
  | root => exact absurd linked.symm (admissible.nonzero _ isKnown')
  | @extend _ parent _ rest isKnown linked' above =>
    have isKnown := rest.known_of_mem admissible.genesis _ List.mem_cons_self
    have same := admissible.faithful.height_eq _ _ isKnown isKnown' (linked'.symm.trans linked)
    exact above.trans (congrArg (· + 1) same)

end Admissible

/-- Heights that differ by one as numbers do so as 32-bit words. -/
theorem height_eq_succ {height below : UInt32} (above : height.toNat = below.toNat + 1) :
    height = below + 1 := by
  have bound := height.toNat_lt
  apply UInt32.toNat_inj.mp
  simp only [UInt32.toNat_add, UInt32.reduceToNat]
  omega

theorem MainChain.branch (admissible : Admissible env known) {chain : List Block}
    {store : ChainStore} (mainChain : MainChain env known chain store) :
    (blockLinks env).Branch known chain := by
  induction mainChain with
  | genesis => exact .root
  | connect chain isKnown linked above checked persisted ih =>
    exact .extend ih isKnown linked (admissible.height_toNat ih above)
  | disconnect chain rolledBack ih => exact ih.of_cons

/-- Every block of the main chain above the genesis block passed the context checks
on a store that went with the chain below it. -/
theorem MainChain.checked_of_suffix {chain : List Block} {store : ChainStore}
    (mainChain : MainChain env known chain store) {block tip : Block} {below : List Block}
    (suffix : (block :: tip :: below).IsSuffix chain) :
    ∃ store', MainChain env known (tip :: below) store' ∧
      checkTransactionsContext env store' block.transactions = .ok () := by
  induction mainChain with
  | genesis =>
    have length := suffix.length_le
    simp at length
  | connect chain isKnown linked above checked persisted ih =>
    rcases List.suffix_cons_iff.mp suffix with same | lower
    · obtain ⟨rfl, rfl, rfl⟩ : _ ∧ _ ∧ _ := by simpa using same
      exact ⟨_, chain, checked⟩
    · exact ih lower
  | disconnect chain rolledBack ih => exact ih (suffix.trans (List.suffix_cons _ _))

end DnaPow.Ledger
