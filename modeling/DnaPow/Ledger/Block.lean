import DnaPow.Core.AuxPow
import DnaPow.Core.Transaction

/-!
# Configuration and blocks

The parameters of a node, block headers and blocks with their hashes and the
Merkle root of their transactions, and the genesis block.
-/

namespace DnaPow.Ledger

open DnaPow.Std Common Core

/-! ## Configuration -/

/-- `config.ChainParams`. The time spans are in seconds. -/
structure ChainParams where
  /-- Whether `Name` is `RegNet`; the name is used for nothing else. -/
  regNet : Bool
  powLimit : Int
  powLimitBits : UInt32
  targetTimespan : Int
  targetTimePerBlock : Int
  adjustmentFactor : Int
  maxOrphanBlocks : Nat
  minMemoryNodes : UInt32
  spendCoinbaseSpan : UInt32

/-- What the ledger depends on besides its state: the primitives, the
configuration and the constants of the genesis block. -/
structure Env where
  crypto : Primitives
  chainParam : ChainParams
  maxTxInBlock : Nat
  maxBlockSize : Nat
  minTxFee : Fixed64
  coMining : Bool
  foundationAddress : Bytes
  /-- The program hash of the foundation address. -/
  foundationProgramHash : Uint160
  /-- The nonce attribute of the genesis coinbase transaction. -/
  genesisNonce : Bytes

/-- The three networks. -/
def mainNet : ChainParams where
  regNet := false
  powLimit := 2 ^ 255 - 1
  powLimitBits := 0x1f0008ff
  targetTimespan := 60 * 2 * 720
  targetTimePerBlock := 60 * 2
  adjustmentFactor := 4
  maxOrphanBlocks := 10000
  minMemoryNodes := 20160
  spendCoinbaseSpan := 100

def testNet : ChainParams :=
  { mainNet with powLimitBits := 0x1e1da5ff, targetTimespan := 10 * 10, targetTimePerBlock := 10 }

def regNet : ChainParams :=
  { mainNet with
    regNet := true
    powLimitBits := 0x207fffff
    targetTimespan := 1 * 10
    targetTimePerBlock := 1 }

/-- Concrete parameters, for running the model on sample inputs: the foundation
is paid to a script that always succeeds. -/
def Env.sample : Env where
  crypto := .polynomial
  chainParam := Ledger.regNet
  maxTxInBlock := 10000
  maxBlockSize := 1000000
  minTxFee := 1000
  coMining := false
  foundationAddress := (Primitives.polynomial.toCodeHash [0x51]).toArray
  foundationProgramHash := Primitives.polynomial.toCodeHash [0x51]
  genesisNonce := [0, 0, 0, 0, 0, 0, 0, 0]

/-! ## Blocks -/

/-- `Blockdata`. Its program is never set and is left out. -/
structure Blockdata where
  version : UInt32
  prevBlockHash : Uint256
  transactionsRoot : Uint256
  timestamp : UInt32
  bits : UInt32
  height : UInt32
  nonce : UInt32
  auxPow : AuxPow
  deriving DecidableEq, Repr

/-- The header without its auxiliary proof of work: what is hashed. -/
def Blockdata.serializeUnsigned (blockdata : Blockdata) : Bytes :=
  writeUint32 blockdata.version ++ blockdata.prevBlockHash.toArray ++
    blockdata.transactionsRoot.toArray ++ writeUint32 blockdata.timestamp ++
    writeUint32 blockdata.bits ++ writeUint32 blockdata.nonce ++ writeUint32 blockdata.height

/-- The hashed bytes determine all of the header but its auxiliary proof of work. -/
theorem Blockdata.serializeUnsigned_inj {first second : Blockdata}
    (same : first.serializeUnsigned = second.serializeUnsigned) :
    { first with auxPow := second.auxPow } = second := by
  simp only [serializeUnsigned, List.append_assoc] at same
  obtain ⟨version, same⟩ := List.append_inj same (by simp)
  obtain ⟨prevBlockHash, same⟩ := List.append_inj same (by simp)
  obtain ⟨transactionsRoot, same⟩ := List.append_inj same (by simp)
  obtain ⟨timestamp, same⟩ := List.append_inj same (by simp)
  obtain ⟨bits, same⟩ := List.append_inj same (by simp)
  obtain ⟨nonce, height⟩ := List.append_inj same (by simp)
  cases first
  cases second
  simp only [Blockdata.mk.injEq, and_true]
  exact ⟨writeUint32_inj version, Uint256.toArray_inj prevBlockHash,
    Uint256.toArray_inj transactionsRoot, writeUint32_inj timestamp, writeUint32_inj bits,
    writeUint32_inj height, writeUint32_inj nonce⟩

def Blockdata.serialize (blockdata : Blockdata) : Bytes :=
  blockdata.serializeUnsigned ++ blockdata.auxPow.serialize ++ [1]

def Blockdata.hash (crypto : Primitives) (blockdata : Blockdata) : Uint256 :=
  crypto.doubleSha256 blockdata.serializeUnsigned

structure Block where
  blockdata : Blockdata
  transactions : List Transaction
  deriving DecidableEq, Repr

namespace Block

def serialize (block : Block) : Bytes :=
  block.blockdata.serialize ++ writeUint32 (UInt32.ofNat block.transactions.length) ++
    block.transactions.flatMap Transaction.serialize

def getSize (block : Block) : Nat := block.serialize.length

def hash (crypto : Primitives) (block : Block) : Uint256 := block.blockdata.hash crypto

def txHashes (crypto : Primitives) (block : Block) : List Uint256 :=
  block.transactions.map (Transaction.hash crypto)

end Block

/-! ## Merkle root -/

/-- `levelUp`: pairs are hashed together, an odd last node with itself. -/
def levelUp (crypto : Primitives) : List Uint256 → List Uint256
  | [] => []
  | [last] => [crypto.doubleSha256 (last.toArray ++ last.toArray)]
  | left :: right :: rest =>
      crypto.doubleSha256 (left.toArray ++ right.toArray) :: levelUp crypto rest

/-- The loop of `NewMerkleTree`. A level has at most as many nodes as the last. -/
def merkleRoot (crypto : Primitives) : (fuel : Nat) → List Uint256 → Uint256
  | fuel + 1, first :: second :: rest =>
      merkleRoot crypto fuel (levelUp crypto (first :: second :: rest))
  | _, [root] => root
  | _, _ => 0

/-- `ComputeRoot`, which fails on an empty list. -/
def computeRoot (crypto : Primitives) (hashes : List Uint256) : Option Uint256 :=
  if hashes = [] then none else some (merkleRoot crypto hashes.length hashes)

/-! ## Genesis -/

section Genesis

variable (env : Env)

/-- The transaction that registers the system asset. -/
def systemToken : Transaction where
  payloadVersion := 0
  payload := .registerAsset
    { name := [0x45, 0x4c, 0x41], description := [], precision := 8, assetType := 0,
      recordType := 0 } 0 0
  attributes := []
  utxoInputs := []
  outputs := []
  lockTime := 0
  programs := []

/-- The coinbase transaction of the genesis block, built by `NewCoinBaseTransaction`
with height zero. -/
def genesisCoinbase : Transaction where
  payloadVersion := 4
  payload := .coinBase []
  attributes := [⟨.nonce, env.genesisNonce⟩]
  utxoInputs := [⟨⟨0, 0⟩, 0⟩]
  outputs := [⟨systemToken.hash env.crypto, 3300 * 10000 * 100000000, env.foundationProgramHash⟩]
  lockTime := 0
  programs := []

/-- `GenesisBlockInit`. -/
def genesisBlock : Block where
  blockdata := {
    version := 0
    prevBlockHash := 0
    transactionsRoot := (computeRoot env.crypto
      [(genesisCoinbase env).hash env.crypto, systemToken.hash env.crypto]).getD 0
    timestamp := 1506816000
    bits := 0x1d03ffff
    height := 0
    nonce := 2083236893
    auxPow := .empty }
  transactions := [genesisCoinbase env, systemToken]

end Genesis

end DnaPow.Ledger
