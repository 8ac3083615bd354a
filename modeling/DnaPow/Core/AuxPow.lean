import DnaPow.Common.Serialization
import DnaPow.Std.Action
import DnaPow.Std.HexText

/-!
# Auxiliary proof of work

Package `core/auxpow`: the parent-chain block header and coinbase transaction
that a merge-mined block carries, and the check that they commit to it. The two
Merkle indices are written and read as 32-bit numbers and have that type here.
-/

namespace DnaPow.Core

open DnaPow.Std Common

structure BtcTxIn where
  previousHash : Uint256
  previousIndex : UInt32
  signatureScript : Bytes
  sequence : UInt32
  deriving DecidableEq, Repr

def BtcTxIn.serialize (input : BtcTxIn) : Bytes :=
  input.previousHash.toArray ++ writeUint32 input.previousIndex ++
    writeVarBytes input.signatureScript ++ writeUint32 input.sequence

structure BtcTxOut where
  value : Fixed64
  pkScript : Bytes
  deriving DecidableEq, Repr

def BtcTxOut.serialize (output : BtcTxOut) : Bytes :=
  output.value.serialize ++ writeVarBytes output.pkScript

structure BtcTx where
  version : UInt32
  txIn : List BtcTxIn
  txOut : List BtcTxOut
  lockTime : UInt32
  deriving DecidableEq, Repr

def BtcTx.serialize (tx : BtcTx) : Bytes :=
  writeUint32 tx.version ++ writeList BtcTxIn.serialize tx.txIn ++
    writeList BtcTxOut.serialize tx.txOut ++ writeUint32 tx.lockTime

def BtcTx.hash (crypto : Primitives) (tx : BtcTx) : Uint256 := crypto.doubleSha256 tx.serialize

structure BtcBlockHeader where
  version : UInt32
  prevBlock : Uint256
  merkleRoot : Uint256
  timestamp : UInt32
  bits : UInt32
  nonce : UInt32
  deriving DecidableEq, Repr

def BtcBlockHeader.serialize (header : BtcBlockHeader) : Bytes :=
  writeUint32 header.version ++ header.prevBlock.toArray ++ header.merkleRoot.toArray ++
    writeUint32 header.timestamp ++ writeUint32 header.bits ++ writeUint32 header.nonce

def BtcBlockHeader.hash (crypto : Primitives) (header : BtcBlockHeader) : Uint256 :=
  crypto.doubleSha256 header.serialize

structure AuxPow where
  auxMerkleBranch : List Uint256
  auxMerkleIndex : UInt32
  parCoinbaseTx : BtcTx
  parCoinBaseMerkle : List Uint256
  parMerkleIndex : UInt32
  parBlockHeader : BtcBlockHeader
  parentHash : Uint256
  deriving DecidableEq, Repr

namespace AuxPow

/-- The zero value, which a block that is not merge-mined carries. -/
def empty : AuxPow where
  auxMerkleBranch := []
  auxMerkleIndex := 0
  parCoinbaseTx := ⟨0, [], [], 0⟩
  parCoinBaseMerkle := []
  parMerkleIndex := 0
  parBlockHeader := ⟨0, 0, 0, 0, 0, 0⟩
  parentHash := 0

def serialize (auxPow : AuxPow) : Bytes :=
  auxPow.parCoinbaseTx.serialize ++ auxPow.parentHash.toArray ++
    writeUint32 auxPow.auxMerkleIndex ++ writeList Uint256.toArray auxPow.auxMerkleBranch ++
    writeUint32 auxPow.parMerkleIndex ++ writeList Uint256.toArray auxPow.parCoinBaseMerkle ++
    auxPow.parBlockHeader.serialize

/-- The loop of `CheckMerkleBranch`: one bit of the index a level. -/
def foldBranch (crypto : Primitives) : Uint256 → List Uint256 → Int → Uint256
  | hash, [], _ => hash
  | hash, item :: branch, index =>
      let joined := if index % 2 = 1 then item.toArray ++ hash.toArray
        else hash.toArray ++ item.toArray
      foldBranch crypto (crypto.sha256 joined) branch (index / 2)

/-- `CheckMerkleBranch`. The index -1 stands for no place in a tree. -/
def checkMerkleBranch (crypto : Primitives) (hash : Uint256) (merkleBranch : List Uint256)
    (index : Int) : Uint256 :=
  if index = -1 then 0 else foldBranch crypto hash merkleBranch index

/-- `1 << uint32(h)`, which is zero from a height of 32 on. -/
def shiftOne (h : Nat) : UInt32 :=
  if h % 2 ^ 32 < 32 then UInt32.ofNat (2 ^ (h % 2 ^ 32)) else 0

/-- `GetExpectedIndex`. The modulus may be zero. -/
def getExpectedIndex {ε : Type} (nonce chainId : UInt32) (h : Nat) : Outcome ε UInt32 :=
  let rand := (nonce * 1103515245 + 12345 + chainId) * 1103515245 + 12345
  if shiftOne h = 0 then .panic else .ok (rand % shiftOne h)

def pchMergedMiningHeader : Bytes := [0xfa, 0xbe, 0x6d, 0x6d]

def auxPowChainID : UInt32 := 1

/-- The tests of `Check` on the script as text: the header, once, and the root hash right
behind it. The result is the position in bytes of what follows. -/
def findCommitment (script : Bytes) (auxRootHash : Uint256) : Option Nat :=
  let scriptStr := encodeToString script
  let headerStr := encodeToString pchMergedMiningHeader
  let rootStr := encodeToString auxRootHash.toArray
  match indexOf scriptStr headerStr, indexOf scriptStr rootStr with
  | some headerIndex, some rootHashIndex =>
      if (indexOf (scriptStr.drop (headerIndex + 2)) headerStr).isSome then none
      else if headerIndex + headerStr.length ≠ rootHashIndex then none
      else
        let rest := rootHashIndex + rootStr.length
        if scriptStr.length < rest + 8 then none else some (rest / 2)
  | _, _ => none

/-- Four bytes of a script as a number. -/
def uint32At (script : Bytes) (start : Nat) : UInt32 :=
  UInt32.ofNat (ofLittleEndian ((script.drop start).take 4))

/-- The end of `Check`: what follows the root hash in the coinbase script is the
size of the Merkle tree and the nonce that fixes the place of this chain in it. -/
def checkTail {ε : Type} (script : Bytes) (start : Nat) (auxMerkleIndex : Int) (chainId : UInt32)
    (merkleHeight : Nat) : Outcome ε Bool :=
  if uint32At script start ≠ shiftOne merkleHeight then
    .ok false
  else if script.length < start + 8 then
    .panic
  else do
    let expected ← getExpectedIndex (uint32At script (start + 4)) chainId merkleHeight
    return auxMerkleIndex = expected.toNat

/-- `Check` of a value with any two indices. -/
def checkWith {ε : Type} (crypto : Primitives) (auxPow : AuxPow)
    (auxMerkleIndex parMerkleIndex : Int) (hashAuxBlock : Uint256) (chainId : UInt32) :
    Outcome ε Bool :=
  if checkMerkleBranch crypto (auxPow.parCoinbaseTx.hash crypto) auxPow.parCoinBaseMerkle
      parMerkleIndex ≠ auxPow.parBlockHeader.merkleRoot then
    .ok false
  else
    let auxRootHash := checkMerkleBranch crypto hashAuxBlock auxPow.auxMerkleBranch auxMerkleIndex
    match auxPow.parCoinbaseTx.txIn with
    | [] => .panic
    | input :: _ =>
        match findCommitment input.signatureScript auxRootHash with
        | none => .ok false
        | some start =>
            checkTail input.signatureScript start auxMerkleIndex chainId
              auxPow.auxMerkleBranch.length

/-- `Check`. -/
def check {ε : Type} (crypto : Primitives) (auxPow : AuxPow) (hashAuxBlock : Uint256)
    (chainId : UInt32) : Outcome ε Bool :=
  checkWith crypto auxPow auxPow.auxMerkleIndex.toNat auxPow.parMerkleIndex.toNat hashAuxBlock
    chainId

end AuxPow

end DnaPow.Core
