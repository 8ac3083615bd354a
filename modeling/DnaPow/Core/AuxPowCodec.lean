import DnaPow.Common.Reader
import DnaPow.Core.AuxPow

/-!
# Reading auxiliary proofs of work

The `Deserialize` methods of package `core/auxpow`. What a failing method leaves in
its receiver is not part of the model: every error comes from a buffer that has
been used up, so whoever ignores the error finds nothing more to read.
-/

namespace DnaPow.Core

open DnaPow.Std Common

/-! The fixed-size values of a transaction are read with `io.ReadFull`. -/

def readFullUint32 : Reader UInt32 := do
  return UInt32.ofNat (ofLittleEndian (← ioReadFull 4))

def readFullUint256 : Reader Uint256 := do
  return BitVec.ofNat 256 (ofLittleEndian (← ioReadFull 32))

def readFullInt64 : Reader Int64 := do
  return (UInt64.ofNat (ofLittleEndian (← ioReadFull 8))).toInt64

def btcReadTxIn : Reader BtcTxIn := do
  let previousHash ← readFullUint256
  let previousIndex ← readFullUint32
  let signatureScript ← readVarBytes
  let sequence ← readFullUint32
  return ⟨previousHash, previousIndex, signatureScript, sequence⟩

def btcReadTxOut : Reader BtcTxOut := do
  let value ← readFullInt64
  let pkScript ← readVarBytes
  return ⟨value, pkScript⟩

/-- The two slices hold pointers, of eight bytes each. -/
def BtcTx.deserialize : Reader BtcTx := do
  let version ← readFullUint32
  let txIn ← readSlice 8 btcReadTxIn
  let txOut ← readSlice 8 btcReadTxOut
  let lockTime ← readFullUint32
  return ⟨version, txIn, txOut, lockTime⟩

/-- The errors of the last three readers are ignored. -/
def BtcBlockHeader.deserialize : Reader BtcBlockHeader := do
  let version ← readUint32
  let prevBlock ← Uint256.deserialize
  let merkleRoot ← Uint256.deserialize
  let timestamp ← readUint32.recover fun _ => 0
  let bits ← readUint32.recover fun _ => 0
  let nonce ← readUint32.recover fun _ => 0
  return ⟨version, prevBlock, merkleRoot, timestamp, bits, nonce⟩

def AuxPow.deserialize : Reader AuxPow := do
  let parCoinbaseTx ← BtcTx.deserialize
  let parentHash ← Uint256.deserialize
  let auxMerkleIndex ← readUint32
  let auxMerkleBranch ← readSlice 32 Uint256.deserialize
  let parMerkleIndex ← readUint32
  let parCoinBaseMerkle ← readSlice 32 Uint256.deserialize
  let parBlockHeader ← BtcBlockHeader.deserialize
  return ⟨auxMerkleBranch, auxMerkleIndex, parCoinbaseTx, parCoinBaseMerkle, parMerkleIndex,
    parBlockHeader, parentHash⟩

/-! ## Round trips

Whatever fits into memory is read back. -/

theorem readFullUint32_decodes (value : UInt32) :
    readFullUint32.Decodes (writeUint32 value) value :=
  decodes_littleEndian (ioReadFull_decodes (littleEndian_length 4 _)) value.toNat_lt
    UInt32.ofNat UInt32.ofNat_toNat

theorem readFullUint256_decodes (hash : Uint256) :
    readFullUint256.Decodes hash.toArray hash :=
  decodes_littleEndian (ioReadFull_decodes (littleEndian_length 32 _)) hash.isLt
    (BitVec.ofNat _) ((hash.ofNat_toNat _).trans hash.setWidth_eq)

theorem readFullInt64_decodes (amount : Fixed64) :
    readFullInt64.Decodes (Fixed64.serialize amount) amount :=
  decodes_littleEndian (ioReadFull_decodes (littleEndian_length 8 _)) amount.toUInt64.toNat_lt
    (fun number => (UInt64.ofNat number).toInt64) amount.toInt64_ofNat

theorem btcReadTxIn_decodes {input : BtcTxIn} (fits : input.serialize.length ≤ maxAlloc) :
    btcReadTxIn.Decodes input.serialize input := by
  have script : input.signatureScript.length ≤ maxAlloc := by
    simp only [BtcTxIn.serialize, writeVarBytes, List.length_append] at fits
    omega
  simp only [BtcTxIn.serialize, List.append_assoc]
  apply (readFullUint256_decodes _).bind
  apply (readFullUint32_decodes _).bind
  apply (readVarBytes_decodes script).bind
  exact (readFullUint32_decodes input.sequence).map fun sequence =>
    (⟨input.previousHash, input.previousIndex, input.signatureScript, sequence⟩ : BtcTxIn)

theorem btcReadTxOut_decodes {output : BtcTxOut} (fits : output.serialize.length ≤ maxAlloc) :
    btcReadTxOut.Decodes output.serialize output := by
  have script : output.pkScript.length ≤ maxAlloc := by
    simp only [BtcTxOut.serialize, writeVarBytes, List.length_append] at fits
    omega
  rw [BtcTxOut.serialize]
  apply (readFullInt64_decodes _).bind
  exact (readVarBytes_decodes script).map fun pkScript => (⟨output.value, pkScript⟩ : BtcTxOut)

theorem BtcTx.deserialize_decodes {tx : BtcTx} (fits : tx.serialize.length ≤ maxAlloc) :
    BtcTx.deserialize.Decodes tx.serialize tx := by
  simp only [BtcTx.serialize, writeList, List.length_append] at fits
  have alloc : maxAlloc = 2 ^ 48 := rfl
  have inputs : 8 * tx.txIn.length ≤ (tx.txIn.flatMap BtcTxIn.serialize).length :=
    mul_length_le_length_flatMap (fun input => by simp [BtcTxIn.serialize]; omega) _
  have outputs : 8 * tx.txOut.length ≤ (tx.txOut.flatMap BtcTxOut.serialize).length :=
    mul_length_le_length_flatMap (fun output => by simp [BtcTxOut.serialize, Fixed64.serialize]) _
  have readInputs : (readSlice 8 btcReadTxIn).Decodes (writeList BtcTxIn.serialize tx.txIn)
      tx.txIn := by
    refine readSlice_decodes (fun input member => btcReadTxIn_decodes ?_) (by omega) (by omega)
    have : input.serialize.length ≤ (tx.txIn.flatMap BtcTxIn.serialize).length :=
      length_le_length_flatMap member
    omega
  have readOutputs : (readSlice 8 btcReadTxOut).Decodes (writeList BtcTxOut.serialize tx.txOut)
      tx.txOut := by
    refine readSlice_decodes (fun output member => btcReadTxOut_decodes ?_) (by omega) (by omega)
    have : output.serialize.length ≤ (tx.txOut.flatMap BtcTxOut.serialize).length :=
      length_le_length_flatMap member
    omega
  simp only [BtcTx.serialize, List.append_assoc]
  apply (readFullUint32_decodes _).bind
  apply readInputs.bind
  apply readOutputs.bind
  exact (readFullUint32_decodes tx.lockTime).map fun lockTime =>
    (⟨tx.version, tx.txIn, tx.txOut, lockTime⟩ : BtcTx)

theorem BtcBlockHeader.deserialize_decodes (header : BtcBlockHeader) :
    BtcBlockHeader.deserialize.Decodes header.serialize header := by
  have recovered (value : UInt32) :
      (readUint32.recover fun _ => 0 : Reader UInt32).Decodes (writeUint32 value) value :=
    (readUint32_decodes value).recover _
  simp only [BtcBlockHeader.serialize, List.append_assoc]
  apply (readUint32_decodes _).bind
  apply (Uint256.deserialize_decodes _).bind
  apply (Uint256.deserialize_decodes _).bind
  apply (recovered _).bind
  apply (recovered _).bind
  exact (recovered header.nonce).map fun nonce =>
    (⟨header.version, header.prevBlock, header.merkleRoot, header.timestamp, header.bits, nonce⟩ :
      BtcBlockHeader)

theorem AuxPow.deserialize_decodes {auxPow : AuxPow} (fits : auxPow.serialize.length ≤ maxAlloc) :
    AuxPow.deserialize.Decodes auxPow.serialize auxPow := by
  simp only [AuxPow.serialize, writeList, List.length_append] at fits
  have alloc : maxAlloc = 2 ^ 48 := rfl
  have readBranch {branch : List Uint256}
      (fits : (branch.flatMap Uint256.toArray).length ≤ maxAlloc) :
      (readSlice 32 Uint256.deserialize).Decodes (writeList Uint256.toArray branch) branch := by
    have size : 32 * branch.length ≤ (branch.flatMap Uint256.toArray).length :=
      mul_length_le_length_flatMap (fun hash => by simp) _
    exact readSlice_decodes (fun hash _ => Uint256.deserialize_decodes hash) (by omega) (by omega)
  simp only [AuxPow.serialize, List.append_assoc]
  apply (BtcTx.deserialize_decodes (by omega)).bind
  apply (Uint256.deserialize_decodes _).bind
  apply (readUint32_decodes _).bind
  apply (readBranch (by omega)).bind
  apply (readUint32_decodes _).bind
  apply (readBranch (by omega)).bind
  exact (BtcBlockHeader.deserialize_decodes auxPow.parBlockHeader).map fun parBlockHeader =>
    ({ auxPow with parBlockHeader } : AuxPow)

end DnaPow.Core
