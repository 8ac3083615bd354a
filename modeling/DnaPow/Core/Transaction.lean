import DnaPow.Common.Serialization

/-!
# Transactions

The data of package `core/transaction` and its payloads, with the unsigned
serialization that is signed and hashed. The payload is a sum type whose case
determines the transaction type, and an attribute's usage is one of the four
usages the code knows, so the "unsupported" branches of the writers have no
counterpart here.
-/

namespace DnaPow.Core

open DnaPow.Std Common

/-- A contract script together with the script that provides its arguments. -/
structure Program where
  code : Bytes
  parameter : Bytes
  deriving DecidableEq, Repr

/-- The parameter is written before the code. -/
def Program.serialize (program : Program) : Bytes :=
  writeVarBytes program.parameter ++ writeVarBytes program.code

/-- `asset.Asset`. The asset and record types are stored and never interpreted. -/
structure Asset where
  name : Bytes
  description : Bytes
  precision : UInt8
  assetType : UInt8
  recordType : UInt8
  deriving DecidableEq, Repr

def Asset.serialize (asset : Asset) : Bytes :=
  writeVarBytes asset.name ++ writeVarBytes asset.description ++
    [asset.precision, asset.assetType, asset.recordType]

/-- `code.FunctionCode`, without the return types, which are never serialized. -/
structure FunctionCode where
  code : Bytes
  parameterTypes : Bytes
  deriving DecidableEq, Repr

def FunctionCode.serialize (functionCode : FunctionCode) : Bytes :=
  writeVarBytes functionCode.parameterTypes ++ writeVarBytes functionCode.code

/-- The five payloads. -/
inductive Payload where
  | coinBase (coinbaseData : Bytes)
  | registerAsset (asset : Asset) (amount : Fixed64) (controller : Uint160)
  | transferAsset
  | record (recordType recordData : Bytes)
  | deployCode (code : FunctionCode) (name codeVersion author email description : Bytes)
  deriving DecidableEq, Repr

def Payload.serialize : Payload → Bytes
  | coinBase coinbaseData => writeVarBytes coinbaseData
  | registerAsset asset amount controller =>
      asset.serialize ++ amount.serialize ++ controller.toArray
  | transferAsset => []
  | record recordType recordData => writeVarBytes recordType ++ writeVarBytes recordData
  | deployCode code name codeVersion author email description =>
      code.serialize ++ writeVarBytes name ++ writeVarBytes codeVersion ++
        writeVarBytes author ++ writeVarBytes email ++ writeVarBytes description

/-- The transaction type that the first byte of a transaction names. -/
inductive TransactionType where
  | coinBase
  | registerAsset
  | transferAsset
  | record
  | deploy
  deriving DecidableEq, Repr

def TransactionType.toByte : TransactionType → UInt8
  | coinBase => 0x00
  | registerAsset => 0x01
  | transferAsset => 0x02
  | record => 0x03
  | deploy => 0x04

inductive TransactionAttributeUsage where
  | nonce
  | script
  | descriptionUrl
  | description
  deriving DecidableEq, Repr

def TransactionAttributeUsage.toByte : TransactionAttributeUsage → UInt8
  | nonce => 0x00
  | script => 0x20
  | descriptionUrl => 0x81
  | description => 0x90

structure TxAttribute where
  usage : TransactionAttributeUsage
  data : Bytes
  deriving DecidableEq, Repr

def TxAttribute.serialize (attr : TxAttribute) : Bytes :=
  attr.usage.toByte :: writeVarBytes attr.data

/-- The output an input consumes: a transaction and the position of the output in it. -/
@[ext] structure Outpoint where
  referTxID : Uint256
  referTxOutputIndex : UInt16
  deriving DecidableEq, Repr

/-- `UTXOTxInput`. -/
structure UTXOTxInput extends Outpoint where
  sequence : UInt32
  deriving DecidableEq, Repr

def UTXOTxInput.serialize (input : UTXOTxInput) : Bytes :=
  input.referTxID.toArray ++ writeUint16 input.referTxOutputIndex ++ writeUint32 input.sequence

structure TxOutput where
  assetID : Uint256
  value : Fixed64
  programHash : Uint160
  deriving DecidableEq, Repr

def TxOutput.serialize (output : TxOutput) : Bytes :=
  output.assetID.toArray ++ output.value.serialize ++ output.programHash.toArray

structure Transaction where
  payloadVersion : UInt8
  payload : Payload
  attributes : List TxAttribute
  utxoInputs : List UTXOTxInput
  outputs : List TxOutput
  lockTime : UInt32
  programs : List Program
  deriving DecidableEq, Repr

namespace Transaction

def txType (tx : Transaction) : TransactionType :=
  match tx.payload with
  | .coinBase .. => .coinBase
  | .registerAsset .. => .registerAsset
  | .transferAsset => .transferAsset
  | .record .. => .record
  | .deployCode .. => .deploy

def isCoinBaseTx (tx : Transaction) : Bool := tx.txType = .coinBase

/-- The transaction without its programs: what is hashed and signed. -/
def serializeUnsigned (tx : Transaction) : Bytes :=
  tx.txType.toByte :: tx.payloadVersion :: tx.payload.serialize ++
    writeList TxAttribute.serialize tx.attributes ++
    writeList UTXOTxInput.serialize tx.utxoInputs ++
    writeList TxOutput.serialize tx.outputs ++
    writeUint32 tx.lockTime

def serialize (tx : Transaction) : Bytes :=
  tx.serializeUnsigned ++ writeList Program.serialize tx.programs

def getSize (tx : Transaction) : Nat := tx.serialize.length

def getMessage (tx : Transaction) : Bytes := tx.serializeUnsigned

def hash (crypto : Primitives) (tx : Transaction) : Uint256 :=
  crypto.doubleSha256 tx.serializeUnsigned

/-- The outpoints a transaction consumes. -/
def outpoints (tx : Transaction) : List Outpoint := tx.utxoInputs.map UTXOTxInput.toOutpoint

end Transaction

end DnaPow.Core
