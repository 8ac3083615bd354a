import DnaPow.Common.Reader
import DnaPow.Core.Transaction
import DnaPow.Std.Panics

/-!
# Reading transactions

The `Deserialize` methods of package `core/transaction`. A caller may ignore the error
of a method and go on with its receiver, so the receiver is a type of its own, in which
a transaction can be filled in to any extent.
-/

namespace DnaPow.Core

open DnaPow.Std Common

/-- The same reader with its error replaced by one with the given text. -/
def failing {α : Type} (text : String) (call : Reader α) : Reader α :=
  call.mapError fun _ => .detail (.new text) ""

/-- The same reader with its error as the cause of one with the given text. -/
def because {α : Type} (text : String) (call : Reader α) : Reader α :=
  call.mapError fun reason => .detail reason text

/-- `io.ReadFull` of one byte. -/
def readFullByte : Reader UInt8 := do
  return UInt8.ofNat (ofLittleEndian (← ioReadFull 1))

/-! ## The parts of a transaction -/

def Program.deserialize : Decoder Program Program := do
  let parameter ← (because "Execute Program Deserialize Parameter failed." readVarBytes).leaving
    ⟨[], []⟩
  let code ← (because "Execute Program Deserialize Code failed." readVarBytes).leaving
    ⟨[], parameter⟩
  return ⟨code, parameter⟩

def Asset.deserialize : Decoder Asset Asset := do
  let name ← (failing "[Asset], Name deserialize failed." readVarBytes).leaving ⟨[], [], 0, 0, 0⟩
  let description ← (failing "[Asset], Description deserialize failed." readVarBytes).leaving
    ⟨name, [], 0, 0, 0⟩
  let precision ← (failing "[Asset], Precision deserialize failed." readUint8).leaving
    ⟨name, description, 0, 0, 0⟩
  let assetType ← (failing "[Asset], AssetType deserialize failed." readUint8).leaving
    ⟨name, description, precision, 0, 0⟩
  let recordType ← (failing "[Asset], RecordType deserialize failed." readUint8).leaving
    ⟨name, description, precision, assetType, 0⟩
  return ⟨name, description, precision, assetType, recordType⟩

/-- `FunctionCode.Deserialize`. Storing a field in a nil receiver panics. -/
def FunctionCode.deserialize (receiver : Option FunctionCode) : Reader FunctionCode := do
  let parameterTypes ← readVarBytes
  match receiver with
  | none => .crash
  | some _ => return ⟨← readVarBytes, parameterTypes⟩

/-- What the field `Payload` of a transaction refers to. -/
inductive PayloadField where
  | nil
  /-- A `DeployCode` whose field `Code` is nil. -/
  | deployWithoutCode
  | loaded (payload : Payload)
  deriving DecidableEq, Repr

namespace PayloadField

def deserializeCoinBase : Decoder PayloadField PayloadField := do
  return .loaded (.coinBase (← readVarBytes.leaving (.loaded (.coinBase []))))

def deserializeRegisterAsset : Decoder PayloadField PayloadField := do
  let registering (asset : Asset) (amount : Fixed64) : PayloadField :=
    .loaded (.registerAsset asset amount 0)
  let asset ← (Asset.deserialize.wrapError
    (.detail · "[RegisterAsset], Asset Deserialize failed.")).leavingWith (registering · 0)
  let amount ← (because "[RegisterAsset], Ammount Deserialize failed."
    Fixed64.deserialize).leaving (registering asset 0)
  let controller ← (because "[RegisterAsset], Ammount Deserialize failed."
    Uint160.deserialize).leaving (registering asset amount)
  return .loaded (.registerAsset asset amount controller)

def deserializeRecord : Decoder PayloadField PayloadField := do
  let recordType ← (failing "[RecordDetail], RecordType deserialize failed." readVarBytes).leaving
    (.loaded (.record [] []))
  let recordData ← (failing "[RecordDetail], RecordData deserialize failed." readVarBytes).leaving
    (.loaded (.record recordType []))
  return .loaded (.record recordType recordData)

/-- The payload is made with `new`, so its field `Code` is nil. -/
def deserializeDeployCode : Decoder PayloadField PayloadField := do
  let deploying (code : FunctionCode) (name codeVersion author email : Bytes) : PayloadField :=
    .loaded (.deployCode code name codeVersion author email [])
  let code ← (FunctionCode.deserialize none).leaving .deployWithoutCode
  let name ← readVarBytes.leaving (deploying code [] [] [] [])
  let codeVersion ← readVarBytes.leaving (deploying code name [] [] [])
  let author ← readVarBytes.leaving (deploying code name codeVersion [] [])
  let email ← readVarBytes.leaving (deploying code name codeVersion author [])
  let description ← readVarBytes.leaving (deploying code name codeVersion author email)
  return .loaded (.deployCode code name codeVersion author email description)

def deserialize : TransactionType → Decoder PayloadField PayloadField
  | .coinBase => deserializeCoinBase
  | .registerAsset => deserializeRegisterAsset
  | .transferAsset => pure (.loaded .transferAsset)
  | .record => deserializeRecord
  | .deploy => deserializeDeployCode

end PayloadField

def TransactionType.ofByte (byte : UInt8) : Option TransactionType :=
  if byte = 0x00 then some .coinBase
  else if byte = 0x01 then some .registerAsset
  else if byte = 0x02 then some .transferAsset
  else if byte = 0x03 then some .record
  else if byte = 0x04 then some .deploy
  else none

/-- `IsValidAttributeType`, with the usage that the byte stands for. -/
def TransactionAttributeUsage.ofByte (byte : UInt8) : Option TransactionAttributeUsage :=
  if byte = 0x00 then some .nonce
  else if byte = 0x20 then some .script
  else if byte = 0x81 then some .descriptionUrl
  else if byte = 0x90 then some .description
  else none

/-- A failing attribute is dropped. -/
def TxAttribute.deserialize : Reader TxAttribute := do
  let val ← because "Transaction attribute Usage deserialization error." (byteXReader 1)
  match TransactionAttributeUsage.ofByte (UInt8.ofNat (ofLittleEndian val)) with
  | none => .throw (.detail (.new "[TxAttribute] error") "Unsupported attribute Description.")
  | some usage =>
      return ⟨usage, ← because "Transaction attribute Data deserialization error." readVarBytes⟩

def UTXOTxInput.deserialize : Reader UTXOTxInput := do
  let referTxID ← Uint256.deserialize
  let referTxOutputIndex ← readUint16
  let sequence ← readUint32
  return ⟨⟨referTxID, referTxOutputIndex⟩, sequence⟩

/-- The method returns no error: a field that cannot be read is zero. -/
def TxOutput.deserialize {ε : Type} : Action ε Bytes TxOutput := do
  let assetID ← Uint256.deserialize.recover fun _ => 0
  let value ← Fixed64.deserialize.recover fun _ => 0
  let programHash ← Uint160.deserialize.recover fun _ => 0
  return ⟨assetID, value, programHash⟩

/-! ## Transactions -/

/-- A transaction as far as it has been filled in. The type is any byte. -/
structure RawTransaction where
  txType : UInt8
  payloadVersion : UInt8
  payload : PayloadField
  attributes : List TxAttribute
  utxoInputs : List UTXOTxInput
  outputs : List TxOutput
  lockTime : UInt32
  programs : List Program
  deriving DecidableEq, Repr

def Transaction.toRaw (tx : Transaction) : RawTransaction :=
  ⟨tx.txType.toByte, tx.payloadVersion, .loaded tx.payload, tx.attributes, tx.utxoInputs,
    tx.outputs, tx.lockTime, tx.programs⟩

namespace RawTransaction

/-- `new(Transaction)`. -/
def empty : RawTransaction := ⟨0, 0, .nil, [], [], [], 0, []⟩

/-- The payload of a transaction with the given type byte. -/
def deserializePayload (txType : UInt8) : Decoder PayloadField PayloadField :=
  match TransactionType.ofByte txType with
  | none => .throw ⟨.new "[Transaction], invalid transaction type.", .nil⟩
  | some type => (PayloadField.deserialize type).wrapError (.detail · "Payload Parse error")

def deserializeUnsignedWithoutType (txType : UInt8) : Decoder RawTransaction RawTransaction := do
  let payloadVersion ← readFullByte.leaving ⟨txType, 0, .nil, [], [], [], 0, []⟩
  let payload ← (deserializePayload txType).leavingWith fun payload =>
    ⟨txType, payloadVersion, payload, [], [], [], 0, []⟩
  let attributeLen ← readVarUint.leaving ⟨txType, payloadVersion, payload, [], [], [], 0, []⟩
  let attributes ← (TxAttribute.deserialize.appendTimes attributeLen []).leavingWith
    fun attributes => ⟨txType, payloadVersion, payload, attributes, [], [], 0, []⟩
  let inputLen ← readVarUint.leaving ⟨txType, payloadVersion, payload, attributes, [], [], 0, []⟩
  let utxoInputs ← (UTXOTxInput.deserialize.appendTimes inputLen []).leavingWith
    fun utxoInputs => ⟨txType, payloadVersion, payload, attributes, utxoInputs, [], 0, []⟩
  let outputLen ← readVarUint.leaving
    ⟨txType, payloadVersion, payload, attributes, utxoInputs, [], 0, []⟩
  let outputs ← TxOutput.deserialize.times outputLen
  let lockTime ← readUint32.leaving
    ⟨txType, payloadVersion, payload, attributes, utxoInputs, outputs, 0, []⟩
  return ⟨txType, payloadVersion, payload, attributes, utxoInputs, outputs, lockTime, []⟩

def deserializeUnsigned : Decoder RawTransaction RawTransaction := do
  deserializeUnsignedWithoutType (← readFullByte.leaving empty)

/-- `Transaction.Deserialize`. The errors of the programs are ignored, and from
`2 ^ 63` on their number is negative as an `int`. -/
def deserialize : Decoder RawTransaction RawTransaction := do
  let unsigned ← deserializeUnsigned.wrapError (.detail · "transaction Deserialize error")
  let lens ← (because "transaction tx program Deserialize error" readVarUint).leaving unsigned
  let programs ← Program.deserialize.ignoringError.times (if lens < 2 ^ 63 then lens else 0)
  return { unsigned with programs }

/-- `SerializeUnsigned`, with the bytes written before an error. -/
def serializeUnsigned (raw : RawTransaction) : Outcome (Failure DecodeError Bytes) Bytes :=
  match raw.payload with
  | .nil => .error ⟨.new "Transaction Payload is nil.", [raw.txType, raw.payloadVersion]⟩
  | .deployWithoutCode => .panic
  | .loaded payload =>
      .ok (raw.txType :: raw.payloadVersion :: payload.serialize ++
        writeList TxAttribute.serialize raw.attributes ++
        writeList UTXOTxInput.serialize raw.utxoInputs ++
        writeList TxOutput.serialize raw.outputs ++
        writeUint32 raw.lockTime)

def serialize (raw : RawTransaction) : Outcome (Failure DecodeError Bytes) Bytes :=
  match raw.serializeUnsigned with
  | .ok unsigned => .ok (unsigned ++ writeList Program.serialize raw.programs)
  | .error failure => .error
      ⟨.detail failure.reason "Transaction txSerializeUnsigned Serialize failed.", failure.left⟩
  | .panic => .panic

end RawTransaction

variable {tx : Transaction}

/-- What a writer has written when its error is ignored. -/
def written {ε : Type} : Outcome (Failure DecodeError Bytes) Bytes → Outcome ε Bytes
  | .ok bytes => .ok bytes
  | .error failure => .ok failure.left
  | .panic => .panic

/-- `Transaction.Hash` of a new transaction. -/
def RawTransaction.hash {ε : Type} (crypto : Primitives) (raw : RawTransaction) :
    Outcome ε Uint256 := do
  return crypto.doubleSha256 (← written raw.serializeUnsigned)

@[simp] theorem Transaction.serialize_toRaw (tx : Transaction) :
    tx.toRaw.serialize = .ok tx.serialize := rfl

@[simp] theorem Transaction.hash_toRaw {ε : Type} (crypto : Primitives) (tx : Transaction) :
    (tx.toRaw.hash crypto : Outcome ε Uint256) = .ok (tx.hash crypto) := rfl

/-! ## Reading back what was written -/

theorem readFullByte_decodes (byte : UInt8) : readFullByte.Decodes [byte] byte := by
  have read : (ioReadFull 1).Decodes [byte] [byte] := ioReadFull_decodes rfl
  have decodes := read.map fun bytes => UInt8.ofNat (ofLittleEndian bytes)
  have back : UInt8.ofNat (ofLittleEndian [byte]) = byte := by simp [ofLittleEndian]
  rwa [back] at decodes

theorem ofByte_toByte (type : TransactionType) : TransactionType.ofByte type.toByte = some type := by
  cases type <;> rfl

theorem usage_ofByte_toByte (usage : TransactionAttributeUsage) :
    TransactionAttributeUsage.ofByte usage.toByte = some usage := by
  cases usage <;> rfl

/-- The parts of a byte string that fits fit. -/
theorem fits_append {first second : Bytes} (fits : (first ++ second).length ≤ maxAlloc) :
    first.length ≤ maxAlloc ∧ second.length ≤ maxAlloc := by
  rw [List.length_append] at fits
  omega

theorem fits_writeVarBytes {bytes : Bytes} (fits : (writeVarBytes bytes).length ≤ maxAlloc) :
    bytes.length ≤ maxAlloc := (fits_append fits).2

theorem failing_decodes {α : Type} {call : Reader α} {encoding : Bytes} {value : α} {text : String}
    (decodes : call.Decodes encoding value) : (failing text call).Decodes encoding value :=
  decodes.mapError _

theorem because_decodes {α : Type} {call : Reader α} {encoding : Bytes} {value : α} {text : String}
    (decodes : call.Decodes encoding value) : (because text call).Decodes encoding value :=
  decodes.mapError _

theorem Program.deserialize_decodes {program : Program}
    (fits : program.serialize.length ≤ maxAlloc) :
    Program.deserialize.Decodes program.serialize program := by
  obtain ⟨parameter, code⟩ := fits_append fits
  apply ((because_decodes (readVarBytes_decodes (fits_writeVarBytes parameter))).leaving _).bind
  exact ((because_decodes (readVarBytes_decodes (fits_writeVarBytes code))).leaving _).map
    fun code => (⟨code, program.parameter⟩ : Program)

theorem Asset.deserialize_decodes {asset : Asset} (fits : asset.serialize.length ≤ maxAlloc) :
    Asset.deserialize.Decodes asset.serialize asset := by
  obtain ⟨texts, -⟩ := fits_append fits
  obtain ⟨name, description⟩ := fits_append texts
  have byte (value : UInt8) (text : String) (left : Asset) :
      ((failing text readUint8).leaving left).Decodes [value] value :=
    (failing_decodes (readUint8_decodes value)).leaving _
  have bytes : [asset.precision, asset.assetType, asset.recordType] =
      [asset.precision] ++ ([asset.assetType] ++ [asset.recordType]) := rfl
  rw [serialize, List.append_assoc, bytes]
  apply ((failing_decodes (readVarBytes_decodes (fits_writeVarBytes name))).leaving _).bind
  apply ((failing_decodes (readVarBytes_decodes (fits_writeVarBytes description))).leaving _).bind
  apply (byte asset.precision _ _).bind
  apply (byte asset.assetType _ _).bind
  exact (byte asset.recordType _ _).map fun recordType =>
    (⟨asset.name, asset.description, asset.precision, asset.assetType, recordType⟩ : Asset)

theorem TxAttribute.deserialize_decodes {attr : TxAttribute}
    (fits : attr.serialize.length ≤ maxAlloc) :
    TxAttribute.deserialize.Decodes attr.serialize attr := by
  have split : attr.serialize = [attr.usage.toByte] ++ writeVarBytes attr.data := rfl
  rw [split] at fits ⊢
  have data := (fits_append fits).2
  have usage : (byteXReader 1).Decodes [attr.usage.toByte] [attr.usage.toByte] :=
    @byteXReader_decodes [attr.usage.toByte] (by simp [maxAlloc])
  apply (because_decodes usage).bind
  have known : UInt8.ofNat (ofLittleEndian [attr.usage.toByte]) = attr.usage.toByte := by
    simp [ofLittleEndian]
  simp only [known, usage_ofByte_toByte]
  exact (because_decodes (readVarBytes_decodes (fits_writeVarBytes data))).map
    fun data => (⟨attr.usage, data⟩ : TxAttribute)

theorem UTXOTxInput.deserialize_decodes (input : UTXOTxInput) :
    UTXOTxInput.deserialize.Decodes input.serialize input := by
  rw [serialize, List.append_assoc]
  apply (Uint256.deserialize_decodes _).bind
  apply (readUint16_decodes _).bind
  exact (readUint32_decodes input.sequence).map fun sequence =>
    (⟨input.toOutpoint, sequence⟩ : UTXOTxInput)

theorem TxOutput.deserialize_decodes {ε : Type} (output : TxOutput) :
    (TxOutput.deserialize : Action ε Bytes TxOutput).Decodes output.serialize output := by
  rw [serialize, List.append_assoc]
  apply ((Uint256.deserialize_decodes _).recover _).bind
  apply ((Fixed64.deserialize_decodes _).recover _).bind
  exact ((Uint160.deserialize_decodes output.programHash).recover _).map fun programHash =>
    (⟨output.assetID, output.value, programHash⟩ : TxOutput)

/-- Every payload but `DeployCode` is read back. -/
theorem PayloadField.deserialize_decodes (fits : tx.payload.serialize.length ≤ maxAlloc)
    (known : tx.txType ≠ .deploy) :
    (PayloadField.deserialize tx.txType).Decodes tx.payload.serialize (.loaded tx.payload) := by
  unfold Transaction.txType at known ⊢
  cases payload : tx.payload with
  | coinBase coinbaseData =>
    rw [payload] at fits
    exact ((readVarBytes_decodes (fits_writeVarBytes fits)).leaving _).map
      fun data => PayloadField.loaded (.coinBase data)
  | registerAsset asset amount controller =>
    rw [payload] at fits
    obtain ⟨front, -⟩ := fits_append fits
    obtain ⟨assetFits, -⟩ := fits_append front
    simp only [Payload.serialize, List.append_assoc]
    apply (((Asset.deserialize_decodes assetFits).wrapError _).leavingWith _).bind
    apply ((because_decodes (Fixed64.deserialize_decodes amount)).leaving _).bind
    exact ((because_decodes (Uint160.deserialize_decodes controller)).leaving _).map
      fun controller => PayloadField.loaded (.registerAsset asset amount controller)
  | transferAsset => exact Action.decodes_pure _
  | record recordType recordData =>
    rw [payload] at fits
    obtain ⟨typeFits, dataFits⟩ := fits_append fits
    apply ((failing_decodes (readVarBytes_decodes (fits_writeVarBytes typeFits))).leaving _).bind
    exact ((failing_decodes (readVarBytes_decodes (fits_writeVarBytes dataFits))).leaving _).map
      fun data => PayloadField.loaded (.record recordType data)
  | deployCode =>
    rw [payload] at known
    exact absurd rfl known

theorem writeVarUint_length_pos (value : Nat) : 0 < (writeVarUint value).length := by
  unfold writeVarUint
  split_ifs <;> simp

/-- A list that fits is short, and its items fit. -/
theorem fits_writeList {α : Type} {encode : α → Bytes} {items : List α}
    (fits : (writeList encode items).length ≤ maxAlloc)
    (nonempty : ∀ item, 0 < (encode item).length) :
    items.length < 2 ^ 63 ∧ ∀ item ∈ items, (encode item).length ≤ maxAlloc := by
  have body := (fits_append fits).2
  have count := mul_length_le_length_flatMap nonempty items
  have alloc : maxAlloc = 2 ^ 48 := rfl
  constructor
  · omega
  · intro item member
    exact (length_le_length_flatMap member).trans body

theorem RawTransaction.deserializePayload_decodes (fits : tx.payload.serialize.length ≤ maxAlloc)
    (known : tx.txType ≠ .deploy) :
    (deserializePayload tx.txType.toByte).Decodes tx.payload.serialize (.loaded tx.payload) := by
  rw [deserializePayload, ofByte_toByte]
  exact (PayloadField.deserialize_decodes fits known).wrapError _

theorem Program.length_serialize_pos (program : Program) : 0 < program.serialize.length := by
  have := writeVarUint_length_pos program.parameter.length
  simp only [Program.serialize, writeVarBytes, List.length_append]
  omega

/-- What is hashed is read back up to the programs. -/
theorem RawTransaction.deserializeUnsigned_decodes (fits : tx.serializeUnsigned.length ≤ maxAlloc)
    (known : tx.txType ≠ .deploy) :
    deserializeUnsigned.Decodes tx.serializeUnsigned { tx with programs := [] }.toRaw := by
  have split : tx.serializeUnsigned = [tx.txType.toByte] ++ ([tx.payloadVersion] ++
      (tx.payload.serialize ++ (writeList TxAttribute.serialize tx.attributes ++
        (writeList UTXOTxInput.serialize tx.utxoInputs ++
          (writeList TxOutput.serialize tx.outputs ++ writeUint32 tx.lockTime))))) := by
    simp [Transaction.serializeUnsigned]
  rw [split] at fits ⊢
  obtain ⟨payloadFits, fits⟩ := fits_append (fits_append (fits_append fits).2).2
  obtain ⟨attributesFit, fits⟩ := fits_append fits
  obtain ⟨inputsFit, fits⟩ := fits_append fits
  obtain ⟨outputsFit, -⟩ := fits_append fits
  obtain ⟨fewAttributes, attributesFit⟩ := fits_writeList attributesFit fun attr => by
    simp [TxAttribute.serialize]
  obtain ⟨fewInputs, -⟩ := fits_writeList inputsFit fun input => by simp [UTXOTxInput.serialize]
  obtain ⟨fewOutputs, -⟩ := fits_writeList outputsFit fun output => by simp [TxOutput.serialize]
  have attributes := Action.Decodes.appendTimes
    (fun attr member => TxAttribute.deserialize_decodes (attributesFit attr member)) []
  have inputs : (UTXOTxInput.deserialize.appendTimes tx.utxoInputs.length []).Decodes
      (tx.utxoInputs.flatMap UTXOTxInput.serialize) tx.utxoInputs :=
    .appendTimes (fun input _ => UTXOTxInput.deserialize_decodes input) []
  have outputs : (TxOutput.deserialize.times tx.outputs.length : Decoder RawTransaction _).Decodes
      (tx.outputs.flatMap TxOutput.serialize) tx.outputs :=
    .times fun output _ => TxOutput.deserialize_decodes output
  simp only [writeList, List.append_assoc]
  apply ((readFullByte_decodes _).leaving _).bind
  apply ((readFullByte_decodes _).leaving _).bind
  apply ((deserializePayload_decodes payloadFits known).leavingWith _).bind
  apply ((readVarUint_decodes (by omega)).leaving _).bind
  apply (attributes.leavingWith _).bind
  apply ((readVarUint_decodes (by omega)).leaving _).bind
  apply (inputs.leavingWith _).bind
  apply ((readVarUint_decodes (by omega)).leaving _).bind
  apply outputs.bind
  exact ((readUint32_decodes tx.lockTime).leaving _).map fun lockTime =>
    Transaction.toRaw { tx with lockTime, programs := [] }

/-- A transaction that deploys no code is read back, whatever follows it. -/
theorem RawTransaction.deserialize_decodes (fits : tx.serialize.length ≤ maxAlloc)
    (known : tx.txType ≠ .deploy) :
    deserialize.Decodes tx.serialize tx.toRaw := by
  obtain ⟨unsignedFits, programsFit⟩ := fits_append fits
  obtain ⟨few, programsFit⟩ := fits_writeList programsFit Program.length_serialize_pos
  have programs := Action.Decodes.times fun program member =>
    ((Program.deserialize_decodes (programsFit program member)).ignoringError :
      (Program.deserialize.ignoringError :
        Action (Failure DecodeError RawTransaction) Bytes Program).Decodes _ _)
  rw [Transaction.serialize, writeList]
  apply ((deserializeUnsigned_decodes unsignedFits known).wrapError _).bind
  apply ((because_decodes (readVarUint_decodes (by omega))).leaving _).bind
  rw [if_pos few]
  exact programs.map fun programs => Transaction.toRaw { tx with programs }

/-! ## What is read without an error -/

/-- A payload that is read without an error is one of the type asked for. -/
theorem PayloadField.deserialize_ensures (type : TransactionType) (unread : Bytes) :
    (deserialize type).Ensures unread
      (fun field _ => ∃ payload, field = .loaded payload ∧
        ∀ tx : Transaction, tx.payload = payload → tx.txType = type) fun _ => True := by
  have loaded {payload : Payload} {type : TransactionType}
      (named : ∀ tx : Transaction, tx.payload = payload → tx.txType = type) :
      ∃ payload', PayloadField.loaded payload = .loaded payload' ∧
        ∀ tx : Transaction, tx.payload = payload' → tx.txType = type := ⟨payload, rfl, named⟩
  cases type with
  | coinBase =>
    apply Action.Ensures.bind_any fun data rest => ?_
    exact loaded fun tx same => by rw [Transaction.txType, same]
  | registerAsset =>
    apply Action.Ensures.bind_any fun asset rest => ?_
    apply Action.Ensures.bind_any fun amount rest => ?_
    apply Action.Ensures.bind_any fun controller rest => ?_
    exact loaded fun tx same => by rw [Transaction.txType, same]
  | transferAsset => exact loaded fun tx same => by rw [Transaction.txType, same]
  | record =>
    apply Action.Ensures.bind_any fun recordType rest => ?_
    apply Action.Ensures.bind_any fun recordData rest => ?_
    exact loaded fun tx same => by rw [Transaction.txType, same]
  | deploy =>
    apply Action.Ensures.bind_any fun code rest => ?_
    apply Action.Ensures.bind_any fun name rest => ?_
    apply Action.Ensures.bind_any fun codeVersion rest => ?_
    apply Action.Ensures.bind_any fun author rest => ?_
    apply Action.Ensures.bind_any fun email rest => ?_
    apply Action.Ensures.bind_any fun description rest => ?_
    exact loaded fun tx same => by rw [Transaction.txType, same]

theorem toByte_of_ofByte {byte : UInt8} {type : TransactionType}
    (known : TransactionType.ofByte byte = some type) : type.toByte = byte := by
  unfold TransactionType.ofByte at known
  split_ifs at known with coinBase registerAsset transferAsset record deploy <;>
    (cases known; symm; assumption)

/-- What is read without an error is a whole transaction. -/
theorem RawTransaction.exists_of_deserialize {unread rest : Bytes} {raw : RawTransaction}
    (returned : deserialize.run unread = (.ok raw, rest)) :
    ∃ tx : Transaction, raw = tx.toRaw := by
  have payload (txType : UInt8) (unread : Bytes) : (deserializePayload txType).Ensures unread
      (fun field _ => ∃ payload, field = .loaded payload ∧
        ∀ tx : Transaction, tx.payload = payload → tx.txType.toByte = txType) fun _ => True := by
    unfold deserializePayload
    split
    · trivial
    · next type known =>
      apply Action.ensures_mapError.mpr
      apply (PayloadField.deserialize_ensures type unread).mono
      · rintro field - ⟨payload, same, named⟩
        exact ⟨payload, same, fun tx of => by rw [named tx of, toByte_of_ofByte known]⟩
      · exact fun _ _ => trivial
  have ensured : deserialize.Ensures unread
      (fun raw _ => ∃ tx : Transaction, raw = tx.toRaw) fun _ => True := by
    apply Action.ensures_bind.mpr
    apply Action.ensures_mapError.mpr
    apply Action.Ensures.bind_any fun txType unread => ?_
    apply Action.Ensures.bind_any fun payloadVersion unread => ?_
    apply Action.ensures_bind.mpr
    apply Action.ensures_mapError.mpr
    apply (payload txType unread).mono
    · rintro field unread ⟨payload, rfl, named⟩
      apply Action.Ensures.bind_any fun attributeLen unread => ?_
      apply Action.Ensures.bind_any fun attributes unread => ?_
      apply Action.Ensures.bind_any fun inputLen unread => ?_
      apply Action.Ensures.bind_any fun utxoInputs unread => ?_
      apply Action.Ensures.bind_any fun outputLen unread => ?_
      apply Action.Ensures.bind_any fun outputs unread => ?_
      apply Action.Ensures.bind_any fun lockTime unread => ?_
      apply Action.Ensures.bind_any fun lens unread => ?_
      apply Action.Ensures.bind_any fun programs unread => ?_
      refine ⟨⟨payloadVersion, payload, attributes, utxoInputs, outputs, lockTime, programs⟩, ?_⟩
      rw [Transaction.toRaw, named _ rfl]
    · exact fun _ _ => trivial
  exact ensured.of_returned returned

/-! ## Deployed code -/

/-- The first field of a deployed code can be read, and storing it panics. -/
theorem PayloadField.deserialize_panics (deploys : tx.txType = .deploy)
    (fits : tx.payload.serialize.length ≤ maxAlloc) (rest : Bytes) :
    (deserialize .deploy).Panics (tx.payload.serialize ++ rest) := by
  unfold Transaction.txType at deploys
  cases payload : tx.payload with
  | deployCode code name codeVersion author email description =>
    rw [payload] at fits
    simp only [Payload.serialize, FunctionCode.serialize, List.append_assoc] at fits ⊢
    have types := readVarBytes_decodes (fits_writeVarBytes (fits_append fits).1)
    have stores (rest : Bytes) : (FunctionCode.deserialize none).Panics
        (writeVarBytes code.parameterTypes ++ rest) :=
      .after (types rest) (Action.panics_crash rest)
    exact Action.Panics.bind (Action.panics_mapError.mpr (stores _)) _
  | _ => simp [payload] at deploys

theorem RawTransaction.deserialize_panics (deploys : tx.txType = .deploy)
    (fits : tx.serialize.length ≤ maxAlloc) (rest : Bytes) :
    deserialize.Panics (tx.serialize ++ rest) := by
  have split : tx.serialize ++ rest = [tx.txType.toByte] ++ ([tx.payloadVersion] ++
      (tx.payload.serialize ++ (writeList TxAttribute.serialize tx.attributes ++
        (writeList UTXOTxInput.serialize tx.utxoInputs ++
          (writeList TxOutput.serialize tx.outputs ++ (writeUint32 tx.lockTime ++
            (writeList Program.serialize tx.programs ++ rest))))))) := by
    simp [Transaction.serialize, Transaction.serializeUnsigned]
  have payloadFits : tx.payload.serialize.length ≤ maxAlloc := by
    simp only [Transaction.serialize, Transaction.serializeUnsigned, List.length_append,
      List.length_cons] at fits
    omega
  have payload (rest : Bytes) :
      (deserializePayload tx.txType.toByte).Panics (tx.payload.serialize ++ rest) := by
    rw [deserializePayload, ofByte_toByte, deploys]
    exact Action.panics_mapError.mpr (PayloadField.deserialize_panics deploys payloadFits rest)
  rw [split]
  apply Action.Panics.bind
  apply Action.panics_mapError.mpr
  apply Action.Panics.after ((readFullByte_decodes _).leaving _ _)
  apply Action.Panics.after ((readFullByte_decodes _).leaving _ _)
  exact Action.Panics.bind (Action.panics_mapError.mpr (payload _)) _

/-- A transaction without further data. -/
def Payload.alone (payload : Payload) : Transaction := ⟨0, payload, [], [], [], 0, []⟩

/-- A transaction that fits into memory is read back, with its hash and whatever follows
it, exactly if it deploys no code. -/
theorem transaction_roundTrip_iff (crypto : Primitives) {tx : Transaction}
    (fits : tx.serialize.length ≤ maxAlloc) :
    (∀ rest, ∃ raw, RawTransaction.deserialize.run (tx.serialize ++ rest) = (.ok raw, rest) ∧
      raw = tx.toRaw ∧ raw.hash crypto = (.ok (tx.hash crypto) : Outcome DecodeError Uint256)) ↔
      tx.txType ≠ .deploy := by
  constructor
  · intro readBack deploys
    obtain ⟨raw, run, -⟩ := readBack []
    exact (RawTransaction.deserialize_panics deploys fits []).not_returned run
  · intro known rest
    exact ⟨tx.toRaw, RawTransaction.deserialize_decodes fits known rest, rfl, rfl⟩

theorem transaction_roundTrip_transfer : ∃ raw,
    RawTransaction.deserialize.run (Payload.transferAsset.alone.serialize ++ [7]) =
      (.ok raw, [7]) ∧ raw = Payload.transferAsset.alone.toRaw ∧
    raw.hash .polynomial =
      (.ok (Payload.transferAsset.alone.hash .polynomial) : Outcome DecodeError Uint256) :=
  (transaction_roundTrip_iff .polynomial (by decide)).mpr (by decide) [7]

theorem deployCode_notReadBack :
    (RawTransaction.deserialize.run
      (Payload.deployCode ⟨[], []⟩ [] [] [] [] []).alone.serialize).1 = .panic := by
  decide +kernel

end DnaPow.Core
