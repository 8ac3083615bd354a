import DnaPow.Core.AuxPowCodec
import DnaPow.Ledger.Store

/-!
# Reading headers and stored blocks

The `Deserialize` methods of a header, the trimmed form in which `SaveBlock` stores
a block, and reading it back. `Store` works with the fields of a trimmed block; here
are its bytes.
-/

namespace DnaPow.Ledger

open DnaPow.Std Common Core

/-! ## Headers -/

/-- `new(Blockdata)`. -/
def Blockdata.zero : Blockdata where
  version := 0
  prevBlockHash := 0
  transactionsRoot := 0
  timestamp := 0
  bits := 0
  height := 0
  nonce := 0
  auxPow := .empty

/-- The errors of the last four readers are ignored. -/
def Blockdata.deserializeUnsigned : Decoder Blockdata Blockdata := do
  let version ← (readUint32.mapError fun reason =>
    .detail reason "Blockdata item Version Deserialize failed.").leaving .zero
  let prevBlockHash ← (Uint256.deserialize.mapError fun reason =>
    .detail reason "Blockdata item preBlock Deserialize failed.").leaving { zero with version }
  let transactionsRoot ← Uint256.deserialize.leaving { zero with version, prevBlockHash }
  let timestamp ← readUint32.recover fun _ => 0
  let bits ← readUint32.recover fun _ => 0
  let nonce ← readUint32.recover fun _ => 0
  let height ← readUint32.recover fun _ => 0
  return ⟨version, prevBlockHash, transactionsRoot, timestamp, bits, height, nonce, .empty⟩

/-- The errors of the two parts are ignored; only the byte behind them is checked. -/
def Blockdata.deserialize : Decoder Blockdata Blockdata := do
  let unsigned ← deserializeUnsigned.ignoringError
  let auxPow ← AuxPow.deserialize.recover fun _ => .empty
  let blockdata := { unsigned with auxPow }
  let flag ← (Action.readSome DecodeError.eof 1).recover fun _ => []
  if flag = [1] then
    return blockdata
  else
    .throw ⟨.detail (.new "Blockdata Deserialize get format error.") "", blockdata⟩

theorem Blockdata.deserializeUnsigned_decodes (blockdata : Blockdata) :
    deserializeUnsigned.Decodes blockdata.serializeUnsigned { blockdata with auxPow := .empty } := by
  have recovered (value : UInt32) :
      (readUint32.recover fun _ => 0 : Decoder Blockdata UInt32).Decodes (writeUint32 value) value :=
    (readUint32_decodes value).recover _
  simp only [serializeUnsigned, List.append_assoc]
  apply (((readUint32_decodes _).mapError _).leaving _).bind
  apply (((Uint256.deserialize_decodes _).mapError _).leaving _).bind
  apply ((Uint256.deserialize_decodes _).leaving _).bind
  apply (recovered _).bind
  apply (recovered _).bind
  apply (recovered _).bind
  exact (recovered blockdata.height).map fun height =>
    ({ blockdata with height := height, auxPow := .empty } : Blockdata)

/-- A header is read back, whatever follows it. -/
theorem Blockdata.deserialize_decodes {blockdata : Blockdata}
    (fits : blockdata.serialize.length ≤ maxAlloc) :
    deserialize.Decodes blockdata.serialize blockdata := by
  have auxFits : blockdata.auxPow.serialize.length ≤ maxAlloc := by
    simp only [serialize, List.length_append] at fits
    omega
  have readFlag : (Action.readSome DecodeError.eof 1).Decodes [1] [1] := Action.readSome_decodes [1]
  rw [serialize, List.append_assoc]
  apply (deserializeUnsigned_decodes blockdata).ignoringError.bind
  apply ((AuxPow.deserialize_decodes auxFits).recover _).bind
  exact (readFlag.recover _).bind_pure (if_pos rfl)

/-! ## Trimmed blocks -/

/-- `Trim`: the header, the number of transactions as a 32-bit number, and their hashes. -/
def Block.trim (crypto : Primitives) (block : Block) : Bytes :=
  block.blockdata.serialize ++ writeUint32 (UInt32.ofNat block.transactions.length) ++
    (block.txHashes crypto).flatMap Uint256.toArray

/-- The loop of `FromTrimmedData`. A hash that cannot be read is the last one again. -/
def readTxHashes : Nat → Uint256 → Reader (List Uint256)
  | 0, _ => pure []
  | count + 1, last => do
      let txhash ← Uint256.deserialize.recover fun _ => last
      return txhash :: (← readTxHashes count txhash)

/-- The error of `ComputeRoot`. -/
def noItemError : DecodeError := .detail (.new "NewMerkleTree input no item error.") ""

/-- The end of `Deserialize` and `FromTrimmedData`: the Merkle root is computed again. -/
def rebuildRoot (crypto : Primitives) (blockdata : Blockdata) (hashes : List Uint256) :
    Reader Blockdata :=
  match computeRoot crypto hashes with
  | none => .throw (.detail noItemError "Block Deserialize merkleTree compute failed")
  | some transactionsRoot => pure { blockdata with transactionsRoot }

/-- `FromTrimmedData`. The transactions have nothing but their hashes. -/
def Block.fromTrimmedData (crypto : Primitives) : Reader TrimmedBlock := do
  let blockdata ← Blockdata.deserialize.ignoringError
  let len ← readUint32
  let hashes ← readTxHashes len.toNat 0
  return ⟨← rebuildRoot crypto blockdata hashes, hashes⟩

theorem readTxHashes_decodes (hashes : List Uint256) (last : Uint256) :
    (readTxHashes hashes.length last).Decodes (hashes.flatMap Uint256.toArray) hashes := by
  induction hashes generalizing last with
  | nil => exact Action.decodes_pure []
  | cons hash hashes ih =>
    have head : (Uint256.deserialize.recover fun _ => last : Reader Uint256).Decodes
        hash.toArray hash := (Uint256.deserialize_decodes hash).recover _
    rw [List.flatMap_cons]
    exact head.bind ((ih hash).map (hash :: ·))

section Trim

variable {crypto : Primitives} {block : Block}

theorem Block.trim_length :
    (block.trim crypto).length =
      block.blockdata.serialize.length + 4 + 32 * block.transactions.length := by
  rw [trim, List.length_append, List.length_append, writeUint32_length,
    length_flatMap_of_forall fun hash _ => Uint256.toArray_length hash, txHashes, List.length_map]

/-- `FromTrimmedData` gets past the header and the count of a trimmed block. The
count has only 32 bits. -/
theorem fromTrimmedData_trim (fits : (block.trim crypto).length ≤ maxAlloc) (rest : Bytes) :
    (Block.fromTrimmedData crypto).run (block.trim crypto ++ rest) =
      (do
        let hashes ← readTxHashes (block.transactions.length % 2 ^ 32) 0
        return ⟨← rebuildRoot crypto block.blockdata hashes, hashes⟩ : Reader TrimmedBlock).run
        ((block.txHashes crypto).flatMap Uint256.toArray ++ rest) := by
  have headerFits : block.blockdata.serialize.length ≤ maxAlloc := by
    rw [Block.trim_length] at fits
    omega
  have header : (Blockdata.deserialize.ignoringError : Reader Blockdata).Decodes
      block.blockdata.serialize block.blockdata :=
    (Blockdata.deserialize_decodes headerFits).ignoringError
  have count := readUint32_decodes (UInt32.ofNat block.transactions.length)
  rw [Block.trim, List.append_assoc, List.append_assoc, Block.fromTrimmedData,
    Action.run_bind_of_ok (header _), Action.run_bind_of_ok (count _), UInt32.toNat_ofNat']

/-- A stored block of less than `2 ^ 32` transactions is read back as `Store` reads it. -/
theorem fromTrimmedData_decodes {blockdata : Blockdata}
    (fits : (block.trim crypto).length ≤ maxAlloc) (few : block.transactions.length < 2 ^ 32)
    (stored : ChainStore.fromTrimmedData crypto ⟨block.blockdata, block.txHashes crypto⟩ =
      .ok (blockdata, block.txHashes crypto)) :
    (Block.fromTrimmedData crypto).Decodes (block.trim crypto)
      ⟨blockdata, block.txHashes crypto⟩ := by
  have count : block.transactions.length % 2 ^ 32 = (block.txHashes crypto).length := by
    rw [Nat.mod_eq_of_lt few, Block.txHashes, List.length_map]
  have rebuilt : rebuildRoot crypto block.blockdata (block.txHashes crypto) = pure blockdata := by
    simp only [ChainStore.fromTrimmedData, Outcome.bind_eq_ok, Outcome.ofOption_eq_ok] at stored
    obtain ⟨root, computed, same⟩ := stored
    rw [Outcome.pure_eq, Outcome.ok.injEq, Prod.mk.injEq] at same
    rw [rebuildRoot, computed, ← same.1]
  intro rest
  rw [fromTrimmedData_trim fits, count]
  apply (readTxHashes_decodes _ 0).bind_pure _ rest
  rw [rebuilt]
  rfl

end Trim

/-- Headers and trimmed blocks that fit into memory are read back, whatever follows
them. -/
theorem headerCodecs_roundTrip :
    (∀ blockdata : Blockdata, blockdata.serialize.length ≤ maxAlloc → ∀ rest,
      Blockdata.deserialize.run (blockdata.serialize ++ rest) = (.ok blockdata, rest)) ∧
    ∀ (crypto : Primitives) (block : Block), (block.trim crypto).length ≤ maxAlloc →
      block.transactions.length < 2 ^ 32 →
      computeRoot crypto (block.txHashes crypto) = some block.blockdata.transactionsRoot →
      ∀ rest, (Block.fromTrimmedData crypto).run (block.trim crypto ++ rest) =
        (.ok ⟨block.blockdata, block.txHashes crypto⟩, rest) := by
  constructor
  · intro blockdata fits rest
    exact Blockdata.deserialize_decodes fits rest
  · intro crypto block fits few computed rest
    apply fromTrimmedData_decodes fits few _ rest
    simp [ChainStore.fromTrimmedData, computed, Outcome.ofOption]

theorem headerCodecs_genesis :
    (∀ rest, Blockdata.deserialize.run ((genesisBlock .sample).blockdata.serialize ++ rest) =
      (.ok (genesisBlock .sample).blockdata, rest)) ∧
    ∀ rest, (Block.fromTrimmedData .polynomial).run
      ((genesisBlock .sample).trim .polynomial ++ rest) =
        (.ok ⟨(genesisBlock .sample).blockdata, (genesisBlock .sample).txHashes .polynomial⟩,
          rest) :=
  ⟨headerCodecs_roundTrip.1 (genesisBlock .sample).blockdata (by decide +kernel),
    headerCodecs_roundTrip.2 .polynomial (genesisBlock .sample) (by decide +kernel) (by decide)
      (by decide +kernel)⟩

/-- A block of so many equal transactions. -/
def repeatedBlock (count : Nat) : Block where
  blockdata := { Blockdata.zero with
    transactionsRoot := (computeRoot .polynomial
      ((List.replicate count systemToken).map (Transaction.hash .polynomial))).getD 0 }
  transactions := List.replicate count systemToken

theorem repeatedBlock_trim_length (count : Nat) :
    ((repeatedBlock count).trim .polynomial).length = 221 + 32 * count := by
  have header : (repeatedBlock count).blockdata.serialize.length = 217 := by
    simp [repeatedBlock, Blockdata.serialize, Blockdata.serializeUnsigned, Blockdata.zero,
      AuxPow.serialize, AuxPow.empty, BtcTx.serialize, BtcBlockHeader.serialize, writeList,
      writeVarUint]
  rw [Block.trim_length, header, repeatedBlock, List.length_replicate]

theorem repeatedBlock_root {count : Nat} (some_tx : 0 < count) :
    computeRoot .polynomial ((repeatedBlock count).txHashes .polynomial) =
      some (repeatedBlock count).blockdata.transactionsRoot := by
  have nonempty : (repeatedBlock count).txHashes .polynomial ≠ [] := by
    simp [Block.txHashes, repeatedBlock, Nat.ne_of_gt some_tx]
  change _ = some ((computeRoot _ ((repeatedBlock count).txHashes .polynomial)).getD 0)
  rw [computeRoot, if_neg nonempty]
  rfl

/-- Without hashes there is no Merkle root. -/
theorem rebuildRoot_nil (crypto : Primitives) (blockdata : Blockdata) (unread : Bytes) :
    ((do
      let hashes ← readTxHashes 0 0
      return ⟨← rebuildRoot crypto blockdata hashes, hashes⟩ : Reader TrimmedBlock).run unread).1 =
      .error (.detail noItemError "Block Deserialize merkleTree compute failed") := rfl

/-- A count that is a multiple of `2 ^ 32` is written as zero. -/
theorem fromTrimmedData_repeatedBlock {count : Nat} (fits : 221 + 32 * count ≤ maxAlloc)
    (multiple : count % 2 ^ 32 = 0) :
    ((Block.fromTrimmedData .polynomial).run ((repeatedBlock count).trim .polynomial ++ [])).1 =
      .error (.detail noItemError "Block Deserialize merkleTree compute failed") := by
  have written : (repeatedBlock count).transactions.length % 2 ^ 32 = 0 := by
    rw [repeatedBlock, List.length_replicate, multiple]
  rw [← repeatedBlock_trim_length] at fits
  rw [fromTrimmedData_trim fits, written]
  exact rebuildRoot_nil _ _ _

theorem repeatedBlock_notReadBack :
    ∃ block : Block, (block.trim .polynomial).length ≤ maxAlloc ∧
      computeRoot .polynomial (block.txHashes .polynomial) =
        some block.blockdata.transactionsRoot ∧
      ((Block.fromTrimmedData .polynomial).run (block.trim .polynomial ++ [])).1 =
        .error (.detail noItemError "Block Deserialize merkleTree compute failed") := by
  refine ⟨repeatedBlock (2 ^ 32), ?_, repeatedBlock_root (by decide),
    fromTrimmedData_repeatedBlock (by decide) (by decide)⟩
  rw [repeatedBlock_trim_length]
  decide

end DnaPow.Ledger
