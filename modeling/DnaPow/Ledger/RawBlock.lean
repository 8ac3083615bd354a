import Mathlib.Data.Set.List
import DnaPow.Core.TransactionCodec
import DnaPow.Ledger.BlockCodec

/-!
# Reading blocks

`Block.Deserialize`, and which bytes `Transaction.Deserialize` and `Block.Deserialize`
accept. Errors of nested readers are ignored in several places, so that a value is returned
for bytes that are no encoding of it.
-/

namespace DnaPow.Ledger

open DnaPow.Std Common Core

/-- A block as far as it has been filled in. -/
structure RawBlock where
  blockdata : Blockdata
  transactions : List RawTransaction
  deriving DecidableEq, Repr

def Block.toRaw (block : Block) : RawBlock :=
  ⟨block.blockdata, block.transactions.map Transaction.toRaw⟩

namespace RawBlock

/-- One round of the loop of `Deserialize`. The error of the transaction is ignored, and
what has been read of it is hashed. -/
def readTransaction {ε : Type} (crypto : Primitives) : Action ε Bytes (RawTransaction × Uint256) := do
  let transaction ← RawTransaction.deserialize.ignoringError
  let txhash ← Action.check fun _ => transaction.hash crypto
  return (transaction, txhash)

/-- `Block.Deserialize` of a new block. The error of the header is ignored. -/
def deserialize (crypto : Primitives) : Decoder RawBlock RawBlock := do
  let blockdata ← Blockdata.deserialize.ignoringError
  let len ← readUint32.leaving ⟨blockdata, []⟩
  let read ← (readTransaction crypto).times len.toNat
  let transactions := read.map Prod.fst
  let rebuilt ← (rebuildRoot crypto blockdata (read.map Prod.snd)).leaving
    ⟨{ blockdata with transactionsRoot := 0 }, transactions⟩
  return ⟨rebuilt, transactions⟩

/-- The loop of `Serialize`. The errors of the transactions are ignored. -/
def writeTransactions {ε : Type} : List RawTransaction → Outcome ε Bytes
  | [] => .ok []
  | transaction :: transactions => do
      let first ← written transaction.serialize
      let others ← writeTransactions transactions
      return first ++ others

def serialize {ε : Type} (block : RawBlock) : Outcome ε Bytes := do
  let transactions ← writeTransactions block.transactions
  return block.blockdata.serialize ++ writeUint32 (UInt32.ofNat block.transactions.length) ++
    transactions

end RawBlock

@[simp] theorem Block.serialize_toRaw {ε : Type} (block : Block) :
    (block.toRaw.serialize : Outcome ε Bytes) = .ok block.serialize := by
  have transactions (txs : List Transaction) :
      (RawBlock.writeTransactions (txs.map Transaction.toRaw) : Outcome ε Bytes) =
        .ok (txs.flatMap Transaction.serialize) := by
    induction txs with
    | nil => rfl
    | cons tx txs ih =>
      rw [List.map_cons, RawBlock.writeTransactions, ih, Transaction.serialize_toRaw]
      rfl
  rw [RawBlock.serialize, toRaw, transactions, Outcome.bind_ok, List.length_map]
  rfl

/-! ## Blocks that are read back -/

/-- The block is one whose encoding is read back: it deploys no code, its number of
transactions has 32 bits, and its root is that of its transactions. -/
structure Block.ReadBack (crypto : Primitives) (block : Block) : Prop where
  deploysNothing : ∀ tx ∈ block.transactions, tx.txType ≠ .deploy
  few : block.transactions.length < 2 ^ 32
  root : computeRoot crypto (block.txHashes crypto) = some block.blockdata.transactionsRoot

section Read

variable {crypto : Primitives} {block : Block} {tx : Transaction}

theorem Block.fits_of_mem (fits : block.serialize.length ≤ maxAlloc)
    (member : tx ∈ block.transactions) : tx.serialize.length ≤ maxAlloc := by
  have part := @length_le_length_flatMap _ Transaction.serialize _ _ member
  simp only [serialize, List.length_append] at fits
  omega

theorem Block.header_fits (fits : block.serialize.length ≤ maxAlloc) :
    block.blockdata.serialize.length ≤ maxAlloc := by
  simp only [serialize, List.length_append] at fits
  omega

theorem readTransaction_decodes {ε : Type}
    (fits : tx.serialize.length ≤ maxAlloc) (known : tx.txType ≠ .deploy) :
    (RawBlock.readTransaction crypto : Action ε Bytes _).Decodes tx.serialize
      (tx.toRaw, tx.hash crypto) := by
  have read : (RawTransaction.deserialize.ignoringError : Action ε Bytes RawTransaction).Decodes
      tx.serialize tx.toRaw := (RawTransaction.deserialize_decodes fits known).ignoringError
  apply read.bind_pure
  rfl

theorem readTransaction_panics {ε : Type} (deploys : tx.txType = .deploy)
    (fits : tx.serialize.length ≤ maxAlloc) (rest : Bytes) :
    (RawBlock.readTransaction crypto : Action ε Bytes _).Panics (tx.serialize ++ rest) :=
  Action.Panics.bind
    (Action.panics_recover.mpr (RawTransaction.deserialize_panics deploys fits rest)) _

theorem Block.deserialize_decodes (fits : block.serialize.length ≤ maxAlloc)
    (readable : block.ReadBack crypto) :
    (RawBlock.deserialize crypto).Decodes block.serialize block.toRaw := by
  have header : (Blockdata.deserialize.ignoringError : Decoder RawBlock Blockdata).Decodes
      block.blockdata.serialize block.blockdata :=
    (Blockdata.deserialize_decodes (header_fits fits)).ignoringError
  have transactions : (RawBlock.readTransaction crypto : Decoder RawBlock _).times
      block.transactions.length |>.Decodes (block.transactions.flatMap Transaction.serialize)
        (block.transactions.map fun tx => (tx.toRaw, tx.hash crypto)) :=
    Action.Decodes.times_map fun tx member =>
      readTransaction_decodes (fits_of_mem fits member) (readable.deploysNothing tx member)
  have count : (UInt32.ofNat block.transactions.length).toNat = block.transactions.length :=
    UInt32.toNat_ofNat_of_lt' readable.few
  rw [serialize, List.append_assoc]
  apply header.bind
  apply ((readUint32_decodes _).leaving _).bind
  rw [count]
  apply transactions.bind_pure
  have rebuilt : rebuildRoot crypto block.blockdata (block.txHashes crypto) =
      pure block.blockdata := by rw [rebuildRoot, readable.root]
  have hashes : (block.transactions.map fun tx => (tx.toRaw, tx.hash crypto)).map Prod.snd =
      block.txHashes crypto := by rw [List.map_map]; rfl
  have raws : (block.transactions.map fun tx => (tx.toRaw, tx.hash crypto)).map Prod.fst =
      block.toRaw.transactions := by rw [List.map_map]; rfl
  rw [hashes, raws, rebuilt]
  rfl

/-- A block that deploys code is not read. -/
theorem Block.deserialize_panics (fits : block.serialize.length ≤ maxAlloc)
    (few : block.transactions.length < 2 ^ 32)
    (deploys : ∃ tx ∈ block.transactions, tx.txType = .deploy) (rest : Bytes) :
    (RawBlock.deserialize crypto).Panics (block.serialize ++ rest) := by
  have header : (Blockdata.deserialize.ignoringError : Decoder RawBlock Blockdata).Decodes
      block.blockdata.serialize block.blockdata :=
    (Blockdata.deserialize_decodes (header_fits fits)).ignoringError
  have count : (UInt32.ofNat block.transactions.length).toNat = block.transactions.length :=
    UInt32.toNat_ofNat_of_lt' few
  rw [serialize, List.append_assoc, List.append_assoc]
  apply Action.Panics.after (header _)
  apply Action.Panics.after ((readUint32_decodes _).leaving _ _)
  rw [count]
  apply Action.Panics.bind
  exact Action.panics_times
    (fun tx member known => readTransaction_decodes (fits_of_mem fits member) known)
    (fun tx member deploys => readTransaction_panics deploys (fits_of_mem fits member)) deploys rest

/-- What is returned: the transactions with the hashes that the root is computed from. -/
theorem RawBlock.deserialize_ensures (unread : Bytes) :
    (deserialize crypto).Ensures unread
      (fun raw _ => ∃ read : List (RawTransaction × Uint256),
        raw.transactions = read.map Prod.fst ∧ read.length < 2 ^ 32 ∧
        (∀ pair ∈ read, pair.1.hash crypto =
          (.ok pair.2 : Outcome (Failure DecodeError RawBlock) Uint256)) ∧
        computeRoot crypto (read.map Prod.snd) = some raw.blockdata.transactionsRoot)
      fun _ => True := by
  have each (unread : Bytes) : (readTransaction crypto : Decoder RawBlock _).Ensures unread
      (fun pair _ => pair.1.hash crypto =
        (.ok pair.2 : Outcome (Failure DecodeError RawBlock) Uint256)) fun _ => True := by
    apply Action.Ensures.bind_any fun transaction unread => ?_
    rw [Action.ensures_bind, Action.ensures_check]
    exact ⟨fun txhash hashed => hashed, fun _ _ => True.intro⟩
  apply Action.Ensures.bind_any fun blockdata unread => ?_
  apply Action.Ensures.bind_any fun len unread => ?_
  apply Action.ensures_bind.mpr
  apply (Action.Ensures.times each len.toNat unread).mono
  · rintro read unread ⟨length, hashed⟩
    have few : read.length < 2 ^ 32 := length ▸ len.toNat_lt
    simp only [rebuildRoot]
    cases computed : computeRoot crypto (read.map Prod.snd) with
    | none => trivial
    | some root => exact ⟨read, rfl, few, hashed, computed⟩
  · exact fun _ _ => trivial

/-- The hashes of whole transactions. -/
theorem map_snd_of_hashed {txs : List Transaction} {read : List (RawTransaction × Uint256)}
    (raws : txs.map Transaction.toRaw = read.map Prod.fst)
    (hashed : ∀ pair ∈ read, pair.1.hash crypto =
      (.ok pair.2 : Outcome (Failure DecodeError RawBlock) Uint256)) :
    read.map Prod.snd = txs.map (Transaction.hash crypto) := by
  induction txs generalizing read with
  | nil => simpa using raws.symm
  | cons tx txs ih =>
    cases read with
    | nil => simp at raws
    | cons pair read =>
      rw [List.map_cons, List.map_cons, List.cons.injEq] at raws
      rw [List.forall_mem_cons, ← raws.1, Transaction.hash_toRaw] at hashed
      rw [List.map_cons, List.map_cons, ih raws.2 hashed.2, Outcome.ok.inj hashed.1]

/-- A whole block that is returned has the root of its transactions. -/
theorem Block.root_of_returned {unread rest : Bytes}
    (returned : (RawBlock.deserialize crypto).run unread = (.ok block.toRaw, rest)) :
    block.transactions.length < 2 ^ 32 ∧
      computeRoot crypto (block.txHashes crypto) = some block.blockdata.transactionsRoot := by
  obtain ⟨read, transactions, few, hashed, computed⟩ :=
    (RawBlock.deserialize_ensures unread).of_returned returned
  have length : block.transactions.length = read.length := by
    simpa [toRaw] using congrArg List.length transactions
  rw [map_snd_of_hashed transactions hashed] at computed
  exact ⟨by omega, computed⟩

theorem Block.readable_of_returned {after rest : Bytes} (fits : block.serialize.length ≤ maxAlloc)
    (returned : (RawBlock.deserialize crypto).run (block.serialize ++ after) =
      (.ok block.toRaw, rest)) : block.ReadBack crypto := by
  obtain ⟨few, root⟩ := root_of_returned returned
  have known : ∀ tx ∈ block.transactions, tx.txType ≠ .deploy := by
    intro tx member deploys
    exact (deserialize_panics fits few ⟨tx, member, deploys⟩ after).not_returned returned
  exact ⟨known, few, root⟩

end Read

/-! ## What is accepted -/

/-- What was read is written as the bytes that were read. -/
def Rewrites {ε : Type} (unread rest : Bytes) (rewritten : Outcome ε Bytes) : Prop :=
  ∃ read, unread = read ++ rest ∧ rewritten = .ok read

/-- The transactions of a block that is accepted have been read as a whole, and the block is
written as the bytes that were read. -/
def RawBlock.Canonical (unread rest : Bytes) (raw : RawBlock) : Prop :=
  (∀ raw' ∈ raw.transactions, ∃ tx : Transaction, raw' = tx.toRaw) ∧
    Rewrites unread rest (raw.serialize : Outcome DecodeError Bytes)

theorem RawBlock.exists_toRaw {raw : RawBlock}
    (whole : ∀ raw' ∈ raw.transactions, ∃ tx : Transaction, raw' = tx.toRaw) :
    ∃ block : Block, raw = block.toRaw := by
  obtain ⟨blockdata, transactions⟩ := raw
  obtain ⟨txs, rfl⟩ : transactions ∈ Set.range (List.map Transaction.toRaw) := by
    rw [Set.range_list_map]
    exact fun raw' member => (whole raw' member).imp fun _ => Eq.symm
  exact ⟨⟨blockdata, txs⟩, rfl⟩

/-- A transaction or block that was accepted is written as the bytes that were read if and
only if the input starts with the encoding of a transaction that deploys no code, or of a block
of such transactions with their root. -/
theorem deserialize_canonical_iff (crypto : Primitives) {unread : Bytes}
    (fits : unread.length ≤ maxAlloc) :
    (∀ raw rest, RawTransaction.deserialize.run unread = (.ok raw, rest) →
      (Rewrites unread rest raw.serialize ↔
        ∃ tx : Transaction, tx.txType ≠ .deploy ∧ tx.serialize <+: unread)) ∧
    ∀ raw rest, (RawBlock.deserialize crypto).run unread = (.ok raw, rest) →
      (raw.Canonical unread rest ↔
        ∃ block : Block, block.ReadBack crypto ∧ block.serialize <+: unread) := by
  constructor
  · intro raw rest returned
    constructor
    · rintro ⟨read, rfl, rewritten⟩
      obtain ⟨tx, rfl⟩ := RawTransaction.exists_of_deserialize returned
      rw [Transaction.serialize_toRaw, Outcome.ok.injEq] at rewritten
      subst rewritten
      refine ⟨tx, fun deploys => ?_, List.prefix_append _ _⟩
      exact (RawTransaction.deserialize_panics deploys (fits_append fits).1 rest).not_returned
        returned
    · rintro ⟨tx, known, starts⟩
      obtain ⟨rfl, split⟩ := (RawTransaction.deserialize_decodes (starts.length_le.trans fits)
        known).of_returned starts returned
      exact ⟨_, split, Transaction.serialize_toRaw tx⟩
  · intro raw rest returned
    constructor
    · rintro ⟨whole, read, rfl, rewritten⟩
      obtain ⟨block, rfl⟩ := RawBlock.exists_toRaw whole
      rw [Block.serialize_toRaw, Outcome.ok.injEq] at rewritten
      subst rewritten
      exact ⟨_, Block.readable_of_returned (fits_append fits).1 returned,
        List.prefix_append _ _⟩
    · rintro ⟨block, readable, starts⟩
      obtain ⟨rfl, split⟩ := (Block.deserialize_decodes (starts.length_le.trans fits)
        readable).of_returned starts returned
      refine ⟨fun raw' member => ?_, _, split, Block.serialize_toRaw block⟩
      obtain ⟨tx, -, rfl⟩ := List.mem_map.mp member
      exact ⟨tx, rfl⟩

/-- A transfer without inputs and outputs. -/
theorem deserialize_canonical_transfer :
    Rewrites Payload.transferAsset.alone.serialize [] Payload.transferAsset.alone.toRaw.serialize :=
  ((deserialize_canonical_iff .polynomial (by decide)).1 _ _ (by decide +kernel)).mpr
    ⟨Payload.transferAsset.alone, by decide, List.prefix_rfl⟩

/-- The same transfer cut off in front of its program: the program is taken to be empty. -/
theorem deserialize_accepts_truncated :
    let unread := Payload.transferAsset.alone.serialize.dropLast ++ [1]
    (Transaction.serialize ⟨0, .transferAsset, [], [], [], 0, [⟨[7], [8]⟩]⟩).take unread.length =
      unread ∧
    ∃ raw, RawTransaction.deserialize.run unread = (.ok raw, []) ∧
      ¬ Rewrites unread [] raw.serialize := by
  refine ⟨by decide, ⟨0x02, 0, .loaded .transferAsset, [], [], [], 0, [⟨[], []⟩]⟩, by decide +kernel, ?_⟩
  rintro ⟨read, same, rewritten⟩
  rw [List.append_nil] at same
  subst same
  revert rewritten
  decide

end DnaPow.Ledger
