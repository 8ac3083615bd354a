import DnaPow.Common.Serialization
import DnaPow.Std.Decoding

/-!
# Readers

The readers of package `common/serialization` and of the fixed-size types. The
`io.Reader` is the `bytes.Buffer` in which the network code wraps what it has
received: `Read` returns the bytes there are, so a reader of a fixed-size value
that looks only at whether anything was read accepts a cut-off value and fills
it up with zeros.
-/

namespace DnaPow.Common

open DnaPow.Std

variable {bytes : Bytes}

/-- The errors of the decoders: those of package `io`, the two of package
`serialization`, and texts with or without a cause. -/
inductive DecodeError where
  | eof
  | unexpectedEOF
  | errEof
  | errRange
  | new (text : String)
  | detail (cause : DecodeError) (text : String)
  deriving DecidableEq, Repr

/-- A reader of package `serialization`. -/
abbrev Reader (α : Type) := Action DecodeError Bytes α

/-- Reading by a `Deserialize` method: on an error its receiver keeps what was stored. -/
abbrev Decoder (receiver α : Type) := Action (Failure DecodeError receiver) Bytes α

/-- The largest allocation, in bytes; `make` panics on a larger one. -/
def maxAlloc : Nat := 2 ^ 48

/-- `make` of a slice. -/
def makeSlice {ε σ : Type} (itemSize count : Nat) : Action ε σ Unit :=
  if itemSize * count ≤ maxAlloc then pure () else .crash

/-- The contents of a zeroed slice of the given length after `Read`. -/
def fill (length : Nat) (bytes : Bytes) : Bytes := bytes ++ List.replicate (length - bytes.length) 0

/-- `Read` into a zeroed array, without a look at how much was read. -/
def readArray (length : Nat) : Reader Bytes := do
  return fill length (← .readSome .eof length)

/-- `io.ReadFull`. -/
def ioReadFull (length : Nat) : Reader Bytes := .readFull .eof .unexpectedEOF length

/-! ## Numbers and byte strings -/

def readUint8 : Reader UInt8 := do
  return UInt8.ofNat (ofLittleEndian (← (readArray 1).mapError fun _ => .errEof))

def readUint16 : Reader UInt16 := do
  return UInt16.ofNat (ofLittleEndian (← (readArray 2).mapError fun _ => .errEof))

def readUint32 : Reader UInt32 := do
  return UInt32.ofNat (ofLittleEndian (← (readArray 4).mapError fun _ => .errEof))

def readUint64 : Reader UInt64 := do
  return UInt64.ofNat (ofLittleEndian (← (readArray 8).mapError fun _ => .errEof))

/-- `ReadVarUint`. Every caller passes zero as the bound, so nothing is out of range. -/
def readVarUint : Reader Nat := do
  let first := ofLittleEndian (← readArray 1)
  if first = 0xfd then
    return ofLittleEndian (← readArray 2)
  else if first = 0xfe then
    return ofLittleEndian (← readArray 4)
  else if first = 0xff then
    return ofLittleEndian (← readArray 8)
  else
    return first

def byteXReader (length : Nat) : Reader Bytes := do
  makeSlice 1 length
  readArray length

def readVarBytes : Reader Bytes := do
  byteXReader (← readVarUint)

/-- A count and then that many items, read into a slice made for them. -/
def readSlice {α : Type} (itemSize : Nat) (item : Reader α) : Reader (List α) := do
  let count ← readVarUint
  makeSlice itemSize count
  item.times count

/-! ## Fixed-size types -/

def Uint256.deserialize : Reader Uint256 := do
  return BitVec.ofNat 256 (ofLittleEndian (← readArray 32))

def Uint160.deserialize : Reader Uint160 := do
  return BitVec.ofNat 160 (ofLittleEndian (← readArray 20))

def Fixed64.deserialize : Reader Fixed64 := do
  return (UInt64.ofNat (ofLittleEndian (← readArray 8))).toInt64

/-! ## Reading back what was written -/

theorem makeSlice_decodes {ε : Type} {itemSize count : Nat} (fits : itemSize * count ≤ maxAlloc) :
    (makeSlice itemSize count : Action ε Bytes Unit).Decodes [] () := by
  intro rest
  simp [makeSlice, fits]

theorem readArray_decodes {length : Nat} (full : bytes.length = length) :
    (readArray length).Decodes bytes bytes := by
  subst full
  have filled : fill bytes.length bytes = bytes := by simp [fill]
  have read : (Action.readSome DecodeError.eof bytes.length).Decodes bytes bytes :=
    Action.readSome_decodes bytes
  have decodes := read.map (fill bytes.length)
  rwa [filled] at decodes

theorem readArray_littleEndian (width value : Nat) :
    (readArray width).Decodes (littleEndian width value) (littleEndian width value) :=
  readArray_decodes (littleEndian_length width value)

theorem ioReadFull_decodes {length : Nat} (full : bytes.length = length) :
    (ioReadFull length).Decodes bytes bytes := by
  subst full
  exact Action.readFull_decodes bytes

theorem readUint8_decodes (value : UInt8) : readUint8.Decodes [value] value := by
  have read : (readArray 1).Decodes [value] [value] := readArray_decodes rfl
  have decodes := (read.mapError fun _ => DecodeError.errEof).map fun bytes =>
    UInt8.ofNat (ofLittleEndian bytes)
  have back : UInt8.ofNat (ofLittleEndian [value]) = value := by simp [ofLittleEndian]
  rwa [back] at decodes

/-- Reading the bytes of a number and turning the number into a value. -/
theorem decodes_littleEndian {α : Type} {read : Reader Bytes} {width number : Nat}
    (reads : read.Decodes (littleEndian width number) (littleEndian width number))
    (fits : number < 256 ^ width) (decode : Nat → α) {value : α} (back : decode number = value) :
    (read >>= fun bytes => pure (decode (ofLittleEndian bytes))).Decodes
      (littleEndian width number) value := by
  have decodes := reads.map fun bytes => decode (ofLittleEndian bytes)
  rwa [ofLittleEndian_littleEndian_of_lt fits, back] at decodes

theorem readUint16_decodes (value : UInt16) : readUint16.Decodes (writeUint16 value) value :=
  decodes_littleEndian ((readArray_littleEndian 2 _).mapError _) value.toNat_lt UInt16.ofNat
    UInt16.ofNat_toNat

theorem readUint32_decodes (value : UInt32) : readUint32.Decodes (writeUint32 value) value :=
  decodes_littleEndian ((readArray_littleEndian 4 _).mapError _) value.toNat_lt UInt32.ofNat
    UInt32.ofNat_toNat

theorem Uint256.deserialize_decodes (hash : Uint256) :
    Uint256.deserialize.Decodes hash.toArray hash :=
  decodes_littleEndian (readArray_littleEndian 32 _) hash.isLt (BitVec.ofNat _)
    ((hash.ofNat_toNat _).trans hash.setWidth_eq)

theorem Uint160.deserialize_decodes (hash : Uint160) :
    Uint160.deserialize.Decodes hash.toArray hash :=
  decodes_littleEndian (readArray_littleEndian 20 _) hash.isLt (BitVec.ofNat _)
    ((hash.ofNat_toNat _).trans hash.setWidth_eq)

theorem Fixed64.toInt64_ofNat (amount : Fixed64) :
    (UInt64.ofNat amount.toUInt64.toNat).toInt64 = amount := by
  rw [UInt64.ofNat_toNat]
  rfl

theorem Fixed64.deserialize_decodes (amount : Fixed64) :
    Fixed64.deserialize.Decodes (Fixed64.serialize amount) amount :=
  decodes_littleEndian (readArray_littleEndian 8 _) amount.toUInt64.toNat_lt
    (fun number => (UInt64.ofNat number).toInt64) amount.toInt64_ofNat

/-- The four forms of a count are told apart by their first byte. -/
theorem readVarUint_decodes {value : Nat} (bounded : value < 2 ^ 64) :
    readVarUint.Decodes (writeVarUint value) value := by
  have marker (byte : UInt8) : (readArray 1).Decodes [byte] [byte] := readArray_decodes rfl
  have number (width : Nat) : (readArray width >>= fun bytes => pure (ofLittleEndian bytes)).Decodes
      (littleEndian width value) (value % 256 ^ width) := by
    rw [← ofLittleEndian_littleEndian]
    exact (readArray_littleEndian width value).map ofLittleEndian
  unfold writeVarUint
  split_ifs with one two four
  · have small : value % 256 = value := Nat.mod_eq_of_lt (by omega)
    have encoded : littleEndian 1 value = [UInt8.ofNat value] := by simp [littleEndian, small]
    have back : ofLittleEndian [UInt8.ofNat value] = value := by
      simp [ofLittleEndian]
      omega
    rw [encoded]
    rw [← List.append_nil [UInt8.ofNat value]]
    apply (marker _).bind
    rw [back, if_neg (by omega), if_neg (by omega), if_neg (by omega)]
    exact Action.decodes_pure value
  · have read := number 2
    rw [Nat.mod_eq_of_lt (by omega)] at read
    exact (marker 0xfd).bind read
  · have read := number 4
    rw [Nat.mod_eq_of_lt (by omega)] at read
    exact (marker 0xfe).bind read
  · have read := number 8
    rw [Nat.mod_eq_of_lt (by omega)] at read
    exact (marker 0xff).bind read

theorem byteXReader_decodes (fits : bytes.length ≤ maxAlloc) :
    (byteXReader bytes.length).Decodes bytes bytes :=
  (makeSlice_decodes (by omega)).bind (readArray_decodes rfl)

theorem readVarBytes_decodes (fits : bytes.length ≤ maxAlloc) :
    readVarBytes.Decodes (writeVarBytes bytes) bytes := by
  have bounded : bytes.length < 2 ^ 64 := lt_of_le_of_lt fits (by decide)
  exact (readVarUint_decodes bounded).bind (byteXReader_decodes fits)

theorem readSlice_decodes {α : Type} {itemSize : Nat} {item : Reader α} {encode : α → Bytes}
    {items : List α} (each : ∀ value ∈ items, item.Decodes (encode value) value)
    (fits : itemSize * items.length ≤ maxAlloc) (bounded : items.length < 2 ^ 64) :
    (readSlice itemSize item).Decodes (writeList encode items) items := by
  have made : (makeSlice itemSize items.length : Reader Unit).Decodes [] () :=
    makeSlice_decodes fits
  have listed := Action.Decodes.times each
  exact (readVarUint_decodes bounded).bind (made.bind listed)

/-! ## Sizes -/

/-- No item of a list is longer than the list. -/
theorem length_le_length_flatMap {α : Type} {encode : α → Bytes} {items : List α} {item : α}
    (member : item ∈ items) : (encode item).length ≤ (items.flatMap encode).length := by
  obtain ⟨before, after, rfl⟩ := List.append_of_mem member
  simp only [List.flatMap_append, List.flatMap_cons, List.length_append]
  omega

/-- A list of items of some size is at least as long as all of them together. -/
theorem mul_length_le_length_flatMap {α : Type} {encode : α → Bytes} {least : Nat}
    (atLeast : ∀ item, least ≤ (encode item).length) (items : List α) :
    least * items.length ≤ (items.flatMap encode).length := by
  induction items with
  | nil => simp
  | cons item items ih =>
    have first := atLeast item
    rw [List.flatMap_cons, List.length_append, List.length_cons, Nat.mul_succ]
    omega

end DnaPow.Common
