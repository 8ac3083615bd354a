import DnaPow.Std.Bytes

/-!
# Fixed-size values and their serialization

The fixed-size types of package `common` and the writers of package
`common/serialization`. A `Uint256` is a 32-byte array that the code compares
from its last byte down, so it is the number whose little-endian bytes the
array holds. `Fixed64` is the signed 64-bit amount type.
-/

namespace DnaPow.Common

open DnaPow.Std

/-- A 32-byte hash. -/
abbrev Uint256 := BitVec 256

/-- A 20-byte program hash. -/
abbrev Uint160 := BitVec 160

/-- An amount: a signed 64-bit integer with wrap-around arithmetic. -/
abbrev Fixed64 := Int64

/-- The 32 bytes of a hash, in array order. -/
def Uint256.toArray (hash : Uint256) : Bytes := littleEndian 32 hash.toNat

/-- The 20 bytes of a program hash, in array order. -/
def Uint160.toArray (hash : Uint160) : Bytes := littleEndian 20 hash.toNat

/-- `Uint160ParseFromBytes`: only a 20-byte string is a program hash. -/
def uint160ParseFromBytes (data : Bytes) : Option Uint160 :=
  if data.length = 20 then some (BitVec.ofNat 160 (ofLittleEndian data)) else none

/-! ## Writers -/

def writeUint16 (value : UInt16) : Bytes := littleEndian 2 value.toNat

def writeUint32 (value : UInt32) : Bytes := littleEndian 4 value.toNat

def Fixed64.serialize (amount : Fixed64) : Bytes := littleEndian 8 amount.toUInt64.toNat

/-- The variable-length encoding of a count: one byte below `0xfd`, otherwise a
marker byte and two, four or eight bytes. -/
def writeVarUint (value : Nat) : Bytes :=
  if value < 0xfd then
    littleEndian 1 value
  else if value ≤ 0xffff then
    0xfd :: littleEndian 2 value
  else if value ≤ 0xffffffff then
    0xfe :: littleEndian 4 value
  else
    0xff :: littleEndian 8 value

/-- A byte string preceded by its length. `WriteVarString` writes the same. -/
def writeVarBytes (value : Bytes) : Bytes := writeVarUint value.length ++ value

/-- A list preceded by its length. -/
def writeList {α : Type} (serialize : α → Bytes) (items : List α) : Bytes :=
  writeVarUint items.length ++ items.flatMap serialize

@[simp] theorem Uint256.toArray_length (hash : Uint256) : hash.toArray.length = 32 := by
  simp [toArray]

@[simp] theorem writeUint32_length (value : UInt32) : (writeUint32 value).length = 4 := by
  simp [writeUint32]

theorem Uint256.toArray_inj {first second : Uint256} (same : first.toArray = second.toArray) :
    first = second := by
  have := littleEndian_inj same
  have hfirst := first.isLt
  have hsecond := second.isLt
  apply BitVec.eq_of_toNat_eq
  omega

theorem writeUint32_inj {first second : UInt32} (same : writeUint32 first = writeUint32 second) :
    first = second := by
  have := littleEndian_inj same
  have hfirst := first.toNat_lt
  have hsecond := second.toNat_lt
  apply UInt32.toNat_inj.mp
  omega

/-! ## Cryptographic primitives -/

/-- The functions of the standard library and of the elliptic-curve code that
the ledger only calls. Nothing is assumed about them here. -/
structure Primitives where
  sha1 : Bytes → Bytes
  sha256 : Bytes → Uint256
  ripemd160 : Bytes → Uint160
  /-- `Uint160.ToAddress`: base58 with a checksum. -/
  toAddress : Uint160 → Bytes
  /-- `ICrypto.VerifySignature` on a message, a signature and an encoded key;
  `none` when the call panics. -/
  verifySignature : Bytes → Bytes → Bytes → Option Bool
  /-- The byte stored behind the end of a slice, when the slice has spare capacity. -/
  spareByte : Bytes → Option UInt8

namespace Primitives

variable (crypto : Primitives)

/-- SHA-256 applied twice. -/
def doubleSha256 (data : Bytes) : Uint256 := crypto.sha256 (crypto.sha256 data).toArray

/-- `ToCodeHash`: the program hash of a script. -/
def toCodeHash (code : Bytes) : Uint160 := crypto.ripemd160 (crypto.sha256 code).toArray

/-- A polynomial hash, for running the model on concrete inputs. -/
def polynomialHash (bits : Nat) (data : Bytes) : Nat :=
  data.foldl (fun accumulator byte => (accumulator * 257 + byte.toNat + 1) % 2 ^ bits) 7

/-- Concrete primitives: polynomial hashes, and no signature is valid. -/
def polynomial : Primitives where
  sha1 data := littleEndian 20 (polynomialHash 160 data)
  sha256 data := BitVec.ofNat 256 (polynomialHash 200 data)
  ripemd160 data := BitVec.ofNat 160 (polynomialHash 160 data)
  toAddress hash := hash.toArray
  verifySignature _ _ _ := some false
  spareByte _ := none

end Primitives

end DnaPow.Common
