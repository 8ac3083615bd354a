import Mathlib.Data.Vector.Basic
import DnaPow.Common.Reader

/-!
# Message headers

The header that every network message starts with: the magic number of the
network, a command of twelve bytes padded with zeros, the length of the payload
and the first four bytes of the payload's double hash.
-/

namespace DnaPow.Net

open DnaPow.Std Common

def msgCmdLen : Nat := 12

def cmdOffset : Nat := 4

def checksumLen : Nat := 4

def msgHdrLen : Nat := 24

theorem length_take_fill (length : Nat) (bytes : Bytes) :
    ((fill length bytes).take length).length = length := by
  simp only [fill, List.length_take, List.length_append, List.length_replicate]
  omega

/-- An array after `copy` of the given bytes to its start. -/
def copyArray (length : Nat) (bytes : Bytes) : List.Vector UInt8 length :=
  ⟨(fill length bytes).take length, length_take_fill length bytes⟩

theorem copyArray_of_length {length : Nat} (array : List.Vector UInt8 length) (rest : Bytes) :
    copyArray length (array.toList ++ rest) = array := by
  apply List.Vector.eq
  simp [copyArray, fill]

/-- `msgHdr`. -/
structure MsgHdr where
  magic : UInt32
  cmd : List.Vector UInt8 msgCmdLen
  length : UInt32
  checksum : List.Vector UInt8 checksumLen
  deriving DecidableEq

namespace MsgHdr

/-- The layout of a header in `encoding/binary`. -/
def ofBytes (raw : Bytes) : MsgHdr where
  magic := UInt32.ofNat (ofLittleEndian (raw.take 4))
  cmd := copyArray msgCmdLen (raw.drop cmdOffset)
  length := UInt32.ofNat (ofLittleEndian ((raw.drop 16).take 4))
  checksum := copyArray checksumLen (raw.drop 20)

/-- `binary.Read` into a header. -/
def binaryRead : Reader MsgHdr := do
  return ofBytes (← ioReadFull msgHdrLen)

/-- `msgHdr.Deserialization`; the slice expression needs a whole header. -/
def deserialization (p : Bytes) : Outcome DecodeError MsgHdr :=
  if p.length < msgHdrLen then .panic else (binaryRead.run (p.take msgHdrLen)).1

theorem deserialization_of_length {p : Bytes} (whole : msgHdrLen ≤ p.length) :
    deserialization p = .ok (ofBytes (p.take msgHdrLen)) := by
  have length : (p.take msgHdrLen).length = msgHdrLen := by simp [whole]
  have read := ((ioReadFull_decodes length).map ofBytes) []
  rw [List.append_nil] at read
  rw [deserialization, if_neg (by omega), binaryRead, read]

def serialization (hdr : MsgHdr) : Bytes :=
  writeUint32 hdr.magic ++ hdr.cmd.toList ++ writeUint32 hdr.length ++ hdr.checksum.toList

@[simp] theorem length_serialization (hdr : MsgHdr) : hdr.serialization.length = msgHdrLen := by
  simp only [serialization, List.length_append, writeUint32_length, List.Vector.toList_length]
  rfl

/-- A header is read back from its own bytes. -/
theorem ofBytes_serialization (hdr : MsgHdr) : ofBytes hdr.serialization = hdr := by
  have magic : hdr.serialization.take 4 = writeUint32 hdr.magic := by
    rw [serialization, List.append_assoc, List.append_assoc]
    exact List.take_left' (writeUint32_length _)
  have cmd : hdr.serialization.drop 4 =
      hdr.cmd.toList ++ (writeUint32 hdr.length ++ hdr.checksum.toList) := by
    rw [serialization, List.append_assoc, List.append_assoc]
    exact List.drop_left' (writeUint32_length _)
  have length : hdr.serialization.drop 16 = writeUint32 hdr.length ++ hdr.checksum.toList := by
    rw [serialization, List.append_assoc]
    exact List.drop_left' (by
      simp only [List.length_append, writeUint32_length, List.Vector.toList_length]
      rfl)
  have checksum : hdr.serialization.drop 20 = hdr.checksum.toList ++ [] := by
    rw [serialization, List.append_nil]
    exact List.drop_left' (by
      simp only [List.length_append, writeUint32_length, List.Vector.toList_length]
      rfl)
  have number (value : UInt32) : UInt32.ofNat (ofLittleEndian (writeUint32 value)) = value := by
    rw [writeUint32, ofLittleEndian_littleEndian_of_lt value.toNat_lt, UInt32.ofNat_toNat]
  rw [ofBytes, magic, cmdOffset, cmd, length, checksum, List.take_left' (writeUint32_length _),
    number, number, copyArray_of_length, copyArray_of_length]

theorem deserialization_serialization (hdr : MsgHdr) (payload : Bytes) :
    deserialization (hdr.serialization ++ payload) = .ok hdr := by
  rw [deserialization_of_length (by simp), List.take_left' hdr.length_serialization,
    ofBytes_serialization]

end MsgHdr

/-- `ValidMsgHdr`, for the magic number of the configuration; `none` when the
buffer is shorter than a header. -/
def validMsgHdr (magic : UInt32) (buf : Bytes) : Option Bool := do
  let hdr ← (MsgHdr.deserialization buf).toOption
  return hdr.magic = magic

/-- `PayloadLen`. -/
def payloadLen (buf : Bytes) : Option Nat := do
  let hdr ← (MsgHdr.deserialization buf).toOption
  return hdr.length.toNat

end DnaPow.Net
