import DnaPow.Std.Action
import DnaPow.Std.Blocks
import DnaPow.Std.Bytes

/-!
# The streaming interface of SM3

`Write` compresses whole blocks and keeps what is left over in a buffer. `Holds` says which
bytes have been written to a digest, and everything `checkSum` computes is determined by them.
The block compression is a parameter.
-/

namespace DnaPow.Crypto.Sm3

open DnaPow.Std

def chunk : Nat := 64

/-- The state of the compression, `[8]uint32`. -/
abbrev Words := Vector UInt32 8

def init : Words :=
  #v[0x7380166F, 0x4914B2B9, 0x172442D7, 0xDA8A0600, 0xA96F30BC, 0x163138AA, 0xE38DEE4D, 0xB0FB0E4E]

/-- `digest`. The array `x` has `chunk` bytes, of which the first `nx` are waiting. -/
structure Digest where
  h : Words
  x : Bytes
  nx : Nat
  len : UInt64
  deriving DecidableEq

/-- A new digest after `Reset`. -/
def Digest.new : Digest := ⟨init, List.replicate chunk 0, 0, 0⟩

/-- The bytes of `len`, most significant first. -/
def lengthBytes (len : UInt64) : Bytes :=
  (List.range 8).map fun i => (len >>> UInt64.ofNat (56 - 8 * i)).toUInt8

/-- The number of bytes that `checkSum` takes from `tmp` to pad. -/
def paddingLength (len : UInt64) : Nat :=
  if len % 64 < 56 then (56 - len % 64).toNat else (64 + 56 - len % 64).toNat

/-- The array `tmp` at first. -/
def paddingBytes : Bytes := 0x80 :: List.replicate 63 0

/-- The bytes of the result, most significant first in each word. -/
def wordBytes (h : Words) : Bytes :=
  h.toList.flatMap fun s : UInt32 =>
    [(s >>> 24).toUInt8, (s >>> 16).toUInt8, (s >>> 8).toUInt8, s.toUInt8]

section Stream

variable (compress : Words → Bytes → Words)

/-- `block`, which goes on while `chunk` bytes are left. -/
def block (h : Words) (p : Bytes) : Words := overBlocks chunk compress h p

namespace Digest

/-- The first part of `Write`: top up a buffer that is in use. -/
def topUp (d : Digest) (p : Bytes) : Digest × Bytes :=
  if d.nx > 0 then
    let (x, n) := copyAt d.x d.nx p
    if d.nx + n = chunk then ({ d with h := block compress d.h x, x := x, nx := 0 }, p.drop n)
    else ({ d with x := x, nx := d.nx + n }, p.drop n)
  else (d, p)

/-- The second part of `Write`: compress the whole blocks. -/
def bulk (d : Digest) (p : Bytes) : Digest × Bytes :=
  if p.length ≥ chunk then
    let n := p.length - p.length % chunk
    ({ d with h := block compress d.h (p.take n) }, p.drop n)
  else (d, p)

/-- The last part of `Write`: keep what is left over. -/
def keep (d : Digest) (p : Bytes) : Digest :=
  if p.length > 0 then
    let (x, n) := copyAt d.x 0 p
    { d with x := x, nx := n }
  else d

/-- `Write`, with the number of bytes it reports. -/
def write (d : Digest) (p : Bytes) : Nat × Digest :=
  let (d₁, p₁) := topUp compress { d with len := d.len + UInt64.ofNat p.length } p
  let (d₂, p₂) := d₁.bulk compress p₁
  (p.length, d₂.keep p₂)

/-- `checkSum`. -/
def checkSum (d : Digest) : Outcome Empty Bytes :=
  let padded := (d.write compress (paddingBytes.take (paddingLength d.len))).2
  let final := (padded.write compress (lengthBytes (d.len <<< 3))).2
  if final.nx ≠ 0 then .panic else .ok (wordBytes final.h)

/-- The method `Sum`, which works on a copy. -/
def sum (d : Digest) (before : Bytes) : Outcome Empty Bytes := do
  let hash ← d.checkSum compress
  return before ++ hash

end Digest

/-- The function `Sum`. -/
def sum (data : Bytes) : Outcome Empty Bytes :=
  (Digest.new.write compress data).2.checkSum compress

/-- A call on a digest. -/
inductive Call where
  | write (p : Bytes)
  | sum (before : Bytes)

/-- What a call returns. -/
inductive Reply where
  | written (nn : Nat)
  | summed (bytes : Bytes)

/-- The replies to a sequence of calls. -/
def replies (d : Digest) : List Call → Outcome Empty (List Reply)
  | [] => return []
  | .write p :: calls => do
      let written := d.write compress p
      return .written written.1 :: (← replies written.2 calls)
  | .sum before :: calls => do
      let bytes ← d.sum compress before
      return .summed bytes :: (← replies d calls)

end Stream

/-- The replies that a hash function asks for, where `data` has been written so far. -/
def expected (hash : Bytes → Bytes) (data : Bytes) : List Call → List Reply
  | [] => []
  | .write p :: calls => .written p.length :: expected hash (data ++ p) calls
  | .sum before :: calls => .summed (before ++ hash data) :: expected hash data calls

/-! ## What a digest holds -/

section Stream

variable {compress : Words → Bytes → Words} {d : Digest} {data p : Bytes}

/-- The blocks of `data` are compressed, and the rest waits in the buffer. -/
structure Buffers (compress : Words → Bytes → Words) (d : Digest) (data : Bytes) : Prop where
  size : d.x.length = chunk
  room : d.nx < chunk
  split : ∃ whole, chunk ∣ whole.length ∧ d.h = block compress init whole ∧
    data = whole ++ d.x.take d.nx

/-- The bytes written to the digest are `data`. -/
structure Holds (compress : Words → Bytes → Words) (d : Digest) (data : Bytes) : Prop where
  buffers : Buffers compress d data
  len : d.len = UInt64.ofNat data.length

theorem block_append (h : Words) {whole : Bytes} (aligned : chunk ∣ whole.length) (rest : Bytes) :
    block compress h (whole ++ rest) = block compress (block compress h whole) rest :=
  overBlocks_append h (by decide) aligned

theorem holds_new : Holds compress Digest.new [] := by
  refine ⟨⟨by decide, by decide, [], by decide, ?_, rfl⟩, rfl⟩
  exact (overBlocks_of_lt init (by decide)).symm

section

variable (buffers : Buffers compress d data)
include buffers

/-- The waiting bytes are those behind the last whole block. -/
theorem Buffers.nx_eq : d.nx = data.length % chunk := by
  obtain ⟨size, room, whole, ⟨count, aligned⟩, -, rfl⟩ := buffers
  rw [List.length_append, List.length_take, size, Nat.min_eq_left (Nat.le_of_lt room), aligned,
    Nat.mul_add_mod, Nat.mod_eq_of_lt room]

/-- With an empty buffer, all the bytes are compressed. -/
theorem Buffers.h_eq (empty : d.nx = 0) :
    d.h = block compress init data := by
  obtain ⟨-, -, whole, -, compressed, rfl⟩ := buffers
  rw [compressed, empty, List.take_zero, List.append_nil]

/-- Topping up uses all the bytes or empties the buffer. -/
theorem Buffers.topUp (p : Bytes) :
    ∃ used, p = used ++ (d.topUp compress p).2 ∧
      Buffers compress (d.topUp compress p).1 (data ++ used) ∧
      ((d.topUp compress p).1.nx = 0 ∨ (d.topUp compress p).2 = []) := by
  obtain ⟨size, room, whole, aligned, compressed, rfl⟩ := buffers
  have inside : d.nx ≤ d.x.length := by omega
  have length := copyAt_length inside p
  have filled := copyAt_take inside p
  rw [Digest.topUp]
  split
  case isTrue inUse =>
    refine ⟨p.take (copyAt d.x d.nx p).2, ?_⟩
    dsimp only
    split
    case isTrue full =>
      rw [full, List.take_of_length_le (by omega)] at filled
      refine ⟨(List.take_append_drop _ p).symm, ⟨by rw [length, size], Nat.zero_lt_succ _, ?_⟩,
        .inl rfl⟩
      refine ⟨whole ++ (copyAt d.x d.nx p).1, ?_, ?_, ?_⟩
      · rw [List.length_append, length, size]
        exact (Nat.dvd_add_iff_left (Nat.dvd_refl _)).mp aligned
      · rw [block_append _ aligned, compressed]
      · rw [List.take_zero, List.append_nil, filled, List.append_assoc]
    case isFalse partly =>
      -- There was room for all the bytes.
      have all : (copyAt d.x d.nx p).2 = p.length := by
        simp only [copyAt] at partly ⊢
        omega
      refine ⟨(List.take_append_drop _ p).symm, ⟨by rw [length, size], ?_, ?_⟩, .inr ?_⟩
      · have fits : (copyAt d.x d.nx p).2 ≤ d.x.length - d.nx := Nat.min_le_left _ _
        dsimp only
        omega
      · exact ⟨whole, aligned, compressed, by rw [filled, List.append_assoc]⟩
      · rw [all, List.drop_length]
  case isFalse unused =>
    refine ⟨[], rfl, ⟨size, room, whole, aligned, compressed, ?_⟩,
      .inl (Nat.eq_zero_of_not_pos unused)⟩
    rw [List.append_nil]

theorem Buffers.bulk (empty : d.nx = 0) (p : Bytes) :
    ∃ used, p = used ++ (d.bulk compress p).2 ∧
      Buffers compress (d.bulk compress p).1 (data ++ used) ∧
      (d.bulk compress p).1.nx = 0 ∧ (d.bulk compress p).2.length < chunk := by
  obtain ⟨size, room, whole, aligned, compressed, rfl⟩ := buffers
  rw [Digest.bulk]
  split
  case isTrue long =>
    refine ⟨p.take (p.length - p.length % chunk), (List.take_append_drop _ p).symm,
      ⟨size, room, whole ++ p.take (p.length - p.length % chunk), ?_, ?_, ?_⟩, empty, ?_⟩
    · rw [List.length_append, List.length_take, Nat.min_eq_left (Nat.sub_le _ _)]
      exact Nat.dvd_add aligned (Nat.dvd_sub_mod _)
    · rw [block_append _ aligned, compressed]
    · simp only [empty, List.take_zero, List.append_nil]
    · have below : p.length % chunk < chunk := Nat.mod_lt _ (by decide)
      have fewer : p.length % chunk ≤ p.length := Nat.mod_le _ _
      rw [List.length_drop]
      omega
  case isFalse short =>
    refine ⟨[], rfl, ⟨size, room, whole, aligned, compressed, ?_⟩, empty, Nat.lt_of_not_ge short⟩
    rw [List.append_nil]

theorem Buffers.keep (empty : d.nx = 0)
    (short : p.length < chunk) : Buffers compress (d.keep p) (data ++ p) := by
  obtain ⟨size, room, whole, aligned, compressed, rfl⟩ := buffers
  rw [Digest.keep]
  split
  case isTrue some =>
    have all : (copyAt d.x 0 p).2 = p.length := by
      simp only [copyAt]
      omega
    have filled := copyAt_take (Nat.zero_le d.x.length) p
    rw [all, Nat.zero_add, List.take_zero, List.nil_append, List.take_length] at filled
    dsimp only
    rw [all]
    refine ⟨by rw [copyAt_length (Nat.zero_le _), size], short, whole, aligned, compressed, ?_⟩
    rw [filled, empty, List.take_zero, List.append_nil]
  case isFalse none =>
    obtain rfl : p = [] := List.eq_nil_of_length_eq_zero (by omega)
    exact ⟨size, room, whole, aligned, compressed, List.append_nil _⟩

/-- The parts of `Write` in a row. -/
theorem Buffers.write (p : Bytes) :
    Buffers compress (d.write compress p).2 (data ++ p) := by
  have counted : Buffers compress { d with len := d.len + UInt64.ofNat p.length } data :=
    ⟨buffers.size, buffers.room, buffers.split⟩
  obtain ⟨used, split, after, emptied⟩ := counted.topUp p
  rw [Digest.write]
  dsimp only
  generalize Digest.topUp compress _ p = topped at split after emptied
  rcases emptied with empty | done
  · obtain ⟨more, rest, compressed, stillEmpty, short⟩ := after.bulk empty topped.2
    have kept := compressed.keep stillEmpty short
    rwa [List.append_assoc, List.append_assoc, ← rest, ← split] at kept
  · rw [done, List.append_nil] at split
    rw [done, split]
    exact after

end

theorem Holds.write (holds : Holds compress d data) (p : Bytes) :
    Holds compress (d.write compress p).2 (data ++ p) := by
  refine ⟨holds.buffers.write p, ?_⟩
  have len : (d.write compress p).2.len = d.len + UInt64.ofNat p.length := by
    simp only [Digest.write, Digest.topUp, Digest.bulk, Digest.keep]
    split_ifs <;> rfl
  rw [len, holds.len, List.length_append, UInt64.ofNat_add]

/-! ## Padding -/

/-- The bytes that `checkSum` writes after so many bytes. -/
def padding (length : Nat) : Bytes :=
  paddingBytes.take (paddingLength (UInt64.ofNat length)) ++
    lengthBytes (UInt64.ofNat length <<< 3)

/-- Counting modulo 2⁶⁴ does not change the place within a block. -/
theorem toNat_ofNat_mod (length : Nat) : (UInt64.ofNat length % 64).toNat = length % 64 := by
  rw [UInt64.toNat_mod, UInt64.toNat_ofNat']
  exact Nat.mod_mod_of_dvd length (by decide)

theorem paddingLength_ofNat (length : Nat) : paddingLength (UInt64.ofNat length) =
    if length % 64 < 56 then 56 - length % 64 else 120 - length % 64 := by
  have place := toNat_ofNat_mod length
  have below : length % 64 < 64 := Nat.mod_lt _ (by decide)
  have test : UInt64.ofNat length % 64 < 56 ↔ length % 64 < 56 := by
    rw [UInt64.lt_iff_toNat_lt, place]
    rfl
  rw [paddingLength]
  simp only [test]
  split
  case isTrue early =>
    rw [UInt64.toNat_sub_of_le _ _ (UInt64.le_of_lt (test.mpr early)), place]
    rfl
  case isFalse late =>
    have fits : UInt64.ofNat length % 64 ≤ 64 + 56 := by
      rw [UInt64.le_iff_toNat_le, place]
      exact Nat.le_trans (Nat.le_of_lt below) (by decide)
    rw [UInt64.toNat_sub_of_le _ _ fits, place]
    rfl

/-- The padded bytes are whole blocks, also where the padding goes on into a second block. -/
theorem length_padded (data : Bytes) : (data ++ padding data.length).length % chunk = 0 := by
  have padding : (padding data.length).length =
      min (paddingLength (UInt64.ofNat data.length)) 64 + 8 := by
    simp [Sm3.padding, paddingBytes, lengthBytes]
  rw [List.length_append, padding, paddingLength_ofNat, chunk]
  split <;> omega

/-- The hash of a byte string, by the bytes that are compressed for it. -/
def hash (compress : Words → Bytes → Words) (data : Bytes) : Bytes :=
  wordBytes (block compress init (data ++ padding data.length))

/-- `checkSum` does not panic, and its result depends on the bytes written only. -/
theorem Holds.checkSum (holds : Holds compress d data) :
    d.checkSum compress = .ok (hash compress data) := by
  have padded := ((holds.write (paddingBytes.take (paddingLength d.len))).write
    (lengthBytes (d.len <<< 3))).buffers
  have bytes : data ++ paddingBytes.take (paddingLength d.len) ++ lengthBytes (d.len <<< 3) =
      data ++ padding data.length := by
    rw [List.append_assoc, holds.len, padding]
  rw [bytes] at padded
  have empty := padded.nx_eq.trans (length_padded data)
  rw [Digest.checkSum, if_neg (not_not.mpr empty), padded.h_eq empty, hash]

theorem sum_eq (data : Bytes) : sum compress data = .ok (hash compress data) :=
  (holds_new.write data).checkSum

/-! ## Sequences of calls -/

/-- What a digest answers from a state that holds `data` on. -/
theorem Holds.replies (holds : Holds compress d data) (calls : List Call) :
    replies compress d calls = .ok (expected (hash compress) data calls) := by
  induction calls generalizing d data with
  | nil => rfl
  | cons call calls ih =>
    cases call with
    | write p =>
      rw [Sm3.replies, ih (holds.write p)]
      rfl
    | sum before =>
      rw [Sm3.replies, Digest.sum, holds.checkSum, ih holds]
      rfl

/-- `Sum` hashes every byte string, and a digest answers every sequence of `Write` and `Sum`
calls by the hash of the bytes written before, however they are split and wherever `Sum` has been
called. -/
theorem replies_new (compress : Words → Bytes → Words) :
    ∃ hash : Bytes → Bytes, (∀ data, sum compress data = .ok (hash data)) ∧
      ∀ calls, replies compress Digest.new calls = .ok (expected hash [] calls) :=
  ⟨hash compress, sum_eq, fun calls => holds_new.replies calls⟩

end Stream

end DnaPow.Crypto.Sm3
