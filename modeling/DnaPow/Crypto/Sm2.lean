import DnaPow.Std.Action
import DnaPow.Std.BigEndian
import DnaPow.Std.Blocks
import DnaPow.Std.PowerMod

/-!
# SM2 signatures

Signing and verifying over an arbitrary group with a point of prime order, and the packing of the
two halves of a signature into 64 bytes. The verification computes the point of the nonce again;
the packing needs halves of at most 32 bytes.
-/

namespace DnaPow.Crypto.Sm2

open DnaPow.Std

/-- What `Sign` and `Verify` use of a curve: a point `G` of prime order `N`, the first coordinate,
and the hash of the data together with the public key. -/
structure Scheme (Point : Type) [AddCommGroup Point] where
  N : Nat
  prime : N.Prime
  G : Point
  order : addOrderOf G = N
  x : Point → Nat
  hash : Point → Bytes → Bytes

inductive SignError where
  | randFieldElement
  deriving DecidableEq, Repr

inductive VerifyError where
  | range
  | failed
  | length
  deriving DecidableEq, Repr

/-- `ModInverse`, which gives nil when there is no inverse. -/
def modInverse (g n : Nat) : Option Nat :=
  if Nat.gcd g n = 1 then some (Nat.gcdA g n % n).toNat else none

namespace Scheme

variable {Point : Type} [AddCommGroup Point] (scheme : Scheme Point)

/-- `randFieldElement` on the bytes that were read. -/
def randFieldElement (b : Bytes) : Nat := ofBigEndian b % (scheme.N - 2) + 1

/-- The loops of `Sign`, for the random bytes that its rounds read. -/
def signLoop (D e : Nat) : List Bytes → Outcome SignError (Nat × Nat)
  | [] => .error .randFieldElement
  | b :: draws =>
      let k := scheme.randFieldElement b
      let r := (scheme.x (k • scheme.G) + e) % scheme.N
      -- The inner loop goes on unless one of its two tests succeeds.
      if r = 0 ∧ r + k ≠ scheme.N then signLoop D e draws
      else
        match modInverse (D + 1) scheme.N with
        | none => .panic
        | some d1Inv =>
            let s := (((k : Int) - D * r) * d1Inv % scheme.N).toNat
            if s ≠ 0 then .ok (r, s) else signLoop D e draws

/-- `sm2.Sign`. -/
def sign (priKey data : Bytes) (draws : List Bytes) : Outcome SignError (Nat × Nat) :=
  let D := ofBigEndian priKey
  let hash := scheme.hash (D • scheme.G) data
  scheme.signLoop D (ofBigEndian hash) draws

/-- `sm2.Verify`. -/
def verify (publicKey : Point) (data : Bytes) (r s : Nat) : Outcome VerifyError Unit :=
  if r = 0 ∨ s = 0 then .error .range
  else if r ≥ scheme.N ∨ s ≥ scheme.N then .error .range
  else
    let t := (r + s) % scheme.N
    let x := scheme.x (s • scheme.G + t • publicKey)
    let e := ofBigEndian (scheme.hash publicKey data)
    if (x + e) % scheme.N = r then .ok () else .error .failed

end Scheme

/-! ## Packing -/

def signRLen : Nat := 32

def signatureLen : Nat := 64

/-- The signature of `crypto.Sign`. A half that is too long has no place to start at. -/
def pack (r s : Nat) : Outcome SignError Bytes :=
  let rBytes := minimalBytes r
  let sBytes := minimalBytes s
  if rBytes.length > signRLen ∨ sBytes.length > signatureLen then .panic
  else
    let signature := (copyAt (List.replicate signatureLen 0) (signRLen - rBytes.length) rBytes).1
    .ok (copyAt signature (signatureLen - sBytes.length) sBytes).1

/-- The two halves that `crypto.Verify` takes out of a signature. -/
def unpack (signature : Bytes) : Outcome VerifyError (Nat × Nat) :=
  if signature.length ≠ signatureLen then .error .length
  else .ok (ofBigEndian (signature.take (signature.length / 2)),
    ofBigEndian (signature.drop (signature.length / 2)))

/-! ## The point of the nonce -/

section Signing

variable {Point : Type} [AddCommGroup Point] {scheme : Scheme Point} {D e r s : Nat}

theorem modInverse_of_lt {g n : Nat} (prime : n.Prime) (positive : g ≠ 0) (below : g < n) :
    ∃ inverse, modInverse g n = some inverse ∧ (inverse : ZMod n) * g = 1 := by
  have coprime : Nat.gcd g n = 1 := (Nat.coprime_of_lt_prime positive below prime).symm
  refine ⟨_, if_pos coprime, ?_⟩
  have bezout := congrArg (Int.cast : Int → ZMod n) (Nat.gcd_eq_gcd_ab g n)
  rw [coprime] at bezout
  push_cast at bezout
  rw [toNat_emod_cast prime.pos, mul_comm]
  simpa using bezout.symm

/-- A nonce is less than the order. -/
theorem randFieldElement_lt (large : 3 ≤ scheme.N) (b : Bytes) :
    scheme.randFieldElement b < scheme.N := by
  have reduced : ofBigEndian b % (scheme.N - 2) < scheme.N - 2 := Nat.mod_lt _ (by omega)
  rw [Scheme.randFieldElement]
  omega

/-- What a round of `Sign` has computed when it ends the loop. -/
structure Signed (scheme : Scheme Point) (D e r s : Nat) : Prop where
  r_pos : r ≠ 0
  r_lt : r < scheme.N
  s_pos : s ≠ 0
  s_lt : s < scheme.N
  nonce : ∃ k : Nat, r = (scheme.x (k • scheme.G) + e) % scheme.N ∧
    (s : ZMod scheme.N) * (D + 1) = k - D * r

theorem signLoop_signed (positive : 1 ≤ D) (below : D ≤ scheme.N - 2) {draws : List Bytes}
    (returned : scheme.signLoop D e draws = .ok (r, s)) : Signed scheme D e r s := by
  have pos := scheme.prime.pos
  obtain ⟨d1Inv, inverse, product⟩ :=
    modInverse_of_lt scheme.prime (show D + 1 ≠ 0 by omega) (by omega)
  induction draws with
  | nil => cases returned
  | cons b draws ih =>
    rw [Scheme.signLoop] at returned
    simp only [inverse] at returned
    split_ifs at returned with again nonzero
    · exact ih returned
    · -- The second test of the inner loop never succeeds, as a nonce is less than `N`.
      cases returned
      have nonce : scheme.randFieldElement b < scheme.N := randFieldElement_lt (by omega) b
      refine ⟨fun zero => again ⟨zero, by omega⟩, Nat.mod_lt _ pos, nonzero,
        toNat_emod_lt pos _, scheme.randFieldElement b, rfl, ?_⟩
      rw [toNat_emod_cast pos, Int.cast_mul, mul_assoc, Int.cast_natCast, ← Nat.cast_one,
        ← Nat.cast_add, product, mul_one]
      simp only [Int.cast_sub, Int.cast_mul, Int.cast_natCast]
    · exact ih returned

/-- The verification comes back to the point of the nonce. -/
theorem Signed.point (signed : Signed scheme D e r s) :
    ∃ k : Nat, r = (scheme.x (k • scheme.G) + e) % scheme.N ∧
      s • scheme.G + ((r + s) % scheme.N) • D • scheme.G = k • scheme.G := by
  obtain ⟨k, first, second⟩ := signed.nonce
  refine ⟨k, first, ?_⟩
  rw [← mul_nsmul', ← add_nsmul, nsmul_eq_nsmul_iff_modEq, scheme.order,
    ← ZMod.natCast_eq_natCast_iff]
  push_cast [ZMod.natCast_mod]
  linear_combination second

/-- `Verify` accepts what `Sign` returns. -/
theorem Signed.verify {data : Bytes}
    (signed : Signed scheme D (ofBigEndian (scheme.hash (D • scheme.G) data)) r s) :
    scheme.verify (D • scheme.G) data r s = .ok () := by
  obtain ⟨k, first, same⟩ := signed.point
  rw [Scheme.verify, if_neg (not_or.mpr ⟨signed.r_pos, signed.s_pos⟩),
    if_neg (not_or.mpr ⟨Nat.not_le.mpr signed.r_lt, Nat.not_le.mpr signed.s_lt⟩)]
  dsimp only
  rw [same, ← first, if_pos rfl]

/-! ## The two halves -/

/-- Halves of at most 32 bytes are packed into their places. -/
theorem pack_eq (rSmall : r < 256 ^ 32) (sSmall : s < 256 ^ 32) :
    pack r s = .ok (bigEndian 32 r ++ bigEndian 32 s) := by
  have rFits := byteLength_le_iff.mpr rSmall
  have sFits := byteLength_le_iff.mpr sSmall
  have zeros : ∀ count, List.drop count (List.replicate 64 (0 : UInt8)) =
      List.replicate (64 - count) 0 := fun count => List.drop_replicate
  have fits : ¬ (byteLength r > 32 ∨ byteLength s > 64) := by omega
  have first : (copyAt (List.replicate 64 0) (32 - byteLength r) (minimalBytes r)).1 =
      bigEndian 32 r ++ List.replicate 32 0 := by
    rw [copyAt_of_fits (by simp; omega), ← replicate_append_minimalBytes rSmall, zeros,
      length_minimalBytes, List.take_replicate, Nat.min_eq_left (by omega),
      show 64 - (32 - byteLength r + byteLength r) = 32 by omega]
  have second : (copyAt (bigEndian 32 r ++ List.replicate 32 0) (64 - byteLength s)
      (minimalBytes s)).1 = bigEndian 32 r ++ bigEndian 32 s := by
    rw [copyAt_of_fits (by simp; omega), ← replicate_append_minimalBytes sSmall,
      length_minimalBytes, List.take_append, bigEndian_length, List.take_replicate,
      List.take_of_length_le (by simp; omega), List.drop_eq_nil_of_le (by simp; omega),
      show min (64 - byteLength s - 32) 32 = 32 - byteLength s by omega]
    simp
  simp only [pack, signRLen, signatureLen, length_minimalBytes, if_neg fits, first, second]

theorem unpack_append (rSmall : r < 256 ^ 32) (sSmall : s < 256 ^ 32) :
    unpack (bigEndian 32 r ++ bigEndian 32 s) = .ok (r, s) := by
  have length : (bigEndian 32 r ++ bigEndian 32 s).length = signatureLen := by
    simp [signatureLen]
  have half : (bigEndian 32 r ++ bigEndian 32 s).length / 2 = (bigEndian 32 r).length := by
    simp
  rw [unpack, if_neg (not_not.mpr length), half, List.take_left, List.drop_left,
    ofBigEndian_bigEndian rSmall, ofBigEndian_bigEndian sSmall]

end Signing

/-- What `Sign` returns is accepted by `Verify`, and preserved by the packing where the order of
the group has no more than 256 bits. -/
theorem sign_verifies {Point : Type} [AddCommGroup Point] (scheme : Scheme Point)
    (priKey data : Bytes) (draws : List Bytes) (r s : Nat) (positive : 1 ≤ ofBigEndian priKey)
    (below : ofBigEndian priKey ≤ scheme.N - 2)
    (returned : scheme.sign priKey data draws = .ok (r, s)) :
    scheme.verify (ofBigEndian priKey • scheme.G) data r s = .ok () ∧
      (scheme.N ≤ 2 ^ 256 → ∃ signature, pack r s = .ok signature ∧
        signature.length = signatureLen ∧ unpack signature = .ok (r, s)) := by
  have signed := signLoop_signed positive below returned
  refine ⟨signed.verify, fun narrow => ?_⟩
  have rSmall : r < 256 ^ 32 := Nat.lt_of_lt_of_le signed.r_lt narrow
  have sSmall : s < 256 ^ 32 := Nat.lt_of_lt_of_le signed.s_lt narrow
  exact ⟨_, pack_eq rSmall sSmall, by simp [signatureLen], unpack_append rSmall sSmall⟩

/-- A group of seven elements. -/
def smallScheme : Scheme (ZMod 7) where
  N := 7
  prime := by decide
  G := 1
  order := ZMod.addOrderOf_one 7
  x := ZMod.val
  hash _ data := data

/-- The second half is zero in the first round. -/
theorem sign_verifies_small :
    smallScheme.sign [2] [3] [[0], [1]] = .ok (5, 2) ∧
      smallScheme.verify (ofBigEndian [2] • smallScheme.G) [3] 5 2 = .ok () ∧
      ∃ signature, pack 5 2 = .ok signature ∧ signature.length = signatureLen ∧
        unpack signature = .ok (5, 2) := by
  have returned : smallScheme.sign [2] [3] [[0], [1]] = .ok (5, 2) := by decide +kernel
  have verified := sign_verifies smallScheme [2] [3] [[0], [1]] 5 2 (by decide) (by decide) returned
  exact ⟨returned, verified.1, verified.2 (by decide)⟩

/-! ## Wide groups -/

/-- A prime of 278 bits. -/
def wideOrder : Nat := 3 * 2 ^ 138 * 2 ^ 138 + 1

theorem prime_wideOrder : wideOrder.Prime := by
  refine prime_of_powMod 19 (3 :: List.replicate 276 2) (by decide +kernel) ?_ (by decide +kernel)
    (by decide +kernel) (by decide +kernel)
  intro q member
  rcases List.mem_cons.mp member with rfl | two
  · exact Nat.prime_three
  · rw [List.eq_of_mem_replicate two]
    exact Nat.prime_two

/-- A cyclic group of this order in which the first coordinates are large. -/
def wideScheme : Scheme (ZMod wideOrder) where
  N := wideOrder
  prime := prime_wideOrder
  G := 1
  order := ZMod.addOrderOf_one wideOrder
  x _ := 2 ^ 256
  hash _ _ := []

/-- The first half of this signature has 33 bytes. -/
theorem pack_wideScheme : ∃ r s, wideScheme.sign [1] [] [[0]] = .ok (r, s) ∧ pack r s = .panic :=
  ⟨2 ^ 256, 3 * 2 ^ 137 * 2 ^ 138 + 1 - 2 ^ 255, by decide +kernel, by decide +kernel⟩

end DnaPow.Crypto.Sm2
