import Mathlib.FieldTheory.Finite.Basic
import Mathlib.NumberTheory.LucasPrimality

/-!
# Powers modulo a number

Modular powers by squaring, what they say about primality, and square roots modulo a prime that
leaves 3 when divided by 4: there the power `(p + 1) / 4` of a square is a root of it.
-/

namespace DnaPow.Std

variable {modulus : Nat}

/-- The power of an exponent with so many bits. -/
def powBits (modulus : Nat) : Nat → Nat → Nat → Nat
  | 0, _, _ => 1 % modulus
  | bits + 1, base, exponent =>
      let half := powBits modulus bits (base * base % modulus) (exponent / 2)
      if exponent % 2 = 1 then base * half % modulus else half

/-- A power modulo a number. -/
def powMod (base exponent modulus : Nat) : Nat :=
  powBits modulus (exponent.log2 + 1) base exponent

theorem powBits_eq {modulus bits base exponent : Nat} (bound : exponent < 2 ^ bits) :
    powBits modulus bits base exponent = base ^ exponent % modulus := by
  induction bits generalizing base exponent with
  | zero =>
    obtain rfl : exponent = 0 := by simpa using bound
    rfl
  | succ bits ih =>
    have half : exponent / 2 < 2 ^ bits := by
      rw [pow_succ] at bound
      omega
    have square : (base * base % modulus) ^ (exponent / 2) % modulus =
        base ^ (2 * (exponent / 2)) % modulus := by
      rw [← Nat.pow_mod, ← pow_two, ← pow_mul]
    rw [powBits, ih half, square]
    split
    case isTrue odd =>
      rw [Nat.mul_mod_mod, ← pow_succ']
      congr 2
      omega
    case isFalse even =>
      congr 2
      omega

theorem powMod_eq (base exponent modulus : Nat) :
    powMod base exponent modulus = base ^ exponent % modulus :=
  powBits_eq Nat.lt_log2_self

theorem powMod_lt (positive : 0 < modulus) (base exponent : Nat) :
    powMod base exponent modulus < modulus := by
  rw [powMod_eq]
  exact Nat.mod_lt _ positive

/-- Reduced numbers are equal when they are congruent. -/
theorem cast_inj_of_lt {modulus first second : Nat} (left : first < modulus)
    (right : second < modulus) : (first : ZMod modulus) = second ↔ first = second := by
  rw [ZMod.natCast_eq_natCast_iff', Nat.mod_eq_of_lt left, Nat.mod_eq_of_lt right]

/-- A reduced integer as a natural number is the integer modulo the number. -/
theorem toNat_emod_cast (positive : 0 < modulus) (value : Int) :
    ((value % modulus).toNat : ZMod modulus) = (value : ZMod modulus) := by
  have nonzero : (modulus : Int) ≠ 0 := by exact_mod_cast positive.ne'
  rw [← Int.cast_natCast, Int.toNat_of_nonneg (Int.emod_nonneg _ nonzero), ZMod.intCast_mod]

theorem toNat_emod_lt (positive : 0 < modulus) (value : Int) :
    (value % modulus).toNat < modulus := by
  have positive : (0 : Int) < modulus := by exact_mod_cast positive
  rw [Int.toNat_lt (Int.emod_nonneg _ (Int.ne_of_gt positive))]
  exact Int.emod_lt_of_pos _ positive

theorem powMod_cast (base exponent modulus : Nat) :
    (powMod base exponent modulus : ZMod modulus) = (base : ZMod modulus) ^ exponent := by
  rw [powMod_eq, ZMod.natCast_mod, Nat.cast_pow]

/-! ## Primality -/

theorem cast_pow_eq_one_iff {base exponent modulus : Nat} (large : 1 < modulus) :
    (base : ZMod modulus) ^ exponent = 1 ↔ powMod base exponent modulus = 1 := by
  rw [powMod_eq, ← Nat.cast_pow, ← Nat.cast_one, ZMod.natCast_eq_natCast_iff',
    Nat.mod_eq_of_lt large]

/-- A number is prime if an element has the order `p - 1`, whose prime factors are given. -/
theorem prime_of_powMod {p : Nat} (base : Nat) (factors : List Nat) (large : 1 < p)
    (primes : ∀ q ∈ factors, q.Prime) (product : factors.prod = p - 1)
    (returns : powMod base (p - 1) p = 1)
    (notBefore : ∀ q ∈ factors, powMod base ((p - 1) / q) p ≠ 1) : p.Prime := by
  apply lucas_primality p (base : ZMod p) ((cast_pow_eq_one_iff large).mpr returns)
  intro q prime divides early
  rw [← product] at divides
  obtain ⟨factor, member, divides⟩ := (Nat.Prime.prime prime).dvd_prod_iff.mp divides
  obtain rfl := (Nat.prime_dvd_prime_iff_eq prime (primes factor member)).mp divides
  exact notBefore q member ((cast_pow_eq_one_iff large).mp early)

/-! ## Square roots -/

section Roots

variable {p : Nat} [Fact p.Prime]

/-- The power of a square is a root of it. -/
theorem sq_pow_quarter (residue : p % 4 = 3) (y : ZMod p) :
    ((y ^ 2) ^ (p / 4 + 1)) ^ 2 = y ^ 2 := by
  have exponent : 2 * ((p / 4 + 1) * 2) = p + 1 := by omega
  rw [← pow_mul, ← pow_mul, exponent, pow_succ, ZMod.pow_card, pow_two]

end Roots

end DnaPow.Std
