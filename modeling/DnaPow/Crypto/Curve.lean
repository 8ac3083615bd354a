import DnaPow.Std.PowerMod
import Mathlib.Tactic.NormNum.Prime

/-!
# The curves

Curves `y² = x³ - 3x + B` over a prime of 256 bits that leaves 3 when divided by 4, as the two
curves of the repository are. The parameters carry what is known about the prime.
-/

namespace DnaPow.Crypto

open DnaPow.Std

/-- `elliptic.CurveParams`, as far as points are coded with them. -/
structure CurveParams where
  P : Nat
  B : Nat
  prime : P.Prime
  least : 2 ^ 255 ≤ P
  most : P < 2 ^ 256
  residue : P % 4 = 3

namespace CurveParams

instance (curve : CurveParams) : Fact curve.P.Prime := ⟨curve.prime⟩

theorem pos (curve : CurveParams) : 0 < curve.P := curve.prime.pos

/-- The equation of the curve. -/
def OnCurve (curve : CurveParams) (x y : Nat) : Prop :=
  (y : Int) ^ 2 ≡ (x : Int) ^ 3 - 3 * x + curve.B [ZMOD curve.P]

instance (curve : CurveParams) (x y : Nat) : Decidable (curve.OnCurve x y) :=
  inferInstanceAs (Decidable (_ % _ = _ % _))

end CurveParams

/-! ## The curve P-256 -/

def p256P : Nat := 2 ^ 256 - 2 ^ 224 + 2 ^ 192 + 2 ^ 96 - 1

/-- The primes that the factors below end in. -/
def smallPrimes : List Nat :=
  [2, 3, 5, 7, 11, 17, 23, 53, 107, 173, 197, 257, 641, 1531, 2411, 3677, 3769, 18169, 65537, 78283,
    490463, 704251, 6700417]

theorem prime_of_mem_smallPrimes : ∀ q ∈ smallPrimes, q.Prime := by
  intro q member
  rw [smallPrimes] at member
  fin_cases member <;> norm_num

/-- The prime by the factors of its predecessor, and so on down to small ones. -/
theorem prime_p256P : p256P.Prime := by
  have only (factors : List Nat) (listed : factors ⊆ smallPrimes) : ∀ q ∈ factors, q.Prime :=
    fun q member => prime_of_mem_smallPrimes q (listed member)
  have first : Nat.Prime 204061199 :=
    prime_of_powMod 11 [2, 11, 23, 107, 3769] (by decide) (only _ (by decide)) (by decide +kernel)
      (by decide +kernel) (by decide +kernel)
  have second : Nat.Prime 34282281433 :=
    prime_of_powMod 17 [204061199, 2, 2, 2, 3, 7] (by decide)
      (List.forall_mem_cons.mpr ⟨first, only _ (by decide)⟩) (by decide +kernel)
      (by decide +kernel) (by decide +kernel)
  have third : Nat.Prime 66417393611 :=
    prime_of_powMod 6 [2, 5, 53, 173, 197, 3677] (by decide) (only _ (by decide))
      (by decide +kernel) (by decide +kernel) (by decide +kernel)
  have fourth : Nat.Prime 11290956913871 :=
    prime_of_powMod 13 [66417393611, 2, 5, 17] (by decide)
      (List.forall_mem_cons.mpr ⟨third, only _ (by decide)⟩) (by decide +kernel)
      (by decide +kernel) (by decide +kernel)
  have fifth : Nat.Prime 46076956964474543 :=
    prime_of_powMod 5 [2, 23, 18169, 78283, 704251] (by decide) (only _ (by decide))
      (by decide +kernel) (by decide +kernel) (by decide +kernel)
  have sixth : Nat.Prime 774023187263532362759620327192479577272145303 :=
    prime_of_powMod 3 [34282281433, 11290956913871, 46076956964474543, 2, 3, 3, 2411] (by decide)
      (List.forall_mem_cons.mpr ⟨second, List.forall_mem_cons.mpr ⟨fourth,
        List.forall_mem_cons.mpr ⟨fifth, only _ (by decide)⟩⟩⟩)
      (by decide +kernel) (by decide +kernel) (by decide +kernel)
  have seventh : Nat.Prime 835945042244614951780389953367877943453916927241 :=
    prime_of_powMod 11 [774023187263532362759620327192479577272145303, 2, 2, 2, 3, 3, 3, 5]
      (by decide) (List.forall_mem_cons.mpr ⟨sixth, only _ (by decide)⟩)
      (by decide +kernel) (by decide +kernel) (by decide +kernel)
  exact prime_of_powMod 6
    [835945042244614951780389953367877943453916927241, 2, 3, 5, 5, 17, 257, 641, 1531, 65537,
      490463, 6700417]
    (by decide +kernel) (List.forall_mem_cons.mpr ⟨seventh, only _ (by decide)⟩)
    (by decide +kernel) (by decide +kernel) (by decide +kernel)

/-- `elliptic.P256`. -/
def p256 : CurveParams where
  P := p256P
  B := 0x5ac635d8aa3a93e7b3ebbd55769886bc651d06b0cc53b0f63bce3c3e27d2604b
  prime := prime_p256P
  least := by decide +kernel
  most := by decide +kernel
  residue := by decide +kernel

end DnaPow.Crypto
