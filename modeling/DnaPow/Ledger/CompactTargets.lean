import DnaPow.Ledger.Retarget
import Mathlib.Order.Bounds.Basic

/-!
# Compact targets

A compact word has an exponent of a byte and a mantissa of 23 bits. `BigToCompact` cuts a number
down to the greatest one that a word can hold: `FillsMantissa` names the shift that leaves a full
mantissa, and both directions of the conversion are read off it.
-/

namespace DnaPow.Ledger

open DnaPow.Std Common Core

/-- Shifted right by so many bytes, the number is a mantissa of at least two bytes. -/
structure FillsMantissa (value shift : Nat) : Prop where
  positive : 1 ≤ shift
  least : 2 ^ 15 ≤ value / 256 ^ shift
  most : value / 256 ^ shift < 2 ^ 23

/-- The numbers that a word with the sign bit clear stands for. -/
def Representable (target : Int) : Prop :=
  ∃ compact : UInt32, compact.toNat / 2 ^ 23 % 2 = 0 ∧ compactToBig compact = target

/-! ## Packing -/

section Pack

variable {value shift : Nat}

theorem exists_fillsMantissa (large : 2 ^ 23 ≤ value) :
    ∃ shift, FillsMantissa value shift ∧ 8 * shift ≤ value.log2 := by
  have nonzero : value ≠ 0 := by omega
  have bits : 23 ≤ value.log2 := (Nat.le_log2 nonzero).mpr large
  have low : 2 ^ value.log2 ≤ value := Nat.log2_self_le nonzero
  have high : value < 2 ^ (value.log2 + 1) := Nat.lt_log2_self
  have power : (256 : Nat) ^ ((value.log2 - 15) / 8) = 2 ^ (8 * ((value.log2 - 15) / 8)) := by
    rw [Nat.pow_mul]
  refine ⟨(value.log2 - 15) / 8, ⟨by omega, ?_, ?_⟩, by omega⟩
  · rw [power, Nat.le_div_iff_mul_le (Nat.two_pow_pos _), ← Nat.pow_add]
    exact Nat.le_trans (Nat.pow_le_pow_right (by decide) (by omega)) low
  · rw [power, Nat.div_lt_iff_lt_mul (Nat.two_pow_pos _), ← Nat.pow_add]
    exact Nat.lt_of_lt_of_le high (Nat.pow_le_pow_right (by decide) (by omega))

/-- Packing a number of at least three bytes. -/
theorem toNat_bigToCompact_of_le {length : Nat} (bytes : byteLength value = length)
    (long : 3 ≤ length) (few : length < 255) (full : value / 256 ^ (length - 3) < 2 ^ 24) :
    (bigToCompact value).toNat =
      if value / 256 ^ (length - 3) < 2 ^ 23 then 2 ^ 24 * length + value / 256 ^ (length - 3)
      else 2 ^ 24 * (length + 1) + value / 256 ^ (length - 3) / 256 := by
  have positive : 0 < value := by
    rw [Nat.pos_iff_ne_zero]
    rintro rfl
    rw [byteLength, if_pos rfl] at bytes
    omega
  have shifted : ((value : Int) / 256 ^ (length - 3)).natAbs = value / 256 ^ (length - 3) := by
    have cast : (value : Int) / 256 ^ (length - 3) = (value / 256 ^ (length - 3) : Nat) := by
      push_cast
      rfl
    rw [cast, Int.natAbs_natCast]
  -- At three bytes the number is its own mantissa, which is the shift by no byte.
  refine toNat_bigToCompact positive bytes few ?_ full
  split
  case isTrue short =>
    obtain rfl : length = 3 := by omega
    simp
  case isFalse => rw [shifted, Nat.mod_eq_of_lt (Nat.lt_trans full (by decide))]

/-- The word that a large number is packed into. -/
theorem FillsMantissa.toNat_bigToCompact (fits : FillsMantissa value shift) (few : shift < 252) :
    (bigToCompact value).toNat = 2 ^ 24 * (shift + 3) + value / 256 ^ shift := by
  obtain ⟨positive, least, most⟩ := fits
  have power : (256 : Nat) ^ shift = 2 ^ (8 * shift) := by rw [Nat.pow_mul]
  have low := least
  have high := most
  rw [power, Nat.le_div_iff_mul_le (Nat.two_pow_pos _), ← Nat.pow_add] at low
  rw [power, Nat.div_lt_iff_lt_mul (Nat.two_pow_pos _), ← Nat.pow_add] at high
  rcases Nat.lt_or_ge (value / 256 ^ shift) (2 ^ 16) with two | three
  · -- One byte more would set the sign bit.
    have below := two
    rw [power, Nat.div_lt_iff_lt_mul (Nat.two_pow_pos _), ← Nat.pow_add] at below
    have bytes : byteLength value = shift + 2 :=
      byteLength_eq (Nat.le_trans (Nat.pow_le_pow_right (by decide) (by omega)) low)
        (Nat.lt_of_lt_of_le below (Nat.pow_le_pow_right (by decide) (by omega)))
    have next : value / 256 ^ (shift + 2 - 3) / 256 = value / 256 ^ shift := by
      rw [Nat.div_div_eq_div_mul, ← Nat.pow_succ, show (shift + 2 - 3).succ = shift by omega]
    rw [toNat_bigToCompact_of_le bytes (by omega) (by omega) (by omega), next, if_neg (by omega)]
  · have above : 2 ^ 16 ≤ value / 256 ^ shift := three
    rw [power, Nat.le_div_iff_mul_le (Nat.two_pow_pos _), ← Nat.pow_add] at above
    have bytes : byteLength value = shift + 3 :=
      byteLength_eq (Nat.le_trans (Nat.pow_le_pow_right (by decide) (by omega)) above)
        (Nat.lt_of_lt_of_le high (Nat.pow_le_pow_right (by decide) (by omega)))
    rw [toNat_bigToCompact_of_le bytes (by omega) (by omega) (by rw [Nat.add_sub_cancel]; omega),
      Nat.add_sub_cancel, if_pos most]

theorem FillsMantissa.compactToBig (fits : FillsMantissa value shift) (few : shift < 252) :
    compactToBig (bigToCompact value) = (value / 256 ^ shift * 256 ^ shift : Nat) := by
  have positive := fits.positive
  rw [compactToBig_of_toNat fits.most (fits.toNat_bigToCompact few), if_neg (by omega),
    Nat.add_sub_cancel]

/-- Cutting off what does not fit changes nothing for the word. -/
theorem FillsMantissa.bigToCompact_cut (fits : FillsMantissa value shift) (few : shift < 252) :
    bigToCompact (value / 256 ^ shift * 256 ^ shift : Nat) = bigToCompact value := by
  have back : value / 256 ^ shift * 256 ^ shift / 256 ^ shift = value / 256 ^ shift :=
    Nat.mul_div_cancel _ (Nat.pow_pos (by decide))
  have cut : FillsMantissa (value / 256 ^ shift * 256 ^ shift) shift :=
    ⟨fits.positive, by rw [back]; exact fits.least, by rw [back]; exact fits.most⟩
  apply UInt32.toNat_inj.mp
  rw [cut.toNat_bigToCompact few, fits.toNat_bigToCompact few, back]

/-! ## The greatest target below a number -/

/-- A word with the sign bit clear stands for a small number, or for a multiple of a power. -/
theorem Representable.cases {target : Int} (representable : Representable target) :
    0 ≤ target ∧ (target < 2 ^ 23 ∨ ∃ mantissa shift : Nat, mantissa < 2 ^ 23 ∧
      target = (mantissa * 256 ^ shift : Nat)) := by
  obtain ⟨compact, sign, rfl⟩ := representable
  have clear : ¬ compact.toNat / 2 ^ 23 % 2 = 1 := by omega
  have small : compact.toNat % 2 ^ 23 < 2 ^ 23 := Nat.mod_lt _ (by decide)
  simp only [Ledger.compactToBig, if_neg clear]
  refine ⟨Int.natCast_nonneg _, ?_⟩
  split
  case isTrue few =>
    left
    have less := Nat.div_le_self (compact.toNat % 2 ^ 23)
      (256 ^ (3 - compact.toNat / 2 ^ 24))
    omega
  case isFalse many => exact .inr ⟨_, _, small, rfl⟩

/-- No multiple that a word can hold lies between a large number and its cut. -/
theorem FillsMantissa.le_cut (fits : FillsMantissa value shift) {mantissa other : Nat}
    (small : mantissa < 2 ^ 23) (below : mantissa * 256 ^ other ≤ value) :
    mantissa * 256 ^ other ≤ value / 256 ^ shift * 256 ^ shift := by
  rcases Nat.lt_or_ge other shift with less | more
  · calc mantissa * 256 ^ other ≤ 2 ^ 23 * 256 ^ other :=
          Nat.mul_le_mul_right _ (Nat.le_of_lt small)
      _ = 2 ^ 15 * 256 ^ (other + 1) := by ring
      _ ≤ 2 ^ 15 * 256 ^ shift := Nat.mul_le_mul_left _ (Nat.pow_le_pow_right (by decide) less)
      _ ≤ value / 256 ^ shift * 256 ^ shift := Nat.mul_le_mul_right _ fits.least
  · obtain ⟨extra, rfl⟩ := Nat.exists_eq_add_of_le more
    have multiple : mantissa * 256 ^ (shift + extra) = mantissa * 256 ^ extra * 256 ^ shift := by ring
    rw [multiple] at below ⊢
    exact Nat.mul_le_mul_right _ ((Nat.le_div_iff_mul_le (Nat.pow_pos (by decide))).mpr below)

theorem representable_of_lt (small : value < 2 ^ 23) : Representable value := by
  have parts : (UInt32.ofNat (2 ^ 24 * 3 + value)).toNat = 2 ^ 24 * 3 + value :=
    UInt32.toNat_ofNat_of_lt' (show 2 ^ 24 * 3 + value < 2 ^ 32 by omega)
  refine ⟨UInt32.ofNat (2 ^ 24 * 3 + value), by rw [parts]; omega, ?_⟩
  rw [compactToBig_of_toNat small parts]
  simp

theorem FillsMantissa.representable (fits : FillsMantissa value shift) (few : shift < 252) :
    Representable (value / 256 ^ shift * 256 ^ shift : Nat) := by
  have parts := fits.toNat_bigToCompact few
  have most := fits.most
  refine ⟨bigToCompact value, ?_, fits.compactToBig few⟩
  generalize value / 256 ^ shift = mantissa at parts most
  omega

end Pack

/-- The word of a number stands for the greatest representable number below, and is its word. -/
structure Truncates (value : Nat) : Prop where
  greatest : IsGreatest {target | Representable target ∧ target ≤ value}
    (compactToBig (bigToCompact value))
  idempotent : bigToCompact (compactToBig (bigToCompact value)) = bigToCompact value

theorem truncates_of_lt {value : Nat} (small : value < 2 ^ 23) : Truncates value := by
  have back : compactToBig (bigToCompact value) = value := by
    rcases Nat.eq_zero_or_pos value with rfl | positive
    · decide
    · exact compactToBig_bigToCompact positive small
  refine ⟨?_, by rw [back]⟩
  rw [back]
  exact ⟨⟨representable_of_lt small, Int.le_refl _⟩, fun target => And.right⟩

theorem FillsMantissa.truncates {value shift : Nat} (fits : FillsMantissa value shift)
    (few : shift < 252) : Truncates value := by
  have positive : 0 < 256 ^ shift := Nat.pow_pos (by decide)
  refine ⟨?_, by rw [fits.compactToBig few, fits.bigToCompact_cut few]⟩
  rw [fits.compactToBig few]
  refine ⟨⟨fits.representable few, ?_⟩, ?_⟩
  · exact Int.ofNat_le.mpr (Nat.div_mul_le_self _ _)
  · rintro target ⟨representable, below⟩
    obtain ⟨-, small | ⟨mantissa, other, small, rfl⟩⟩ := representable.cases
    · have cut : 2 ^ 23 ≤ value / 256 ^ shift * 256 ^ shift := by
        calc 2 ^ 23 = 2 ^ 15 * 256 ^ 1 := by decide
          _ ≤ 2 ^ 15 * 256 ^ shift :=
            Nat.mul_le_mul_left _ (Nat.pow_le_pow_right (by decide) fits.positive)
          _ ≤ value / 256 ^ shift * 256 ^ shift := Nat.mul_le_mul_right _ fits.least
      omega
    · exact Int.ofNat_le.mpr (fits.le_cut small (Int.ofNat_le.mp below))

theorem truncates {value width : Nat} (bound : value < 2 ^ width) (narrow : width ≤ 2000) :
    Truncates value := by
  rcases Nat.lt_or_ge value (2 ^ 23) with small | large
  · exact truncates_of_lt small
  · obtain ⟨shift, fits, few⟩ := exists_fillsMantissa large
    have nonzero : value ≠ 0 := Nat.ne_of_gt (Nat.lt_of_lt_of_le (by decide) large)
    have bits : value.log2 < width := (Nat.log2_lt nonzero).mpr bound
    exact fits.truncates (by omega)

/-! ## The target after a block -/

namespace ChainParams

/-- The limits that all three networks keep to. -/
structure Bounded (params : ChainParams) : Prop where
  targetTimespan : 0 < params.targetTimespan
  adjustmentFactor : 0 ≤ params.adjustmentFactor
  powLimit : 0 ≤ params.powLimit ∧ params.powLimit < 2 ^ 2000
  powLimitBits : compactToBig params.powLimitBits ≤ params.powLimit

theorem bounded_networks : mainNet.Bounded ∧ testNet.Bounded ∧ Ledger.regNet.Bounded := by
  refine ⟨⟨?_, ?_, ?_, ?_⟩, ⟨?_, ?_, ?_, ?_⟩, ⟨?_, ?_, ?_, ?_⟩⟩ <;> decide +kernel

/-- The target after a retarget interval before it is limited and packed. -/
def exactTarget (params : ChainParams) (last first : BlockNode) : Int :=
  compactToBig last.bits * params.adjustedTimespan (last.timestamp - first.timestamp).toNat /
    params.targetTimespan

variable {params : ChainParams}

theorem Bounded.exactTarget_nonneg (bounded : params.Bounded) {last first : BlockNode}
    (positive : 0 ≤ compactToBig last.bits) : 0 ≤ params.exactTarget last first := by
  apply Int.ediv_nonneg _ (Int.le_of_lt bounded.targetTimespan)
  apply Int.mul_nonneg positive
  have least : 0 ≤ params.minRetargetTimespan :=
    Int.tdiv_nonneg (Int.le_of_lt bounded.targetTimespan) bounded.adjustmentFactor
  have most : 0 ≤ params.maxRetargetTimespan :=
    Int.mul_nonneg (Int.le_of_lt bounded.targetTimespan) bounded.adjustmentFactor
  rw [adjustedTimespan_eq]
  split_ifs <;> omega

end ChainParams

/-- The last block ends a retarget interval that begins at the first one. -/
structure RetargetsFrom (params : ChainParams) (nodes : Nodes) (last first : NodeId) : Prop where
  height : (nodes.get last).height ≠ 0
  network : params.regNet = false
  ends : ((nodes.get last).height + 1) % params.blocksPerRetarget = 0
  begins : ((nodes.lineage (some last)).find? fun id => (nodes.get id).height =
    (nodes.get last).height - params.blocksPerRetarget + 1) = some first

section Difficulty

variable {env : Env} {params : ChainParams} {nodes : Nodes} {prev first : NodeId} {bits : UInt32}

/-- The three results of `CalcNextRequiredDifficulty`. -/
theorem calcNextRequiredDifficulty_cases
    (returned : calcNextRequiredDifficulty params nodes prev = .ok bits) :
    bits = params.powLimitBits ∨ bits = (nodes.get prev).bits ∨
      ∃ first, bits = bigToCompact
        (min (params.exactTarget (nodes.get prev) (nodes.get first)) params.powLimit) := by
  simp only [calcNextRequiredDifficulty] at returned
  split_ifs at returned
  · exact .inl (Outcome.ok.inj returned).symm
  · exact .inr (.inl (Outcome.ok.inj returned).symm)
  · split at returned
    · cases returned
    · next first _ => exact .inr (.inr ⟨first, (Outcome.ok.inj returned).symm⟩)

theorem RetargetsFrom.calcNextRequiredDifficulty (retargets : RetargetsFrom params nodes prev first)
    (returned : calcNextRequiredDifficulty params nodes prev = .ok bits) :
    bits = bigToCompact
      (min (params.exactTarget (nodes.get prev) (nodes.get first)) params.powLimit) := by
  have early : ¬ ((nodes.get prev).height = 0 ∨ params.regNet) := by
    simp [retargets.height, retargets.network]
  simp only [Ledger.calcNextRequiredDifficulty, if_neg early, retargets.ends, ne_eq,
    not_true_eq_false, if_false] at returned
  split_ifs at returned
  rw [retargets.begins] at returned
  exact (Outcome.ok.inj returned).symm

/-- Packing a target that is limited does not raise it. -/
theorem ChainParams.Bounded.packed_le (bounded : params.Bounded) {target : Int}
    (nonneg : 0 ≤ target) :
    compactToBig (bigToCompact (min target params.powLimit)) ≤ min target params.powLimit := by
  obtain ⟨value, limited⟩ := Int.eq_ofNat_of_zero_le (Int.le_min.mpr ⟨nonneg, bounded.powLimit.1⟩)
  have small : (value : Int) < 2 ^ 2000 := by
    rw [← limited]
    exact Int.lt_of_le_of_lt (Int.min_le_right _ _) bounded.powLimit.2
  rw [limited]
  exact (truncates (by exact_mod_cast small) (Nat.le_refl 2000)).greatest.1.2

end Difficulty

/-- The compact word of a number stands for the greatest number below that a word can hold, and
packing that number gives the word again. The target that the next block must meet therefore
exceeds neither the exact one nor the limit of the network. -/
theorem bigToCompact_truncates (value : Nat) (bound : value < 2 ^ 2000) :
    IsGreatest {target | Representable target ∧ target ≤ value}
        (compactToBig (bigToCompact value)) ∧
      bigToCompact (compactToBig (bigToCompact value)) = bigToCompact value ∧
      ∀ (params : ChainParams) (nodes : Nodes) (prev : NodeId) (bits : UInt32), params.Bounded →
        0 ≤ compactToBig (nodes.get prev).bits →
        compactToBig (nodes.get prev).bits ≤ params.powLimit →
        calcNextRequiredDifficulty params nodes prev = .ok bits →
        compactToBig bits ≤ params.powLimit ∧
          ∀ first, RetargetsFrom params nodes prev first →
            compactToBig bits ≤ params.exactTarget (nodes.get prev) (nodes.get first) := by
  have truncated := truncates bound (Nat.le_refl 2000)
  refine ⟨truncated.greatest, truncated.idempotent, ?_⟩
  intro params nodes prev bits bounded nonneg limited returned
  constructor
  · rcases calcNextRequiredDifficulty_cases returned with rfl | rfl | ⟨first, rfl⟩
    · exact bounded.powLimitBits
    · exact limited
    · exact (bounded.packed_le (bounded.exactTarget_nonneg nonneg)).trans (Int.min_le_right _ _)
  · intro first retargets
    rw [retargets.calcNextRequiredDifficulty returned]
    exact (bounded.packed_le (bounded.exactTarget_nonneg nonneg)).trans (Int.min_le_left _ _)

/-- Ten blocks, the last of which ends an interval of the test network. -/
def intervalNodes : Nodes where
  get id :=
    { newBlockNode ⟨0, 0, 0, 0, testNet.powLimitBits, UInt32.ofNat id, 0, .empty⟩ 0 with
      timestamp := UInt32.ofNat (11 * id)
      parent := if id = 0 then none else some (id - 1) }
  count := 10

theorem retargetsFrom_interval : RetargetsFrom testNet intervalNodes 9 0 :=
  ⟨by decide, rfl, by decide +kernel, by decide +kernel⟩

theorem bigToCompact_truncates_interval :
    2 ^ 255 - 1 < 2 ^ 2000 ∧
      bigToCompact (compactToBig (bigToCompact (2 ^ 255 - 1 : Nat))) =
        bigToCompact (2 ^ 255 - 1 : Nat) ∧
      calcNextRequiredDifficulty testNet intervalNodes 9 = .ok 0x1e1d5a18 ∧
      compactToBig 0x1e1d5a18 ≤
        testNet.exactTarget (intervalNodes.get 9) (intervalNodes.get 0) := by
  have bound : 2 ^ 255 - 1 < 2 ^ 2000 := by decide +kernel
  have returned : calcNextRequiredDifficulty testNet intervalNodes 9 = .ok 0x1e1d5a18 := by
    decide +kernel
  obtain ⟨-, idempotent, next⟩ := bigToCompact_truncates (2 ^ 255 - 1) bound
  exact ⟨bound, idempotent, returned, (next testNet intervalNodes 9 _
    ChainParams.bounded_networks.2.1 (by decide +kernel) (by decide +kernel) returned).2 0
    retargetsFrom_interval⟩

/-- Whatever the timestamps of an interval, also when the time between them wraps around, the target
after it is at most the adjustment factor times the one before. -/
theorem retarget_le (params : ChainParams) (bounded : params.Bounded)
    (grows : 1 ≤ params.adjustmentFactor) (nodes : Nodes) (prev first : NodeId) (bits : UInt32)
    (retargets : RetargetsFrom params nodes prev first)
    (nonneg : 0 ≤ compactToBig (nodes.get prev).bits)
    (returned : calcNextRequiredDifficulty params nodes prev = .ok bits) :
    compactToBig bits ≤ compactToBig (nodes.get prev).bits * params.adjustmentFactor := by
  have span (actual : Int) : params.adjustedTimespan actual ≤
      params.adjustmentFactor * params.targetTimespan := by
    have least : params.minRetargetTimespan ≤ params.targetTimespan :=
      Int.tdiv_le_self _ bounded.targetTimespan.le
    have most := Int.mul_le_mul_of_nonneg_right grows bounded.targetTimespan.le
    rw [ChainParams.adjustedTimespan_eq, ChainParams.maxRetargetTimespan, Int.mul_comm]
    split_ifs <;> omega
  rw [retargets.calcNextRequiredDifficulty returned]
  refine (bounded.packed_le (bounded.exactTarget_nonneg nonneg)).trans
    ((Int.min_le_left _ _).trans (Int.ediv_le_of_le_mul bounded.targetTimespan ?_))
  rw [Int.mul_assoc]
  exact Int.mul_le_mul_of_nonneg_left (span _) nonneg

theorem retarget_le_interval : compactToBig 0x1e1d5a18 ≤
    compactToBig (intervalNodes.get 9).bits * testNet.adjustmentFactor :=
  retarget_le testNet ChainParams.bounded_networks.2.1 (by decide) intervalNodes 9 0 _
    retargetsFrom_interval (by decide +kernel) (by decide +kernel)

end DnaPow.Ledger
