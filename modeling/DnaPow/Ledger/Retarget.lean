import DnaPow.Ledger.Lineage

/-!
# Retargeting

The difficulty after a retarget interval as a function of the time it took. The
source takes the difference of two 32-bit timestamps as a 32-bit number and widens it
afterwards, so an interval that ends before it began counts as a very long one.
-/

namespace DnaPow.Ledger

open DnaPow.Std Common Core

/-! ## Small targets -/

/-- The exponent and the mantissa of a compact target do not overlap. -/
theorem toNat_compact {exponent mantissa : Nat} (few : exponent < 256)
    (small : mantissa < 2 ^ 24) :
    (UInt32.ofNat (exponent * 2 ^ 24) ||| UInt32.ofNat mantissa).toNat =
      2 ^ 24 * exponent + mantissa := by
  rw [UInt32.toNat_or, UInt32.toNat_ofNat', UInt32.toNat_ofNat', Nat.mod_eq_of_lt (by omega),
    Nat.mod_eq_of_lt (by omega), Nat.mul_comm, Nat.two_pow_add_eq_or_of_lt small]

theorem compactToBig_of_toNat {compact : UInt32} {exponent mantissa : Nat}
    (small : mantissa < 2 ^ 23) (parts : compact.toNat = 2 ^ 24 * exponent + mantissa) :
    compactToBig compact = (if exponent ≤ 3 then mantissa / 256 ^ (3 - exponent)
      else mantissa * 256 ^ (exponent - 3) : Nat) := by
  have low : compact.toNat % 2 ^ 23 = mantissa := by omega
  have high : compact.toNat / 2 ^ 24 = exponent := by omega
  have sign : compact.toNat / 2 ^ 23 % 2 ≠ 1 := by omega
  simp only [compactToBig, low, high, sign, if_false]

theorem byteLength_eq {value length : Nat} (low : 2 ^ (8 * length) ≤ value)
    (high : value < 2 ^ (8 * length + 8)) : byteLength value = length + 1 := by
  have positive : value ≠ 0 := Nat.ne_of_gt (Nat.lt_of_lt_of_le (Nat.two_pow_pos _) low)
  have least := (Nat.le_log2 positive).mpr low
  have most := (Nat.log2_lt positive).mpr high
  rw [byteLength, if_neg positive]
  omega

/-- Packing a number, given the mantissa at its full length. -/
theorem toNat_bigToCompact {value exponent mantissa : Nat} (positive : 0 < value)
    (length : byteLength value = exponent) (few : exponent < 255)
    (shifted : (if exponent ≤ 3 then value * 256 ^ (3 - exponent)
      else ((value : Int) / 256 ^ (exponent - 3)).natAbs % 2 ^ 32) = mantissa)
    (fits : mantissa < 2 ^ 24) :
    (bigToCompact value).toNat = if mantissa < 2 ^ 23 then 2 ^ 24 * exponent + mantissa
      else 2 ^ 24 * (exponent + 1) + mantissa / 256 := by
  have nonzero : (value : Int) ≠ 0 := by omega
  have nonnegative : ¬ (value : Int) < 0 := by omega
  simp only [bigToCompact, if_neg nonzero, if_neg nonnegative, Int.natAbs_natCast, length, shifted]
  split_ifs with sign low low
  · omega
  · exact toNat_compact (by omega) (by omega)
  · exact toNat_compact (by omega) (by omega)
  · omega

/-- A positive number of at most 23 bits is read back from its compact form. -/
theorem compactToBig_bigToCompact {value : Nat} (positive : 0 < value) (small : value < 2 ^ 23) :
    compactToBig (bigToCompact value) = value := by
  have back {exponent : Nat} (length : byteLength value = exponent) (few : exponent ≤ 3)
      (fits : value * 256 ^ (3 - exponent) < 2 ^ 24)
      (last : exponent = 3 → value * 256 ^ (3 - exponent) < 2 ^ 23) :
      compactToBig (bigToCompact value) = value := by
    have parts := toNat_bigToCompact positive length (by omega) (if_pos few) fits
    split_ifs at parts with low
    · rw [compactToBig_of_toNat low parts, if_pos few,
        Nat.mul_div_cancel _ (Nat.pow_pos (by decide))]
    · have early : exponent < 3 := by omega
      rw [compactToBig_of_toNat (by omega) parts, if_pos (by omega), Nat.div_div_eq_div_mul,
        ← Nat.pow_succ', show (3 - (exponent + 1)).succ = 3 - exponent by omega,
        Nat.mul_div_cancel _ (Nat.pow_pos (by decide))]
  rcases Nat.lt_or_ge value (2 ^ 8) with one | one
  · have length : byteLength value = 1 := @byteLength_eq value 0 positive one
    exact back length (by omega) (by omega) (by omega)
  rcases Nat.lt_or_ge value (2 ^ 16) with two | two
  · have length : byteLength value = 2 := @byteLength_eq value 1 one two
    exact back length (by omega) (by omega) (by omega)
  · have length : byteLength value = 3 := @byteLength_eq value 2 two (by omega)
    exact back length (by omega) (by omega) (by omega)

/-! ## The retarget interval -/

namespace BlockNode

/-- The same node with another target. -/
def withBits (bits : UInt32) (node : BlockNode) : BlockNode := { node with bits }

end BlockNode

namespace ChainParams

variable (params : ChainParams)

def minRetargetTimespan : Int := params.targetTimespan.tdiv params.adjustmentFactor

def maxRetargetTimespan : Int := params.targetTimespan * params.adjustmentFactor

/-- The target after an interval that counts as the given time. -/
def retargetBits (bits : UInt32) (span : Int) : UInt32 :=
  bigToCompact (min (compactToBig bits * span / params.targetTimespan) params.powLimit)

/-- The time between two timestamps as a signed number, within the limits. -/
def signedTimespan (last first : UInt32) : Int :=
  params.adjustedTimespan ((last.toNat : Int) - first.toNat)

/-- The times that an interval can count as are positive, differ, and are small numbers
that can be targets. All three networks have such parameters. -/
structure SmallSpans : Prop where
  targetTimespan : 0 < params.targetTimespan ∧ params.targetTimespan < 2 ^ 23
  positive : 0 < params.minRetargetTimespan
  differ : params.minRetargetTimespan < params.maxRetargetTimespan
  small : params.maxRetargetTimespan < 2 ^ 23
  limit : params.maxRetargetTimespan ≤ params.powLimit

theorem smallSpans_networks : mainNet.SmallSpans ∧ testNet.SmallSpans ∧ Ledger.regNet.SmallSpans := by
  refine ⟨⟨?_, ?_, ?_, ?_, ?_⟩, ⟨?_, ?_, ?_, ?_, ?_⟩, ⟨?_, ?_, ?_, ?_, ?_⟩⟩ <;> decide

variable {params}

theorem adjustedTimespan_eq (actual : Int) :
    params.adjustedTimespan actual =
      if actual < params.minRetargetTimespan then params.minRetargetTimespan
      else if actual > params.maxRetargetTimespan then params.maxRetargetTimespan
      else actual := rfl

namespace SmallSpans

variable (spans : params.SmallSpans)
include spans

theorem adjustedTimespan_bounds (actual : Int) :
    0 < params.adjustedTimespan actual ∧ params.adjustedTimespan actual < 2 ^ 23 ∧
      params.adjustedTimespan actual ≤ params.powLimit := by
  obtain ⟨-, positive, differ, small, limit⟩ := spans
  rw [adjustedTimespan_eq]
  split_ifs <;> omega

/-- From the target that is the target timespan, a retarget leads to the time counted. -/
theorem compactToBig_retargetBits (actual : Int) :
    compactToBig (params.retargetBits (bigToCompact params.targetTimespan)
      (params.adjustedTimespan actual)) = params.adjustedTimespan actual := by
  obtain ⟨positive, small, limit⟩ := spans.adjustedTimespan_bounds actual
  generalize params.adjustedTimespan actual = span at positive small limit
  obtain ⟨timespan, isTimespan⟩ := Int.eq_ofNat_of_zero_le spans.targetTimespan.1.le
  obtain ⟨span, rfl⟩ := Int.eq_ofNat_of_zero_le positive.le
  have bounds := spans.targetTimespan
  rw [isTimespan] at bounds
  rw [retargetBits, isTimespan, compactToBig_bigToCompact (by omega) (by omega),
    Int.mul_ediv_cancel_left _ (by omega), min_eq_left limit,
    compactToBig_bigToCompact (by omega) (by omega)]

/-- A target of zero stays zero. -/
theorem retargetBits_zero (span : Int) : params.retargetBits 0 span = 0 := by
  have target : compactToBig 0 = 0 := rfl
  have limit : 0 ≤ params.powLimit := (spans.positive.trans spans.differ).le.trans spans.limit
  rw [retargetBits, target, Int.zero_mul, Int.zero_ediv, min_eq_left limit]
  rfl

end SmallSpans

end ChainParams

/-- A node at the end of a retarget interval whose first node is in memory. -/
structure RetargetAt (params : ChainParams) (nodes : Nodes) (prev first : NodeId) : Prop where
  notGenesis : (nodes.get prev).height ≠ 0
  interval : params.blocksPerRetarget ≠ 0
  due : ((nodes.get prev).height + 1) % params.blocksPerRetarget = 0
  inMemory : (nodes.lineage (some prev)).find? (fun id => (nodes.get id).height =
    (nodes.get prev).height - params.blocksPerRetarget + 1) = some first

/-- The first height of an interval that ends at the given one does not wrap around. -/
theorem first_le_of_due {height interval : UInt32} (some : interval ≠ 0)
    (due : (height + 1) % interval = 0) : height - interval + 1 ≤ height := by
  have nonzero : interval.toNat ≠ 0 := fun zero => some (UInt32.toNat_inj.mp zero)
  have bound := height.toNat_lt
  have bound' := interval.toNat_lt
  have divides := congrArg UInt32.toNat due
  simp only [UInt32.toNat_mod, UInt32.toNat_add, UInt32.reduceToNat] at divides
  simp only [UInt32.le_iff_toNat_le, UInt32.toNat_add, UInt32.toNat_sub, UInt32.reduceToNat]
  rcases Nat.lt_or_ge (height.toNat + 1) (2 ^ 32) with below | last
  · rw [Nat.mod_eq_of_lt below] at divides
    have short := Nat.le_of_dvd (Nat.succ_pos _) (Nat.dvd_of_mod_eq_zero divides)
    omega
  · omega

variable {params : ChainParams} {nodes : Nodes} {prev first : NodeId}

/-- The difficulty after a retarget interval, with the time it takes computed in 32 bits. -/
theorem RetargetAt.calcNextRequiredDifficulty (retarget : RetargetAt params nodes prev first)
    (network : params.regNet = false) :
    calcNextRequiredDifficulty params nodes prev =
      .ok (params.retargetBits (nodes.get prev).bits (params.adjustedTimespan
        ((nodes.get prev).timestamp - (nodes.get first).timestamp).toNat)) := by
  have start : ¬ ((nodes.get prev).height = 0 ∨ params.regNet = true) := by
    simp [retarget.notGenesis, network]
  have notBefore := first_le_of_due retarget.interval retarget.due
  simp only [Ledger.calcNextRequiredDifficulty, if_neg start, if_neg retarget.interval,
    retarget.due, ne_eq, not_true_eq_false, if_false, if_neg (UInt32.not_lt.mpr notBefore),
    retarget.inMemory]
  rfl

/-- The target of the last node does not matter to where the interval lies. -/
theorem RetargetAt.withBits (retarget : RetargetAt params nodes prev first) (bits : UInt32) :
    RetargetAt params (nodes.modify prev (.withBits bits)) prev first := by
  have height (id : NodeId) : ((nodes.modify prev (.withBits bits)).get id).height =
      (nodes.get id).height :=
    Nodes.view_modify BlockNode.height nodes prev (.withBits bits) rfl id
  have parent (id : NodeId) : ((nodes.modify prev (.withBits bits)).get id).parent =
      (nodes.get id).parent :=
    Nodes.view_modify BlockNode.parent nodes prev (.withBits bits) rfl id
  have lineage := Nodes.lineage_congr (nodes.count_modify prev (.withBits bits)) parent (some prev)
  exact ⟨by rw [height]; exact retarget.notGenesis, retarget.interval,
    by rw [height]; exact retarget.due, by simpa only [lineage, height] using retarget.inMemory⟩

/-- The time in 32 bits is the signed one unless it has wrapped around. -/
theorem ChainParams.SmallSpans.adjustedTimespan_eq_iff (spans : params.SmallSpans)
    (last first : UInt32) :
    params.adjustedTimespan (last - first).toNat = params.signedTimespan last first ↔
      first ≤ last ∨ ((last - first).toNat : Int) ≤ params.minRetargetTimespan := by
  obtain ⟨-, positive, differ, -, -⟩ := spans
  have bound := last.toNat_lt
  have bound' := first.toNat_lt
  rw [signedTimespan, UInt32.le_iff_toNat_le, UInt32.toNat_sub, adjustedTimespan_eq,
    adjustedTimespan_eq]
  split_ifs <;> omega

/-! ## Sample chains -/

/-- A node of the test network, with the hashes of the sample. -/
def testNetEnv : Env := { Env.sample with chainParam := testNet }

/-- Put a block with the given timestamp on top of the last node, if it passes
`PowCheckBlockContext` with the difficulty required there. -/
def extendAt (nodes : Nodes) (timestamp : UInt32) : Option Nodes :=
  let prev := nodes.count - 1
  match calcNextRequiredDifficulty testNet nodes prev with
  | .ok bits =>
      let header : Blockdata := ⟨0, (nodes.get prev).hash, 0, timestamp, bits,
        (nodes.get prev).height + 1, 0, .empty⟩
      if powCheckBlockContext testNetEnv nodes ⟨header, []⟩ (some prev) = .ok () then
        some (nodes.allocate ((newBlockNode header (header.hash testNetEnv.crypto)).under prev
          (nodes.get prev)))
      else none
  | _ => none

/-- A chain on the genesis block with the given numbers of seconds after it. -/
def chainAt (seconds : List UInt32) : Option Nodes :=
  let genesis := genesisBlock testNetEnv
  seconds.foldlM (fun nodes after => extendAt nodes (genesis.blockdata.timestamp + after))
    (Nodes.empty.allocate (newBlockNode genesis.blockdata (genesis.hash testNetEnv.crypto)))

/-! ## Exactness -/

/-- At the end of a retarget interval, whatever its last target, the next one is that of
the signed time between its timestamps, within the limits: exactly on networks that
retarget, and for intervals that do not end before they began or end so long before
that the wrapped time is below the limit again. -/
theorem retarget_iff (params : ChainParams) (spans : params.SmallSpans) (nodes : Nodes)
    (prev first : NodeId) (retarget : RetargetAt params nodes prev first) :
    (∀ bits, calcNextRequiredDifficulty params (nodes.modify prev (.withBits bits)) prev =
      .ok (params.retargetBits bits (params.signedTimespan (nodes.get prev).timestamp
        (nodes.get first).timestamp))) ↔
    params.regNet = false ∧ ((nodes.get first).timestamp ≤ (nodes.get prev).timestamp ∨
      (((nodes.get prev).timestamp - (nodes.get first).timestamp).toNat : Int) ≤
        params.minRetargetTimespan) := by
  have timestamp (bits : UInt32) (id : NodeId) :
      ((nodes.modify prev (.withBits bits)).get id).timestamp = (nodes.get id).timestamp :=
    Nodes.view_modify BlockNode.timestamp nodes prev (.withBits bits) rfl id
  have changed (bits : UInt32) : ((nodes.modify prev (.withBits bits)).get prev).bits = bits := by
    simp [Nodes.modify, BlockNode.withBits]
  have computed (network : params.regNet = false) (bits : UInt32) :=
    (retarget.withBits bits).calcNextRequiredDifficulty network
  simp only [timestamp, changed] at computed
  constructor
  · intro formula
    have network : params.regNet = false := by
      -- otherwise the difficulty is always the same
      by_contra regNet
      have fixed (bits : UInt32) : calcNextRequiredDifficulty params
          (nodes.modify prev (.withBits bits)) prev = .ok params.powLimitBits := by
        simp [calcNextRequiredDifficulty, Bool.eq_true_of_not_eq_false regNet]
      have least := spans.retargetBits_zero (params.signedTimespan (nodes.get prev).timestamp
        (nodes.get first).timestamp)
      rw [← Outcome.ok.inj ((fixed 0).symm.trans (formula 0)),
        Outcome.ok.inj ((fixed _).symm.trans (formula (bigToCompact params.targetTimespan)))] at least
      have positive := (spans.adjustedTimespan_bounds
        ((nodes.get prev).timestamp.toNat - (nodes.get first).timestamp.toNat)).1
      have back := congrArg compactToBig least
      rw [ChainParams.signedTimespan, spans.compactToBig_retargetBits] at back
      exact absurd back (Int.ne_of_gt positive)
    refine ⟨network, (spans.adjustedTimespan_eq_iff _ _).mp ?_⟩
    have same := (computed network (bigToCompact params.targetTimespan)).symm.trans (formula _)
    have same := congrArg compactToBig (Outcome.ok.inj same)
    rw [spans.compactToBig_retargetBits] at same
    rw [same]
    exact spans.compactToBig_retargetBits _
  · rintro ⟨network, times⟩ bits
    rw [computed network, (spans.adjustedTimespan_eq_iff _ _).mpr times]

theorem retarget_regular : ∃ nodes, chainAt [10, 20, 30, 40, 50, 60, 70, 80, 90] = some nodes ∧
    ∀ bits, calcNextRequiredDifficulty testNet (nodes.modify 9 (.withBits bits)) 9 =
      .ok (testNet.retargetBits bits (testNet.signedTimespan (nodes.get 9).timestamp
        (nodes.get 0).timestamp)) := by
  have facts : (chainAt [10, 20, 30, 40, 50, 60, 70, 80, 90]).map (fun nodes =>
      decide ((nodes.get 9).height = 9 ∧
      ((nodes.get 9).height + 1) % testNet.blocksPerRetarget = 0 ∧
      (nodes.lineage (some 9)).find? (fun id => (nodes.get id).height =
        (nodes.get 9).height - testNet.blocksPerRetarget + 1) = some 0 ∧
      (nodes.get 0).timestamp ≤ (nodes.get 9).timestamp)) = some true := by
    decide +kernel
  obtain ⟨nodes, chain, facts⟩ := Option.map_eq_some_iff.mp facts
  obtain ⟨height, due, inMemory, later⟩ := of_decide_eq_true facts
  refine ⟨nodes, chain, (retarget_iff testNet ChainParams.smallSpans_networks.2.1 nodes 9 0
    ⟨by rw [height]; decide, by decide, due, inMemory⟩).mpr ⟨rfl, .inl later⟩⟩

/-- Block 10 is far ahead of the others, which the median of the past eleven blocks
allows. -/
def earlyEnd : List UInt32 :=
  [10, 20, 30, 40, 50, 60, 70, 80, 90, 5000, 110, 120, 130, 140, 150, 160, 170, 180, 190]

/-- The interval from block 10 to block 19 makes the target larger, not smaller. -/
theorem earlyEnd_maximal : ∃ nodes, chainAt earlyEnd = some nodes ∧
    RetargetAt testNet nodes 19 10 ∧
    calcNextRequiredDifficulty testNet nodes 19 =
      .ok (testNet.retargetBits (nodes.get 19).bits testNet.maxRetargetTimespan) ∧
    testNet.signedTimespan (nodes.get 19).timestamp (nodes.get 10).timestamp =
      testNet.minRetargetTimespan ∧
    calcNextRequiredDifficulty testNet nodes 19 ≠
      .ok (testNet.retargetBits (nodes.get 19).bits testNet.minRetargetTimespan) := by
  have facts : (chainAt earlyEnd).map (fun nodes => decide ((nodes.get 19).height = 19 ∧
      ((nodes.get 19).height + 1) % testNet.blocksPerRetarget = 0 ∧
      (nodes.lineage (some 19)).find? (fun id => (nodes.get id).height =
        (nodes.get 19).height - testNet.blocksPerRetarget + 1) = some 10 ∧
      calcNextRequiredDifficulty testNet nodes 19 =
        .ok (testNet.retargetBits (nodes.get 19).bits testNet.maxRetargetTimespan) ∧
      testNet.signedTimespan (nodes.get 19).timestamp (nodes.get 10).timestamp =
        testNet.minRetargetTimespan ∧
      calcNextRequiredDifficulty testNet nodes 19 ≠
        .ok (testNet.retargetBits (nodes.get 19).bits testNet.minRetargetTimespan))) =
      some true := by
    decide +kernel
  obtain ⟨nodes, chain, facts⟩ := Option.map_eq_some_iff.mp facts
  obtain ⟨height, due, inMemory, computed, signed, differs⟩ := of_decide_eq_true facts
  exact ⟨nodes, chain, ⟨by rw [height]; decide, by decide, due, inMemory⟩, computed, signed, differs⟩

end DnaPow.Ledger
