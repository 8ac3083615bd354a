import DnaPow.Ledger.TxValidator
import Mathlib.Algebra.BigOperators.Group.List.Basic

/-!
# The balance of a transaction

`CheckTransactionBalance` adds amounts by asset in 64-bit arithmetic. This module
relates those sums to sums of integers. `lookup_mergedAssetIDValue` says what a
merged result holds, and `noValueCreation_iff` for which transactions that pass
the sanity check the outputs are covered by the references.
-/

namespace DnaPow.Ledger

open DnaPow.Std Common Core

/-- The amount of an asset in a list of outputs, as an unbounded integer. -/
def amountOf (asset : Uint256) (outputs : List TxOutput) : Int :=
  ((outputs.filter (·.assetID = asset)).map (·.value.toInt)).sum

theorem amountOf_append (asset : Uint256) (first second : List TxOutput) :
    amountOf asset (first ++ second) = amountOf asset first + amountOf asset second := by
  simp [amountOf]

theorem amountOf_singleton (asset : Uint256) (output : TxOutput) :
    amountOf asset [output] = if output.assetID = asset then output.value.toInt else 0 := by
  by_cases same : output.assetID = asset <;> simp [amountOf, same]

theorem amountOf_of_notMem {asset : Uint256} {outputs : List TxOutput}
    (absent : asset ∉ outputs.map TxOutput.assetID) : amountOf asset outputs = 0 := by
  have none : outputs.filter (·.assetID = asset) = [] := by
    rw [List.filter_eq_nil_iff]
    intro output member same
    exact absent (List.mem_map.mpr ⟨output, member, by simpa using same⟩)
  simp [amountOf, none]

/-! ## Merged results -/

private theorem lookup_entry (asset other : Uint256) (amount : Fixed64)
    (rest : TransactionResult) :
    List.lookup asset ((other, amount) :: rest) =
      if asset = other then some amount else rest.lookup asset := by
  rw [List.lookup_cons]
  cases test : asset == other <;> simp_all

theorem lookup_addAmount (asset other : Uint256) (value : Fixed64) (result : TransactionResult) :
    (addAmount asset value result).lookup other =
      if other = asset then some ((result.lookup asset).getD 0 + value) else result.lookup other := by
  induction result with
  | nil => simp [addAmount, lookup_entry]
  | cons entry rest ih =>
    obtain ⟨first, amount⟩ := entry
    by_cases here : first = asset
    · by_cases same : other = asset <;> simp [addAmount, here, same, lookup_entry]
    · have notHere : ¬ asset = first := fun same => here same.symm
      by_cases same : other = first <;> simp_all [addAmount, lookup_entry]

/-- A merged result holds, for every asset that occurs, the wrapped sum of its amounts. -/
theorem lookup_mergedAssetIDValue (asset : Uint256) (outputs : List TxOutput) :
    (mergedAssetIDValue outputs).lookup asset =
      if asset ∈ outputs.map TxOutput.assetID then some (Int64.ofInt (amountOf asset outputs))
      else none := by
  induction outputs using List.reverseRecOn with
  | nil => rfl
  | append_singleton outputs output ih =>
    have step : mergedAssetIDValue (outputs ++ [output]) =
        addAmount output.assetID output.value (mergedAssetIDValue outputs) := by
      simp [mergedAssetIDValue]
    rw [step, lookup_addAmount, amountOf_append, amountOf_singleton, Int64.ofInt_add]
    by_cases same : asset = output.assetID
    · subst same
      by_cases before : output.assetID ∈ outputs.map TxOutput.assetID
      · simp [ih, before]
      · simp [ih, before, amountOf_of_notMem before]
    · have other : ¬ output.assetID = asset := fun h => same h.symm
      simp [ih, same, other]

theorem getD_lookup_mergedAssetIDValue (asset : Uint256) (outputs : List TxOutput) :
    ((mergedAssetIDValue outputs).lookup asset).getD 0 = Int64.ofInt (amountOf asset outputs) := by
  rw [lookup_mergedAssetIDValue]
  split_ifs with occurs
  · rfl
  · rw [amountOf_of_notMem occurs]
    rfl

/-! ## Sane transactions -/

section Sane

variable {env : Env} {assetID : Uint256} {store : ChainStore} {tx : Transaction}

/-- What the sanity check of a transaction other than a coinbase has established. -/
theorem balance_of_sane (sane : checkTransactionSanity env assetID store tx = .ok ())
    (regular : tx.isCoinBaseTx = false) :
    checkTransactionBalance env store tx = .ok () := by
  simp only [checkTransactionSanity, regular, Bool.false_eq_true, if_false,
    Outcome.bind_eq_ok] at sane
  obtain ⟨_, _, _, _, _, _, _, _, _, _, _, balanced, _⟩ := sane
  exact balanced

/-- In a balanced transaction the wrapped difference of every asset paid out
covers the fee. -/
theorem fee_le_of_balanced (balanced : checkTransactionBalance env store tx = .ok ()) :
    ∃ references, getReference store tx = .ok references ∧
      ∀ asset ∈ tx.outputs.map TxOutput.assetID,
        env.minTxFee.toInt ≤
          (amountOf asset references - amountOf asset tx.outputs).bmod (2 ^ 64) := by
  simp only [checkTransactionBalance, Outcome.bind_eq_ok, Outcome.require_eq_ok, withError_eq_ok,
    List.all_eq_true, decide_eq_true_eq] at balanced
  obtain ⟨_, _, results, computed, covered⟩ := balanced
  simp only [getTransactionResults, Outcome.bind_eq_ok, Outcome.pure_eq, Outcome.ok.injEq]
    at computed
  obtain ⟨references, found, rfl⟩ := computed
  refine ⟨references, found, fun asset occurs => ?_⟩
  have entry : (asset, Int64.ofInt (amountOf asset tx.outputs)) ∈ mergedAssetIDValue tx.outputs := by
    have merged := lookup_mergedAssetIDValue asset tx.outputs
    rw [if_pos occurs] at merged
    obtain ⟨before, after, split, _⟩ := List.lookup_eq_some_iff.mp merged
    rw [split]
    exact List.mem_append_right _ (List.mem_cons_self ..)
  have covers := covered _ (List.mem_append_left _ (List.mem_map.mpr ⟨_, entry, rfl⟩))
  rw [getD_lookup_mergedAssetIDValue, Int64.le_iff_toInt_le, Int64.toInt_sub, Int64.toInt_ofInt,
    Int64.toInt_ofInt] at covers
  simpa [Int64.size, Int.bmod_sub_bmod, Int.sub_bmod_bmod] using covers

end Sane

/-- A transaction other than a coinbase that passes the sanity check creates no
value of an asset exactly when its outputs of the asset do not exceed the
references by more than `2 ^ 63`. -/
theorem noValueCreation_iff (env : Env) (assetID : Uint256) (store : ChainStore)
    (tx : Transaction) (sane : checkTransactionSanity env assetID store tx = .ok ())
    (regular : tx.isCoinBaseTx = false) :
    ∃ references, getReference store tx = .ok references ∧
      ∀ asset ∈ tx.outputs.map TxOutput.assetID,
        amountOf asset tx.outputs + env.minTxFee.toInt ≤ amountOf asset references ↔
          amountOf asset tx.outputs ≤ amountOf asset references + 2 ^ 63 := by
  obtain ⟨references, found, covered⟩ := fee_le_of_balanced (balance_of_sane sane regular)
  refine ⟨references, found, fun asset occurs => ?_⟩
  have covers := covered asset occurs
  have low := env.minTxFee.le_toInt
  have high := env.minTxFee.toInt_lt
  constructor
  · intro covered
    omega
  · -- below `2 ^ 63` the difference did not wrap; from there on it exceeds any fee
    intro bounded
    by_cases small : amountOf asset references - amountOf asset tx.outputs < 2 ^ 63
    · rw [Int.bmod_eq_of_le (by omega) (by omega)] at covers
      omega
    · omega

/-- A transaction that spends the genesis output with the given outputs, all in
the system asset. -/
def genesisSpend (amounts : List Fixed64) : Transaction where
  payloadVersion := 0
  payload := .transferAsset
  attributes := []
  utxoInputs := [⟨⟨(genesisCoinbase .sample).hash Env.sample.crypto, 0⟩, 0⟩]
  outputs := amounts.map fun amount =>
    ⟨systemToken.hash Env.sample.crypto, amount, Env.sample.foundationProgramHash⟩
  lockTime := 0
  programs := [⟨[0x51], []⟩]

theorem noValueCreation_genesisSpend :
    ∃ references, getReference (.genesis .sample) (genesisSpend [5000]) = .ok references ∧
      ∀ asset ∈ (genesisSpend [5000]).outputs.map TxOutput.assetID,
        amountOf asset (genesisSpend [5000]).outputs + Env.sample.minTxFee.toInt ≤
            amountOf asset references ↔
          amountOf asset (genesisSpend [5000]).outputs ≤ amountOf asset references + 2 ^ 63 :=
  noValueCreation_iff .sample (systemToken.hash Env.sample.crypto) (.genesis .sample)
    (genesisSpend [5000]) (by decide +kernel) rfl

/-- Two outputs of `2 ^ 63 - 1` each: their sum wraps around to `-2`. -/
theorem valueCreated_genesisSpend :
    checkTransactionSanity .sample (systemToken.hash Env.sample.crypto) (.genesis .sample)
        (genesisSpend [2 ^ 63 - 1, 2 ^ 63 - 1]) = .ok () ∧
      (genesisSpend [2 ^ 63 - 1, 2 ^ 63 - 1]).isCoinBaseTx = false ∧
      getReference (.genesis .sample) (genesisSpend [2 ^ 63 - 1, 2 ^ 63 - 1]) =
        .ok (genesisCoinbase .sample).outputs ∧
      amountOf (systemToken.hash Env.sample.crypto) (genesisCoinbase .sample).outputs <
        amountOf (systemToken.hash Env.sample.crypto)
          (genesisSpend [2 ^ 63 - 1, 2 ^ 63 - 1]).outputs + Env.sample.minTxFee.toInt := by
  refine ⟨?_, ?_, ?_, ?_⟩ <;> decide +kernel

end DnaPow.Ledger
