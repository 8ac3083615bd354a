import Mathlib.Algebra.Order.BigOperators.Group.List
import DnaPow.Account.Wallet
import DnaPow.Common.Amount
import DnaPow.Std.PairTree

/-!
# Building transfers

`MakeTransferTransaction` and `MakeMultisigTransferTransaction` add up the fee and the
amounts in 64 bits and spend coins until the sum is reached. Amounts are read from text and
may be negative, and the sum may wrap around.
-/

namespace DnaPow.Sdk

open DnaPow.Std Common Core Account

/-- `BatchOut`. -/
structure BatchOut where
  address : Bytes
  value : Bytes
  deriving DecidableEq, Repr

/-- The errors of building a transfer. -/
inductive TransferError where
  | invalidFee
  | amount (reason : AmountError)
  | invalidAddress
  | invalidReceiverAddress
  | invalidSenderAddress
  | nilOutputs
  | notEnough
  deriving DecidableEq, Repr

/-- A coin under its input. -/
abbrev CoinItem := UTXOTxInput × Coin

/-- What building a transfer uses besides its arguments. Sorting is only used to permute the
coins, which a map gives in any order. -/
structure TransferContext where
  coins : List CoinItem
  bestHeight : UInt32
  sort : List CoinItem → List CoinItem
  sort_perm : ∀ items, (sort items).Perm items
  /-- `ToScriptHash`. -/
  toScriptHash : Bytes → Outcome Unit Uint160
  /-- The random nonce. -/
  nonce : Bytes
  /-- The programs from signing; none if signing fails. -/
  programs : Transaction → List Program

namespace TransferContext

variable (context : TransferContext)

/-- `sortAvailableCoinsByValue`. -/
def sortAvailableCoinsByValue (addrtype : AddressType) : List CoinItem :=
  context.sort (context.coins.filter fun item =>
    item.2.height ≤ context.bestHeight && item.2.addressType = addrtype)

/-- The fee, which is to be positive. -/
def readFee (fee : Bytes) : Outcome TransferError Fixed64 :=
  match stringToFixed64 fee with
  | .ok txnfee => if 0 < txnfee then .ok txnfee else .error .invalidFee
  | .error _ => .error .invalidFee
  | .panic => .panic

/-- The loop over the receivers: the amount to be spent, and the outputs. -/
def readOutputs (assetID : Uint256) (invalid : TransferError) (expected : Fixed64) :
    List BatchOut → Outcome TransferError (Fixed64 × List TxOutput)
  | [] => .ok (expected, [])
  | out :: outs =>
      match stringToFixed64 out.value with
      | .error reason => .error (.amount reason)
      | .panic => .panic
      | .ok outputValue =>
          match context.toScriptHash out.address with
          | .error _ => .error invalid
          | .panic => .panic
          | .ok address => do
              let (expected, outputs) ← readOutputs assetID invalid (expected + outputValue) outs
              return (expected, ⟨assetID, outputValue, address⟩ :: outputs)

/-- What the loop over the coins leads to: the inputs, the change, if there is one, and what
is still to be spent. -/
structure Selection where
  input : List UTXOTxInput
  change : Option Fixed64
  expected : Fixed64
  deriving DecidableEq, Repr

/-- The loop over the coins. -/
def selectCoins (eligible : TxOutput → Bool) (expected : Fixed64) :
    List CoinItem → Outcome TransferError Selection
  | [] => .ok ⟨[], none, expected⟩
  | (input, coin) :: items =>
      match coin.output with
      | none => .panic
      | some output =>
          if eligible output then
            if expected < output.value then .ok ⟨[input], some (output.value - expected), 0⟩
            else if output.value = expected then .ok ⟨[input], none, 0⟩
            else do
              let selection ← selectCoins eligible (expected - output.value) items
              return { selection with input := input :: selection.input }
          else selectCoins eligible expected items

/-- The change output. Without an address the account to pay to is nil. -/
def payChange (assetID : Uint256) :
    Option Uint160 → Option Fixed64 → Outcome TransferError (List TxOutput)
  | _, none => .ok []
  | none, some _ => .panic
  | some address, some value => .ok [⟨assetID, value, address⟩]

/-- `NewTransferAssetTransaction`, with a nonce and the programs from signing. -/
def newTransfer (input : List UTXOTxInput) (output : List TxOutput) : Transaction :=
  let txn : Transaction :=
    { payloadVersion := 0
      payload := .transferAsset
      attributes := [⟨.nonce, context.nonce⟩]
      utxoInputs := input
      outputs := output
      lockTime := 0
      programs := [] }
  { txn with programs := context.programs txn }

/-- The two functions from the fee on. The change is paid to the given address; there is none
if the wallet has no main account. -/
def makeTransfer (addrtype : AddressType) (eligible : TxOutput → Bool) (changeTo : Option Uint160)
    (invalid : TransferError) (assetID : Uint256) (fee : Bytes) (batchOut : List BatchOut) :
    Outcome TransferError Transaction := do
  let txnfee ← readFee fee
  let (expected, outputs) ← context.readOutputs assetID invalid txnfee batchOut
  let selection ← selectCoins eligible expected (context.sortAvailableCoinsByValue addrtype)
  let changes ← payChange assetID changeTo selection.change
  .require (¬ 0 < selection.expected) .notEnough
  return context.newTransfer selection.input (outputs ++ changes)

/-- `MakeTransferTransaction`. The change goes to the main account. -/
def makeTransferTransaction (mainAccount : Option Uint160) (assetID : Uint256) (fee : Bytes)
    (batchOut : List BatchOut) : Outcome TransferError Transaction :=
  context.makeTransfer .singleSign (fun output => output.assetID = assetID) mainAccount
    .invalidAddress assetID fee batchOut

/-- `MakeMultisigTransferTransaction`. The change goes back to the sender. -/
def makeMultisigTransferTransaction (assetID : Uint256) (sender fee : Bytes)
    (batchOut : List BatchOut) : Outcome TransferError Transaction :=
  if batchOut = [] then .error .nilOutputs
  else
    match context.toScriptHash sender with
    | .error _ => .error .invalidSenderAddress
    | .panic => .panic
    | .ok spendAddress =>
        context.makeTransfer .multiSign
          (fun output => output.assetID = assetID && output.programHash = spendAddress)
          (some spendAddress) .invalidReceiverAddress assetID fee batchOut

/-! ## What a transfer is to be -/

/-- The integer sum of values. -/
def total (outputs : List TxOutput) : Int := (outputs.map fun output => output.value.toInt).sum

/-- A coin with its output, if it may be spent. -/
def spendableCoin (eligible : TxOutput → Bool) (item : CoinItem) :
    Option (UTXOTxInput × TxOutput) :=
  item.2.output.bind fun output => if eligible output then some (item.1, output) else none

/-- The coins that may be spent, with their outputs, in the order they are looked at. -/
def spendable (addrtype : AddressType) (eligible : TxOutput → Bool) :
    List (UTXOTxInput × TxOutput) :=
  (context.sortAvailableCoinsByValue addrtype).filterMap (spendableCoin eligible)

/-- The receivers as the outputs they ask for. -/
def Asks (assetID : Uint256) (batchOut : List BatchOut) (outputs : List TxOutput) : Prop :=
  List.Forall₂ (fun out output => stringToFixed64 out.value = .ok output.value ∧
    context.toScriptHash out.address = .ok output.programHash ∧ output.assetID = assetID)
    batchOut outputs

/-- A transaction that spends different coins and pays what they are worth but for the fee. -/
structure Balanced (coins : List (UTXOTxInput × TxOutput)) (txnfee : Fixed64) (tx : Transaction) :
    Prop where
  positive : ∀ output ∈ tx.outputs, 0 < output.value
  distinct : (tx.utxoInputs.map UTXOTxInput.toOutpoint).Nodup
  spends : ∃ chosen : List (UTXOTxInput × TxOutput), (∀ coin ∈ chosen, coin ∈ coins) ∧ tx.utxoInputs = chosen.map Prod.fst ∧
    total (chosen.map Prod.snd) = total tx.outputs + txnfee.toInt

/-- A transaction that is returned is balanced; an error is returned if the coins are worth
less than what is asked for. -/
def Transfers (coins : List (UTXOTxInput × TxOutput)) (assetID : Uint256) (fee : Bytes)
    (batchOut : List BatchOut) (outcome : Outcome TransferError Transaction) : Prop :=
  (∀ tx, outcome = .ok tx → ∃ txnfee, stringToFixed64 fee = .ok txnfee ∧ Balanced coins txnfee tx) ∧
    ∀ txnfee outputs, stringToFixed64 fee = .ok txnfee → context.Asks assetID batchOut outputs →
      total (coins.map Prod.snd) < total outputs + txnfee.toInt → ∃ reason, outcome = .error reason

/-- The wallet's coins: every coin has an output with a positive value, and no two have the
same outpoint. -/
structure CoinSet (coins : List CoinItem) : Prop where
  positive : ∀ item ∈ coins, ∃ output, item.2.output = some output ∧ 0 < output.value
  distinct : (coins.map fun item => item.1.toOutpoint).Nodup

/-- The fee and the amounts in 64 bits. -/
def wrappedTotal (txnfee : Fixed64) (outputs : List TxOutput) : Fixed64 :=
  Int64.ofInt (txnfee.toInt + total outputs)

/-- What is asked for is positive and adds up in 64 bits, or the coins are not worth the sum
in 64 bits. -/
def Sound (coins : List (UTXOTxInput × TxOutput)) (assetID : Uint256) (fee : Bytes)
    (batchOut : List BatchOut) : Prop :=
  ∀ txnfee outputs, stringToFixed64 fee = .ok txnfee → 0 < txnfee →
    context.Asks assetID batchOut outputs →
      (∀ output ∈ outputs, 0 < output.value) ∧ txnfee.toInt + total outputs < 2 ^ 63 ∨
        0 < wrappedTotal txnfee outputs ∧
          total (coins.map Prod.snd) < (wrappedTotal txnfee outputs).toInt

/-! ## Reading the receivers -/

section Read

variable {context} {assetID : Uint256} {invalid : TransferError}

theorem total_cons (output : TxOutput) (outputs : List TxOutput) :
    total (output :: outputs) = output.value.toInt + total outputs := by
  simp [total]

theorem total_append (outputs others : List TxOutput) :
    total (outputs ++ others) = total outputs + total others := by
  simp [total]

theorem wrappedTotal_cons (expected : Fixed64) (output : TxOutput) (outputs : List TxOutput) :
    wrappedTotal expected (output :: outputs) = wrappedTotal (expected + output.value) outputs := by
  simp only [wrappedTotal, total_cons, Int64.ofInt_add, Int64.ofInt_toInt, Int64.add_assoc]

/-- The receivers are read if they ask for outputs, and the sum is that in 64 bits. -/
theorem readOutputs_eq_ok {batchOut : List BatchOut} {start expected : Fixed64}
    {outputs : List TxOutput} :
    context.readOutputs assetID invalid start batchOut = .ok (expected, outputs) ↔
      context.Asks assetID batchOut outputs ∧ expected = wrappedTotal start outputs := by
  induction batchOut generalizing start expected outputs with
  | nil =>
    have nothing : wrappedTotal start [] = start := by
      simp only [wrappedTotal, total, List.map_nil, List.sum_nil, Int.add_zero, Int64.ofInt_toInt]
    cases outputs with
    | nil => simp [readOutputs, Asks, nothing, eq_comm]
    | cons output outputs => simp [readOutputs, Asks]
  | cons out batchOut ih =>
    rw [readOutputs, Asks, List.forall₂_cons_left_iff]
    cases amount : stringToFixed64 out.value with
    | error reason => simp
    | panic => simp
    | ok outputValue =>
      cases decoded : context.toScriptHash out.address with
      | error reason => simp
      | panic => simp
      | ok address =>
        simp only [Outcome.bind_eq_ok, Outcome.pure_eq, Outcome.ok.injEq, Prod.exists,
          Prod.mk.injEq]
        constructor
        · rintro ⟨_, rest, read, rfl, rfl⟩
          obtain ⟨asks, sum⟩ := ih.mp read
          refine ⟨⟨⟨assetID, outputValue, address⟩, rest, ⟨rfl, rfl, rfl⟩, asks, rfl⟩, ?_⟩
          rw [wrappedTotal_cons, sum]
        · rintro ⟨⟨⟨_, _, _⟩, rest, ⟨rfl, rfl, rfl⟩, asks, rfl⟩, sum⟩
          rw [wrappedTotal_cons] at sum
          exact ⟨_, rest, ih.mpr ⟨asks, sum⟩, rfl, rfl⟩

end Read

/-! ## Selecting coins -/

/-- The loop over the coins that may be spent. -/
def choose (expected : Fixed64) : List (UTXOTxInput × TxOutput) → Selection
  | [] => ⟨[], none, expected⟩
  | (input, output) :: coins =>
      if expected < output.value then ⟨[input], some (output.value - expected), 0⟩
      else if output.value = expected then ⟨[input], none, 0⟩
      else
        let selection := choose (expected - output.value) coins
        { selection with input := input :: selection.input }

section Select

variable {eligible : TxOutput → Bool} {items : List CoinItem} {expected : Fixed64}
  {coins : List (UTXOTxInput × TxOutput)}

/-- The other coins are passed over. -/
theorem selectCoins_eq (filled : ∀ item ∈ items, ∃ output, item.2.output = some output) :
    selectCoins eligible expected items =
      .ok (choose expected (items.filterMap (spendableCoin eligible))) := by
  induction items generalizing expected with
  | nil => rfl
  | cons item items ih =>
    obtain ⟨input, coin⟩ := item
    obtain ⟨output, holds⟩ : ∃ output, coin.output = some output := filled _ List.mem_cons_self
    have rest {expected : Fixed64} := @ih expected fun other member =>
      filled other (List.mem_cons_of_mem _ member)
    rw [selectCoins, holds]
    by_cases isEligible : eligible output
    · have kept : spendableCoin eligible (input, coin) = some (input, output) := by
        simp [spendableCoin, holds, isEligible]
      rw [List.filterMap_cons_some kept, choose]
      simp only [isEligible, if_true, rest]
      split_ifs <;> rfl
    · have passed : spendableCoin eligible (input, coin) = none := by
        simp [spendableCoin, holds, isEligible]
      rw [List.filterMap_cons_none passed]
      simp only [isEligible, if_false, rest, Bool.false_eq_true]

theorem toInt_sub_of_nonneg {first second : Fixed64} (left : 0 ≤ first.toInt)
    (right : 0 ≤ second.toInt) : (first - second).toInt = first.toInt - second.toInt := by
  have high := first.toInt_lt
  have high' := second.toInt_lt
  rw [Int64.toInt_sub, Int.bmod_eq_of_le (by omega) (by omega)]

theorem toInt_pos_iff {value : Fixed64} : 0 < value ↔ 0 < value.toInt := Int64.lt_iff_toInt_lt

theorem total_nonneg {outputs : List TxOutput} (positive : ∀ output ∈ outputs, 0 < output.value) :
    0 ≤ total outputs :=
  List.sum_nonneg (List.forall_mem_map.mpr fun output member =>
    (toInt_pos_iff.mp (positive output member)).le)

/-- If the coins are not worth what is to be spent, some of it is left. -/
theorem choose_of_lt (positive : ∀ coin ∈ coins, 0 < coin.2.value)
    (short : total (coins.map Prod.snd) < expected.toInt) :
    (choose expected coins).change = none ∧ 0 < (choose expected coins).expected := by
  induction coins generalizing expected with
  | nil => exact ⟨rfl, toInt_pos_iff.mpr short⟩
  | cons coin coins ih =>
    obtain ⟨input, output⟩ := coin
    rw [List.forall_mem_cons] at positive
    have worth := toInt_pos_iff.mp positive.1
    have others : 0 ≤ total (coins.map Prod.snd) := total_nonneg fun other member => by
      obtain ⟨coin, inside, rfl⟩ := List.mem_map.mp member
      exact positive.2 coin inside
    rw [List.map_cons, total_cons] at short
    dsimp only at worth short
    have notMore : ¬ expected < output.value := by
      rw [Int64.lt_iff_toInt_lt]
      omega
    have notSame : ¬ output.value = expected := by
      rintro rfl
      omega
    rw [choose, if_neg notMore, if_neg notSame]
    apply ih positive.2
    rw [toInt_sub_of_nonneg (by omega) worth.le]
    omega

/-- If they are, the first of them are chosen that are worth it, with the change. -/
theorem choose_of_le (positive : ∀ coin ∈ coins, 0 < coin.2.value) (needed : 0 < expected)
    (enough : expected.toInt ≤ total (coins.map Prod.snd)) :
    ∃ chosen rest change, coins = chosen ++ rest ∧
      choose expected coins = ⟨chosen.map Prod.fst, change, 0⟩ ∧ (∀ value ∈ change, 0 < value) ∧
      total (chosen.map Prod.snd) = expected.toInt + change.elim 0 Int64.toInt := by
  induction coins generalizing expected with
  | nil =>
    rw [toInt_pos_iff] at needed
    simp only [List.map_nil, total, List.sum_nil] at enough
    omega
  | cons coin coins ih =>
    obtain ⟨input, output⟩ := coin
    rw [List.forall_mem_cons] at positive
    have worth := toInt_pos_iff.mp positive.1
    have needs := toInt_pos_iff.mp needed
    rw [List.map_cons, total_cons] at enough
    dsimp only at worth enough
    rw [choose]
    by_cases more : expected < output.value
    · have less := Int64.lt_iff_toInt_lt.mp more
      have change := toInt_sub_of_nonneg worth.le needs.le
      refine ⟨[(input, output)], coins, some (output.value - expected), rfl, if_pos more, ?_, ?_⟩
      · rintro value ⟨rfl⟩
        rw [toInt_pos_iff, change]
        omega
      · simp only [total, List.map_cons, List.map_nil, List.sum_cons, List.sum_nil, Option.elim_some,
          change]
        omega
    · rw [if_neg more]
      by_cases same : output.value = expected
      · refine ⟨[(input, output)], coins, none, rfl, if_pos same, nofun, ?_⟩
        simp [total, same]
      · rw [if_neg same]
        have less : output.value.toInt < expected.toInt := by
          rw [Int64.lt_iff_toInt_lt] at more
          have differs : output.value.toInt ≠ expected.toInt := fun equal =>
            same (Int64.toInt_inj.mp equal)
          omega
        have remains := toInt_sub_of_nonneg needs.le worth.le
        obtain ⟨chosen, rest, change, rfl, chosenEq, gains, sum⟩ :=
          @ih (expected - output.value) positive.2 (toInt_pos_iff.mpr (by rw [remains]; omega))
            (by rw [remains]; omega)
        refine ⟨(input, output) :: chosen, rest, change, rfl, ?_, gains, ?_⟩
        · simp only [chosenEq, List.map_cons]
        · rw [List.map_cons, total_cons, sum, remains]
          dsimp only
          omega

end Select

/-! ## Balance -/

section Balance

variable {context} {addrtype : AddressType} {eligible : TxOutput → Bool} {address : Uint160}
  {invalid : TransferError} {assetID : Uint256} {fee : Bytes} {batchOut : List BatchOut}
  {txnfee : Fixed64} {outputs : List TxOutput}

theorem CoinSet.of_sorted (coinSet : CoinSet context.coins) :
    CoinSet (context.sortAvailableCoinsByValue addrtype) := by
  have perm := context.sort_perm (context.coins.filter fun item =>
    item.2.height ≤ context.bestHeight && item.2.addressType = addrtype)
  constructor
  · intro item member
    exact coinSet.positive item (List.mem_of_mem_filter (perm.mem_iff.mp member))
  · exact (perm.map _).nodup_iff.mpr
      (coinSet.distinct.sublist
        (List.Sublist.map (fun item : CoinItem => item.1.toOutpoint) List.filter_sublist))

theorem spendable_positive (coinSet : CoinSet context.coins) :
    ∀ coin ∈ context.spendable addrtype eligible, 0 < coin.2.value := by
  intro coin member
  obtain ⟨item, inside, found⟩ := List.mem_filterMap.mp member
  obtain ⟨output, holds, positive⟩ := coinSet.of_sorted.positive item inside
  rw [spendableCoin, holds, Option.bind_some] at found
  split_ifs at found
  cases found
  exact positive

theorem spendable_distinct (coinSet : CoinSet context.coins) :
    ((context.spendable addrtype eligible).map fun coin => coin.1.toOutpoint).Nodup := by
  have inputs (items : List CoinItem) :
      ((items.filterMap (spendableCoin eligible)).map Prod.fst).Sublist (items.map Prod.fst) := by
    induction items with
    | nil => exact List.Sublist.slnil
    | cons item items ih =>
      cases found : spendableCoin eligible item with
      | none =>
        rw [List.filterMap_cons_none found]
        exact ih.cons _
      | some coin =>
        have same : coin.1 = item.1 := by
          simp only [spendableCoin, Option.bind_eq_some_iff] at found
          obtain ⟨output, _, kept⟩ := found
          split_ifs at kept
          cases kept
          rfl
        rw [List.filterMap_cons_some found, List.map_cons, List.map_cons, same]
        exact ih.cons_cons _
  have sublist := (inputs (context.sortAvailableCoinsByValue addrtype)).map UTXOTxInput.toOutpoint
  rw [List.map_map, List.map_map] at sublist
  exact (@CoinSet.of_sorted context addrtype coinSet).distinct.sublist sublist

/-- Coins are known by their inputs. -/
theorem eq_of_map_fst {coins chosen others : List (UTXOTxInput × TxOutput)}
    (distinct : (coins.map fun coin => coin.1.toOutpoint).Nodup)
    (inside : ∀ coin ∈ chosen, coin ∈ coins) (within : ∀ coin ∈ others, coin ∈ coins)
    (same : chosen.map Prod.fst = others.map Prod.fst) : chosen = others := by
  have injective : Set.InjOn Prod.fst {coin | coin ∈ coins} := fun coin member other member' same =>
    List.inj_on_of_nodup_map distinct member member' (congrArg UTXOTxInput.toOutpoint same)
  exact PairTree.eq_of_map_eq injective inside within same

/-- The outputs of a transfer after those asked for. -/
def changeOutput (assetID : Uint256) (address : Uint160) (change : Option Fixed64) :
    List TxOutput :=
  (change.map fun value => TxOutput.mk assetID value address).toList

theorem total_changeOutput (change : Option Fixed64) :
    total (changeOutput assetID address change) = change.elim 0 Int64.toInt := by
  cases change <;> simp [changeOutput, total]

theorem changeOutput_positive {change : Option Fixed64} (gains : ∀ value ∈ change, 0 < value) :
    ∀ output ∈ changeOutput assetID address change, 0 < output.value := by
  cases change with
  | none => exact fun _ member => absurd member List.not_mem_nil
  | some value => simpa [changeOutput] using gains

theorem payChange_eq (change : Option Fixed64) :
    payChange assetID (some address) change = .ok (changeOutput assetID address change) := by
  cases change <;> rfl

theorem readFee_eq_ok : readFee fee = .ok txnfee ↔ stringToFixed64 fee = .ok txnfee ∧ 0 < txnfee := by
  rw [readFee]
  cases stringToFixed64 fee with
  | error reason => simp
  | panic => simp
  | ok value =>
    by_cases positive : 0 < value
    · simp only [positive, if_true, Outcome.ok.injEq]
      exact ⟨fun same => ⟨same, same ▸ positive⟩, And.left⟩
    · simp only [positive, if_false, reduceCtorEq, Outcome.ok.injEq, false_iff]
      rintro ⟨rfl, charged⟩
      exact positive charged

/-- A request that is read is settled by the choice of the coins. -/
theorem makeTransfer_eq (coinSet : CoinSet context.coins) (parsed : stringToFixed64 fee = .ok txnfee)
    (charged : 0 < txnfee) (asks : context.Asks assetID batchOut outputs) {selection : Selection}
    (selected : choose (wrappedTotal txnfee outputs) (context.spendable addrtype eligible) =
      selection) :
    context.makeTransfer addrtype eligible (some address) invalid assetID fee batchOut =
      if 0 < selection.expected then .error .notEnough
      else .ok (context.newTransfer selection.input
        (outputs ++ changeOutput assetID address selection.change)) := by
  have read := (@readOutputs_eq_ok context assetID invalid batchOut txnfee _ outputs).mpr ⟨asks, rfl⟩
  have select := @selectCoins_eq eligible (context.sortAvailableCoinsByValue addrtype)
    (wrappedTotal txnfee outputs) fun item member =>
      let ⟨output, holds, _⟩ := coinSet.of_sorted.positive item member
      ⟨output, holds⟩
  rw [spendable] at selected
  rw [selected] at select
  simp only [makeTransfer, readFee_eq_ok.mpr ⟨parsed, charged⟩, read, select, payChange_eq,
    Outcome.bind_ok, Outcome.pure_eq]
  by_cases short : 0 < selection.expected
  · rw [if_pos short, Outcome.require, if_neg (not_not_intro short), Outcome.bind_error]
  · rw [if_neg short, Outcome.require, if_pos short, Outcome.bind_ok]

/-- A transaction is only returned for a request that is read. -/
theorem makeTransfer_asks {changeTo : Option Uint160} {tx : Transaction}
    (made : context.makeTransfer addrtype eligible changeTo invalid assetID fee batchOut = .ok tx) :
    ∃ txnfee outputs, stringToFixed64 fee = .ok txnfee ∧ 0 < txnfee ∧
      context.Asks assetID batchOut outputs := by
  simp only [makeTransfer, Outcome.bind_eq_ok, Prod.exists] at made
  obtain ⟨txnfee, charged, expected, outputs, read, _⟩ := made
  obtain ⟨parsed, positive⟩ := readFee_eq_ok.mp charged
  exact ⟨txnfee, outputs, parsed, positive, (readOutputs_eq_ok.mp read).1⟩

theorem toInt_wrappedTotal (least : 0 ≤ txnfee.toInt + total outputs)
    (fits : txnfee.toInt + total outputs < 2 ^ 63) :
    (wrappedTotal txnfee outputs).toInt = txnfee.toInt + total outputs :=
  Int64.toInt_ofInt_of_le (by omega) fits

section Built

variable (coinSet : CoinSet context.coins) (parsed : stringToFixed64 fee = .ok txnfee)
  (charged : 0 < txnfee) (asks : context.Asks assetID batchOut outputs)

include coinSet parsed charged asks

theorem makeTransfer_of_lt
    (short : total ((context.spendable addrtype eligible).map Prod.snd) <
      (wrappedTotal txnfee outputs).toInt) :
    context.makeTransfer addrtype eligible (some address) invalid assetID fee batchOut =
      .error .notEnough := by
  rw [makeTransfer_eq coinSet parsed charged asks rfl,
    if_pos (choose_of_lt (spendable_positive coinSet) short).2]

/-- If the coins are worth the sum in 64 bits, the transfer spends that sum. -/
theorem makeTransfer_of_le (needed : 0 < wrappedTotal txnfee outputs)
    (enough : (wrappedTotal txnfee outputs).toInt ≤
      total ((context.spendable addrtype eligible).map Prod.snd)) :
    ∃ chosen rest change, context.spendable addrtype eligible = chosen ++ rest ∧
      (∀ value ∈ change, 0 < value) ∧
      total (chosen.map Prod.snd) =
        (wrappedTotal txnfee outputs).toInt + change.elim 0 Int64.toInt ∧
      context.makeTransfer addrtype eligible (some address) invalid assetID fee batchOut =
        .ok (context.newTransfer (chosen.map Prod.fst)
          (outputs ++ changeOutput assetID address change)) := by
  obtain ⟨chosen, rest, change, split, selected, gains, sum⟩ :=
    choose_of_le (spendable_positive coinSet) needed enough
  refine ⟨chosen, rest, change, split, gains, sum, ?_⟩
  rw [makeTransfer_eq coinSet parsed charged asks selected]
  exact if_neg Int64.lt_irrefl

/-- If the sum in 64 bits is not positive, the first coin is spent, if there is one, and all
of it and more is the change. -/
theorem makeTransfer_of_nonpos (nothing : ¬ 0 < wrappedTotal txnfee outputs) :
    ∃ (chosen : List (UTXOTxInput × TxOutput)) (change : Option Fixed64),
      (∀ coin ∈ chosen, coin ∈ context.spendable addrtype eligible) ∧
      total (chosen.map Prod.snd) < 2 ^ 63 ∧
      context.makeTransfer addrtype eligible (some address) invalid assetID fee batchOut =
        .ok (context.newTransfer (chosen.map Prod.fst)
          (outputs ++ changeOutput assetID address change)) := by
  cases available : context.spendable addrtype eligible with
  | nil =>
    refine ⟨[], none, nofun, by decide, ?_⟩
    rw [makeTransfer_eq coinSet parsed charged asks rfl, available]
    exact if_neg nothing
  | cons coin coins =>
    obtain ⟨input, output⟩ := coin
    have worth : 0 < output.value :=
      spendable_positive coinSet (input, output) (available ▸ List.mem_cons_self)
    have more : wrappedTotal txnfee outputs < output.value := by
      rw [toInt_pos_iff] at nothing worth
      rw [Int64.lt_iff_toInt_lt]
      omega
    refine ⟨[(input, output)], some (output.value - wrappedTotal txnfee outputs), ?_, ?_, ?_⟩
    · simp
    · simpa [total] using output.value.toInt_lt
    · have selected : choose (wrappedTotal txnfee outputs) (context.spendable addrtype eligible) =
          ⟨[input], some (output.value - wrappedTotal txnfee outputs), 0⟩ := by
        rw [available, choose, if_pos more]
      rw [makeTransfer_eq coinSet parsed charged asks selected]
      exact if_neg Int64.lt_irrefl

end Built

section

variable (coinSet : CoinSet context.coins)
include coinSet

/-- What balance says of a transfer: the outputs asked for are positive, and the coins are
worth the outputs, the change and the fee. -/
theorem Balanced.built {chosen : List (UTXOTxInput × TxOutput)} {change : Option Fixed64}
    (inside : ∀ coin ∈ chosen, coin ∈ context.spendable addrtype eligible)
    (balanced : Balanced (context.spendable addrtype eligible) txnfee
      (context.newTransfer (chosen.map Prod.fst) (outputs ++ changeOutput assetID address change))) :
    (∀ output ∈ outputs, 0 < output.value) ∧ 0 ≤ change.elim 0 Int64.toInt ∧
      total (chosen.map Prod.snd) =
        total outputs + change.elim 0 Int64.toInt + txnfee.toInt := by
  obtain ⟨others, within, inputs, sum⟩ := balanced.spends
  have positive := List.forall_mem_append.mp balanced.positive
  have same := eq_of_map_fst (spendable_distinct coinSet) inside within inputs
  refine ⟨positive.1, ?_, ?_⟩
  · rw [← total_changeOutput]
    exact total_nonneg positive.2
  · rw [← total_changeOutput, ← total_append, same]
    exact sum

/-- A request for more than 64 bits hold, or for an amount that is not positive, must fail for
lack of coins. -/
theorem sound_of_transfers
    (transfers : context.Transfers (context.spendable addrtype eligible) assetID fee batchOut
      (context.makeTransfer addrtype eligible (some address) invalid assetID fee batchOut)) :
    context.Sound (context.spendable addrtype eligible) assetID fee batchOut := by
  intro txnfee outputs parsed charged asks
  have charge := toInt_pos_iff.mp charged
  have bounds := (wrappedTotal txnfee outputs).toInt_lt
  -- what a returned transfer must satisfy, whatever was chosen for it
  have balanced {tx : Transaction}
      (made : context.makeTransfer addrtype eligible (some address) invalid assetID fee batchOut =
        .ok tx) : Balanced (context.spendable addrtype eligible) txnfee tx := by
    obtain ⟨_, parsed', balanced⟩ := transfers.1 tx made
    rw [parsed] at parsed'
    cases parsed'
    exact balanced
  by_cases needed : 0 < wrappedTotal txnfee outputs
  · by_cases short : total ((context.spendable addrtype eligible).map Prod.snd) <
        (wrappedTotal txnfee outputs).toInt
    · exact .inr ⟨needed, short⟩
    · obtain ⟨chosen, rest, change, split, gains, sum, made⟩ :=
        makeTransfer_of_le coinSet parsed charged asks needed (not_lt.mp short)
      obtain ⟨positive, -, worth⟩ := (balanced made).built coinSet
        (by rw [split]; exact fun coin => List.mem_append_left rest)
      exact .inl ⟨positive, by omega⟩
  · obtain ⟨chosen, change, inside, bounded, made⟩ :=
      makeTransfer_of_nonpos coinSet parsed charged asks needed
    obtain ⟨positive, gains, worth⟩ := (balanced made).built coinSet inside
    have least := total_nonneg positive
    rw [toInt_pos_iff, toInt_wrappedTotal (by omega) (by omega)] at needed
    omega

/-- The other way round: the sum in 64 bits is the sum, and the choice spends it. -/
theorem balanced_of_sound
    (sound : context.Sound (context.spendable addrtype eligible) assetID fee batchOut)
    {tx : Transaction}
    (made : context.makeTransfer addrtype eligible (some address) invalid assetID fee batchOut =
      .ok tx) :
    ∃ txnfee, stringToFixed64 fee = .ok txnfee ∧
      Balanced (context.spendable addrtype eligible) txnfee tx := by
  obtain ⟨txnfee, outputs, parsed, charged, asks⟩ := makeTransfer_asks made
  have charge := toInt_pos_iff.mp charged
  have enough : (wrappedTotal txnfee outputs).toInt ≤
      total ((context.spendable addrtype eligible).map Prod.snd) := by
    by_contra short
    rw [makeTransfer_of_lt coinSet parsed charged asks (not_le.mp short)] at made
    cases made
  obtain ⟨positive, fits⟩ | ⟨_, short⟩ := sound txnfee outputs parsed charged asks
  · have least := total_nonneg positive
    have exactSum := toInt_wrappedTotal (by omega) fits
    obtain ⟨chosen, rest, change, split, gains, sum, made'⟩ :=
      makeTransfer_of_le coinSet parsed charged asks (toInt_pos_iff.mpr (by omega)) enough
    rw [made] at made'
    cases made'
    have distinct := @spendable_distinct context addrtype eligible coinSet
    rw [split, List.map_append] at distinct
    refine ⟨txnfee, parsed, ?_, ?_, chosen, ?_, rfl, ?_⟩
    · exact List.forall_mem_append.mpr ⟨positive, changeOutput_positive gains⟩
    · simpa [newTransfer, Function.comp_def] using distinct.of_append_left
    · rw [split]
      exact fun coin => List.mem_append_left rest
    · rw [sum, exactSum, newTransfer, total_append, total_changeOutput]
      omega
  · exact absurd short (not_lt.mpr enough)

theorem error_of_sound
    (sound : context.Sound (context.spendable addrtype eligible) assetID fee batchOut)
    (parsed : stringToFixed64 fee = .ok txnfee) (asks : context.Asks assetID batchOut outputs)
    (short : total ((context.spendable addrtype eligible).map Prod.snd) <
      total outputs + txnfee.toInt) :
    ∃ reason,
      context.makeTransfer addrtype eligible (some address) invalid assetID fee batchOut =
        .error reason := by
  by_cases charged : 0 < txnfee
  · have charge := toInt_pos_iff.mp charged
    refine ⟨.notEnough, makeTransfer_of_lt coinSet parsed charged asks ?_⟩
    obtain ⟨positive, fits⟩ | ⟨_, less⟩ := sound txnfee outputs parsed charged asks
    · have least := total_nonneg positive
      rw [toInt_wrappedTotal (by omega) fits]
      omega
    · exact less
  · refine ⟨.invalidFee, ?_⟩
    simp only [makeTransfer, readFee, parsed, charged, if_false, Outcome.bind_error]

theorem makeTransfer_transfers_iff :
    context.Transfers (context.spendable addrtype eligible) assetID fee batchOut
        (context.makeTransfer addrtype eligible (some address) invalid assetID fee batchOut) ↔
      context.Sound (context.spendable addrtype eligible) assetID fee batchOut := by
  constructor
  · exact sound_of_transfers coinSet
  · intro sound
    exact ⟨fun _ => balanced_of_sound coinSet sound, fun _ _ => error_of_sound coinSet sound⟩

end

end Balance

/-- Built transfers balance if and only if the request is for positive amounts that add up in
64 bits, or is turned down for the sum they wrap around to. -/
theorem transfers_balance_iff (coinSet : CoinSet context.coins) (mainAccount : Uint160)
    (assetID : Uint256) (sender fee : Bytes) (batchOut : List BatchOut) :
    (context.Transfers (context.spendable .singleSign fun output => output.assetID = assetID)
        assetID fee batchOut
        (context.makeTransferTransaction (some mainAccount) assetID fee batchOut) ↔
      context.Sound (context.spendable .singleSign fun output => output.assetID = assetID)
        assetID fee batchOut) ∧
    ∀ spendAddress, context.toScriptHash sender = .ok spendAddress →
      (context.Transfers
          (context.spendable .multiSign fun output =>
            output.assetID = assetID && output.programHash = spendAddress)
          assetID fee batchOut
          (context.makeMultisigTransferTransaction assetID sender fee batchOut) ↔
        batchOut = [] ∨ context.Sound
          (context.spendable .multiSign fun output =>
            output.assetID = assetID && output.programHash = spendAddress)
          assetID fee batchOut) := by
  refine ⟨makeTransfer_transfers_iff coinSet, fun spendAddress decoded => ?_⟩
  by_cases nothing : batchOut = []
  · simp only [makeMultisigTransferTransaction, nothing, if_true, true_or, iff_true]
    exact ⟨nofun, fun _ _ _ _ _ => ⟨_, rfl⟩⟩
  · simp only [makeMultisigTransferTransaction, nothing, if_false, decoded, false_or]
    exact makeTransfer_transfers_iff coinSet

/-- A wallet with the given coins in which every text is an address. -/
def sample (coins : List CoinItem) : TransferContext where
  coins := coins
  bestHeight := 5
  sort := id
  sort_perm items := .refl items
  toScriptHash _ := .ok 7
  nonce := []
  programs _ := []

/-- A coin of five units of the asset 1. -/
def sampleCoin : CoinItem := (⟨⟨9, 0⟩, 0⟩, ⟨some ⟨1, 500000000, 7⟩, .singleSign, 3⟩)

/-- Two units and a fee of one are paid from a coin of five. -/
theorem transfers_balance_two :
    (sample [sampleCoin]).Transfers
      ((sample [sampleCoin]).spendable .singleSign fun output => output.assetID = 1) 1 [0x31]
      [⟨[], [0x32]⟩]
      ((sample [sampleCoin]).makeTransferTransaction (some 7) 1 [0x31] [⟨[], [0x32]⟩]) := by
  have coinSet : CoinSet (sample [sampleCoin]).coins := by
    constructor
    · simp [sample, sampleCoin]
    · simp [sample]
  apply (transfers_balance_iff (sample [sampleCoin]) coinSet 7 1 [] [0x31] [⟨[], [0x32]⟩]).1.mpr
  rintro txnfee outputs parsed - asks
  have one : stringToFixed64 [0x31] = .ok 100000000 := by decide +kernel
  have two : stringToFixed64 [0x32] = .ok 200000000 := by decide +kernel
  rw [one] at parsed
  cases parsed
  obtain _ | ⟨⟨amount, -, -⟩, rest⟩ := asks
  obtain _ | _ := rest
  rw [two] at amount
  injection amount with amount
  refine .inl ⟨?_, ?_⟩
  · simp [← amount]
  · rw [total_cons, ← amount]
    decide

/-- An amount of minus the fee is paid out of nothing. -/
theorem transfers_balance_negative :
    let amount := [0x2d, 0x30, 0x2e, 0x30, 0x30, 0x30, 0x30, 0x30, 0x30, 0x30, 0x31]
    CoinSet (sample []).coins ∧
      ¬ (sample []).Transfers ((sample []).spendable .singleSign fun output => output.assetID = 1) 1
        amount.tail [⟨[], amount⟩]
        ((sample []).makeTransferTransaction (some 7) 1 amount.tail [⟨[], amount⟩]) := by
  intro amount
  refine ⟨⟨nofun, List.nodup_nil⟩, fun transfers => ?_⟩
  have made : (sample []).makeTransferTransaction (some 7) 1 amount.tail [⟨[], amount⟩] =
      .ok ((sample []).newTransfer [] [⟨1, -1, 7⟩]) := by decide +kernel
  obtain ⟨_, _, balanced⟩ := transfers.1 _ made
  exact absurd (balanced.positive ⟨1, -1, 7⟩ List.mem_cons_self) (by decide)

end TransferContext

end DnaPow.Sdk
