import DnaPow.Core.SingleSig
import DnaPow.Std.Matching

/-!
# Multi-signature authorisation

The redeem script of `m` out of `n` keys pushes `m`, the keys, `n`, and runs
`CHECKMULTISIG`, which matches the signatures below greedily with the keys. On
acceptance the parameter has pushed exactly `m` strings and each of them verifies
under a key of its own (`multiSig_authorised`). Signatures that are each valid
for one key only are accepted in every order, as long as `PushData` and the
engine agree on what is pushed.
-/

namespace DnaPow.Core

open DnaPow.Std Common Vm Handler

variable {ε : Type} (crypto : Primitives) (message : Bytes) (maxSteps : Int)

/-! ## The opcode -/

section Opcode

variable {engine : ExecutionEngine} {below keys : List Pushed} {m : Nat}

/-- `CHECKMULTISIG` from the keys on. -/
private def checkSignatures (n : Nat) : Handler Unit := do
  let pubkeys ← popByteArrays n
  let m ← popInt
  if m < 1 ∨ m > n ∨ (← count) < m then Action.throw .reported else do
    let signatures ← popByteArrays m.toNat
    pushBoolean (← orCrash (matchSignatures crypto message signatures pubkeys))

private theorem length_numbered (below keys : List Pushed) (m : Nat) :
    (below ++ [numberPushed m] ++ keys).length = below.length + keys.length + 1 := by
  simp only [List.length_append, List.length_singleton]
  omega

private theorem length_counted (below keys : List Pushed) (m n : Nat) :
    (below ++ [numberPushed m] ++ keys ++ [numberPushed n]).length =
      below.length + keys.length + 2 := by
  simp only [List.length_append, List.length_singleton]
  omega

/-- The engine with the keys of a multi-signature check charged. -/
private def charged (engine : ExecutionEngine) (n : Nat) : ExecutionEngine :=
  { engine with opCount := engine.opCount + n }

section

variable
  (holds : Holds engine (below ++ [numberPushed m] ++ keys ++ [numberPushed keys.length]))
  (few : keys.length ≤ 24)
include holds few

/-- Without a signature, `CHECKMULTISIG` faults. -/
private theorem opCheckMultiSig_none (none : below = []) :
    ∃ after, (opCheckMultiSig crypto message verificationMaxSteps).run engine =
        (.error .reported, after) ∧ after.state = engine.state := by
  obtain ⟨popped, poppedN, held, same⟩ := holds.popInt
  rw [numberPushed_toInt, wrap64_of_range (by omega) (by omega)] at poppedN
  have total := length_numbered below keys m
  have least : wrap64 (keys.length + 2 : Int) = keys.length + 2 :=
    wrap64_of_range (by omega) (by omega)
  have nothing : below.length = 0 := List.length_eq_zero_iff.mpr none
  simp only [opCheckMultiSig, Action.run_bind, holds.count, length_counted]
  split_ifs
  · exact ⟨engine, rfl, rfl⟩
  · simp only [Action.run_bind, poppedN, held.count, total, least]
    rw [if_pos (by omega)]
    exact ⟨popped, rfl, same.state⟩

/-- With a signature, `CHECKMULTISIG` pops the number of keys and charges them. -/
private theorem opCheckMultiSig_some (some : below ≠ []) (keyed : 1 ≤ keys.length)
    (start : -2 ^ 63 ≤ engine.opCount)
    (within : engine.opCount ≤ verificationMaxSteps) :
    ∃ after, SameControl (charged engine keys.length) after ∧
      Holds after (below ++ [numberPushed m] ++ keys) ∧
      (opCheckMultiSig crypto message verificationMaxSteps).run engine =
        if verificationMaxSteps < engine.opCount + keys.length then (.error .reported, after)
        else (checkSignatures crypto message keys.length).run after := by
  have limit : verificationMaxSteps = 1200 := rfl
  obtain ⟨popped, poppedN, held, same⟩ := holds.popInt
  rw [numberPushed_toInt, wrap64_of_range (by omega) (by omega)] at poppedN
  have sum : wrap64 (popped.opCount + keys.length) = engine.opCount + keys.length := by
    rw [same.opCount, wrap64_of_range (by omega) (by omega)]
  have least : wrap64 (keys.length + 2 : Int) = keys.length + 2 :=
    wrap64_of_range (by omega) (by omega)
  have total := length_numbered below keys m
  have positive := List.length_pos_iff.mpr some
  have held' : Holds { popped with opCount := engine.opCount + keys.length }
    (below ++ [numberPushed m] ++ keys) := held
  refine ⟨{ popped with opCount := engine.opCount + keys.length },
    ⟨same.invocationStack, rfl, same.state, same.context⟩, held', ?_⟩
  simp only [opCheckMultiSig, Action.run_bind, holds.count, length_counted]
  rw [if_neg (by omega)]
  simp only [Action.run_bind, poppedN, held.count, total, least]
  rw [if_neg (by omega)]
  simp only [Action.run_bind, chargeSteps, Action.run_modify, Action.run_get, sum]
  have small : makeable 24 (keys.length : Int) := ⟨by omega, by omega⟩
  split_ifs with beyond
  · rfl
  · simp only [Action.run_pure]
    rfl

end

/-- From the keys on, `CHECKMULTISIG` faults on too few signatures. -/
private theorem checkSignatures_few (holds : Holds engine (below ++ [numberPushed m] ++ keys))
    (few : keys.length ≤ 24) (inside : 1 ≤ m ∧ m ≤ keys.length) (short : below.length < m) :
    ∃ after, (checkSignatures crypto message keys.length).run engine =
        (.error .reported, after) ∧ after.state = engine.state := by
  obtain ⟨keysPopped, poppedKeys, held, sameKeys⟩ := holds.popByteArrays
  obtain ⟨popped, poppedM, held, same⟩ := held.popInt
  rw [numberPushed_toInt, wrap64_of_range (by omega) (by omega)] at poppedM
  refine ⟨popped, ?_, (sameKeys.trans same).state⟩
  simp only [checkSignatures, Action.run_bind, poppedKeys, poppedM, held.count]
  rw [if_pos (by omega), Action.run_throw]

/-- From the keys on, `CHECKMULTISIG` pops everything and matches. -/
private theorem checkSignatures_enough {signatures : List Pushed}
    (holds : Holds engine (below ++ signatures ++ [numberPushed signatures.length] ++ keys))
    (few : keys.length ≤ 24)
    (inside : 1 ≤ signatures.length ∧ signatures.length ≤ keys.length) :
    ∃ popped, SameControl engine popped ∧ Holds popped below ∧
      (checkSignatures crypto message keys.length).run engine =
        (orCrash (matchSignatures crypto message (signatures.reverse.map Pushed.toBytes)
          (keys.reverse.map Pushed.toBytes)) >>= pushBoolean).run popped := by
  obtain ⟨keysPopped, poppedKeys, held, sameKeys⟩ := holds.popByteArrays
  obtain ⟨popped, poppedM, held, sameM⟩ := held.popInt
  rw [numberPushed_toInt, wrap64_of_range (by omega) (by omega)] at poppedM
  have count := held.count
  obtain ⟨final, poppedSigs, left, same⟩ := held.popByteArrays
  refine ⟨final, (sameKeys.trans sameM).trans same, left, ?_⟩
  simp only [checkSignatures, Action.run_bind, poppedKeys, poppedM, count]
  rw [if_neg (by simp only [List.length_append]; omega)]
  simp only [Int.toNat_natCast, Action.run_bind, poppedSigs]

end Opcode

/-! ## The redeem script -/

section Script

variable {engine : ExecutionEngine} {pushed keys : List Pushed} {opCount : Int} {m : Nat}

/-- `CHECKMULTISIG` faults unless there are enough signatures and the keys can be charged. -/
theorem Ready.checkMultiSig_faults
    (ready : Ready engine (pushed ++ [numberPushed m] ++ keys ++ [numberPushed keys.length])
      opCount [0xae])
    (few : keys.length ≤ 24) (inside : 1 ≤ m ∧ m ≤ keys.length)
    (short : pushed.length < m ∨ verificationMaxSteps < wrap64 (opCount + 1) + keys.length)
    (fuel : Nat) :
    ∃ final, (runOps crypto message verificationMaxSteps (fuel + 1)).run engine =
        (.ok (), final) ∧ final.state = VMState.fault := by
  obtain rfl := ready.opCount
  by_cases steps : wrap64 (engine.opCount + 1) ≤ verificationMaxSteps
  · have holds : Holds (engine.moved (wrap64 (engine.opCount + 1)) [])
      (pushed ++ [numberPushed m] ++ keys ++ [numberPushed keys.length]) := ready.holds
    obtain ⟨after, faults, same⟩ : ∃ after,
        (opCheckMultiSig crypto message verificationMaxSteps).run
          (engine.moved (wrap64 (engine.opCount + 1)) []) = (.error .reported, after) ∧
        after.state = engine.state := by
      by_cases none : pushed = []
      · exact opCheckMultiSig_none crypto message holds few none
      · obtain ⟨after, same, held, ran⟩ := opCheckMultiSig_some crypto message holds few none
          (by omega) (le_wrap64 _) steps
        rw [moved_opCount] at ran
        split_ifs at ran with beyond
        · exact ⟨after, ran, same.state⟩
        · obtain ⟨final, faults, state⟩ := checkSignatures_few crypto message held few inside
            (short.resolve_right beyond)
          exact ⟨final, ran.trans faults, state.trans same.state⟩
    exact ready.reported crypto message _ (by decide) steps rfl faults same fuel
  · exact ready.fault crypto message _ (by decide) (not_le.mp steps) fuel

section

variable {below signatures : List Pushed}
  (ready : Ready engine (below ++ signatures ++ [numberPushed signatures.length] ++ keys ++
    [numberPushed keys.length]) opCount [0xae])
  (few : keys.length ≤ 24)
  (inside : 1 ≤ signatures.length ∧ signatures.length ≤ keys.length)
  (steps : wrap64 (opCount + 1) + keys.length ≤ verificationMaxSteps) (fuel : Nat)
include ready few inside steps

/-- `CHECKMULTISIG` with enough signatures matches the topmost ones with the keys. -/
private theorem opCheckMultiSig_run :
    ∃ popped, popped.state = engine.state ∧ popped.invocationStack = engine.invocationStack ∧
      popped.context.reader = [] ∧ Holds popped below ∧
      (opCheckMultiSig crypto message verificationMaxSteps).run
          (engine.moved (wrap64 (engine.opCount + 1)) []) =
        (orCrash (matchSignatures crypto message (signatures.reverse.map Pushed.toBytes)
          (keys.reverse.map Pushed.toBytes)) >>= pushBoolean).run popped := by
  obtain rfl := ready.opCount
  have holds : Holds (engine.moved (wrap64 (engine.opCount + 1)) []) (below ++ signatures ++
    [numberPushed signatures.length] ++ keys ++ [numberPushed keys.length]) := ready.holds
  have some : below ++ signatures ≠ [] := by
    have : signatures ≠ [] := List.length_pos_iff.mp inside.1
    simp [this]
  obtain ⟨charged, same, held, ran⟩ := opCheckMultiSig_some crypto message holds few some
    (by omega) (le_wrap64 _) (by rw [moved_opCount]; omega)
  rw [moved_opCount, if_neg (not_lt.mpr steps)] at ran
  obtain ⟨popped, sameKeys, left, matched⟩ := checkSignatures_enough crypto message held few inside
  have all := same.trans sameKeys
  exact ⟨popped, all.state, all.invocationStack, by rw [all.context]; rfl, left,
    ran.trans matched⟩

/-- `CHECKMULTISIG` with enough signatures replaces them by the verdict. -/
theorem Ready.checkMultiSig {verdict : Bool}
    (matched : matchSignatures crypto message (signatures.reverse.map Pushed.toBytes)
      (keys.reverse.map Pushed.toBytes) = some verdict) :
    ∃ items final, (runOps crypto message verificationMaxSteps (fuel + 1)).run engine =
        (.ok (), final) ∧
      final.evaluationStack = items ++ [Item.boolean verdict] ∧
      items.length = below.length ∧ final.state = VMState.none ∧
      final.invocationStack = [] := by
  obtain ⟨popped, state, contexts, done, left, ran⟩ :=
    opCheckMultiSig_run crypto message ready few inside steps
  have handled := ready.handler crypto message verificationMaxSteps (by decide) (by omega) rfl
  refine ⟨_, { popped with evaluationStack := _ }, ?_, rfl, left.length,
    state.trans ready.state, contexts.trans ready.invocationStack⟩
  rw [runOps_next crypto message _ ready.reader (handled.trans ?_)]
  · exact runOps_done crypto message _ fuel done
  · simp only [runHandler, ran, matched, orCrash, pushBoolean, pushItem, Action.run_bind,
      Action.run_pure, Action.run_modify, RandomAccessStack.push_eq]

/-- `CHECKMULTISIG` panics when a call of `VerifySignature` does. -/
theorem Ready.checkMultiSig_panic
    (panics : matchSignatures crypto message (signatures.reverse.map Pushed.toBytes)
      (keys.reverse.map Pushed.toBytes) = none) :
    ∃ final, (runOps crypto message verificationMaxSteps (fuel + 1)).run engine =
      (.panic, final) := by
  obtain ⟨popped, _, _, _, _, ran⟩ := opCheckMultiSig_run crypto message ready few inside steps
  rw [panics] at ran
  exact ⟨popped, ready.panic crypto message _ (by decide) (by omega) rfl ran fuel⟩

end

end Script

variable {m : Nat} {keys : List PubKey} {code : Bytes}

/-- The pushes of the redeem script. -/
private def redeemPushes (m : Nat) (keys : List PubKey) : List Bytes :=
  pushNumber m :: keys.map (fun pubkey => pushData pubkey.encodePoint) ++ [pushNumber keys.length]

/-- The encoded keys as values on the stack. -/
private def keyValues (keys : List PubKey) : List Pushed :=
  keys.map fun pubkey => .bytes pubkey.encodePoint

private theorem keyValues_toBytes (keys : List PubKey) :
    (keyValues keys).map Pushed.toBytes = keys.map PubKey.encodePoint := by
  simp [keyValues, Pushed.toBytes, Function.comp_def]

private def redeemValues (m : Nat) (keys : List PubKey) : List Pushed :=
  numberPushed m :: keyValues keys ++ [numberPushed keys.length]

private theorem append_redeemValues (pushed : List Pushed) (m : Nat) (keys : List PubKey) :
    pushed ++ redeemValues m keys =
      pushed ++ [numberPushed m] ++ keyValues keys ++ [numberPushed (keyValues keys).length] := by
  simp [redeemValues, keyValues]

private theorem redeemPushes_each (inside : 1 ≤ m ∧ m ≤ keys.length) (few : keys.length ≤ 24) :
    List.Forall₂ PushesOne (redeemPushes m keys) (redeemValues m keys) := by
  have key : ∀ pubkey : PubKey,
      PushesOne (pushData pubkey.encodePoint) (.bytes pubkey.encodePoint) := fun pubkey => by
    obtain ⟨nonempty, short⟩ := encodePoint_length pubkey
    exact pushesOne_pushData nonempty (by omega)
  refine .cons (pushesOne_pushNumber (by omega) (by omega)) (List.rel_append ?_
    (.cons (pushesOne_pushNumber (by omega) (by omega)) .nil))
  simp only [keyValues, List.forall₂_map_left_iff, List.forall₂_map_right_iff, List.forall₂_same]
  exact fun pubkey _ => key pubkey

/-- Inside the allowed range the redeem script consists of its pushes and `CHECKMULTISIG`. -/
theorem createMultiSigRedeemScript_eq {sorter : KeySort} {pubkeys : List PubKey}
    (inside : 1 ≤ m ∧ m ≤ pubkeys.length) (few : pubkeys.length ≤ 24)
    (created : createMultiSigRedeemScript (ε := ε) sorter m pubkeys = .ok code) :
    code = (redeemPushes m (sorter.sort pubkeys)).flatten ++ [0xae] := by
  rw [createMultiSigRedeemScript, if_neg (not_not.mpr ⟨inside.1, inside.2, few⟩)] at created
  split_ifs at created with panics
  obtain rfl := Outcome.ok.inj created
  simp [redeemPushes, (sorter.perm pubkeys).length_eq, List.flatMap_def]

/-- The redeem script brings its numbers and keys on the stack. -/
private theorem runOps_multiSig (inside : 1 ≤ m ∧ m ≤ keys.length) (few : keys.length ≤ 24)
    (script : code = (redeemPushes m keys).flatten ++ [0xae]) {opCount : Int}
    (start : wrap64 opCount = opCount) (pushed : List Pushed) :
    ∃ fuel next, (runOps crypto message maxSteps code.length).run
        (pushed.foldl place (codeStart code opCount)) =
          (runOps crypto message maxSteps (fuel + 1)).run next ∧
      Ready next (pushed ++ redeemValues m keys) (wrap64 (opCount + (keys.length + 2)))
        [0xae] := by
  have each := redeemPushes_each inside few
  have begins := ready_codeStart code opCount pushed
  rw [script] at begins
  obtain ⟨fuel, length⟩ := Nat.exists_eq_add_of_le (length_le_flatten each)
  obtain ⟨next, ran, ready⟩ := begins.pushAll crypto message maxSteps each start (fuel + 1)
  refine ⟨fuel, next, ?_, ?_⟩
  · rw [← ran, ← script]
    congr 2
    rw [script, List.length_append, length, List.length_singleton]
    omega
  · have count : (redeemValues m keys).length = keys.length + 2 := by simp [redeemValues, keyValues]
    rw [count] at ready
    exact_mod_cast ready

/-- Exactly when a program with a multi-signature redeem script is accepted. -/
theorem checkResult_multiSig_iff (inside : 1 ≤ m ∧ m ≤ keys.length) (few : keys.length ≤ 24)
    (script : code = (redeemPushes m keys).flatten ++ [0xae]) (parameter : Bytes) :
    (checkResult (runProgram crypto message ⟨code, parameter⟩) :
        Outcome (ValidationError ε) Unit) = .ok () ↔
      ∃ pushed opCount, parameterPushes parameter = some (pushed, opCount) ∧
        wrap64 (opCount + (keys.length + 3)) + keys.length ≤ 1200 ∧ pushed.length = m ∧
        matchSignatures crypto message (pushed.map Pushed.toBytes).reverse
          (keys.map PubKey.encodePoint).reverse = some true := by
  cases pushes : parameterPushes parameter with
  | none =>
    obtain ⟨final, ran, faulted⟩ := runProgram_fault crypto message ⟨code, parameter⟩ pushes
    rw [ran]
    simpa using checkResult_fault faulted
  | some found =>
    obtain ⟨pushed, opCount⟩ := found
    have range := opCount_of_pushes pushes (by decide)
    have start : wrap64 opCount = opCount := wrap64_of_range range.1 range.2
    have limit : verificationMaxSteps = 1200 := rfl
    obtain ⟨fuel, next, stepped, ready⟩ :=
      runOps_multiSig crypto message verificationMaxSteps inside few script start pushed
    rw [append_redeemValues] at ready
    simp only [Option.some.injEq, Prod.mk.injEq, existsAndEq, true_and]
    have keyCount : (keyValues keys).length = keys.length := List.length_map _
    rw [← keyCount] at few inside ready ⊢
    have count : wrap64 (wrap64 (opCount + ((keyValues keys).length + 2)) + 1) =
        wrap64 (opCount + ((keyValues keys).length + 3)) := by
      rw [wrap64_wrap64_add, add_assoc, add_assoc]
      rfl
    by_cases enough : m ≤ pushed.length ∧
        wrap64 (opCount + ((keyValues keys).length + 3)) + (keyValues keys).length ≤ 1200
    · -- the topmost `m` strings are matched, the others stay below the verdict
      obtain ⟨reached, steps⟩ := enough
      obtain ⟨below, signatures, rfl, rfl⟩ : ∃ below signatures : List Pushed,
          pushed = below ++ signatures ∧ m = signatures.length :=
        ⟨pushed.take (pushed.length - m), pushed.drop (pushed.length - m),
          (List.take_append_drop ..).symm, by rw [List.length_drop]; omega⟩
      have keyBytes : (keyValues keys).reverse.map Pushed.toBytes =
          (keys.map PubKey.encodePoint).reverse := by rw [List.map_reverse, keyValues_toBytes]
      have sigBytes : below = [] → signatures.reverse.map Pushed.toBytes =
          ((below ++ signatures).map Pushed.toBytes).reverse := by
        rintro rfl
        rw [List.map_reverse, List.nil_append]
      cases matched : matchSignatures crypto message (signatures.reverse.map Pushed.toBytes)
          ((keyValues keys).reverse.map Pushed.toBytes) with
      | none =>
        obtain ⟨final, ran⟩ := ready.checkMultiSig_panic crypto message few inside
          (by rw [count, limit]; exact steps) fuel matched
        rw [runProgram_panic crypto message pushes (stepped.trans ran)]
        simp only [checkResult, reduceCtorEq, false_iff]
        rintro ⟨_, number, accepted⟩
        have none : below = [] := List.length_eq_zero_iff.mp (by simpa using number)
        rw [← sigBytes none, ← keyBytes, matched] at accepted
        simp at accepted
      | some verdict =>
        obtain ⟨items, final, ran, stack, length, state, contexts⟩ :=
          ready.checkMultiSig crypto message few inside (by rw [count, limit]; exact steps) fuel
            matched
        rw [runProgram_halts crypto message pushes final (stepped.trans ran) state contexts]
        cases below with
        | nil =>
          rw [List.length_eq_zero_iff.mp length] at stack
          rw [checkResult_single _ _ stack (fun _ => rfl), ← sigBytes rfl, ← keyBytes, matched]
          simp [steps]
        | cons first others =>
          have many : final.evaluationStack.length ≠ 1 := by simp [stack, length]
          refine iff_of_false (checkResult_count many) ?_
          rintro ⟨_, number, _⟩
          simp only [List.length_append, List.length_cons] at number
          omega
    · obtain ⟨final, ran, faulted⟩ := ready.checkMultiSig_faults crypto message few inside
        (by rw [count, limit]; omega) fuel
      rw [runProgram_codeFault crypto message pushes (stepped.trans ran) faulted]
      refine iff_of_false (checkResult_fault faulted) ?_
      rintro ⟨steps, reached, _⟩
      exact enough ⟨reached.ge, steps⟩

/-! ## Signatures and key positions -/

/-- Every signature verifies under exactly one key position, no two under the same. -/
def OneKeyEach (verify : Bytes → Bytes → Bool) (pubkeys : List PubKey) (sigs : List Bytes) :
    Prop :=
  ∃ positions : List (Fin pubkeys.length), positions.Nodup ∧
    List.Forall₂ (fun sig position =>
      ∀ other, verify sig (pubkeys.get other).encodePoint = true ↔ other = position) sigs positions

/-- A permutation of a list visits its positions in some order. -/
private theorem exists_order_of_perm {keys pubkeys : List PubKey} (perm : keys.Perm pubkeys) :
    ∃ order : List (Fin pubkeys.length), order.Perm (List.finRange pubkeys.length) ∧
      keys = order.map pubkeys.get := by
  have positions : List.Forall₂ (fun key position => key = pubkeys.get position) pubkeys
      (List.finRange pubkeys.length) := by
    rw [← List.forall₂_map_right_iff, List.map_get_finRange, List.forall₂_eq_eq_eq]
  obtain ⟨order, each, visited⟩ := List.perm_comp_forall₂ perm positions
  refine ⟨order, visited, ?_⟩
  rwa [← List.forall₂_eq_eq_eq, List.forall₂_map_right_iff]

/-- Whether `VerifySignature` returns true. -/
def verifies (signature pubkey : Bytes) : Bool :=
  crypto.verifySignature message signature pubkey = some true

theorem takeKey_eq {signature : Bytes} {pubkeys : List Bytes} {result : Option (List Bytes)}
    (taken : takeKey crypto message signature pubkeys = some result) :
    result = (pubkeys.findIdx? (verifies crypto message signature)).map pubkeys.eraseIdx := by
  induction pubkeys generalizing result with
  | nil => simpa [takeKey, eq_comm] using taken
  | cons pubkey pubkeys ih =>
    simp only [takeKey, Option.bind_eq_bind] at taken
    obtain ⟨verdict, verified, taken⟩ := Option.bind_eq_some_iff.mp taken
    cases verdict with
    | true =>
      have first : verifies crypto message signature pubkey = true := by simp [verifies, verified]
      simpa [List.findIdx?_cons, first, eq_comm] using taken
    | false =>
      have other : verifies crypto message signature pubkey = false := by simp [verifies, verified]
      simp only [Bool.false_eq_true, if_false, Option.bind_eq_some_iff] at taken
      obtain ⟨rest, found, taken⟩ := taken
      obtain rfl := Option.some.inj taken
      rw [ih found]
      simp [List.findIdx?_cons, other, Function.comp_def]

/-- A matching loop that returns has matched greedily. -/
theorem greedyMatch_of_matchSignatures {signatures pubkeys : List Bytes} {verdict : Bool}
    (matched : matchSignatures crypto message signatures pubkeys = some verdict) :
    greedyMatch (verifies crypto message) signatures pubkeys = verdict := by
  induction signatures generalizing pubkeys with
  | nil => simpa [matchSignatures, greedyMatch] using matched
  | cons signature signatures ih =>
    simp only [matchSignatures, Option.bind_eq_bind] at matched
    obtain ⟨taken, found, matched⟩ := Option.bind_eq_some_iff.mp matched
    rw [takeKey_eq crypto message found] at matched
    rw [greedyMatch]
    cases index : pubkeys.findIdx? (verifies crypto message signature) with
    | none => simpa [index] using matched
    | some index' => exact ih (by simpa [index] using matched)

/-- The matching loop returns if every verification it may make does. -/
theorem exists_matchSignatures {signatures pubkeys : List Bytes}
    (total : ∀ signature ∈ signatures, ∀ pubkey ∈ pubkeys,
      ∃ verdict, crypto.verifySignature message signature pubkey = some verdict) :
    ∃ verdict, matchSignatures crypto message signatures pubkeys = some verdict := by
  have takes : ∀ signature pubkeys, (∀ pubkey ∈ pubkeys,
      ∃ verdict, crypto.verifySignature message signature pubkey = some verdict) →
      ∃ result, takeKey crypto message signature pubkeys = some result := by
    intro signature pubkeys returns
    induction pubkeys with
    | nil => exact ⟨_, rfl⟩
    | cons pubkey pubkeys ih =>
      obtain ⟨verdict, verified⟩ := returns pubkey List.mem_cons_self
      obtain ⟨result, found⟩ := ih fun other member => returns other (List.mem_cons_of_mem _ member)
      cases verdict <;> simp [takeKey, verified, found]
  induction signatures generalizing pubkeys with
  | nil => exact ⟨_, rfl⟩
  | cons signature signatures ih =>
    obtain ⟨result, found⟩ := takes signature pubkeys (total signature List.mem_cons_self)
    cases result with
    | none => exact ⟨false, by simp [matchSignatures, found]⟩
    | some left =>
      -- The keys that are left are among those there were.
      obtain ⟨index, -, rfl⟩ := Option.map_eq_some_iff.mp (takeKey_eq crypto message found).symm
      have rest := @ih (pubkeys.eraseIdx index) fun other member pubkey isLeft =>
        total other (List.mem_cons_of_mem _ member) pubkey (List.mem_of_mem_eraseIdx isLeft)
      simpa [matchSignatures, found] using rest

section Total

variable (verify : Bytes → Bytes → Bytes → Bool)

/-- The primitives with a total verification predicate. -/
def verifyingBy : Primitives :=
  { crypto with verifySignature := fun message sig pubkey => some (verify message sig pubkey) }

theorem verifies_verifyingBy (sig pubkey : Bytes) :
    verifies (verifyingBy crypto verify) message sig pubkey = verify message sig pubkey := by
  simp [verifies, verifyingBy]

/-- With a total predicate the matching loop returns. -/
theorem matchSignatures_verifyingBy (signatures pubkeys : List Bytes) :
    matchSignatures (verifyingBy crypto verify) message signatures pubkeys =
      some (greedyMatch (verify message) signatures pubkeys) := by
  obtain ⟨verdict, matched⟩ := exists_matchSignatures (verifyingBy crypto verify) message
    fun signature (_ : signature ∈ signatures) pubkey (_ : pubkey ∈ pubkeys) =>
      ⟨verify message signature pubkey, rfl⟩
  have greedy := greedyMatch_of_matchSignatures _ message matched
  have same : verifies (verifyingBy crypto verify) message = verify message :=
    funext₂ (verifies_verifyingBy crypto message verify)
  rw [matched, ← greedy, same]

end Total

section Matching

variable (accepts : Bytes → Bytes → Bool) {keys pubkeys : List PubKey} (perm : keys.Perm pubkeys)
  {strings : List Bytes}
include perm

private theorem exists_order_greedyMatch :
    ∃ order : List (Fin pubkeys.length), order.Perm (List.finRange pubkeys.length) ∧
      greedyMatch accepts strings.reverse (keys.map PubKey.encodePoint).reverse =
        greedyMatch (fun sig position => accepts sig (pubkeys.get position).encodePoint)
          strings.reverse order := by
  obtain ⟨order, visited, same⟩ := exists_order_of_perm (keys.reverse_perm.trans perm)
  refine ⟨order, visited, ?_⟩
  rw [← List.map_reverse, same, List.map_map, greedyMatch_map]
  rfl

/-- Matched strings are accepted at distinct positions of the key list. -/
theorem exists_positions_of_greedyMatch
    (matched : greedyMatch accepts strings.reverse (keys.map PubKey.encodePoint).reverse = true) :
    ∃ positions : List (Fin pubkeys.length), positions.Nodup ∧
      List.Forall₂ (fun sig position => accepts sig (pubkeys.get position).encodePoint = true)
        strings positions := by
  obtain ⟨order, visited, same⟩ := exists_order_greedyMatch accepts perm
  have distinct : order.Nodup := visited.nodup_iff.mpr (List.nodup_finRange _)
  obtain ⟨taken, nodup, _, each⟩ := exists_offers_of_greedyMatch distinct (same ▸ matched)
  refine ⟨taken.reverse, List.nodup_reverse.mpr nodup, ?_⟩
  rwa [← List.forall₂_reverse_iff, List.reverse_reverse]

/-- Strings with one key position each are matched. -/
theorem greedyMatch_of_oneKeyEach (each : OneKeyEach accepts pubkeys strings) :
    greedyMatch accepts strings.reverse (keys.map PubKey.encodePoint).reverse = true := by
  obtain ⟨order, visited, same⟩ := exists_order_greedyMatch accepts perm
  obtain ⟨positions, nodup, only⟩ := each
  have distinct : order.Nodup := visited.nodup_iff.mpr (List.nodup_finRange _)
  rw [same]
  refine greedyMatch_of_forced distinct (List.nodup_reverse.mpr nodup)
    (fun position _ => visited.mem_iff.mpr (List.mem_finRange position)) ?_
  exact List.forall₂_reverse_iff.mpr (only.imp fun _ _ forced other _ => forced other)

end Matching

/-! ## Authorisation -/

/-- What the engine pushes for the `PushData` of a string of less than 65536 bytes. -/
def pushedFor (sig : Bytes) : Bytes :=
  if sig = [] then [0] else sig

/-- What a parameter made of signatures pushes. -/
theorem parameterPushes_flatMap_pushData {sigs : List Bytes}
    (short : ∀ sig ∈ sigs, sig.length < 0x10000) (few : sigs.length < 2 ^ 63) :
    parameterPushes (sigs.flatMap pushData) =
      some (sigs.map fun sig => Pushed.bytes (pushedFor sig), (sigs.length : Int)) := by
  have each : List.Forall₂ PushesOne (sigs.map pushData)
      (sigs.map fun sig => Pushed.bytes (pushedFor sig)) := by
    rw [List.forall₂_map_left_iff, List.forall₂_map_right_iff, List.forall₂_same]
    intro sig member
    by_cases empty : sig = []
    · simpa [pushedFor, empty] using pushesOne_pushData_nil
    · simpa [pushedFor, empty] using pushesOne_pushData empty (short sig member)
  rw [parameterPushes, List.flatMap_def, pushes_flatten each (length_le_flatten each) (by decide),
    List.length_map, zero_add, wrap64_of_range (by omega) (by omega)]

/-- The empty string among the signatures is never matched: the engine pushes a
zero byte for it, and if that is itself one of the signatures it verifies under
one key position only. -/
private theorem empty_notMem_of_positions {pubkeys : List PubKey} {sigs : List Bytes}
    {verify : Bytes → Bytes → Bool} (each : OneKeyEach verify pubkeys sigs)
    {positions : List (Fin pubkeys.length)} (nodup : positions.Nodup)
    (matched : List.Forall₂ (fun sig position => sig ∈ sigs ∧
      verify sig (pubkeys.get position).encodePoint = true) (sigs.map pushedFor) positions) :
    [] ∉ sigs := by
  intro member
  rw [List.forall₂_map_left_iff, List.forall₂_iff_get] at matched
  obtain ⟨sameLength, matched⟩ := matched
  obtain ⟨i, bound, empty⟩ := List.getElem_of_mem member
  obtain ⟨zeroMember, firstAt⟩ := matched i bound (sameLength ▸ bound)
  rw [List.get_eq_getElem, empty] at zeroMember firstAt
  obtain ⟨j, bound', zero⟩ := List.getElem_of_mem zeroMember
  obtain ⟨_, secondAt⟩ := matched j bound' (sameLength ▸ bound')
  rw [List.get_eq_getElem, zero] at secondAt
  obtain ⟨targets, _, only⟩ := each
  obtain ⟨targetLength, only⟩ := List.forall₂_iff_get.mp only
  have one := only j bound' (targetLength ▸ bound')
  rw [List.get_eq_getElem, zero] at one
  have same := ((one _).mp firstAt).trans ((one _).mp secondAt).symm
  obtain rfl : i = j := by simpa using nodup.injective_get.eq_iff.mp same
  exact absurd (empty.symm.trans zero) (by decide)

/-- Multi-signature authorisation. Acceptance means that the strings pushed verify
at distinct key positions. Conversely, signatures with one key position each are
accepted whatever the signature scheme exactly when none of them is empty. -/
theorem multiSig_authorisation (crypto : Primitives) (message : Bytes) (sorter : KeySort)
    (m : Nat) (pubkeys : List PubKey) (code : Bytes)
    (inside : 1 ≤ m ∧ m ≤ pubkeys.length) (few : pubkeys.length ≤ 24)
    (created : createMultiSigRedeemScript (ε := ε) sorter m pubkeys = .ok code) :
    (∀ (hashes : Outcome ε (List Uint160)) (parameter : Bytes),
      verifySignableData crypto ⟨hashes, [⟨code, parameter⟩], message⟩ = .ok () →
        ∃ (positions : List (Fin pubkeys.length)) (strings : List Bytes),
          positions.Nodup ∧ positions.length = m ∧
          strings.Subperm (pushedStrings crypto message parameter) ∧
          List.Forall₂ (fun sig position =>
            crypto.verifySignature message sig (pubkeys.get position).encodePoint = some true)
            strings positions) ∧
    (∀ sigs : List Bytes, sigs.length = m → (∀ sig ∈ sigs, sig.length < 0x10000) →
      (∃ verify, OneKeyEach verify pubkeys sigs) →
      ((∀ verify : Bytes → Bytes → Bytes → Bool, OneKeyEach (verify message) pubkeys sigs →
          verifySignableData (ε := ε)
            { crypto with verifySignature := fun message sig key => some (verify message sig key) }
            ⟨.ok [crypto.toCodeHash code], [⟨code, sigs.flatMap pushData⟩], message⟩ = .ok ()) ↔
        [] ∉ sigs)) := by
  have perm := sorter.perm pubkeys
  have script := createMultiSigRedeemScript_eq inside few created
  rw [← perm.length_eq] at inside few
  refine ⟨fun hashes parameter accepted => ?_, fun sigs number short possible => ?_⟩
  · rw [verifySignableData_single, checkResult_multiSig_iff crypto message inside few script]
      at accepted
    obtain ⟨_, pushed, opCount, pushes, _, number, matched⟩ := accepted
    obtain ⟨positions, nodup, each⟩ := exists_positions_of_greedyMatch _ perm
      (greedyMatch_of_matchSignatures crypto message matched)
    refine ⟨positions, _, nodup, ?_, ?_, each.imp fun _ _ valid => of_decide_eq_true valid⟩
    · rw [← each.length_eq, List.length_map, number]
    · rw [pushedStrings_eq crypto message pushes]
  · have accepted : ∀ verify : Bytes → Bytes → Bytes → Bool,
        verifySignableData (ε := ε) (verifyingBy crypto verify)
            ⟨.ok [crypto.toCodeHash code], [⟨code, sigs.flatMap pushData⟩], message⟩ = .ok () ↔
          greedyMatch (verify message) (sigs.map pushedFor).reverse
            ((sorter.sort pubkeys).map PubKey.encodePoint).reverse = true := fun verify => by
      have count : wrap64 (m + ((sorter.sort pubkeys).length + 3)) =
          m + ((sorter.sort pubkeys).length + 3) := wrap64_of_range (by omega) (by omega)
      have steps : wrap64 (m + ((sorter.sort pubkeys).length + 3)) +
          (sorter.sort pubkeys).length ≤ 1200 := by omega
      rw [verifySignableData_single, checkResult_multiSig_iff _ message inside few script,
        parameterPushes_flatMap_pushData short (by omega)]
      have same : (verifyingBy crypto verify).toCodeHash code = crypto.toCodeHash code := rfl
      simp [same, matchSignatures_verifyingBy, steps, number, Pushed.toBytes, Function.comp_def]
    change (∀ verify, OneKeyEach (verify message) pubkeys sigs →
      verifySignableData (verifyingBy crypto verify) _ = .ok ()) ↔ _
    simp only [accepted]
    constructor
    · -- a scheme that knows the signatures only does not accept what an empty one turns into
      intro always
      obtain ⟨verify, each⟩ := possible
      have limited : OneKeyEach (fun sig key => decide (sig ∈ sigs) && verify sig key)
          pubkeys sigs := by
        obtain ⟨positions, nodup, only⟩ := each
        have known := (List.forall₂_and_left _ _).mpr ⟨fun _ member => member, only⟩
        refine ⟨positions, nodup, known.imp ?_⟩
        rintro sig position ⟨member, only⟩
        simpa [member] using only
      obtain ⟨positions, nodup, matched⟩ := exists_positions_of_greedyMatch _ perm
        (always (fun _ sig key => decide (sig ∈ sigs) && verify sig key) limited)
      exact empty_notMem_of_positions each nodup (matched.imp fun _ _ both => by simpa using both)
    · intro nonempty verify each
      have same : sigs.map pushedFor = sigs := by
        refine (List.map_congr_left fun sig member => ?_).trans (List.map_id sigs)
        rw [pushedFor, if_neg (ne_of_mem_of_not_mem member nonempty), id]
      rw [same]
      exact greedyMatch_of_oneKeyEach _ perm each

/-- One signature for one key. -/
theorem multiSig_authorisation_single :
    verifySignableData (ε := Unit)
      { Primitives.polynomial with verifySignature := fun _ sig _ => some (sig = [7]) }
      ⟨.ok [Primitives.polynomial.toCodeHash
          (pushNumber 1 ++ pushData (PubKey.point 5 7).encodePoint ++ pushNumber 1 ++ [0xae])],
        [⟨pushNumber 1 ++ pushData (PubKey.point 5 7).encodePoint ++ pushNumber 1 ++ [0xae],
          pushData [7]⟩], []⟩ = .ok () := by
  have each : OneKeyEach (fun sig _ => sig = [7]) [.point 5 7] [[7]] :=
    ⟨[0], by simp, .cons (by decide) .nil⟩
  have both := multiSig_authorisation (ε := Unit) Primitives.polynomial [] ⟨id, fun _ => .refl _⟩ 1
    [.point 5 7] _ ⟨le_rfl, le_rfl⟩ (by decide) rfl
  exact (both.2 [[7]] rfl (by simp) ⟨_, each⟩).mpr (by simp) (fun _ sig _ => sig = [7]) each

/-- A scheme under which the empty string is the one signature of the one key:
the push of the empty string puts a zero byte on the stack, which is rejected. -/
theorem multiSig_empty_signature_rejected :
    OneKeyEach (fun sig _ => sig = []) [.point 5 7] [[]] ∧
    createMultiSigRedeemScript (ε := Unit) ⟨id, fun _ => .refl _⟩ 1 [.point 5 7] =
      .ok (pushNumber 1 ++ pushData (PubKey.point 5 7).encodePoint ++ pushNumber 1 ++ [0xae]) ∧
    verifySignableData (ε := Unit)
      { Primitives.polynomial with verifySignature := fun _ sig _ => some (sig = []) }
      ⟨.ok [Primitives.polynomial.toCodeHash
          (pushNumber 1 ++ pushData (PubKey.point 5 7).encodePoint ++ pushNumber 1 ++ [0xae])],
        [⟨pushNumber 1 ++ pushData (PubKey.point 5 7).encodePoint ++ pushNumber 1 ++ [0xae],
          pushData []⟩], []⟩ = .error .checkSigFalse := by
  refine ⟨⟨[0], by simp, .cons (by decide) .nil⟩, rfl, ?_⟩
  decide +kernel

end DnaPow.Core
