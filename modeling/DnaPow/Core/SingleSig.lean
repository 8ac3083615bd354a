import DnaPow.Core.ProgramRun

/-!
# Single-signature authorisation

The redeem script of one key pushes the key and runs `CHECKSIG`. With a
signature below the key, `CHECKSIG` replaces both by the verdict. With nothing
below the key it returns `FAULT` without an error value, the engine goes on, and
the key itself stays on the stack as the (true) result.

`verify_single_iff` says exactly when verification succeeds, and
`singleSig_authorised_iff` when that implies that a pushed string is a valid
signature.
-/

namespace DnaPow.Core

open DnaPow.Std Common Vm Handler

variable {ε : Type} (crypto : Primitives) (message : Bytes)

/-! ## Strings pushed by a parameter -/

/-- The byte strings on the evaluation stack after the engine has run a
parameter on its own. -/
def pushedStrings (parameter : Bytes) : List Bytes :=
  let engine := ((execute crypto message verificationMaxSteps).run
    (ExecutionEngine.new.loadScript parameter true)).2
  engine.evaluationStack.filterMap fun item => ((getByteArray item).run engine).1.toOption

theorem Holds.filterMap_getByteArray {engine : ExecutionEngine} {values : List Pushed}
    (holds : Holds engine values) :
    (engine.evaluationStack.filterMap fun item => ((getByteArray item).run engine).1.toOption) =
      values.map Pushed.toBytes := by
  unfold Vm.Holds at holds
  generalize engine.evaluationStack = stack at holds
  induction holds with
  | nil => rfl
  | cons denotes _ ih =>
    simp [getByteArray_denotes denotes, ih]

theorem pushedStrings_eq {parameter : Bytes} {pushed : List Pushed} {opCount : Int}
    (pushes : parameterPushes parameter = some (pushed, opCount)) :
    pushedStrings crypto message parameter = pushed.map Pushed.toBytes := by
  have ran : (execute crypto message verificationMaxSteps).run
      (ExecutionEngine.new.loadScript parameter true) =
        (.ok (), { pushed.foldl place ((parameterStart [] parameter).moved opCount []) with
          state := VMState.halt }) := by
    have same := placeAll_sameControl ((parameterStart [] parameter).moved opCount []) pushed
    refine (execute_parameter crypto message [] parameter).trans ?_
    rw [Action.run_bind, runOps_parameter crypto message [] Nat.zero_lt_two pushes]
    exact runSteps_empty crypto message _ _ same.state same.invocationStack
  have holds : Holds ((parameterStart [] parameter).moved opCount []) [] := .nil
  rw [pushedStrings, ran]
  exact Holds.filterMap_getByteArray (holds.placeAll pushed)

/-! ## The verdict -/

/-- `VerifySignableData` on a datum with one program. -/
theorem verifySignableData_single (hashes : Outcome ε (List Uint160)) (program : Program) :
    verifySignableData crypto ⟨hashes, [program], message⟩ = .ok () ↔
      hashes = .ok [crypto.toCodeHash program.code] ∧
        (checkResult (runProgram crypto message program) : Outcome (ValidationError ε) Unit) =
          .ok () := by
  cases hashes with
  | ok list =>
    simp only [verifySignableData, Outcome.bind_eq_ok, Outcome.require_eq_ok, List.length_singleton,
      Outcome.ok.injEq]
    constructor
    · rintro ⟨_, one, verified⟩
      obtain ⟨hash, rfl⟩ := List.length_eq_one_iff.mp one
      simp only [verifyPrograms, verifyProgram, Outcome.bind_eq_ok, Outcome.require_eq_ok]
        at verified
      obtain ⟨_, ⟨_, rfl, checked⟩, _⟩ := verified
      exact ⟨rfl, checked⟩
    · rintro ⟨rfl, checked⟩
      simp [verifyPrograms, verifyProgram, checked]
  | error reason => simp [verifySignableData]
  | panic => simp [verifySignableData]

/-- A run that faulted is rejected. -/
theorem checkResult_fault {final : ExecutionEngine} (faulted : final.state = VMState.fault) :
    (checkResult (.ok (), final) : Outcome (ValidationError ε) Unit) ≠ .ok () := by
  simp [checkResult, faulted, VMState.fault, VMState.halt]

/-- A run that halted with other than one item is rejected. -/
theorem checkResult_count {final : ExecutionEngine} (many : final.evaluationStack.length ≠ 1) :
    (checkResult (.ok (), { final with state := VMState.halt }) :
      Outcome (ValidationError ε) Unit) ≠ .ok () := by
  simp [checkResult, RandomAccessStack.count, many]

/-- A run that halted with one item is accepted when that item is true. -/
theorem checkResult_single (final : ExecutionEngine) (item : Item) {value : Bool}
    (one : final.evaluationStack = [item])
    (truth : ∀ engine, (getBoolean item).run engine = (.ok value, engine)) :
    (checkResult (.ok (), { final with state := VMState.halt }) :
      Outcome (ValidationError ε) Unit) = .ok () ↔ value = true := by
  have popped : popBoolean.run { final with state := VMState.halt } =
      (.ok value, { final with state := VMState.halt, evaluationStack := [] }) := by
    have top := RandomAccessStack.pop_append [] item
    simp only [List.nil_append] at top
    simp [popBoolean, Action.run_bind, popItem, one, top, truth]
  simp only [checkResult, RandomAccessStack.count, popped]
  cases value <;> simp [one]

/-! ## Running the redeem script -/

variable (maxSteps : Int)

section

variable {engine : ExecutionEngine} {values : List Pushed} {sig key : Pushed} {opCount : Int}
  (ready : Ready engine (values ++ [sig] ++ [key]) opCount [0xac])
  (steps : wrap64 (opCount + 1) ≤ maxSteps) (fuel : Nat)
include ready

/-- `CHECKSIG` with two or more values pops the top two and verifies. -/
private theorem opCheckSig_run :
    ∃ popped, SameControl (engine.moved (wrap64 (engine.opCount + 1)) []) popped ∧
      Holds popped values ∧
      (opCheckSig crypto message).run (engine.moved (wrap64 (engine.opCount + 1)) []) =
        (orCrash (crypto.verifySignature message sig.toBytes key.toBytes) >>= pushBoolean).run
          popped := by
  have holds : Holds (engine.moved (wrap64 (engine.opCount + 1)) []) (values ++ [sig] ++ [key]) :=
    ready.holds
  obtain ⟨keyPopped, below⟩ := holds.popByteArray
  obtain ⟨sigPopped, held⟩ := below.popByteArray
  have enough : ¬ (values ++ [sig] ++ [key]).length < 2 := by simp
  refine ⟨_, (dropTop_sameControl _).trans (dropTop_sameControl _), held, ?_⟩
  simp only [opCheckSig, needCount, Action.run_bind, holds.count, enough, if_false,
    Action.run_pure, keyPopped, sigPopped]

include steps

/-- `CHECKSIG` with two or more values replaces the top two by the verdict. -/
theorem Ready.checkSig {verdict : Bool}
    (verified : crypto.verifySignature message sig.toBytes key.toBytes = some verdict) :
    ∃ items final, (runOps crypto message maxSteps (fuel + 1)).run engine = (.ok (), final) ∧
      final.evaluationStack = items ++ [Item.boolean verdict] ∧
      items.length = values.length ∧ final.state = VMState.none ∧
      final.invocationStack = [] := by
  obtain ⟨popped, same, held, ran⟩ := opCheckSig_run crypto message ready
  refine ⟨_, { popped with evaluationStack := _ }, ?_, rfl, held.length,
    same.state.trans ready.state, same.invocationStack.trans ready.invocationStack⟩
  have handled := ready.handler crypto message maxSteps (by decide) steps rfl
  rw [runOps_next crypto message maxSteps ready.reader (handled.trans ?_)]
  · exact runOps_done crypto message maxSteps fuel (by rw [same.context]; rfl)
  · simp only [runHandler, ran, verified, orCrash, pushBoolean, pushItem, Action.run_bind,
      Action.run_pure, Action.run_modify, RandomAccessStack.push_eq]

/-- `CHECKSIG` panics when `VerifySignature` does. -/
theorem Ready.checkSig_panic
    (panics : crypto.verifySignature message sig.toBytes key.toBytes = none) :
    ∃ final, (runOps crypto message maxSteps (fuel + 1)).run engine = (.panic, final) := by
  obtain ⟨popped, _, _, ran⟩ := opCheckSig_run crypto message ready
  rw [panics] at ran
  exact ⟨popped, ready.panic crypto message maxSteps (by decide) steps rfl ran fuel⟩

end

/-- `CHECKSIG` with fewer values does nothing. -/
theorem Ready.checkSig_few {engine : ExecutionEngine} {values : List Pushed} {opCount : Int}
    (ready : Ready engine values opCount [0xac]) (few : values.length < 2)
    (steps : wrap64 (opCount + 1) ≤ maxSteps) (fuel : Nat) :
    (runOps crypto message maxSteps (fuel + 1)).run engine =
      (.ok (), engine.moved (wrap64 (engine.opCount + 1)) []) := by
  have holds : Holds (engine.moved (wrap64 (engine.opCount + 1)) []) values := ready.holds
  have handled := ready.handler crypto message maxSteps (by decide) steps rfl
  rw [runOps_next crypto message maxSteps ready.reader (handled.trans ?_)]
  · exact runOps_done crypto message maxSteps fuel rfl
  · simp only [runHandler, opCheckSig, needCount, Action.run_bind, holds.count, few, if_true,
      Action.run_throw]

theorem pushData_length_ne (data : Bytes) : (pushData data).length ≠ 0 := by
  unfold pushData
  split_ifs <;> simp

theorem encodePoint_length (pubkey : PubKey) :
    pubkey.encodePoint ≠ [] ∧ pubkey.encodePoint.length ≤ 33 := by
  cases pubkey <;> simp [PubKey.encodePoint]

theorem encodePoint_nonzero (pubkey : PubKey) :
    (pubkey.encodePoint.any (· ≠ 0)) = true ↔ pubkey ≠ .infinity := by
  cases pubkey with
  | infinity => simp [PubKey.encodePoint]
  | point x y => by_cases even : y.toNat % 2 = 0 <;> simp [PubKey.encodePoint, even]

private theorem runOps_redeemScript (pubkey : PubKey) (opCount : Int) (pushed : List Pushed) :
    ∃ fuel next, (runOps crypto message maxSteps (createSignatureRedeemScript pubkey).length).run
        (pushed.foldl place (codeStart (createSignatureRedeemScript pubkey) opCount)) =
          (runOps crypto message maxSteps (fuel + 1)).run next ∧
      Ready next (pushed ++ [Pushed.bytes pubkey.encodePoint]) (wrap64 (opCount + 1)) [0xac] := by
  obtain ⟨nonempty, short⟩ := encodePoint_length pubkey
  have one := pushesOne_pushData nonempty (by omega)
  obtain ⟨fuel, length⟩ := Nat.exists_eq_succ_of_ne_zero (pushData_length_ne pubkey.encodePoint)
  have start := ready_codeStart (createSignatureRedeemScript pubkey) opCount pushed
  obtain ⟨next, stepped, ready⟩ := start.push crypto message maxSteps one (fuel + 1)
  refine ⟨fuel, next, ?_, ready⟩
  rw [← stepped]
  congr 2
  simp [createSignatureRedeemScript, length]

/-- Exactly when a program with the redeem script of one key is accepted. -/
theorem checkResult_singleSig_iff (pubkey : PubKey) (parameter : Bytes) :
    (checkResult (runProgram crypto message ⟨createSignatureRedeemScript pubkey, parameter⟩) :
        Outcome (ValidationError ε) Unit) = .ok () ↔
      ∃ pushed opCount, parameterPushes parameter = some (pushed, opCount) ∧
        wrap64 (opCount + 2) ≤ 1200 ∧
        (pushed = [] ∧ pubkey ≠ .infinity ∨
          ∃ sig, pushed = [sig] ∧
            crypto.verifySignature message sig.toBytes pubkey.encodePoint = some true) := by
  cases pushes : parameterPushes parameter with
  | none =>
    obtain ⟨final, ran, faulted⟩ := runProgram_fault crypto message
      ⟨createSignatureRedeemScript pubkey, parameter⟩ pushes
    rw [ran]
    simpa using checkResult_fault faulted
  | some found =>
    obtain ⟨pushed, opCount⟩ := found
    obtain ⟨fuel, next, stepped, ready⟩ :=
      runOps_redeemScript crypto message verificationMaxSteps pubkey opCount pushed
    simp only [Option.some.injEq, Prod.mk.injEq, existsAndEq, true_and]
    have count : wrap64 (wrap64 (opCount + 1) + 1) = wrap64 (opCount + 2) := by
      rw [wrap64_wrap64_add, add_assoc]
      rfl
    have limit : verificationMaxSteps = 1200 := rfl
    by_cases steps : wrap64 (wrap64 (opCount + 1) + 1) ≤ verificationMaxSteps
    · have within : wrap64 (opCount + 2) ≤ 1200 := by rwa [count, limit] at steps
      rcases pushed.eq_nil_or_concat' with rfl | ⟨values, sig, rfl⟩
      · -- nothing below the key: it stays on the stack as the result
        have ran := ready.checkSig_few crypto message _ (by simp) steps fuel
        rw [runProgram_halts crypto message pushes (next.moved (wrap64 (next.opCount + 1)) [])
          (stepped.trans ran) ready.state ready.invocationStack,
          checkResult_single (next.moved (wrap64 (next.opCount + 1)) [])
            (.byteArray pubkey.encodePoint)
          ready.holds.bytes_alone (fun _ => rfl), encodePoint_nonzero]
        simp [within]
      · cases verified : crypto.verifySignature message sig.toBytes pubkey.encodePoint with
        | none =>
          obtain ⟨final, ran⟩ := ready.checkSig_panic crypto message _ steps fuel verified
          rw [runProgram_panic crypto message pushes (stepped.trans ran)]
          simp only [checkResult, reduceCtorEq, false_iff]
          rintro ⟨_, ⟨none, _⟩ | ⟨other, one, valid⟩⟩
          · simp at none
          · obtain rfl : sig = other := by simpa using congrArg List.getLast? one
            exact absurd (verified.symm.trans valid) (by simp)
        | some verdict =>
          obtain ⟨items, final, ran, stack, length, state, contexts⟩ :=
            ready.checkSig crypto message _ steps fuel verified
          rw [runProgram_halts crypto message pushes final (stepped.trans ran) state contexts]
          cases values with
          | nil =>
            rw [List.length_eq_zero_iff.mp length] at stack
            rw [checkResult_single _ _ stack (fun _ => rfl)]
            simp [within, verified]
          | cons first others =>
            have many : final.evaluationStack.length ≠ 1 := by simp [stack, length]
            simpa using checkResult_count many
    · obtain ⟨final, ran, faulted⟩ := 
        ready.fault crypto message _ (by decide) (not_le.mp steps) fuel
      rw [runProgram_codeFault crypto message pushes (stepped.trans ran) faulted]
      have beyond : ¬ wrap64 (opCount + 2) ≤ 1200 := by rwa [count, limit] at steps
      simpa [beyond] using checkResult_fault faulted

/-! ## Authorisation -/

/-- A push-only script pushes nothing exactly when it consists of `RET` opcodes. -/
theorem pushes_nil_iff {maxSteps : Int} {fuel : Nat} {opCount final : Int} (script : Bytes)
    (enough : script.length ≤ fuel) (limit : maxSteps < 2 ^ 63 - 1)
    (start : 0 ≤ opCount ∧ opCount ≤ maxSteps) :
    pushes maxSteps fuel opCount script = some ([], final) ↔
      (∀ op ∈ script, op = 0x66) ∧ opCount + script.length ≤ maxSteps ∧
        final = opCount + script.length := by
  induction fuel generalizing opCount script with
  | zero =>
    obtain rfl : script = [] := List.length_eq_zero_iff.mp (by omega)
    simp [pushes, start, eq_comm]
  | succ fuel ih =>
    have count : wrap64 (opCount + 1) = opCount + 1 := wrap64_of_range (by omega) (by omega)
    cases script with
    | nil => simp [pushes, start, eq_comm]
    | cons op script =>
      rw [List.length_cons] at enough
      by_cases low : op ≤ 0x60
      · have other : op ≠ 0x66 := by rintro rfl; exact absurd low (by decide)
        have some : pushes maxSteps (fuel + 1) opCount (op :: script) ≠ some ([], final) := by
          simp only [pushes, if_pos low]
          intro found
          obtain ⟨_, _, found⟩ := Option.bind_eq_some_iff.mp found
          obtain ⟨_, _, found⟩ := Option.bind_eq_some_iff.mp found
          simp at found
        simp [some, other]
      · by_cases ret : op = 0x66 ∧ opCount + 1 ≤ maxSteps
        · obtain ⟨rfl, steps⟩ := ret
          simp only [pushes, if_neg low, count, steps, and_self, if_true,
            ih script (by omega) ⟨by omega, steps⟩, List.mem_cons, forall_eq_or_imp, true_and,
            List.length_cons, Nat.cast_add, Nat.cast_one, add_comm (script.length : Int) 1,
            add_assoc]
        · simp only [pushes, if_neg low, count, if_neg ret, List.mem_cons, forall_eq_or_imp,
            List.length_cons]
          refine iff_of_false (by simp) ?_
          rintro ⟨⟨isRet, _⟩, steps, _⟩
          push_cast at steps
          exact ret ⟨isRet, by omega⟩

/-- A parameter that pushes nothing and leaves room for the redeem script. -/
theorem parameterPushes_nil_iff (parameter : Bytes) :
    (∃ opCount, parameterPushes parameter = some ([], opCount) ∧ wrap64 (opCount + 2) ≤ 1200) ↔
      (∀ op ∈ parameter, op = 0x66) ∧ parameter.length ≤ 1198 := by
  have start : (0 : Int) ≤ 0 ∧ (0 : Int) ≤ verificationMaxSteps := by decide
  have limit : verificationMaxSteps < 2 ^ 63 - 1 := by decide
  have value : verificationMaxSteps = 1200 := rfl
  constructor
  · rintro ⟨opCount, nothing, few⟩
    obtain ⟨rets, reached, rfl⟩ := (pushes_nil_iff _ le_rfl limit start).mp nothing
    rw [wrap64_of_range (by omega) (by omega)] at few
    exact ⟨rets, by omega⟩
  · rintro ⟨rets, few⟩
    exact ⟨_, (pushes_nil_iff _ le_rfl limit start).mpr ⟨rets, by omega, rfl⟩,
      by rw [wrap64_of_range (by omega) (by omega)]; omega⟩

/-- Acceptance of a single-signature program implies that its parameter pushes a
valid signature, except when the parameter pushes nothing at all. -/
theorem singleSig_authorised_iff (crypto : Primitives) (message : Bytes)
    (hashes : Outcome ε (List Uint160)) (pubkey : PubKey) (parameter : Bytes) :
    (verifySignableData crypto
        ⟨hashes, [⟨createSignatureRedeemScript pubkey, parameter⟩], message⟩ = .ok () →
      ∃ sig ∈ pushedStrings crypto message parameter,
        crypto.verifySignature message sig pubkey.encodePoint = some true) ↔
    ¬ (hashes = .ok [crypto.toCodeHash (createSignatureRedeemScript pubkey)] ∧
      pubkey ≠ .infinity ∧ (∀ op ∈ parameter, op = 0x66) ∧ parameter.length ≤ 1198) := by
  rw [verifySignableData_single, checkResult_singleSig_iff, ← parameterPushes_nil_iff]
  constructor
  · rintro authorised ⟨matching, finite, opCount, nothing, few⟩
    obtain ⟨sig, pushed, _⟩ := authorised
      ⟨matching, [], opCount, nothing, few, .inl ⟨rfl, finite⟩⟩
    rw [pushedStrings_eq crypto message nothing] at pushed
    simp at pushed
  · rintro somePush ⟨matching, pushed, opCount, pushes, few, ⟨rfl, finite⟩ | ⟨sig, rfl, valid⟩⟩
    · exact absurd ⟨matching, finite, opCount, pushes, few⟩ somePush
    · refine ⟨sig.toBytes, ?_, valid⟩
      rw [pushedStrings_eq crypto message pushes]
      simp

/-- With an empty parameter the redeem script of a key accepts, although no
signature is valid. -/
theorem singleSig_empty_parameter_accepted :
    verifySignableData Primitives.polynomial (ε := Unit)
      ⟨.ok [Primitives.polynomial.toCodeHash (createSignatureRedeemScript (.point 5 7))],
        [⟨createSignatureRedeemScript (.point 5 7), []⟩], []⟩ = .ok () ∧
    ¬ ∃ sig ∈ pushedStrings Primitives.polynomial [] [],
      Primitives.polynomial.verifySignature [] sig (PubKey.point 5 7).encodePoint = some true := by
  refine ⟨?_, ?_⟩
  · decide +kernel
  · rintro ⟨sig, _, valid⟩
    exact absurd valid (by simp [Primitives.polynomial])

end DnaPow.Core
