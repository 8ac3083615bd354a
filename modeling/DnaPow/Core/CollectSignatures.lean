import DnaPow.Core.ContractContext

/-!
# Adding signatures to a transaction

The parameter of an incomplete program has a pushed signature for every signature
there is and a zero byte for every one that is missing. `ParseTransactionSig` reads both
numbers off the length of the parameter, so it takes 65 missing signatures for one that
is there; `AppendNewSignature` overwrites the byte after the signatures there are,
whether there is one or not.
-/

namespace DnaPow.Core

open DnaPow.Std Common Vm

/-- `GetUncompletedPrograms`: as `GetPrograms`, of any context. -/
def ContractContext.getUncompletedPrograms (context : ContractContext) : List Program :=
  (context.codes.zip context.parameters).map fun (code, slots) =>
    ⟨code.getD [], (slots.getD []).flatMap fun slot => pushParameter (slot.getD [])⟩

/-- The error of adding signatures. -/
inductive SignatureError where
  | missingProgram
  deriving DecidableEq, Repr

/-- `SignatureScriptLen`. -/
def signatureScriptLen : Nat := 65

namespace Transaction

/-- `ParseTransactionSig`: the signatures there are and the signatures needed. -/
def parseTransactionSig (tx : Transaction) : Outcome SignatureError (Nat × Nat) :=
  match tx.programs with
  | [] => .error .missingProgram
  | program :: _ =>
      .ok (program.parameter.length / signatureScriptLen,
        program.parameter.length % signatureScriptLen)

/-- Replace the parameter of the first program. -/
def withParameter (tx : Transaction) (parameter : Bytes) : Transaction :=
  { tx with programs := tx.programs.modifyHead fun program => ⟨program.code, parameter⟩ }

/-- `AppendNewSignature`. The parameter is cut one byte after the signatures there are,
which panics if it ends with them. -/
def appendNewSignature (sig : Bytes) : Action SignatureError Transaction Unit := do
  let program ← Action.check fun tx => .ofOption .missingProgram tx.programs.head?
  let newsig := UInt8.ofNat sig.length :: sig
  let (havesig, _) ← Action.check parseTransactionSig
  let start := havesig * signatureScriptLen
  if start + 1 ≤ program.parameter.length then
    Action.modify (withParameter · (program.parameter.take start ++ newsig ++
      program.parameter.drop (start + 1)))
  else Action.crash

/-- Calls of `AppendNewSignature`, one after the other. -/
def appendSignatures : List Bytes → Action SignatureError Transaction Unit
  | [] => pure ()
  | sig :: sigs => do
      appendNewSignature sig
      appendSignatures sigs

end Transaction

/-! ## Slots -/

/-- The parameter of a program: the signatures there are, and the missing ones. -/
def collected (signatures : List Bytes) (missing : Nat) : Bytes :=
  signatures.flatMap (UInt8.ofNat 64 :: ·) ++ List.replicate missing 0

section Slots

variable {signatures : List Bytes} {missing : Nat}
  (sizes : ∀ signature ∈ signatures, signature.length = 64)
include sizes

/-- The program of a context that has some of its signatures. -/
theorem flatMap_pushParameter :
    (signatures.map some ++ List.replicate missing none).flatMap
        (fun slot : Option Bytes => ContractContext.pushParameter (slot.getD [])) =
      collected signatures missing := by
  have missed : (List.replicate missing none).flatMap
      (fun slot : Option Bytes => ContractContext.pushParameter (slot.getD [])) =
        List.replicate missing 0 := by
    induction missing with
    | zero => rfl
    | succ missing ih =>
      rw [List.replicate_succ, List.flatMap_cons, ih]
      rfl
  rw [List.flatMap_append, missed, List.flatMap_map, collected]
  congr 1
  apply List.flatMap_congr
  intro signature member
  have size := sizes signature member
  simp [ContractContext.pushParameter, pushData, size]

theorem length_signatures : (signatures.flatMap (UInt8.ofNat 64 :: ·)).length =
    signatures.length * 65 := by
  rw [length_flatMap_of_forall fun signature member => congrArg (· + 1) (sizes signature member),
    Nat.mul_comm]

theorem length_collected : (collected signatures missing).length =
    signatures.length * 65 + missing := by
  rw [collected, List.length_append, length_signatures sizes, List.length_replicate]

end Slots

namespace Transaction

section Append

variable {tx : Transaction} {program : Program} {programs : List Program}
  {signatures : List Bytes} {missing : Nat} {sig : Bytes}

@[simp] theorem withParameter_withParameter (parameter other : Bytes) :
    (tx.withParameter parameter).withParameter other = tx.withParameter other := by
  cases tx with
  | mk _ _ _ _ _ _ programs => cases programs <;> rfl

/-- The parameter is cut at a whole number of signatures. -/
theorem run_appendNewSignature_eq (holds : tx.programs = program :: programs) :
    (appendNewSignature sig).run tx =
      if program.parameter.length / 65 * 65 + 1 ≤ program.parameter.length then
        (.ok (), tx.withParameter (program.parameter.take (program.parameter.length / 65 * 65) ++
          UInt8.ofNat sig.length :: sig ++
          program.parameter.drop (program.parameter.length / 65 * 65 + 1)))
      else (.panic, tx) := by
  by_cases inside : program.parameter.length / 65 * 65 < program.parameter.length <;>
    simp [appendNewSignature, Action.run_bind, holds, Outcome.ofOption, parseTransactionSig,
      signatureScriptLen, Nat.add_one_le_iff, inside]

theorem programs_withParameter (holds : tx.programs = program :: programs) (parameter : Bytes) :
    (tx.withParameter parameter).programs = ⟨program.code, parameter⟩ :: programs := by
  rw [withParameter, holds, List.modifyHead_cons]

variable (holds : tx.programs = program :: programs)
  (sizes : ∀ signature ∈ signatures, signature.length = 64)
include holds sizes

/-- The numbers are read off the length. -/
theorem parseTransactionSig_collected :
    (tx.withParameter (collected signatures missing)).parseTransactionSig =
      .ok (signatures.length + missing / 65, missing % 65) := by
  have length := @length_collected signatures missing sizes
  simp only [parseTransactionSig, programs_withParameter holds, length, signatureScriptLen]
  congr 2 <;> omega

/-- A signature takes the place of the first missing one, if fewer than 65 are missing. -/
theorem run_appendNewSignature (size : sig.length = 64) (few : missing + 1 < 65) :
    (appendNewSignature sig).run (tx.withParameter (collected signatures (missing + 1))) =
      (.ok (), tx.withParameter (collected (signatures ++ [sig]) missing)) := by
  have length := length_signatures sizes
  have total := @length_collected signatures (missing + 1) sizes
  have start : (collected signatures (missing + 1)).length / 65 * 65 =
      (signatures.flatMap (UInt8.ofNat 64 :: ·)).length := by omega
  rw [run_appendNewSignature_eq (programs_withParameter holds _)]
  dsimp only
  rw [start, if_pos (by omega), withParameter_withParameter, collected, collected, List.flatMap_append, List.replicate_succ]
  generalize signatures.flatMap (UInt8.ofNat 64 :: ·) = before
  rw [List.take_left, List.drop_length_add_append]
  simp [size]

/-- Once no signature is missing, the next one panics. -/
theorem run_appendNewSignature_full :
    (appendNewSignature sig).run (tx.withParameter (collected signatures 0)) =
      (.panic, tx.withParameter (collected signatures 0)) := by
  have total := @length_collected signatures 0 sizes
  rw [run_appendNewSignature_eq (programs_withParameter holds _)]
  dsimp only
  rw [if_neg (by omega)]

/-- A number of signatures, each in the place of the first missing one. -/
theorem run_appendSignatures {more : List Bytes}
    (moreSizes : ∀ signature ∈ more, signature.length = 64)
    (enough : more.length ≤ missing) (few : missing < 65) :
    (appendSignatures more).run (tx.withParameter (collected signatures missing)) =
      (.ok (), tx.withParameter (collected (signatures ++ more) (missing - more.length))) := by
  induction more generalizing signatures missing with
  | nil => simp [appendSignatures]
  | cons sig more ih =>
    obtain ⟨left, rfl⟩ : ∃ left, missing = left + 1 := ⟨missing - 1, by simp at enough; omega⟩
    have first := @run_appendNewSignature tx program programs signatures left sig holds sizes
      (moreSizes sig List.mem_cons_self) few
    have sizes' : ∀ signature ∈ signatures ++ [sig], signature.length = 64 := by
      intro signature member
      rcases List.mem_append.mp member with old | new
      · exact sizes signature old
      · exact moreSizes signature (List.mem_singleton.mp new ▸ List.mem_cons_self)
    have others := ih sizes' (fun signature member => moreSizes signature
      (List.mem_cons_of_mem _ member)) (by simpa using enough) (by omega)
    rw [appendSignatures, Action.run_bind_of_ok first, others]
    simp

end Append

/-! ## Collecting -/

/-- Signatures may be added as long as some are missing: they take the places of the
missing ones in turn, and the numbers of both are reported. -/
def Collects (tx : Transaction) (signatures : List Bytes) (missing : Nat) : Prop :=
  ∀ more : List Bytes, (∀ signature ∈ more, signature.length = 64) → more.length ≤ missing →
    ∃ after, (appendSignatures more).run tx = (.ok (), after) ∧
      after = tx.withParameter (collected (signatures ++ more) (missing - more.length)) ∧
      after.parseTransactionSig =
        .ok (signatures.length + more.length, missing - more.length)

/-- Once all the signatures are there, another one is refused and changes nothing. -/
def RefusesMore (tx : Transaction) (missing : Nat) : Prop :=
  ∀ more : List Bytes, (∀ signature ∈ more, signature.length = 64) → more.length = missing →
    ∀ after, (appendSignatures more).run tx = (.ok (), after) →
      ∀ sig : Bytes, sig.length = 64 →
        ∃ reason, (appendNewSignature sig).run after = (.error reason, after)

/-- Signatures are collected if at most 64 are missing. One more than there is room for
is not refused: it panics. -/
theorem collects_iff {context : ContractContext} {code : Option Bytes} {codes : List (Option Bytes)}
    {others : List (Option (List (Option Bytes)))} {signatures : List Bytes} {missing : Nat}
    {tx : Transaction} (hasCode : context.codes = code :: codes)
    (hasSlots : context.parameters =
      some (signatures.map some ++ List.replicate missing none) :: others)
    (sizes : ∀ signature ∈ signatures, signature.length = 64)
    (programs : tx.programs = context.getUncompletedPrograms) :
    (tx.Collects signatures missing ↔ missing ≤ 64) ∧
      ¬ (tx.Collects signatures missing ∧ tx.RefusesMore missing) := by
  have holds : tx.programs = ⟨code.getD [], collected signatures missing⟩ ::
      (ContractContext.getUncompletedPrograms ⟨[], codes, others, 0⟩) := by
    rw [programs, ContractContext.getUncompletedPrograms, hasCode, hasSlots, List.zip_cons_cons,
      List.map_cons]
    dsimp only
    rw [Option.getD_some, flatMap_pushParameter sizes]
    rfl
  have same : tx = tx.withParameter (collected signatures missing) := by
    rw [withParameter, holds, List.modifyHead_cons, ← holds]
  have few : tx.Collects signatures missing → missing ≤ 64 := by
    intro collects
    obtain ⟨after, runs, -, numbers⟩ := collects [] nofun (Nat.zero_le _)
    obtain rfl : tx = after := (Prod.mk.inj runs).2
    rw [same, parseTransactionSig_collected holds sizes] at numbers
    simp only [Outcome.ok.injEq, Prod.mk.injEq, List.length_nil] at numbers
    omega
  refine ⟨⟨few, fun enough more moreSizes room => ?_⟩, fun ⟨collects, refuses⟩ => ?_⟩
  · refine ⟨_, ?_, rfl, ?_⟩
    · conv_lhs => rw [same]
      exact run_appendSignatures holds sizes moreSizes room (by omega)
    · rw [parseTransactionSig_collected holds]
      · simp only [Outcome.ok.injEq, Prod.mk.injEq, List.length_append]
        omega
      · intro signature member
        exact (List.mem_append.mp member).elim (sizes signature) (moreSizes signature)
  · let more : List Bytes := List.replicate missing (List.replicate 64 0)
    have moreSizes : ∀ signature ∈ more, signature.length = 64 := by
      intro signature member
      rw [List.eq_of_mem_replicate member, List.length_replicate]
    have full : more.length = missing := List.length_replicate
    obtain ⟨after, runs, rfl, -⟩ := collects more moreSizes full.le
    obtain ⟨reason, refused⟩ := refuses more moreSizes full _ runs (List.replicate 64 0) rfl
    rw [full, Nat.sub_self, run_appendNewSignature_full holds] at refused
    · cases (Prod.mk.inj refused).1
    · intro signature member
      exact (List.mem_append.mp member).elim (sizes signature) (moreSizes signature)

/-- A transfer that waits for a number of signatures of one contract. -/
def waiting (missing : Nat) : Transaction where
  payloadVersion := 0
  payload := .transferAsset
  attributes := []
  utxoInputs := []
  outputs := []
  lockTime := 0
  programs := ContractContext.getUncompletedPrograms
    ⟨[], [none], [some (List.replicate missing none)], 0⟩

theorem collects_iff_waiting : ((waiting 2).Collects [] 2 ↔ 2 ≤ 64) ∧
    ¬ ((waiting 2).Collects [] 2 ∧ (waiting 2).RefusesMore 2) :=
  @collects_iff ⟨[], [none], [some (List.replicate 2 none)], 0⟩ none [] [] [] 2 (waiting 2) rfl rfl
    nofun rfl

/-- The second signature of a contract that needs one panics, and a contract that waits
for 65 signatures is taken to have one and to need no other. -/
theorem collects_fails :
    ((appendSignatures [List.replicate 64 7]).run (waiting 1)).1 = .ok () ∧
      ((appendSignatures [List.replicate 64 7, List.replicate 64 8]).run (waiting 1)).1 = .panic ∧
      (waiting 65).parseTransactionSig = .ok (1, 0) := by
  decide

end Transaction

end DnaPow.Core
