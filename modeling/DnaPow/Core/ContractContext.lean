import DnaPow.Core.ContractKind

/-!
# Collecting signatures

`ContractContext` collects a code and its parameters for every program hash of a
datum. The slot that the next signature of a multi-signature contract is written to
is counted in the context itself, and it is counted on from one contract to the next.
-/

namespace DnaPow.Core

open DnaPow.Std Common Vm

/-- `ContractContext`. What is nil in the source is missing here. -/
structure ContractContext where
  programHashes : List Uint160
  codes : List (Option Bytes)
  parameters : List (Option (List (Option Bytes)))
  tempParaIndex : Nat
  deriving DecidableEq, Repr

/-- The errors of signing. -/
inductive SignError where
  | parametersNotSupported
  | noContract
  | noAccount
  | noAccountDetected
  | signature
  deriving DecidableEq, Repr

namespace ContractContext

/-- `NewContractContext`. -/
def new (programHashes : List Uint160) : ContractContext :=
  ⟨programHashes, List.replicate programHashes.length none,
    List.replicate programHashes.length none, 0⟩

/-- `GetIndex`, and what `Add` makes of a hash that is not there. -/
def getIndex (programHashes : List Uint160) (programHash : Uint160) : Nat :=
  (programHashes.findIdx? (· = programHash)).getD 0

/-- `Add`: write a parameter, allocating the slots of the contract first. Indexes out
of range panic, a negative one among them. -/
def add (contract : Contract) (index : Int) (parameter : Bytes) :
    Action SignError ContractContext Unit where
  run context :=
    let i := getIndex context.programHashes contract.programHash
    match context.codes[i]?, context.parameters[i]? with
    | some code, some slots =>
        let slots := slots.getD (List.replicate contract.parameters.length none)
        let codes := context.codes.set i (some (code.getD contract.code))
        if 0 ≤ index ∧ index < slots.length then
          (.ok (), ⟨context.programHashes, codes,
            context.parameters.set i (some (slots.set index.toNat (some parameter))),
            context.tempParaIndex⟩)
        else
          (.panic, ⟨context.programHashes, codes, context.parameters.set i (some slots),
            context.tempParaIndex⟩)
    | _, _ => (.panic, context)

/-- The place of the signature among the parameters, which there may be only one of;
-1 if there is none. -/
def signatureIndex (parameters : List ContractParameterType) : Outcome SignError Int :=
  parameters.zipIdx.foldlM (fun index parameter =>
    if parameter.1 = .signature then
      if 0 ≤ index then .error .parametersNotSupported else .ok parameter.2
    else .ok index) (-1)

/-- `AddContract`. The public key it is given is not used. -/
def addContract (contract : Contract) (parameter : Bytes) :
    Action SignError ContractContext Unit := do
  match ← Action.check fun _ => contract.getType with
  | .multiSigContract => do
      add contract (← Action.get).tempParaIndex parameter
      Action.modify fun context =>
        { context with tempParaIndex :=
            if context.tempParaIndex + 1 = contract.parameters.length then 0
            else context.tempParaIndex + 1 }
  | _ => do
      add contract (← Action.check fun _ => signatureIndex contract.parameters) parameter

/-- `IsCompleted`. -/
def isCompleted (context : ContractContext) : Bool :=
  context.parameters.all fun slots =>
    match slots with
    | none => false
    | some slots => slots.all Option.isSome

/-- One parameter in a program. -/
def pushParameter (parameter : Bytes) : Bytes :=
  if parameter.length ≤ 2 then pushNumber (ofNatBytes parameter) else pushData parameter

/-- `GetPrograms`: none unless the context is complete. -/
def getPrograms (context : ContractContext) : List Program :=
  if context.isCompleted then
    (context.codes.zip context.parameters).map fun (code, slots) =>
      ⟨code.getD [], (slots.getD []).flatMap fun slot => pushParameter (slot.getD [])⟩
  else []

/-! ## Writing parameters

The context of a datum as it stands while the contract of one of its hashes is
signed: the entries before it, its own entry and the ones after it. -/

section Write

/-- The entries before and after the one of a program hash. -/
structure Surroundings (hash : Uint160) where
  hashes : List Uint160
  codesBefore : List (Option Bytes)
  codesAfter : List (Option Bytes)
  slotsBefore : List (Option (List (Option Bytes)))
  slotsAfter : List (Option (List (Option Bytes)))
  place : getIndex hashes hash = codesBefore.length
  same : slotsBefore.length = codesBefore.length

/-- The context with the given entry in its place. -/
def Surroundings.holding {hash : Uint160} (around : Surroundings hash) (code : Option Bytes)
    (slots : Option (List (Option Bytes))) (temp : Nat) : ContractContext :=
  ⟨around.hashes, around.codesBefore ++ code :: around.codesAfter,
    around.slotsBefore ++ slots :: around.slotsAfter, temp⟩

/-- The slots of a contract once they are allocated. -/
abbrev slotsOf (contract : Contract) (slots : Option (List (Option Bytes))) : List (Option Bytes) :=
  slots.getD (List.replicate contract.parameters.length none)

variable {code : Option Bytes} {slots : Option (List (Option Bytes))} {temp : Nat}
  {contract : Contract} {parameter : Bytes} (around : Surroundings contract.programHash)

theorem getIndex_append {before after : List Uint160} {hash : Uint160} (absent : hash ∉ before) :
    getIndex (before ++ hash :: after) hash = before.length := by
  have none : before.findIdx? (· = hash) = none := by
    rw [List.findIdx?_eq_none_iff]
    intro other member
    exact decide_eq_false fun same => absent (same ▸ member)
  simp [getIndex, List.findIdx?_append, none, List.findIdx?_cons]

theorem run_add (index : Nat) :
    (add contract index parameter).run (around.holding code slots temp) =
      if index < (slotsOf contract slots).length then
        (.ok (), around.holding (some (code.getD contract.code))
          (some ((slotsOf contract slots).set index (some parameter))) temp)
      else (.panic, around.holding (some (code.getD contract.code))
        (some (slotsOf contract slots)) temp) := by
  obtain ⟨hashes, codesBefore, codesAfter, slotsBefore, slotsAfter, place, same⟩ := around
  have codeEntry : (codesBefore ++ code :: codesAfter)[codesBefore.length]? = some code := by simp
  have slotsEntry : (slotsBefore ++ slots :: slotsAfter)[codesBefore.length]? = some slots := by
    rw [← same]
    simp
  simp only [add, Surroundings.holding, place, codeEntry, slotsEntry, Int.toNat_natCast,
    Int.natCast_nonneg, true_and, Int.ofNat_lt]
  simp only [List.set_append_right _ _ (le_refl codesBefore.length),
    List.set_append_right _ _ same.le, same, Nat.sub_self, List.set_cons_zero]

/-- A standard contract has one slot. -/
theorem run_addContract_standard (isStandard : contract.getType (ε := SignError) =
    .ok .signatureContract) (one : contract.parameters = [.signature]) :
    (addContract contract parameter).run (around.holding none none temp) =
      (.ok (), around.holding (some contract.code) (some [some parameter]) temp) := by
  have index : signatureIndex contract.parameters = .ok (0 : Nat) := by rw [one]; rfl
  simp only [addContract, Action.run_bind, Action.run_check, isStandard, index]
  rw [run_add, slotsOf, one]
  rfl

section

variable (isMultiSig : contract.getType (ε := SignError) = .ok .multiSigContract)
  (size : (slotsOf contract slots).length = contract.parameters.length)
include isMultiSig size

/-- The next slot of a multi-signature contract. -/
theorem run_addContract_multiSig (inside : temp < contract.parameters.length) :
    (addContract contract parameter).run (around.holding code slots temp) =
      (.ok (), around.holding (some (code.getD contract.code))
        (some ((slotsOf contract slots).set temp (some parameter)))
        (if temp + 1 = contract.parameters.length then 0 else temp + 1)) := by
  simp only [addContract, Action.run_bind, Action.run_check, isMultiSig, Action.run_get]
  rw [show (around.holding code slots temp).tempParaIndex = temp from rfl, run_add, size,
    if_pos inside]
  rfl

theorem run_addContract_panic (outside : ¬ temp < contract.parameters.length) :
    ∃ after, (addContract contract parameter).run (around.holding code slots temp) =
      (.panic, after) := by
  simp only [addContract, Action.run_bind, Action.run_check, isMultiSig, Action.run_get]
  rw [show (around.holding code slots temp).tempParaIndex = temp from rfl, run_add, size,
    if_neg outside]
  exact ⟨_, rfl⟩

end

end Write

end ContractContext

end DnaPow.Core
