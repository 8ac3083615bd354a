import DnaPow.Core.ContractContext
import DnaPow.Core.ContractScripts
import DnaPow.Ledger.TxValidator
import DnaPow.Std.Slots

/-!
# Signing with the wallet

`Sign` goes over the program hashes of a transaction and signs with the keys that the
wallet holds. A multi-signature contract gets one signature for every key held, which
may be more than it has slots: they are written around a ring. The ring begins where
the signatures of the contract before it ended.
-/

namespace DnaPow.Account

open DnaPow.Std Common Core Ledger Vm

set_option linter.dupNamespace false in
/-- `Account`; its program hash is the key it is kept under. -/
structure Account where
  privateKey : Bytes
  publicKey : PubKey
  deriving DecidableEq

/-- What `ClientImpl` holds of keys and contracts. -/
structure KeyStore where
  accounts : Uint160 → Option Account
  contracts : Uint160 → Option Contract

section Sign

variable (crypto : Primitives) (signer : Bytes → Bytes → Outcome SignError Bytes)
  (client : KeyStore) (message : Bytes)

/-- Sign with the accounts there are among the given ones; whether there is one. -/
def signKeys (contract : Contract) : List Uint160 → Action SignError ContractContext Bool
  | [] => pure false
  | hash :: hashes =>
      match client.accounts hash with
      | none => signKeys contract hashes
      | some account => do
          let signature ← Action.check fun _ => signer account.privateKey message
          ContractContext.addContract contract signature
          let _ ← signKeys contract hashes
          return true

/-- One round of the loop of `Sign`. A contract of another kind is passed over. -/
def signHash (hash : Uint160) : Action SignError ContractContext Unit :=
  match client.contracts hash with
  | none => Action.throw .noContract
  | some contract =>
      if isStandard contract.code then
        match client.accounts hash with
        | none => Action.throw .noAccount
        | some account => do
            let signature ← Action.check fun _ => signer account.privateKey message
            ContractContext.addContract contract signature
      else do
        if ← Action.check fun _ => isMultiSigContract contract.code then
          let found ← signKeys signer client message contract
            (parseMultisigTransactionCode crypto contract.code)
          if found then pure () else Action.throw .noAccountDetected
        else pure ()

/-- `Sign`. -/
def sign : List Uint160 → Action SignError ContractContext Unit
  | [] => pure ()
  | hash :: hashes => do
      signHash crypto signer client message hash
      sign hashes

end Sign

/-! ## The contracts of a transaction -/

/-- How the outputs that a transaction refers to are locked; the keys of a
multi-signature contract in the order of its script. -/
inductive Lock where
  | standard (key : PubKey)
  | multiSig (m : Nat) (keys : List PubKey)

/-- The program hash of the standard contract of a key. -/
def keyHash (crypto : Primitives) (key : PubKey) : Uint160 :=
  crypto.toCodeHash (createSignatureRedeemScript key)

section Locks

variable (crypto : Primitives) (signer : Bytes → Bytes → Outcome SignError Bytes)
  (sorter : KeySort) (client : KeyStore) (message : Bytes)

/-- The account makes signatures that verify under its own key and, among the given
ones, under no other. -/
def SignsFor (account : Account) (keys : List PubKey) : Prop :=
  ∃ signature, signer account.privateKey message = .ok signature ∧ signature.length = 64 ∧
    ∀ key ∈ keys, crypto.verifySignature message signature key.encodePoint =
      some (decide (key = account.publicKey))

/-- The keys whose accounts the wallet holds. -/
def heldKeys (keys : List PubKey) : List PubKey :=
  keys.filter fun key => (client.accounts (keyHash crypto key)).isSome

/-- The signatures of the accounts that the wallet holds. -/
def SignsWith (signatureOf : PubKey → Bytes) (keys : List PubKey) : Prop :=
  ∀ key ∈ keys, ∀ account, client.accounts (keyHash crypto key) = some account →
    signer account.privateKey message = .ok (signatureOf key)

/-- The wallet has the contract of a program hash and can sign for it. -/
def Covers (hash : Uint160) : Lock → Prop
  | .standard key => key ≠ .infinity ∧ hash = keyHash crypto key ∧
      client.contracts hash = some (createSignatureContract crypto key) ∧
      ∃ account, client.accounts hash = some account ∧ account.publicKey = key ∧
        SignsFor crypto signer message account [key]
  | .multiSig m keys => (1 ≤ m ∧ m ≤ keys.length) ∧ keys.length ≤ 24 ∧ keys.Nodup ∧
      (∀ key ∈ keys, key ≠ .infinity) ∧
      (∃ pubkeys contract, keys = sorter.sort pubkeys ∧
        createMultiSigContract (ε := Unit) crypto sorter m pubkeys = .ok contract ∧
        contract.programHash = hash ∧ client.contracts hash = some contract) ∧
      (∀ key ∈ keys, ∀ account, client.accounts (keyHash crypto key) = some account →
        account.publicKey = key ∧ SignsFor crypto signer message account keys) ∧
      m ≤ (heldKeys crypto client keys).length

/-- A multi-signature contract can be signed from the given slot on: it has from three
to sixteen keys, and the slot is one of its own. -/
def Lock.Ready (slot : Nat) : Lock → Prop
  | .standard _ => True
  | .multiSig m keys => (3 ≤ keys.length ∧ keys.length ≤ 16) ∧ slot < m

/-- The slot that the signatures for a contract lead to. -/
def Lock.next (slot : Nat) : Lock → Nat
  | .standard _ => slot
  | .multiSig m keys => (slot + (heldKeys crypto client keys).length) % m

/-- The contracts can be signed one after the other. -/
def Signable : Nat → List Lock → Prop
  | _, [] => True
  | slot, lock :: locks => lock.Ready slot ∧ Signable (lock.next crypto client slot) locks

/-- What `Sign` is for: it returns with a complete context, and the transaction with
the programs of the context is accepted. -/
def Accepted (store : ChainStore) (tx : Transaction) (hashes : List Uint160) : Prop :=
  ∃ context, (sign crypto signer client tx.getMessage hashes).run (.new hashes) =
      (.ok (), context) ∧ context.isCompleted = true ∧
    verifySignableData crypto (signableData store { tx with programs := context.getPrograms }) =
      .ok ()

end Locks

/-! ## One contract -/

section OneContract

open ContractContext

variable {crypto : Primitives} {signer : Bytes → Bytes → Outcome SignError Bytes}
  {client : KeyStore} {message : Bytes} {temp : Nat} {contract : Contract}

theorem heldKeys_cons (key : PubKey) (keys : List PubKey) :
    heldKeys crypto client (key :: keys) =
      if (client.accounts (keyHash crypto key)).isSome then key :: heldKeys crypto client keys
      else heldKeys crypto client keys := by
  unfold heldKeys
  rw [List.filter_cons]

section Keys

variable (around : Surroundings contract.programHash)
  (isMultiSig : contract.getType (ε := SignError) = .ok .multiSigContract)
include isMultiSig

/-- The signatures of the keys held go around the slots of the contract. -/
theorem run_signKeys {signatureOf : PubKey → Bytes} {keys : List PubKey}
    (signs : SignsWith crypto signer client message signatureOf keys)
    {code : Option Bytes} {slots : Option (List (Option Bytes))}
    (size : (slotsOf contract slots).length = contract.parameters.length)
    (inside : temp < contract.parameters.length) :
    let filled := fillSlots temp (slotsOf contract slots)
      ((heldKeys crypto client keys).map signatureOf)
    ∃ code' slots', (signKeys signer client message contract (keys.map (keyHash crypto))).run
        (around.holding code slots temp) =
      (.ok (decide (heldKeys crypto client keys ≠ [])), around.holding code' slots' filled.2) ∧
      (heldKeys crypto client keys = [] → code' = code ∧ slots' = slots) ∧
      (heldKeys crypto client keys ≠ [] →
        code' = some (code.getD contract.code) ∧ slots' = some filled.1) := by
  induction keys generalizing code slots temp with
  | nil => exact ⟨code, slots, rfl, fun _ => ⟨rfl, rfl⟩, fun some => absurd rfl some⟩
  | cons key keys ih =>
    have later : SignsWith crypto signer client message signatureOf keys :=
      fun other member => signs other (List.mem_cons_of_mem _ member)
    rw [List.map_cons, signKeys, heldKeys_cons]
    cases held : client.accounts (keyHash crypto key) with
    | none =>
      simp only [Option.isSome_none, Bool.false_eq_true, if_false]
      exact ih later size inside
    | some account =>
      simp only [Option.isSome_some, if_true]
      have signed := signs key List.mem_cons_self account held
      have added := @run_addContract_multiSig code slots temp contract (signatureOf key) around
        isMultiSig size inside
      have next : (if temp + 1 = contract.parameters.length then 0 else temp + 1) <
          contract.parameters.length := by split <;> omega
      obtain ⟨code', slots', ran, unchanged, changed⟩ := @ih _ later
        (some (code.getD contract.code))
        (some ((slotsOf contract slots).set temp (some (signatureOf key))))
        (by rw [slotsOf, Option.getD_some, List.length_set, size]) next
      simp only [Option.getD_some] at ran changed
      refine ⟨code', slots', ?_, fun none => absurd none (List.cons_ne_nil _ _), fun _ => ?_⟩
      · simp only [Action.run_bind, Action.run_check, signed, added, ran, Action.run_pure,
          List.map_cons, fillSlots, size, ne_eq, List.cons_ne_nil, not_false_eq_true, decide_true]
      · rw [List.map_cons, fillSlots, size]
        by_cases none : heldKeys crypto client keys = []
        · obtain ⟨rfl, rfl⟩ := unchanged none
          rw [none]
          exact ⟨rfl, rfl⟩
        · exact changed none

/-- A slot that is not one of the contract is out of range. -/
theorem run_signKeys_panic {signatureOf : PubKey → Bytes} {keys : List PubKey}
    (signs : SignsWith crypto signer client message signatureOf keys)
    (held : heldKeys crypto client keys ≠ []) (outside : ¬ temp < contract.parameters.length) :
    ∃ after, (signKeys signer client message contract (keys.map (keyHash crypto))).run
        (around.holding none none temp) = (.panic, after) := by
  induction keys with
  | nil => exact absurd rfl held
  | cons key keys ih =>
    rw [List.map_cons, signKeys]
    rw [heldKeys_cons] at held
    cases found : client.accounts (keyHash crypto key) with
    | none =>
      rw [found] at held
      exact ih (fun other member => signs other (List.mem_cons_of_mem _ member)) held
    | some account =>
      have signed := signs key List.mem_cons_self account found
      obtain ⟨after, panics⟩ := @run_addContract_panic none none temp contract (signatureOf key)
        around isMultiSig (by simp) outside
      refine ⟨after, ?_⟩
      simp only [Action.run_bind, Action.run_check, signed, panics]

end Keys

/-- The entry of a contract that has its signatures: its program is accepted. -/
def Filled (crypto : Primitives) (message : Bytes) (hash : Uint160)
    (entry : Option Bytes × Option (List (Option Bytes))) : Prop :=
  ∃ (code : Bytes) (signatures : List Bytes), entry = (some code, some (signatures.map some)) ∧
    hash = crypto.toCodeHash code ∧
    (checkResult (runProgram crypto message
        ⟨code, signatures.flatMap ContractContext.pushParameter⟩) :
      Outcome (ValidationError ReferenceError) Unit) = .ok ()

/-- What a parameter of whole signatures pushes. -/
theorem parameterPushes_signatures {signatures : List Bytes}
    (whole : ∀ signature ∈ signatures, signature.length = 64) (few : signatures.length < 2 ^ 63) :
    parameterPushes (signatures.flatMap ContractContext.pushParameter) =
      some (signatures.map Pushed.bytes, (signatures.length : Int)) := by
  have pushed : signatures.flatMap ContractContext.pushParameter = signatures.flatMap pushData := by
    refine List.flatMap_congr fun signature member => ?_
    rw [ContractContext.pushParameter, if_neg (by rw [whole signature member]; decide)]
  have nonempty : signatures.map (fun signature => Pushed.bytes (pushedFor signature)) =
      signatures.map Pushed.bytes := by
    refine List.map_congr_left fun signature member => ?_
    rw [pushedFor, if_neg]
    rintro rfl
    exact absurd (whole [] member) (by decide)
  have short : ∀ signature ∈ signatures, signature.length < 0x10000 := fun signature member => by
    rw [whole signature member]
    decide
  rw [pushed, parameterPushes_flatMap_pushData short few, nonempty]

theorem filled_standard {key : PubKey} {account : Account} {signature : Bytes}
    (isKey : account.publicKey = key) (whole : signature.length = 64)
    (verified : crypto.verifySignature message signature key.encodePoint =
      some (decide (key = account.publicKey))) :
    Filled crypto message (keyHash crypto key)
      (some (createSignatureRedeemScript key), some [some signature]) := by
  refine ⟨_, [signature], rfl, rfl, (checkResult_singleSig_iff crypto message key _).mpr ?_⟩
  have steps : wrap64 (([signature].length : Int) + 2) ≤ 1200 := by
    change wrap64 (1 + 2) ≤ 1200
    decide
  refine ⟨_, _, parameterPushes_signatures (by simpa using whole) (by simp), steps,
    .inr ⟨.bytes signature, rfl, ?_⟩⟩
  rw [isKey, decide_eq_true rfl] at verified
  exact verified

/-- Signatures of different keys are accepted in whatever order they stand. -/
theorem filled_multiSig {sorter : KeySort} {m : Nat} {pubkeys keys signers : List PubKey}
    {code : Bytes} {signatureOf : PubKey → Bytes} (inside : 1 ≤ m ∧ m ≤ keys.length)
    (few : keys.length ≤ 24) (distinct : keys.Nodup) (sorted : keys = sorter.sort pubkeys)
    (created : createMultiSigRedeemScript (ε := Unit) sorter m pubkeys = .ok code)
    (number : signers.length = m) (nodup : signers.Nodup) (members : signers ⊆ keys)
    (whole : ∀ key ∈ signers, (signatureOf key).length = 64)
    (verified : ∀ key ∈ signers, ∀ other ∈ keys,
      crypto.verifySignature message (signatureOf key) other.encodePoint =
        some (decide (other = key))) :
    Filled crypto message (crypto.toCodeHash code)
      (some code, some ((signers.map signatureOf).map some)) := by
  have perm := sorter.perm pubkeys
  have script := createMultiSigRedeemScript_eq (by rw [← perm.length_eq, ← sorted]; exact inside)
    (by rw [← perm.length_eq, ← sorted]; exact few) created
  rw [← sorted] at script
  refine ⟨code, signers.map signatureOf, rfl, rfl,
    (checkResult_multiSig_iff crypto message inside few script _).mpr ?_⟩
  refine ⟨_, _, parameterPushes_signatures (by simpa using whole)
    (by rw [List.length_map]; omega), ?_, by simpa using number, ?_⟩
  · rw [List.length_map, number, wrap64_of_range (by omega) (by omega)]
    omega
  · have strings : ((signers.map signatureOf).map Pushed.bytes).map Pushed.toBytes =
        signers.map signatureOf := by
      simp [Pushed.toBytes]
    rw [strings, ← List.map_reverse, ← List.map_reverse]
    obtain ⟨verdict, matched⟩ : ∃ verdict, Handler.matchSignatures crypto message
        (signers.reverse.map signatureOf) (keys.reverse.map PubKey.encodePoint) = some verdict := by
      refine exists_matchSignatures crypto message fun signature isSignature pubkey isKey => ?_
      obtain ⟨key, member, rfl⟩ := List.mem_map.mp isSignature
      obtain ⟨other, otherMember, rfl⟩ := List.mem_map.mp isKey
      exact ⟨_, verified key (List.mem_reverse.mp member) other (List.mem_reverse.mp otherMember)⟩
    have greedy : greedyMatch (verifies crypto message) (signers.reverse.map signatureOf)
        (keys.reverse.map PubKey.encodePoint) = true := by
      rw [greedyMatch_map]
      refine greedyMatch_of_forced (List.nodup_reverse.mpr distinct) (List.nodup_reverse.mpr nodup)
        (fun key member => List.mem_reverse.mpr (members (List.mem_reverse.mp member))) ?_
      rw [List.forall₂_map_left_iff, List.forall₂_same]
      intro key member other otherMember
      simp [verifies, verified key (List.mem_reverse.mp member) other
        (List.mem_reverse.mp otherMember)]
    rw [matched, ← greedyMatch_of_matchSignatures crypto message matched, greedy]

section Hash

variable {sorter : KeySort} {hash : Uint160} (around : Surroundings hash)

theorem run_signHash_standard {key : PubKey}
    (covers : Covers crypto signer sorter client message hash (.standard key)) :
    ∃ entry, Filled crypto message hash entry ∧
      (signHash crypto signer client message hash).run (around.holding none none temp) =
        (.ok (), around.holding entry.1 entry.2 temp) := by
  obtain ⟨finite, rfl, hasContract, account, hasAccount, isKey, signature, signed, whole, verified⟩ :=
    covers
  have standard := isStandard_redeemScript finite
  have isType : (createSignatureContract crypto key).getType (ε := SignError) =
      .ok .signatureContract := by
    simp [Contract.getType, createSignatureContract, standard]
  have added := @run_addContract_standard temp (createSignatureContract crypto key) signature
    around isType rfl
  refine ⟨_, filled_standard isKey whole (verified key (by simp)), ?_⟩
  have isStandardCode : isStandard (createSignatureContract crypto key).code = true := standard
  simp only [signHash, hasContract, isStandardCode, if_true, hasAccount, Action.run_bind,
    Action.run_check, signed]
  exact added

variable {m : Nat} {keys : List PubKey}

section

variable (covers : Covers crypto signer sorter client message hash (.multiSig m keys))
include covers

/-- What the wallet knows of a multi-signature contract. -/
theorem exists_of_covers :
    ∃ contract signatureOf, contract.programHash = hash ∧ contract.parameters.length = m ∧
      contract.getType (ε := SignError) = .ok .multiSigContract ∧
      signHash crypto signer client message hash =
        (signKeys signer client message contract
          (parseMultisigTransactionCode crypto (multiSigCode m keys)) >>= fun found =>
            if found then pure () else Action.throw .noAccountDetected) ∧
      SignsWith crypto signer client message signatureOf keys ∧
      ∀ signers : List PubKey, signers.length = m → signers.Nodup →
        signers ⊆ heldKeys crypto client keys → Filled crypto message hash
          (some contract.code, some ((signers.map signatureOf).map some)) := by
  obtain ⟨inside, few, distinct, finite, ⟨pubkeys, contract, sorted, created, isHash, hasContract⟩,
    accounts, -⟩ := covers
  obtain ⟨code, script, isContract⟩ := Outcome.bind_eq_ok.mp created
  obtain rfl := Outcome.ok.inj isContract
  have length : pubkeys.length = keys.length := by rw [sorted, (sorter.perm pubkeys).length_eq]
  have isCode : code = multiSigCode m keys := by
    rw [sorted]
    exact createMultiSigRedeemScript_eq_multiSigCode (by rwa [length]) (by rwa [length]) script
  let signatureOf (key : PubKey) : Bytes :=
    match client.accounts (keyHash crypto key) with
    | none => []
    | some account => ((signer account.privateKey message).toOption).getD []
  have signs : SignsWith crypto signer client message signatureOf keys := by
    intro key member account held
    obtain ⟨-, signature, signed, -⟩ := accounts key member account held
    simp only [signatureOf, held, signed, Outcome.toOption_ok, Option.getD_some]
  have facts : ∀ key ∈ heldKeys crypto client keys, (signatureOf key).length = 64 ∧
      ∀ other ∈ keys, crypto.verifySignature message (signatureOf key) other.encodePoint =
        some (decide (other = key)) := by
    intro key member
    obtain ⟨isKey, held⟩ := List.mem_filter.mp member
    obtain ⟨account, held⟩ := Option.isSome_iff_exists.mp held
    obtain ⟨sameKey, signature, signed, whole, verified⟩ := accounts key isKey account held
    obtain rfl := Outcome.ok.inj (signed.symm.trans (signs key isKey account held))
    exact ⟨whole, fun other otherMember => sameKey ▸ verified other otherMember⟩
  have notStandard := isStandard_multiSigCode inside few finite
  have isMultiSig := isMultiSigContract_multiSigCode inside few finite (ε := SignError)
  refine ⟨_, signatureOf, isHash, List.length_replicate, ?_, ?_, signs, ?_⟩
  · simp [Contract.getType, isCode, notStandard, isMultiSig]
  · simp only [signHash, hasContract, isCode, notStandard, isMultiSig, Bool.false_eq_true, if_false]
    rfl
  · intro signers number nodup held
    have filled : Filled crypto message (crypto.toCodeHash code)
        (some code, some ((signers.map signatureOf).map some)) :=
      filled_multiSig inside few distinct sorted script number nodup
      (fun key member => (List.mem_filter.mp (held member)).1)
      (fun key member => (facts key (held member)).1)
      (fun key member => (facts key (held member)).2)
    exact isHash ▸ filled

theorem run_signHash_multiSig (range : 3 ≤ keys.length ∧ keys.length ≤ 16) (inside : temp < m) :
    ∃ entry, Filled crypto message hash entry ∧
      (signHash crypto signer client message hash).run (around.holding none none temp) =
        (.ok (), around.holding entry.1 entry.2 ((temp + (heldKeys crypto client keys).length) % m)) := by
  obtain ⟨contract, signatureOf, rfl, number, isType, reduced, signs, filled⟩ :=
    exists_of_covers covers
  obtain ⟨few, upTo, distinct, finite, -, -, enough⟩ := covers
  have held : heldKeys crypto client keys ≠ [] := List.ne_nil_of_length_pos (by omega)
  -- Different keys end up in different slots.
  have heldDistinct : (heldKeys crypto client keys).Nodup := distinct.filter _
  obtain ⟨signers, ring, count, nodup, members⟩ := exists_of_fillSlots inside heldDistinct enough
  have written : fillSlots temp (List.replicate m none) ((heldKeys crypto client keys).map signatureOf) =
      ((signers.map signatureOf).map some, (temp + (heldKeys crypto client keys).length) % m) := by
    have image := @fillSlots_map _ temp (List.replicate m none) (heldKeys crypto client keys) _
      signatureOf
    rw [List.map_replicate, Option.map_none] at image
    rw [image, ring]
    simp
  obtain ⟨code', slots', ran, -, changed⟩ := @run_signKeys crypto signer client message temp contract
    around isType signatureOf keys signs none none (by simp) (by rwa [number])
  simp only [slotsOf, Option.getD_none, number, written] at ran changed
  obtain ⟨rfl, rfl⟩ := changed held
  refine ⟨_, filled signers count nodup members, ?_⟩
  have parsed : _ = keys.map (keyHash crypto) :=
    parseMultisigTransactionCode_multiSigCode few upTo finite crypto range
  rw [reduced, parsed]
  simp only [Action.run_bind, ran, decide_eq_true held, if_true, Action.run_pure]

/-- Otherwise signing fails: no key is found, or the slot is out of range. -/
theorem run_signHash_fails (fails : ¬ ((3 ≤ keys.length ∧ keys.length ≤ 16) ∧ temp < m))
    (after : ContractContext) :
    (signHash crypto signer client message hash).run (around.holding none none temp) ≠
      (.ok (), after) := by
  obtain ⟨contract, signatureOf, rfl, number, isType, reduced, signs, -⟩ :=
    exists_of_covers covers
  obtain ⟨few, upTo, -, finite, -, -, enough⟩ := covers
  rw [reduced]
  by_cases range : 3 ≤ keys.length ∧ keys.length ≤ 16
  · have held : heldKeys crypto client keys ≠ [] := List.ne_nil_of_length_pos (by omega)
    have outside : ¬ temp < contract.parameters.length := by
      rw [number]
      exact fun inside => fails ⟨range, inside⟩
    obtain ⟨final, panics⟩ := run_signKeys_panic around isType signs held outside
    have parsed : _ = keys.map (keyHash crypto) :=
      parseMultisigTransactionCode_multiSigCode few upTo finite crypto range
    rw [parsed]
    simp [Action.run_bind, panics]
  · rw [parseMultisigTransactionCode_eq_nil few upTo finite crypto range]
    simp [Action.run_bind, signKeys]

end

/-- One contract is signed exactly when it is ready for the slot that was reached. -/
theorem run_signHash {lock : Lock}
    (covers : Covers crypto signer sorter client message hash lock) :
    (lock.Ready temp → ∃ entry, Filled crypto message hash entry ∧
      (signHash crypto signer client message hash).run (around.holding none none temp) =
        (.ok (), around.holding entry.1 entry.2 (lock.next crypto client temp))) ∧
    (¬ lock.Ready temp → ∀ after, (signHash crypto signer client message hash).run
      (around.holding none none temp) ≠ (.ok (), after)) := by
  cases lock with
  | standard key =>
    exact ⟨fun _ => run_signHash_standard around covers, fun not => absurd trivial not⟩
  | multiSig m keys =>
    exact ⟨fun ready => run_signHash_multiSig around covers ready.1 ready.2,
      run_signHash_fails around covers⟩

end Hash

end OneContract

/-! ## All contracts of a transaction -/

section All

variable {crypto : Primitives} {signer : Bytes → Bytes → Outcome SignError Bytes}
  {sorter : KeySort} {client : KeyStore} {message : Bytes}

/-- Signing the hashes that are left fills their entries, exactly when they are
signable from the slot that was reached. -/
theorem run_sign {done rest : List Uint160} {locks : List Lock}
    (covered : List.Forall₂ (Covers crypto signer sorter client message) rest locks)
    (distinct : (done ++ rest).Nodup) {codes : List (Option Bytes)}
    {slots : List (Option (List (Option Bytes)))} (codesDone : codes.length = done.length)
    (slotsDone : slots.length = done.length) (temp : Nat) :
    (Signable crypto client temp locks → ∃ entries temp',
      List.Forall₂ (Filled crypto message) rest entries ∧
      (sign crypto signer client message rest).run
          ⟨done ++ rest, codes ++ List.replicate rest.length none,
            slots ++ List.replicate rest.length none, temp⟩ =
        (.ok (), ⟨done ++ rest, codes ++ entries.map Prod.fst, slots ++ entries.map Prod.snd,
          temp'⟩)) ∧
    (¬ Signable crypto client temp locks → ∀ after,
      (sign crypto signer client message rest).run
          ⟨done ++ rest, codes ++ List.replicate rest.length none,
            slots ++ List.replicate rest.length none, temp⟩ ≠ (.ok (), after)) := by
  induction covered generalizing done codes slots temp with
  | nil => exact ⟨fun _ => ⟨[], temp, .nil, rfl⟩, fun not => absurd trivial not⟩
  | @cons hash lock hashes locks covers _ ih =>
    have absent : hash ∉ done := fun member =>
      (List.nodup_append.mp distinct).2.2 hash member hash List.mem_cons_self rfl
    have place : ContractContext.getIndex (done ++ hash :: hashes) hash = codes.length := by
      rw [codesDone]
      exact ContractContext.getIndex_append absent
    have same : slots.length = codes.length := slotsDone.trans codesDone.symm
    have step := @run_signHash crypto signer client message temp sorter hash ⟨done ++ hash :: hashes,
      codes, List.replicate hashes.length none, slots, List.replicate hashes.length none, place,
      same⟩ lock covers
    simp only [ContractContext.Surroundings.holding] at step
    have shift : done ++ hash :: hashes = (done ++ [hash]) ++ hashes := by simp
    rw [List.length_cons, List.replicate_succ, List.replicate_succ, sign]
    by_cases ready : lock.Ready temp
    · obtain ⟨entry, filled, ran⟩ := step.1 ready
      have later := @ih (done ++ [hash]) (by rwa [← shift]) (codes ++ [entry.1]) (slots ++ [entry.2])
        (by simp [codesDone]) (by simp [slotsDone]) (lock.next crypto client temp)
      rw [← shift, List.append_assoc, List.append_assoc, List.singleton_append,
        List.singleton_append] at later
      constructor
      · rintro ⟨-, signable⟩
        obtain ⟨entries, temp', others, finished⟩ := later.1 signable
        refine ⟨entry :: entries, temp', .cons filled others, ?_⟩
        rw [Action.run_bind_of_ok ran, finished]
        simp
      · intro notSignable after
        rw [Action.run_bind_of_ok ran]
        exact later.2 (fun signable => notSignable ⟨ready, signable⟩) after
    · refine ⟨fun signable => absurd signable.1 ready, fun _ after finished => ?_⟩
      have failed := step.2 ready
      rw [Action.run_bind] at finished
      split at finished
      · next value middle ran => exact failed middle ran
      · cases finished
      · cases finished

/-- The program of an entry. -/
def programOf (entry : Option Bytes × Option (List (Option Bytes))) : Program :=
  ⟨entry.1.getD [], (entry.2.getD []).flatMap fun slot =>
    ContractContext.pushParameter (slot.getD [])⟩

section Filled

variable {hashes : List Uint160} {entries : List (Option Bytes × Option (List (Option Bytes)))}
  (filled : List.Forall₂ (Filled crypto message) hashes entries)
include filled

theorem isCompleted_of_filled (programHashes : List Uint160) (temp : Nat) :
    (ContractContext.mk programHashes (entries.map Prod.fst) (entries.map Prod.snd)
      temp).isCompleted = true := by
  unfold ContractContext.isCompleted
  dsimp only
  induction filled with
  | nil => rfl
  | cons first _ ih =>
    obtain ⟨code, signatures, rfl, -, -⟩ := first
    rw [List.map_cons, List.all_cons, ih]
    simp

theorem getPrograms_of_filled (programHashes : List Uint160) (temp : Nat) :
    (ContractContext.mk programHashes (entries.map Prod.fst) (entries.map Prod.snd)
      temp).getPrograms = entries.map programOf := by
  rw [ContractContext.getPrograms, if_pos (isCompleted_of_filled filled programHashes temp),
    List.zip_map', List.map_map]
  rfl

/-- The programs of filled entries are accepted. -/
theorem verifyPrograms_of_filled :
    (verifyPrograms crypto message hashes (entries.map programOf) :
      Outcome (ValidationError ReferenceError) Unit) = .ok () := by
  induction filled with
  | nil => rfl
  | cons first _ ih =>
    obtain ⟨code, signatures, rfl, isHash, passed⟩ := first
    have program : programOf (some code, some (signatures.map some)) =
        ⟨code, signatures.flatMap ContractContext.pushParameter⟩ := by
      simp [programOf, List.flatMap_map]
    rw [List.map_cons, program, verifyPrograms, verifyProgram]
    simp only [Outcome.bind_eq_ok, Outcome.require_eq_ok]
    exact ⟨(), ⟨(), isHash, passed⟩, ih⟩

end Filled

/-- The program hashes of a transaction are all different. -/
theorem nodup_of_getProgramHashes {store : ChainStore} {tx : Transaction} {hashes : List Uint160}
    (found : getProgramHashes store tx = .ok hashes) : hashes.Nodup := by
  obtain ⟨references, -, found⟩ := Outcome.bind_eq_ok.mp found
  obtain ⟨attributes, -, found⟩ := Outcome.bind_eq_ok.mp found
  obtain rfl := Outcome.ok.inj found
  exact (List.perm_insertionSort _ _).nodup_iff.mpr (List.nodup_dedup _)

end All

section Sample

/-- Signatures that consist of the key they are made with. -/
def sampleCrypto : Primitives :=
  { Primitives.polynomial with
    verifySignature := fun _ signature pubkey => some (signature = List.replicate 31 0 ++ pubkey) }

def sampleSigner (privateKey _ : Bytes) : Outcome SignError Bytes :=
  .ok (List.replicate 31 0 ++ privateKey)

def sampleKeys (count : Nat) : List PubKey :=
  (List.range count).map fun number => .point (BitVec.ofNat 256 number) 2

def sampleContract (m count : Nat) : Contract :=
  ⟨multiSigCode m (sampleKeys count), List.replicate m .signature,
    sampleCrypto.toCodeHash (multiSigCode m (sampleKeys count))⟩

/-- A wallet with one multi-signature contract, all keys of which it holds. -/
def sampleClient (m count : Nat) : KeyStore where
  accounts hash := ((sampleKeys count).find? fun key => keyHash sampleCrypto key = hash).map
    fun key => ⟨key.encodePoint, key⟩
  contracts hash := if hash = (sampleContract m count).programHash then some (sampleContract m count)
    else none

/-- A transaction that spends an output of the contract, and a store with that output. -/
def sampleSpend : Transaction :=
  ⟨0, .transferAsset, [], [⟨⟨1, 0⟩, 0⟩], [], 0, []⟩

def sampleSource (m count : Nat) : Transaction :=
  ⟨0, .transferAsset, [], [], [⟨0, 1, (sampleContract m count).programHash⟩], 0, []⟩

def sampleStore (m count : Nat) : ChainStore :=
  { ChainStore.empty with transaction := fun _ => some (sampleSource m count, 0) }

/-- Keys that are already in order. -/
def sampleSorter : KeySort := ⟨id, fun keys => List.Perm.refl keys⟩

theorem covers_sample {m count : Nat} (inside : 1 ≤ m ∧ m ≤ count) (few : count ≤ 24)
    (distinct : (sampleKeys count).Nodup)
    (held : ∀ key ∈ sampleKeys count,
      (sampleClient m count).accounts (keyHash sampleCrypto key) = some ⟨key.encodePoint, key⟩)
    (apart : ∀ key ∈ sampleKeys count, ∀ other ∈ sampleKeys count,
      key.encodePoint = other.encodePoint → other = key) (message : Bytes) :
    Covers sampleCrypto sampleSigner sampleSorter (sampleClient m count) message
      (sampleContract m count).programHash (.multiSig m (sampleKeys count)) := by
  have length : (sampleKeys count).length = count := by simp [sampleKeys]
  have finite : ∀ key ∈ sampleKeys count, key ≠ .infinity := by
    intro key member
    obtain ⟨number, -, rfl⟩ := List.mem_map.mp member
    exact PubKey.noConfusion
  have all : heldKeys sampleCrypto (sampleClient m count) (sampleKeys count) = sampleKeys count := by
    refine List.filter_eq_self.mpr fun key member => ?_
    rw [held key member]
    rfl
  have created : createMultiSigContract (ε := Unit) sampleCrypto sampleSorter m (sampleKeys count) =
      .ok (sampleContract m count) := by
    have noInfinity : ¬ (2 ≤ (sampleKeys count).length ∧ .infinity ∈ sampleKeys count) :=
      fun panics => finite .infinity panics.2 rfl
    rw [createMultiSigContract, createMultiSigRedeemScript,
      if_neg (not_not.mpr (by rw [length]; exact ⟨inside.1, inside.2, few⟩)), if_neg noInfinity]
    rfl
  refine ⟨by rwa [length], by rwa [length], distinct, finite,
    ⟨sampleKeys count, sampleContract m count, rfl, created, rfl, by simp [sampleClient]⟩, ?_, ?_⟩
  · intro key member account isAccount
    rw [held key member] at isAccount
    obtain rfl := Option.some.inj isAccount
    have whole := (pushData_encodePoint (finite key member)).2
    refine ⟨rfl, _, rfl, by simp [whole], fun other otherMember => congrArg some ?_⟩
    rw [decide_eq_decide, List.append_cancel_left_eq]
    exact ⟨apart key member other otherMember, fun same => same ▸ rfl⟩
  · rw [all, length]
    exact inside.2

end Sample

/-- The wallet can sign for every program hash of a transaction. What it signs is
accepted exactly when the contracts are signable one after the other. -/
theorem accepted_iff_signable (crypto : Primitives)
    (signer : Bytes → Bytes → Outcome SignError Bytes) (sorter : KeySort) (client : KeyStore)
    (store : ChainStore) (tx : Transaction) (hashes : List Uint160) (locks : List Lock)
    (found : getProgramHashes store tx = .ok hashes)
    (covered : List.Forall₂ (Covers crypto signer sorter client tx.getMessage) hashes locks) :
    Accepted crypto signer client store tx hashes ↔ Signable crypto client 0 locks := by
  have run := @run_sign crypto signer sorter client tx.getMessage [] hashes locks covered
    (nodup_of_getProgramHashes found) [] [] rfl rfl 0
  constructor
  · rintro ⟨context, ran, -, -⟩
    by_contra notSignable
    exact run.2 notSignable context ran
  · intro signable
    obtain ⟨entries, temp, filled, ran⟩ := run.1 signable
    refine ⟨_, ran, isCompleted_of_filled filled hashes temp, ?_⟩
    have programs := getPrograms_of_filled filled hashes temp
    have verified := verifyPrograms_of_filled filled
    have length : hashes.length = entries.length := filled.length_eq
    have sameHashes : ∀ programs, getProgramHashes store { tx with programs := programs } =
        .ok hashes := fun _ => found
    simp only [verifySignableData, signableData, sameHashes, List.nil_append, programs]
    simp only [Outcome.bind_eq_ok, Outcome.require_eq_ok, List.length_map]
    exact ⟨(), length, verified⟩

/-- A 2-of-3 contract with all three keys held: the third signature takes the place of
the first one. -/
theorem accepted_threeKeys :
    let client := sampleClient 2 3
    let hash := (sampleContract 2 3).programHash
    Signable sampleCrypto client 0 [.multiSig 2 (sampleKeys 3)] ∧
      Accepted sampleCrypto sampleSigner client (sampleStore 2 3) sampleSpend [hash] := by
  intro client hash
  have signable : Signable sampleCrypto client 0 [.multiSig 2 (sampleKeys 3)] :=
    ⟨⟨by decide, by decide⟩, trivial⟩
  have covers := @covers_sample 2 3 (by decide) (by decide) (by decide) (by decide +kernel)
    (by decide +kernel) sampleSpend.getMessage
  refine ⟨signable, ?_⟩
  exact (accepted_iff_signable sampleCrypto sampleSigner sampleSorter client (sampleStore 2 3)
    sampleSpend [hash] _ (by decide +kernel) (.cons covers .nil)).mpr signable

/-- A 2-of-2 contract with both keys held: its script is too short to be parsed. -/
theorem twoKeys_not_accepted :
    let client := sampleClient 2 2
    let hash := (sampleContract 2 2).programHash
    getProgramHashes (sampleStore 2 2) sampleSpend = .ok [hash] ∧
      Covers sampleCrypto sampleSigner sampleSorter client sampleSpend.getMessage hash
        (.multiSig 2 (sampleKeys 2)) ∧
      ¬ Accepted sampleCrypto sampleSigner client (sampleStore 2 2) sampleSpend [hash] := by
  intro client hash
  have found : getProgramHashes (sampleStore 2 2) sampleSpend = .ok [hash] := by decide +kernel
  refine ⟨found, covers_sample (by decide) (by decide) (by decide) (by decide +kernel)
    (by decide +kernel) sampleSpend.getMessage, ?_⟩
  have failed : ((sign sampleCrypto sampleSigner client sampleSpend.getMessage [hash]).run
      (.new [hash])).1 = .error .noAccountDetected := by decide +kernel
  rintro ⟨context, ran, -, -⟩
  rw [ran] at failed
  cases failed

end DnaPow.Account
