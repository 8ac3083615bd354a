import DnaPow.Account.FileStore
import DnaPow.Account.Signing

/-!
# Wallet memory and wallet file

The accounts and contracts of a wallet are held in memory and in the file. Every
operation changes the memory first and the file after it. It is not undone if the file
cannot be changed: if it cannot be read or written, or if the account is the main one. A
contract may be saved twice; the entries are then not removed together.
-/

namespace DnaPow.Account

open DnaPow.Std Common Core

/-- The wallet while it is open: what is in memory and what is in the file. -/
structure WalletState where
  memory : KeyStore
  file : FileData

/-- What the operations use of the client and of the key code. What a contract is written
as and what is read from that does not matter here. -/
structure WalletCode where
  crypto : Primitives
  aes : Aes
  iv : Bytes
  masterKey : Bytes
  masterKey_length : masterKey.length = 32
  /-- `NewPubKey`. -/
  newPubKey : Bytes → PubKey
  /-- `EncodePoint(false)` without its first byte. -/
  coordinates : PubKey → Bytes
  length_coordinates : ∀ key, (coordinates key).length = 64
  toArray : Contract → Bytes
  deserialize : Bytes → Contract

namespace WalletCode

variable (code : WalletCode)

/-- `DecryptPrivateKey`. -/
def decryptPrivateKey (prikey : Bytes) : Option Bytes :=
  if prikey.length = 96 then code.aes.aesDecrypt prikey code.masterKey code.iv else none

/-- The account of an entry: `NewAccountWithPrivatekey` on the end of the key pair. An
entry that does not decrypt is passed over. -/
def loadAccount (entry : AccountData) : Option Account :=
  (code.decryptPrivateKey entry.privateKeyEncrypted).map fun keyPair =>
    let privateKey := (keyPair.drop 64).take 32
    ⟨privateKey, code.newPubKey privateKey⟩

/-- `ProgramHash` of an account. -/
def accountHash (account : Account) : Uint160 := keyHash code.crypto account.publicKey

/-- `LoadAccounts`. -/
def loadAccounts (file : FileData) : Uint160 → Option Account :=
  file.account.foldl (fun accounts entry =>
    match code.loadAccount entry with
    | none => accounts
    | some account => Function.update accounts (code.accountHash account) (some account))
    fun _ => none

/-- `LoadContracts`. -/
def loadContracts (file : FileData) : Uint160 → Option Contract :=
  file.contract.foldl (fun contracts entry =>
    Function.update contracts entry.programHash
      (some { code.deserialize entry.rawData with programHash := entry.programHash }))
    fun _ => none

/-- `LoadAccounts` and `LoadContracts`, as `Open` calls them. -/
def opened (file : FileData) : WalletState :=
  ⟨⟨code.loadAccounts file, code.loadContracts file⟩, file⟩

/-- The key pair of an account: the coordinates, and the private key at the end. -/
def keyPair (account : Account) : Bytes :=
  code.coordinates account.publicKey ++
    (List.replicate (32 - account.privateKey.length) 0 ++ account.privateKey)

/-- An account as `NewAccount` makes one: the public key is that of the private key,
leading zeros or not. -/
structure NewAccount extends Account where
  short : privateKey.length ≤ 32
  paired : code.newPubKey (List.replicate (32 - privateKey.length) 0 ++ privateKey) = publicKey

/-- `SaveAccountData`. The first account is the main one. -/
def saveAccountData (access : Access) (programHash : Uint160) (encryptedPrivateKey : Bytes) :
    Action StoreError FileData Unit :=
  FileStore.update access fun data => .ok { data with
    account := data.account ++ [AccountData.mk programHash encryptedPrivateKey data.account.isEmpty] }

/-- `DeleteAccountData`. -/
def deleteAccountData (access : Access) (programHash : Uint160) :
    Action StoreError FileData Unit :=
  FileStore.update access fun data => do
    let account ← FileStore.delete (fun entry =>
      if entry.programHash = programHash then
        if entry.isMain then .error .mainAccount else .ok true
      else .ok false) data.account
    return { data with account := account }

/-- `SaveContractData`. -/
def saveContractData (access : Access) (contract : Contract) : Action StoreError FileData Unit :=
  FileStore.update access fun data => .ok { data with
    contract := data.contract ++ [ContractData.mk contract.programHash (code.toArray contract)] }

/-- `DeleteContractData`. -/
def deleteContractData (access : Access) (programHash : Uint160) :
    Action StoreError FileData Unit :=
  FileStore.update access fun data => do
    let contract ← FileStore.delete (fun entry => .ok (entry.programHash = programHash)) data.contract
    return { data with contract := contract }

/-- The operations, and what becomes of their access to the file. -/
inductive WalletOp where
  | createAccount (account : code.NewAccount) (access : Access)
  | deleteAccount (programHash : Uint160) (access : Access)
  | saveContract (contract : Contract) (access : Access)
  | deleteContract (programHash : Uint160) (access : Access)

/-- What an operation does to the memory. -/
def changeMemory (memory : KeyStore) : code.WalletOp → KeyStore
  | .createAccount account _ => { memory with
      accounts := Function.update memory.accounts (code.accountHash account.toAccount)
        (some account.toAccount) }
  | .deleteAccount programHash _ => { memory with
      accounts := Function.update memory.accounts programHash none }
  | .saveContract contract _ => { memory with
      contracts := Function.update memory.contracts contract.programHash (some contract) }
  | .deleteContract programHash _ => { memory with
      contracts := Function.update memory.contracts programHash none }

/-- What an operation does to the file. -/
def changeFile : code.WalletOp → Action StoreError FileData Unit
  | .createAccount account access => saveAccountData access (code.accountHash account.toAccount)
      (code.aes.aesEncrypt (code.keyPair account.toAccount) code.masterKey code.iv)
  | .deleteAccount programHash access => deleteAccountData access programHash
  | .saveContract contract access => code.saveContractData access contract
  | .deleteContract programHash access => deleteContractData access programHash

/-- `CreateAccount`, `DeleteAccount`, `SaveContract` and `DeleteContract`: the memory is
changed before the file. -/
def perform (op : code.WalletOp) : Action StoreError WalletState Unit where
  run state :=
    let (result, file) := (code.changeFile op).run state.file
    (result, ⟨code.changeMemory state.memory op, file⟩)

/-- The wallet after an operation that returns, with or without an error. -/
def step (op : code.WalletOp) (state : WalletState) : Option WalletState :=
  match (code.perform op).run state with
  | (.panic, _) => none
  | (_, after) => some after

/-- The wallet after a sequence of operations. -/
def run : List code.WalletOp → WalletState → Option WalletState
  | [], state => some state
  | op :: ops, state => code.step op state >>= run ops

/-! ## The file as a mirror -/

/-- The program hashes in memory are those that would be read from the file. -/
def Mirrored (state : WalletState) : Prop :=
  (∀ hash, (state.memory.accounts hash).isSome = (code.loadAccounts state.file hash).isSome) ∧
    ∀ hash, (state.memory.contracts hash).isSome = (code.loadContracts state.file hash).isSome

/-- Every account of the file is read under the hash it is kept under. -/
def Keyed (file : FileData) : Prop :=
  ∀ entry ∈ file.account, ∃ account, code.loadAccount entry = some account ∧
    code.accountHash account = entry.programHash

/-- The access of an operation. -/
def WalletOp.access : code.WalletOp → Access
  | .createAccount _ access => access
  | .deleteAccount _ access => access
  | .saveContract _ access => access
  | .deleteContract _ access => access

/-- The access is performed, and what is deleted is there at most once and is not the main
account. -/
def Meets (file : FileData) (op : code.WalletOp) : Prop :=
  op.access = .performed ∧
    match op with
    | .deleteAccount programHash _ =>
        (file.account.filter (·.programHash = programHash)).length ≤ 1 ∧
          ∀ entry ∈ file.account, entry.programHash = programHash → entry.isMain = false
    | .deleteContract programHash _ =>
        (file.contract.filter (·.programHash = programHash)).length ≤ 1
    | _ => True

/-- Every operation of a sequence meets the condition where it is performed. -/
def RunMeets : List code.WalletOp → WalletState → Prop
  | [], _ => True
  | op :: ops, state => code.Meets state.file op ∧
      ∀ after, code.step op state = some after → RunMeets ops after

/-! ## What is read from the file -/

/-- A map that is filled entry by entry has the keys of the entries. -/
theorem isSome_foldl {α β : Type} {add : (Uint160 → Option β) → α → Uint160 → Option β}
    (key : α → Uint160) {entries : List α}
    (adds : ∀ entry ∈ entries, ∀ map hash,
      (add map entry hash).isSome = (decide (key entry = hash) || (map hash).isSome))
    (start : Uint160 → Option β) (hash : Uint160) :
    (entries.foldl add start hash).isSome =
      (entries.any (fun entry => key entry = hash) || (start hash).isSome) := by
  induction entries generalizing start with
  | nil => rfl
  | cons entry entries ih =>
    rw [List.foldl_cons, ih fun other member => adds other (List.mem_cons_of_mem _ member),
      adds entry List.mem_cons_self, List.any_cons, Bool.or_left_comm, Bool.or_assoc]

theorem isSome_update {β : Type} (map : Uint160 → Option β) (key hash : Uint160) (value : β) :
    (Function.update map key (some value) hash).isSome =
      (decide (key = hash) || (map hash).isSome) := by
  by_cases same : key = hash
  · simp [same]
  · simp [Function.update_of_ne (Ne.symm same), same]

theorem isSome_erase {β : Type} (map : Uint160 → Option β) (key hash : Uint160) :
    (Function.update map key none hash).isSome = (!decide (key = hash) && (map hash).isSome) := by
  by_cases same : key = hash
  · simp [same]
  · simp [Function.update_of_ne (Ne.symm same), same]

theorem any_filter_ne {α : Type} (entries : List α) (key : α → Uint160) (removed hash : Uint160) :
    (entries.filter fun entry => !decide (key entry = removed)).any (fun entry => key entry = hash) =
      (!decide (removed = hash) && entries.any fun entry => key entry = hash) := by
  rw [Bool.eq_iff_iff]
  simp only [List.any_eq_true, List.mem_filter, Bool.and_eq_true, Bool.not_eq_true',
    decide_eq_true_eq, decide_eq_false_iff_not]
  grind

section Mirror

variable {code} {file : FileData} {state : WalletState}

theorem isSome_loadAccounts (keyed : code.Keyed file) (hash : Uint160) :
    (code.loadAccounts file hash).isSome =
      file.account.any fun entry => entry.programHash = hash := by
  rw [loadAccounts, isSome_foldl AccountData.programHash, Option.isSome_none,
    Bool.or_false]
  intro entry member map hash
  obtain ⟨account, loads, isHash⟩ := keyed entry member
  simp only [loads, isHash]
  exact isSome_update map _ hash account

theorem isSome_loadContracts (hash : Uint160) :
    (code.loadContracts file hash).isSome =
      file.contract.any fun entry => entry.programHash = hash := by
  rw [loadContracts, isSome_foldl ContractData.programHash, Option.isSome_none,
    Bool.or_false]
  intro entry _ map hash
  exact isSome_update map _ hash _

/-- An account that has just been saved is read under its own hash. -/
theorem loadAccount_saved (account : code.NewAccount) (hash : Uint160) (isMain : Bool) :
    code.loadAccount ⟨hash, code.aes.aesEncrypt (code.keyPair account.toAccount) code.masterKey
        code.iv, isMain⟩ =
      some ⟨List.replicate (32 - account.privateKey.length) 0 ++ account.privateKey,
        account.publicKey⟩ := by
  have short := account.short
  have coordinates := code.length_coordinates account.publicKey
  have size : (code.keyPair account.toAccount).length = 96 := by
    simp only [keyPair, List.length_append, coordinates, List.length_replicate]
    omega
  have blocks : IsBlocks (code.keyPair account.toAccount) :=
    ⟨List.ne_nil_of_length_eq_add_one size, by omega⟩
  rw [loadAccount, decryptPrivateKey, code.aes.length_aesEncrypt _ code.masterKey_length,
    if_pos size, code.aes.inverts _ code.masterKey_length blocks, Option.map_some]
  have privateKey : ((code.keyPair account.toAccount).drop 64).take 32 =
      List.replicate (32 - account.privateKey.length) 0 ++ account.privateKey := by
    rw [keyPair, List.drop_left' coordinates, List.take_of_length_le]
    simp only [List.length_append, List.length_replicate]
    omega
  dsimp only
  rw [privateKey, account.paired]

/-- The file after an operation that meets the condition. -/
def changed (file : FileData) : code.WalletOp → FileData
  | .createAccount account _ => { file with
      account := file.account ++ [AccountData.mk (code.accountHash account.toAccount)
        (code.aes.aesEncrypt (code.keyPair account.toAccount) code.masterKey code.iv)
        file.account.isEmpty] }
  | .deleteAccount programHash _ => { file with
      account := file.account.filter fun entry => !decide (entry.programHash = programHash) }
  | .saveContract contract _ => { file with
      contract := file.contract ++ [ContractData.mk contract.programHash (code.toArray contract)] }
  | .deleteContract programHash _ => { file with
      contract := file.contract.filter fun entry => !decide (entry.programHash = programHash) }

theorem run_changeFile {op : code.WalletOp} (meets : code.Meets file op) :
    (code.changeFile op).run file = (.ok (), changed file op) := by
  cases op with
  | createAccount account access =>
    obtain ⟨rfl, -⟩ : access = .performed ∧ True := meets
    exact FileStore.run_update rfl
  | saveContract contract access =>
    obtain ⟨rfl, -⟩ : access = .performed ∧ True := meets
    exact FileStore.run_update rfl
  | deleteAccount programHash access =>
    obtain ⟨rfl, once, notMain⟩ : access = .performed ∧ _ := meets
    apply FileStore.run_update
    rw [FileStore.delete_eq_filter _ once]
    · rfl
    · intro entry member
      by_cases wanted : entry.programHash = programHash
      · simp [wanted, notMain entry member wanted]
      · simp [wanted]
  | deleteContract programHash access =>
    obtain ⟨rfl, once⟩ : access = .performed ∧ _ := meets
    apply FileStore.run_update
    rw [FileStore.delete_eq_filter (fun _ _ => rfl) once]
    rfl

/-- Such an operation keeps every account under its own hash. -/
theorem Keyed.changed (keyed : code.Keyed file) (op : code.WalletOp) :
    code.Keyed (changed file op) := by
  cases op with
  | createAccount account access =>
    intro entry member
    rcases List.mem_append.mp member with old | new
    · exact keyed entry old
    · rw [List.mem_singleton.mp new]
      exact ⟨_, loadAccount_saved account _ _, rfl⟩
  | deleteAccount programHash access =>
    intro entry member
    exact keyed entry (List.mem_of_mem_filter member)
  | saveContract contract access => exact keyed
  | deleteContract programHash access => exact keyed

/-- Such an operation does the same to the memory and to the file. -/
theorem Mirrored.changed (keyed : code.Keyed state.file) (mirrored : code.Mirrored state)
    (op : code.WalletOp) :
    code.Mirrored ⟨code.changeMemory state.memory op, changed state.file op⟩ := by
  obtain ⟨accounts, contracts⟩ := mirrored
  constructor
  · intro hash
    rw [isSome_loadAccounts (keyed.changed op)]
    have before := accounts hash
    rw [isSome_loadAccounts keyed] at before
    cases op with
    | createAccount account access =>
      simp only [changeMemory, WalletCode.changed, isSome_update, before, List.any_append,
        List.any_cons, List.any_nil, Bool.or_false]
      exact Bool.or_comm _ _
    | deleteAccount programHash access =>
      simp only [changeMemory, WalletCode.changed, isSome_erase, before, any_filter_ne]
    | saveContract contract access => exact before
    | deleteContract programHash access => exact before
  · intro hash
    rw [isSome_loadContracts]
    have before := contracts hash
    rw [isSome_loadContracts] at before
    cases op with
    | createAccount account access => exact before
    | deleteAccount programHash access => exact before
    | saveContract contract access =>
      simp only [changeMemory, WalletCode.changed, isSome_update, before, List.any_append,
        List.any_cons, List.any_nil, Bool.or_false]
      exact Bool.or_comm _ _
    | deleteContract programHash access =>
      simp only [changeMemory, WalletCode.changed, isSome_erase, before, any_filter_ne]

theorem step_of_meets {op : code.WalletOp} (meets : code.Meets state.file op) :
    code.step op state = some ⟨code.changeMemory state.memory op, changed state.file op⟩ := by
  simp only [step, perform, run_changeFile meets]

theorem run_mirrored {ops : List code.WalletOp} (keyed : code.Keyed state.file)
    (mirrored : code.Mirrored state) (meets : code.RunMeets ops state) :
    ∃ after, code.run ops state = some after ∧ code.Mirrored after := by
  induction ops generalizing state with
  | nil => exact ⟨state, rfl, mirrored⟩
  | cons op ops ih =>
    have stepped := step_of_meets meets.1
    obtain ⟨after, runs, holds⟩ := ih (keyed.changed op) (mirrored.changed keyed op)
      (meets.2 _ stepped)
    exact ⟨after, by rw [run, stepped]; exact runs, holds⟩

end Mirror

/-- A wallet that has been opened mirrors its file after every sequence of operations that
meet the condition. -/
theorem opened_mirrors {file : FileData} (keyed : code.Keyed file) (ops : List code.WalletOp)
    (meets : code.RunMeets ops (code.opened file)) :
    ∃ after, code.run ops (code.opened file) = some after ∧ code.Mirrored after :=
  run_mirrored keyed ⟨fun _ => rfl, fun _ => rfl⟩ meets

/-- Code to run the model with: the first coordinate of a key is its private key. -/
def sample : WalletCode where
  crypto := .polynomial
  aes := .sample
  iv := []
  masterKey := List.replicate 32 7
  masterKey_length := rfl
  newPubKey key := .point (BitVec.ofNat 256 (ofLittleEndian key)) 0
  coordinates _ := List.replicate 64 0
  length_coordinates _ := List.length_replicate
  toArray contract := contract.code
  deserialize rawData := ⟨rawData, [], 0⟩

/-- An account with a private key of one byte, 32 times. -/
def sampleAccount (tag : UInt8) : sample.NewAccount where
  privateKey := List.replicate 32 tag
  publicKey := sample.newPubKey (List.replicate 32 tag)
  short := by simp
  paired := by simp

def sampleHash (tag : UInt8) : Uint160 := sample.accountHash (sampleAccount tag).toAccount

/-- The file of a wallet without accounts. -/
def emptyFile : FileData := ⟨[], [], [], 0, [], []⟩

theorem runMeets_cons {code : WalletCode} {op : code.WalletOp} {ops : List code.WalletOp}
    {state : WalletState} (meets : code.Meets state.file op)
    (rest : code.RunMeets ops ⟨code.changeMemory state.memory op, changed state.file op⟩) :
    code.RunMeets (op :: ops) state := by
  refine ⟨meets, fun after stepped => ?_⟩
  rw [step_of_meets meets] at stepped
  cases stepped
  exact rest

theorem opened_mirrors_five : ∃ after, sample.run [.createAccount (sampleAccount 1) .performed,
    .createAccount (sampleAccount 2) .performed, .deleteAccount (sampleHash 2) .performed,
    .saveContract ⟨[], [], 5⟩ .performed, .deleteContract 5 .performed]
      (sample.opened emptyFile) = some after ∧ sample.Mirrored after := by
  apply opened_mirrors sample fun _ member => absurd member List.not_mem_nil
  apply runMeets_cons
  · exact ⟨rfl, True.intro⟩
  apply runMeets_cons
  · exact ⟨rfl, True.intro⟩
  apply runMeets_cons
  · exact ⟨rfl, by decide +kernel, by decide +kernel⟩
  apply runMeets_cons
  · exact ⟨rfl, True.intro⟩
  apply runMeets_cons
  · exact ⟨rfl, by decide +kernel⟩
  exact True.intro

/-- Whether a hash is among the accounts in memory, and whether it would be read. -/
def accountPlaces (state : WalletState) (hash : Uint160) : Bool × Bool :=
  ((state.memory.accounts hash).isSome, (sample.loadAccounts state.file hash).isSome)

/-- Deleting the main account, creating an account when the file cannot be read, and
deleting a contract that was saved twice. -/
theorem opened_mirrors_fails :
    (sample.run [.createAccount (sampleAccount 1) .performed,
      .deleteAccount (sampleHash 1) .performed] (sample.opened emptyFile)).map
        (accountPlaces · (sampleHash 1)) = some (false, true) ∧
    (sample.run [.createAccount (sampleAccount 1) .readFails] (sample.opened emptyFile)).map
        (accountPlaces · (sampleHash 1)) = some (true, false) ∧
    (sample.run [.saveContract ⟨[], [], 5⟩ .performed, .saveContract ⟨[], [], 5⟩ .performed,
      .deleteContract 5 .performed] (sample.opened emptyFile)).isNone := by
  decide +kernel

end WalletCode

end DnaPow.Account
