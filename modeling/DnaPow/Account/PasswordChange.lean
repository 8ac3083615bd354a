import DnaPow.Account.FileStore

/-!
# Changing the password

The wallet file holds the hash of the password key, and the master key encrypted under
the password key. `ChangePassword` writes the two one after the other. A file with one
of them changed opens under one password with the wrong master key, and does not open
under the other.
-/

namespace DnaPow.Account

open DnaPow.Std Common

/-- What `ClientImpl` holds of the keys of the file. -/
structure ClientKeys where
  iv : Bytes
  masterKey : Bytes
  currentHeight : Int32
  deriving DecidableEq, Repr

namespace FileStore

/-- The names of stored data that are used here. -/
inductive StoredName where
  | masterKey
  | passwordHash
  deriving DecidableEq, Repr

/-- `SaveStoredData`. -/
def saveStoredData (access : Access) (name : StoredName) (value : Bytes) :
    Action StoreError FileData Unit :=
  update access fun data =>
    match name with
    | .masterKey => .ok { data with masterKey := value }
    | .passwordHash => .ok { data with passwordHash := value }

end FileStore

/-- Whether a call returns without an error. -/
def succeeds {ε σ : Type} (call : Action ε σ Unit) : Action ε σ Bool where
  run state :=
    match call.run state with
    | (.ok _, after) => (.ok true, after)
    | (.error _, after) => (.ok false, after)
    | (.panic, after) => (.panic, after)

section Password

variable (crypto : Primitives) (aes : Aes)

/-- `ToAesKey`. -/
def toAesKey (password : Bytes) : Bytes := (crypto.doubleSha256 password).toArray

/-- The hash that a password key is verified with. -/
def passwordHash (passwordKey : Bytes) : Bytes := (crypto.sha256 passwordKey).toArray

/-- `verifyPasswordKey`. -/
def verifyPasswordKey (access : Access) (passwordKey : Bytes) :
    Action StoreError FileData Bool where
  run file :=
    match access with
    | .readFails => (.ok false, file)
    | .interrupted => (.panic, file)
    | _ => (.ok (decide (file.passwordHash = passwordHash crypto passwordKey)), file)

/-- What becomes of the accesses to the file. -/
structure Plan where
  verify : Access
  hash : Access
  key : Access
  deriving DecidableEq, Repr

/-- `ChangePassword`. -/
def changePassword (client : ClientKeys) (oldPassword newPassword : Bytes) (plan : Plan) :
    Action StoreError FileData Bool := do
  if ← verifyPasswordKey crypto plan.verify (toAesKey crypto oldPassword) then
    let newPasswordKey := toAesKey crypto newPassword
    let newMasterKey := aes.aesEncrypt client.masterKey newPasswordKey client.iv
    if ← succeeds (FileStore.saveStoredData plan.hash .passwordHash
        (passwordHash crypto newPasswordKey)) then
      succeeds (FileStore.saveStoredData plan.key .masterKey newMasterKey)
    else pure false
  else pure false

/-- `NewClient` on a file that there is. -/
def newClient (file : FileData) (password : Bytes) : Option ClientKeys :=
  let passwordKey := toAesKey crypto password
  if file.passwordHash = passwordHash crypto passwordKey then
    (aes.aesDecrypt file.masterKey passwordKey file.iv).map fun masterKey =>
      ⟨file.iv, masterKey, file.height⟩
  else none

/-! ## Half a change -/

/-- Whether an access gets as far as to read the file. -/
def Access.reads : Access → Bool
  | .performed | .writeLost => true
  | _ => false

/-- Whether the hash of the new password gets into the file. -/
def Plan.hashPerformed (plan : Plan) : Prop := plan.verify.reads ∧ plan.hash = .performed

/-- Whether the master key under the new password gets into the file. -/
def Plan.keyPerformed (plan : Plan) : Prop :=
  plan.verify.reads ∧ plan.hash.reads ∧ plan.key = .performed

instance (plan : Plan) : Decidable plan.hashPerformed := instDecidableAnd

instance (plan : Plan) : Decidable plan.keyPerformed := instDecidableAnd

/-- The file opens with the original master key under one of two passwords. -/
def Recovers (file : FileData) (oldPassword newPassword masterKey : Bytes) : Prop :=
  ∃ password, (password = oldPassword ∨ password = newPassword) ∧
    (newClient crypto aes file password).map ClientKeys.masterKey = some masterKey

variable {crypto aes} {file : FileData} {client : ClientKeys} {oldPassword newPassword : Bytes}

/-- An opened file has the hash of the password key and the master key under it. -/
theorem newClient_masterKey {password masterKey : Bytes} :
    (newClient crypto aes file password).map ClientKeys.masterKey = some masterKey ↔
      file.passwordHash = passwordHash crypto (toAesKey crypto password) ∧
        aes.aesDecrypt file.masterKey (toAesKey crypto password) file.iv = some masterKey := by
  rw [newClient]
  split
  · next verified => simp [verified, Function.comp_def]
  · next differs => simp [differs]

theorem recovers_iff {masterKey : Bytes} :
    Recovers crypto aes file oldPassword newPassword masterKey ↔
      (file.passwordHash = passwordHash crypto (toAesKey crypto oldPassword) ∧
        aes.aesDecrypt file.masterKey (toAesKey crypto oldPassword) file.iv = some masterKey) ∨
      (file.passwordHash = passwordHash crypto (toAesKey crypto newPassword) ∧
        aes.aesDecrypt file.masterKey (toAesKey crypto newPassword) file.iv = some masterKey) := by
  simp only [Recovers, newClient_masterKey, or_and_right, exists_or, exists_eq_left]

/-- An update of the file that is not interrupted fails if the file cannot be read, and
changes the file if it is performed. -/
theorem run_succeeds_update {access : Access} {changed : FileData → FileData} :
    (succeeds (FileStore.update access fun data => .ok (changed data))).run file =
      (if access = .interrupted then .panic else .ok access.reads,
        if access = .performed then changed file else file) := by
  cases access <;> rfl

/-- The file after a change of the password. -/
theorem changePassword_file (plan : Plan)
    (verified : file.passwordHash = passwordHash crypto (toAesKey crypto oldPassword)) :
    ((changePassword crypto aes client oldPassword newPassword plan).run file).2 =
      { file with
        passwordHash :=
          if plan.hashPerformed then passwordHash crypto (toAesKey crypto newPassword)
          else file.passwordHash
        masterKey :=
          if plan.keyPerformed then
            aes.aesEncrypt client.masterKey (toAesKey crypto newPassword) client.iv
          else file.masterKey } := by
  obtain ⟨verify, hash, key⟩ := plan
  have checks (access : Access) : (verifyPasswordKey crypto access (toAesKey crypto oldPassword)).run
      file = (if access = .interrupted then .panic else .ok access.reads, file) := by
    cases access <;> simp [verifyPasswordKey, verified, Access.reads]
  have writes (access : Access) (name : FileStore.StoredName) (value : Bytes) (data : FileData) :
      (succeeds (FileStore.saveStoredData access name value)).run data =
        (if access = .interrupted then .panic else .ok access.reads,
          if access = .performed then
            match name with
            | .masterKey => { data with masterKey := value }
            | .passwordHash => { data with passwordHash := value }
          else data) := by
    cases name <;> exact run_succeeds_update
  simp only [changePassword, Action.run_bind, checks, Plan.hashPerformed, Plan.keyPerformed]
  cases verify <;> simp only [Access.reads, reduceCtorEq, if_true, if_false, Bool.false_eq_true,
    false_and, true_and, Action.run_pure, Action.run_bind, writes] <;>
    cases hash <;> simp only [Access.reads, reduceCtorEq, if_true, if_false, Bool.false_eq_true,
      false_and, true_and, Action.run_pure, writes] <;>
    cases key <;> rfl

/-- The wallet is recovered if both updates are performed or none of them is, or if the
two passwords have the same hash. -/
theorem changePassword_recovers_iff (plan : Plan) (size : client.masterKey.length = 32)
    (opened : newClient crypto aes file oldPassword = some client) :
    Recovers crypto aes ((changePassword crypto aes client oldPassword newPassword plan).run file).2
        oldPassword newPassword client.masterKey ↔
      (plan.hashPerformed ↔ plan.keyPerformed) ∨
        passwordHash crypto (toAesKey crypto oldPassword) =
          passwordHash crypto (toAesKey crypto newPassword) := by
  have sameIv : client.iv = file.iv := by
    rw [newClient] at opened
    split at opened
    · obtain ⟨masterKey, -, rfl⟩ := Option.map_eq_some_iff.mp opened
      rfl
    · cases opened
  obtain ⟨verified, decrypts⟩ := newClient_masterKey.mp (congrArg (Option.map _) opened)
  have keySize (password : Bytes) : (toAesKey crypto password).length = 32 := littleEndian_length _ _
  have blocks : IsBlocks client.masterKey := ⟨List.ne_nil_of_length_eq_add_one size, by omega⟩
  have encrypted := aes.inverts file.iv (keySize newPassword) blocks
  rw [changePassword_file plan verified, recovers_iff, sameIv]
  by_cases hash : plan.hashPerformed <;> by_cases key : plan.keyPerformed <;>
    simp only [hash, key, if_true, if_false, verified, true_and, iff_true, iff_false, true_or,
      not_true_eq_false, iff_self, false_or]
  · exact .inr encrypted
  · constructor
    · rintro (⟨same, -⟩ | other)
      · exact same.symm
      · by_contra differs
        exact aes.keyed (keySize _) (keySize _) size decrypts (fun same => differs (by rw [same])) other
    · intro same
      exact .inl ⟨same.symm, decrypts⟩
  · constructor
    · rintro (other | ⟨same, -⟩)
      · by_contra differs
        exact aes.keyed (keySize _) (keySize _) size encrypted (fun same => differs (by rw [same])) other
      · exact same
    · intro same
      exact .inr ⟨same, encrypted⟩
  · exact .inl decrypts

/-- A wallet file with a master key under a password. -/
def sampleFile (password masterKey : Bytes) : FileData where
  passwordHash := passwordHash .polynomial (toAesKey .polynomial password)
  iv := []
  masterKey := Aes.sample.aesEncrypt masterKey (toAesKey .polynomial password) []
  height := 0
  account := []
  contract := []

theorem changePassword_recovers_performed :
    Recovers .polynomial .sample ((changePassword .polynomial .sample ⟨[], List.replicate 32 7, 0⟩
        [1] [2] ⟨.performed, .performed, .performed⟩).run (sampleFile [1] (List.replicate 32 7))).2
      [1] [2] (List.replicate 32 7) :=
  (changePassword_recovers_iff ⟨.performed, .performed, .performed⟩ rfl (by decide +kernel)).mpr
    (.inl (by decide))

/-- The process ends between the two updates. -/
theorem changePassword_torn :
    ¬ Recovers .polynomial .sample ((changePassword .polynomial .sample ⟨[], List.replicate 32 7, 0⟩
        [1] [2] ⟨.performed, .performed, .interrupted⟩).run (sampleFile [1] (List.replicate 32 7))).2
      [1] [2] (List.replicate 32 7) := by
  rw [recovers_iff]
  decide +kernel

end Password

end DnaPow.Account
