import DnaPow.Common.Serialization
import DnaPow.Std.Action

/-!
# The wallet file

`FileStore` keeps the wallet in one file. Every update reads the whole file, changes
the data and writes it back. An error of reading is returned; an error of writing is
not: the update then looks as if it had been performed.

Entries are removed by a loop over the slice they are removed from. The loop goes over
the slice as it was, while the entries move down in the array behind it.
-/

namespace DnaPow.Account

open DnaPow.Std Common

/-! ## The cipher -/

/-- What is encrypted: one or more blocks. -/
def IsBlocks (plaintext : Bytes) : Prop := plaintext ≠ [] ∧ plaintext.length % 16 = 0

/-- `AesEncrypt` and `AesDecrypt`, used with keys of 32 bytes. Decryption inverts encryption
under the same key; a master key is not decrypted under another key than its own. -/
structure Aes where
  aesEncrypt : (plaintext key iv : Bytes) → Bytes
  aesDecrypt : (ciphertext key iv : Bytes) → Option Bytes
  length_aesEncrypt : ∀ {plaintext key} iv, key.length = 32 →
    (aesEncrypt plaintext key iv).length = plaintext.length
  inverts : ∀ {plaintext key} iv, key.length = 32 → IsBlocks plaintext →
    aesDecrypt (aesEncrypt plaintext key iv) key iv = some plaintext
  keyed : ∀ {ciphertext masterKey key other iv}, key.length = 32 → other.length = 32 →
    masterKey.length = 32 → aesDecrypt ciphertext key iv = some masterKey → other ≠ key →
      aesDecrypt ciphertext other iv ≠ some masterKey

/-- A text with the bytes of a key added to it. -/
def mask : (text key : Bytes) → Bytes
  | [], _ => []
  | text, [] => text
  | byte :: text, mask' :: key => (byte ^^^ mask') :: mask text key

theorem length_mask (text key : Bytes) : (mask text key).length = text.length := by
  fun_induction mask text key <;> simp_all

theorem mask_mask (text key : Bytes) : mask (mask text key) key = text := by
  fun_induction mask text key with
  | case1 => rfl
  | case2 text => cases text <;> rfl
  | case3 byte text other key ih => rw [mask, ih, UInt8.xor_assoc, UInt8.xor_self, UInt8.xor_zero]

/-- A text of the length of the key determines the key. -/
theorem mask_inj {text key other : Bytes} (size : key.length = text.length)
    (size' : other.length = text.length) (same : mask text key = mask text other) :
    key = other := by
  induction text generalizing key other with
  | nil => rw [List.length_eq_zero_iff.mp size, List.length_eq_zero_iff.mp size']
  | cons byte text ih =>
    obtain ⟨first, key, rfl⟩ := List.exists_cons_of_length_eq_add_one size
    obtain ⟨first', other, rfl⟩ := List.exists_cons_of_length_eq_add_one size'
    rw [mask, mask, List.cons.injEq, UInt8.xor_right_inj] at same
    rw [same.1, ih (by simpa using size) (by simpa using size') same.2]

/-- A cipher to run the model with. -/
def Aes.sample : Aes where
  aesEncrypt plaintext key _ := mask plaintext key
  aesDecrypt ciphertext key _ := some (mask ciphertext key)
  length_aesEncrypt _ _ := length_mask _ _
  inverts _ _ _ := congrArg some (mask_mask _ _)
  keyed := by
    intro ciphertext masterKey key other iv size size' length decrypts differs decrypts'
    have isKey := Option.some.inj decrypts
    have isKey' := Option.some.inj decrypts'
    have text : ciphertext.length = 32 := by rw [← length, ← isKey, length_mask]
    exact differs (mask_inj (size'.trans text.symm) (size.trans text.symm)
      (isKey'.trans isKey.symm))

/-! ## The file -/

/-- `AccountData`. The hash stands in the file as text; `isMain` is its type. -/
structure AccountData where
  programHash : Uint160
  privateKeyEncrypted : Bytes
  isMain : Bool
  deriving DecidableEq, Repr

/-- `ContractData`. -/
structure ContractData where
  programHash : Uint160
  rawData : Bytes
  deriving DecidableEq, Repr

/-- `FileData`. -/
structure FileData where
  passwordHash : Bytes
  iv : Bytes
  masterKey : Bytes
  height : Int32
  account : List AccountData
  contract : List ContractData
  deriving DecidableEq, Repr

/-- The errors of the file store. -/
inductive StoreError where
  | readingDB
  | mainAccount
  deriving DecidableEq, Repr

/-- What becomes of an update of the file: it is performed, or the file cannot be read,
or it cannot be written, or the process ends before. -/
inductive Access where
  | performed
  | readFails
  | writeLost
  | interrupted
  deriving DecidableEq, Repr

namespace FileStore

/-- Read the file. -/
def readDB (access : Access) : Action StoreError FileData FileData :=
  match access with
  | .readFails => Action.throw .readingDB
  | .interrupted => Action.crash
  | _ => Action.get

/-- Write the file; the error is not looked at. -/
def writeDB (access : Access) (data : FileData) : Action StoreError FileData Unit :=
  if access = .performed then Action.modify fun _ => data else pure ()

/-- The updates of the file. -/
def update (access : Access) (change : FileData → Outcome StoreError FileData) :
    Action StoreError FileData Unit := do
  let data ← readDB access
  writeDB access (← Action.check fun _ => change data)

/-- The loop of `DeleteAccountData` and `DeleteContractData`, from an index on: the array
and how many of its entries are left. -/
def deleteFrom {α : Type} (found : α → Outcome StoreError Bool) :
    (rounds index : Nat) → (array : List α) → (length : Nat) → Outcome StoreError (List α)
  | 0, _, array, length => .ok (array.take length)
  | rounds + 1, index, array, length =>
      match array[index]? with
      | none => .panic
      | some entry => do
          if ← found entry then
            if index + 1 ≤ length then
              deleteFrom found rounds (index + 1)
                (array.take index ++ ((array.take length).drop (index + 1) ++
                  array.drop (length - 1))) (length - 1)
            else .panic
          else deleteFrom found rounds (index + 1) array length

/-- Remove entries from a slice while it is gone over. -/
def delete {α : Type} (found : α → Outcome StoreError Bool) (entries : List α) :
    Outcome StoreError (List α) :=
  deleteFrom found entries.length 0 entries entries.length

section Delete

variable {α : Type} {found : α → Outcome StoreError Bool}

/-- The loop goes over entries that are not looked for. -/
theorem deleteFrom_skip {skipped : List α} {rounds length : Nat} {array : List α} (index : Nat)
    (here : (array.drop index).take skipped.length = skipped)
    (absent : ∀ entry ∈ skipped, found entry = .ok false) :
    deleteFrom found (skipped.length + rounds) index array length =
      deleteFrom found rounds (index + skipped.length) array length := by
  induction skipped generalizing index with
  | nil => simp
  | cons entry skipped ih =>
    have inside : index < array.length := by
      by_contra outside
      rw [List.drop_eq_nil_of_le (by omega)] at here
      cases here
    rw [List.drop_eq_getElem_cons inside, List.length_cons, List.take_succ_cons,
      List.cons.injEq] at here
    rw [List.length_cons, show skipped.length + 1 + rounds = skipped.length + rounds + 1 by omega,
      deleteFrom, List.getElem?_eq_getElem inside, here.1]
    simp only [absent _ List.mem_cons_self, Outcome.bind_ok, Bool.false_eq_true, if_false]
    rw [ih (index + 1) here.2 fun other member => absent other (List.mem_cons_of_mem _ member)]
    congr 1
    omega

/-- The rounds before the first entry that is looked for. -/
theorem delete_append {before after : List α}
    (absent : ∀ entry ∈ before, found entry = .ok false) :
    delete found (before ++ after) =
      deleteFrom found after.length before.length (before ++ after) (before ++ after).length := by
  rw [delete]
  nth_rewrite 1 [List.length_append]
  rw [deleteFrom_skip 0 (by simp) absent, Nat.zero_add]

/-- Nothing is removed if nothing is found. -/
theorem delete_absent {entries : List α} (absent : ∀ entry ∈ entries, found entry = .ok false) :
    delete found entries = .ok entries := by
  have none := @delete_append α found entries [] absent
  rw [List.append_nil] at none
  rw [none, List.length_nil, deleteFrom, List.take_length]

/-- The only entry that is found is removed. The rounds that are left go over the entries
behind it, moved down, and a second time over the last one. -/
theorem delete_one {before after : List α} {entry : α}
    (absent : ∀ other ∈ before ++ after, found other = .ok false) (isFound : found entry = .ok true) :
    delete found (before ++ entry :: after) = .ok (before ++ after) := by
  have absentBefore : ∀ other ∈ before, found other = .ok false := fun other member =>
    absent other (List.mem_append_left _ member)
  have absentAfter : ∀ other ∈ after, found other = .ok false := fun other member =>
    absent other (List.mem_append_right _ member)
  have first : deleteFrom found (entry :: after).length before.length (before ++ entry :: after)
      (before ++ entry :: after).length =
        deleteFrom found after.length (before.length + 1)
          (before ++ (after ++ (entry :: after).drop after.length)) (before ++ after).length := by
    have here : (before ++ entry :: after)[before.length]? = some entry := by simp
    have inside : before.length + 1 ≤ (before ++ entry :: after).length := by simp
    have left : (before ++ entry :: after).length - 1 = before.length + after.length := by simp
    rw [List.length_cons, deleteFrom, here]
    simp only [isFound, Outcome.bind_ok, if_true, if_pos inside, left, List.take_length,
      List.take_left, List.drop_length_add_append, List.drop_one, List.tail_cons]
    rw [List.length_append]
  rw [delete_append absentBefore, first]
  rcases List.eq_nil_or_concat after with rfl | ⟨init, last, rfl⟩
  · simp [deleteFrom]
  · rw [List.concat_eq_append] at absentAfter ⊢
    have moved : ∀ other ∈ (init ++ [last, last]).drop 1, found other = .ok false := by
      intro other member
      apply absentAfter
      simpa using List.mem_of_mem_drop member
    have array : before ++ (init ++ [last] ++ (entry :: (init ++ [last])).drop (init ++ [last]).length) =
        before ++ (init ++ [last, last]) := by
      simp
    have count : (init ++ [last]).length = ((init ++ [last, last]).drop 1).length + 0 := by simp
    rw [array, count, deleteFrom_skip _ _ moved, deleteFrom]
    · have twice : before ++ (init ++ [last, last]) = before ++ (init ++ [last]) ++ [last] := by simp
      rw [twice, List.take_left]
    · rw [List.drop_length_add_append, List.take_length]

/-- If at most one entry is looked for, the others are left. -/
theorem delete_eq_filter {wanted : α → Bool} {entries : List α}
    (finds : ∀ entry ∈ entries, found entry = .ok (wanted entry))
    (once : (entries.filter wanted).length ≤ 1) :
    delete found entries = .ok (entries.filter fun entry => !wanted entry) := by
  by_cases occurs : ∃ entry ∈ entries, wanted entry = true
  · obtain ⟨entry, member, isWanted⟩ := occurs
    obtain ⟨before, after, rfl⟩ := List.append_of_mem member
    have others : (before ++ after).filter wanted = [] := by
      rw [List.filter_append, List.filter_cons_of_pos isWanted, List.length_append,
        List.length_cons] at once
      rw [List.filter_append, ← List.length_eq_zero_iff, List.length_append]
      omega
    rw [List.filter_eq_nil_iff] at others
    have unwanted : ∀ other ∈ before ++ after, wanted other = false := fun other member =>
      Bool.eq_false_iff.mpr (others other member)
    rw [delete_one _ (by rw [finds _ member, isWanted])]
    · have kept : (before ++ after).filter (fun other => !wanted other) = before ++ after :=
        List.filter_eq_self.mpr fun other member => by rw [unwanted other member]; rfl
      rw [List.filter_append] at kept
      rw [List.filter_append, List.filter_cons_of_neg (by simp [isWanted]), kept]
    · intro other inside
      rw [finds other (by simp only [List.mem_append, List.mem_cons] at inside ⊢; tauto),
        unwanted other inside]
  · have unwanted : ∀ entry ∈ entries, wanted entry = false := fun entry member =>
      Bool.eq_false_iff.mpr fun isWanted => occurs ⟨entry, member, isWanted⟩
    rw [delete_absent fun entry member => by rw [finds entry member, unwanted entry member],
      List.filter_eq_self.mpr fun entry member => by rw [unwanted entry member]; rfl]

end Delete

/-- An update that is performed. -/
theorem run_update {change : FileData → Outcome StoreError FileData} {file changed : FileData}
    (changes : change file = .ok changed) :
    (update .performed change).run file = (.ok (), changed) := by
  simp [update, readDB, writeDB, Action.run_bind, changes]

end FileStore

end DnaPow.Account
