import DnaPow.Ledger.Spending

/-!
# The memory pool

`TXNPool` keeps the transactions that wait for a block in two maps: `txnList` by
hash, and `inputUTXOList` from the outpoints they consume to the consumer. The
two are updated by different routines, and the outpoints of a transaction are
looked up through the ledger store each time.

`Indexed` says that the second map is the index of the first. The theorems give
the conditions under which each routine keeps it, and what is left in the pool
after a block was persisted.
-/

namespace DnaPow.Net

open DnaPow.Std Common Core Ledger

/-- The outpoints that `GetReference` has as keys: all inputs, but none for a registration. -/
def references (txn : Transaction) : List Outpoint :=
  if txn.txType = .registerAsset then [] else txn.outpoints

theorem references_subset {txn : Transaction} : references txn ⊆ txn.outpoints := by
  intro o member
  unfold references at member
  split at member
  · cases member
  · exact member

/-- The keys of `GetReference`, when it succeeds. -/
def getReferenceKeys (store : ChainStore) (txn : Transaction) :
    Outcome ReferenceError (List Outpoint) := do
  let _ ← getReference store txn
  return references txn

theorem getReferenceKeys_eq_ok {store : ChainStore} {txn : Transaction} {keys : List Outpoint}
    (found : getReferenceKeys store txn = .ok keys) : keys = references txn := by
  simp only [getReferenceKeys, Outcome.bind_eq_ok] at found
  obtain ⟨_, _, same⟩ := found
  simpa using same.symm

/-- The pool. A transaction is stored under its own hash. -/
structure TXNPool (env : Env) where
  txnList : Uint256 → Option Transaction
  inputUTXOList : Outpoint → Option Transaction
  hashed : ∀ hash txn, txnList hash = some txn → txn.hash env.crypto = hash

inductive PoolError where
  | alreadyHaveTransaction
  | individualCoinbase
  | verifyTxsFailed
  deriving DecidableEq, Repr

namespace TXNPool

variable {env : Env}

/-- `init`. -/
def init (env : Env) : TXNPool env where
  txnList _ := none
  inputUTXOList _ := none
  hashed := by simp

/-! ## The locked steps -/

section Steps

variable (pool : TXNPool env)

/-- `addtxnList`: a known hash is not stored again. -/
def addtxnList (txn : Transaction) : TXNPool env :=
  if (pool.txnList (txn.hash env.crypto)).isSome then pool
  else
    { pool with
      txnList := write pool.txnList (txn.hash env.crypto) (some txn)
      hashed := by
        intro hash other stored
        rw [write_apply] at stored
        split_ifs at stored with same
        · rw [Option.some_inj] at stored
          rw [← stored, same]
        · exact pool.hashed hash other stored }

def deltxnList (txn : Transaction) : TXNPool env :=
  { pool with
    txnList := write pool.txnList (txn.hash env.crypto) none
    hashed := by
      intro hash other stored
      rw [write_apply] at stored
      split_ifs at stored
      exact pool.hashed hash other stored }

def getInputUTXOList (input : Outpoint) : Option Transaction := pool.inputUTXOList input

/-- `addInputUTXOList`: a known outpoint keeps its transaction. -/
def addInputUTXOList (txn : Transaction) (input : Outpoint) : TXNPool env :=
  if (pool.inputUTXOList input).isSome then pool
  else { pool with inputUTXOList := write pool.inputUTXOList input (some txn) }

def delInputUTXOList (input : Outpoint) : TXNPool env :=
  { pool with inputUTXOList := write pool.inputUTXOList input none }

end Steps

/-! ## Submission -/

section Calls

variable (assetID : Uint256) (store : ChainStore) (pool : TXNPool env)

/-- `verifyDoubleSpend`: look at all inputs, then register them. -/
def verifyDoubleSpend (txn : Transaction) : Outcome ErrCode (TXNPool env) := do
  let inputs ← withError .errDoubleSpend (getReferenceKeys store txn)
  .require (inputs.all fun input => (pool.getInputUTXOList input).isNone) .errDoubleSpend
  return inputs.foldl (fun pool input => pool.addInputUTXOList txn input) pool

def appendTxnPool (txn : Transaction) : Outcome ErrCode (TXNPool env) := do
  checkTransactionSanity env assetID store txn
  checkTransactionContext env store txn
  let pool ← pool.verifyDoubleSpend store txn
  return pool.addtxnList txn

def maybeAcceptTransaction (txn : Transaction) : Outcome PoolError (TXNPool env) := do
  .require ((pool.txnList (txn.hash env.crypto)).isNone) .alreadyHaveTransaction
  .require (txn.isCoinBaseTx = false) .individualCoinbase
  withError .verifyTxsFailed (pool.appendTxnPool assetID store txn)

/-! ## Removal -/

/-- Take outpoints out of the index. -/
def delInputs (inputs : List Outpoint) : TXNPool env :=
  inputs.foldl (fun pool input => pool.delInputUTXOList input) pool

/-- Take the outpoints of a transaction out of the index, if they can be looked up. -/
def delReferences {ε : Type} (txn : Transaction) : Outcome ε (TXNPool env) :=
  match getReferenceKeys store txn with
  | .ok inputs => .ok (pool.delInputs inputs)
  | .error _ => .ok pool
  | .panic => .panic

/-- `cleanTransactionList`: coinbase transactions are skipped. -/
def cleanTransactionList (txns : List Transaction) : TXNPool env :=
  txns.foldl (fun pool txn => if txn.isCoinBaseTx then pool else pool.deltxnList txn) pool

def cleanUTXOList {ε : Type} (txns : List Transaction) : Outcome ε (TXNPool env) :=
  txns.foldlM (fun pool txn => pool.delReferences store txn) pool

def cleanSubmittedTransactions {ε : Type} (block : Block) : Outcome ε (TXNPool env) :=
  (pool.cleanTransactionList block.transactions).cleanUTXOList store block.transactions

def removeTransaction {ε : Type} (txn : Transaction) : Outcome ε (TXNPool env) :=
  (pool.deltxnList txn).delReferences store txn

/-- `RemoveTransaction`, the exported method of nearly the same name: remove the
pool transactions that consume an output of the given transaction. -/
def RemoveTransaction {ε : Type} (txn : Transaction) : Outcome ε (TXNPool env) :=
  (List.range txn.outputs.length).foldlM (fun pool index =>
    match pool.inputUTXOList ⟨txn.hash env.crypto, UInt16.ofNat index⟩ with
    | some spender => pool.removeTransaction store spender
    | none => .ok pool) pool

/-- One transaction of a block that was rolled back. An error is only logged. -/
def rollbackOne {ε : Type} (txn : Transaction) : Outcome ε (TXNPool env) :=
  match pool.maybeAcceptTransaction assetID store txn with
  | .ok accepted => accepted.RemoveTransaction store txn
  | .error _ => .ok pool
  | .panic => .panic

/-- `PowService.RollbackTransaction`, with the store after the rollback. The
slice expression needs a first transaction. -/
def rollbackTransaction {ε : Type} (block : Block) : Outcome ε (TXNPool env) :=
  match block.transactions with
  | [] => .panic
  | _ :: txns => txns.foldlM (fun pool txn => pool.rollbackOne assetID store txn) pool

end Calls

/-! ## What the routines do to the two maps -/

section Maps

variable {assetID : Uint256} {store : ChainStore} {pool after : TXNPool env} {txn : Transaction}

@[simp] theorem txnList_addInputUTXOList (input : Outpoint) :
    (pool.addInputUTXOList txn input).txnList = pool.txnList := by
  unfold addInputUTXOList
  split <;> rfl

theorem inputUTXOList_addInputUTXOList (input o : Outpoint) :
    (pool.addInputUTXOList txn input).inputUTXOList o =
      if o = input ∧ pool.inputUTXOList o = none then some txn else pool.inputUTXOList o := by
  unfold addInputUTXOList
  by_cases same : o = input
  · subst same
    cases found : pool.inputUTXOList o <;> simp [found]
  · split <;> simp [same]

theorem txnList_addtxnList (hash : Uint256) :
    (pool.addtxnList txn).txnList hash =
      if hash = txn.hash env.crypto ∧ pool.txnList hash = none then some txn
      else pool.txnList hash := by
  unfold addtxnList
  by_cases same : hash = txn.hash env.crypto
  · subst same
    cases found : pool.txnList (txn.hash env.crypto) <;> simp [found]
  · split <;> simp [same]

@[simp] theorem inputUTXOList_addtxnList :
    (pool.addtxnList txn).inputUTXOList = pool.inputUTXOList := by
  unfold addtxnList
  split <;> rfl

theorem txnList_addInputs (inputs : List Outpoint) :
    (inputs.foldl (fun pool input => pool.addInputUTXOList txn input) pool).txnList =
      pool.txnList := by
  induction inputs generalizing pool with
  | nil => rfl
  | cons input inputs ih => rw [List.foldl_cons, ih, txnList_addInputUTXOList]

theorem inputUTXOList_addInputs (inputs : List Outpoint) (o : Outpoint) :
    (inputs.foldl (fun pool input => pool.addInputUTXOList txn input) pool).inputUTXOList o =
      if o ∈ inputs ∧ pool.inputUTXOList o = none then some txn else pool.inputUTXOList o := by
  induction inputs generalizing pool with
  | nil => simp
  | cons input inputs ih =>
    rw [List.foldl_cons, ih, inputUTXOList_addInputUTXOList]
    by_cases same : o = input
    · subst same
      cases known : pool.inputUTXOList o <;> simp
    · simp [same]

theorem inputUTXOList_delInputUTXOList (input o : Outpoint) :
    (pool.delInputUTXOList input).inputUTXOList o =
      if o = input then none else pool.inputUTXOList o :=
  write_apply pool.inputUTXOList input o none

theorem txnList_deltxnList (hash : Uint256) :
    (pool.deltxnList txn).txnList hash =
      if hash = txn.hash env.crypto then none else pool.txnList hash :=
  write_apply pool.txnList (txn.hash env.crypto) hash none

@[simp] theorem txnList_delInputs (inputs : List Outpoint) :
    (pool.delInputs inputs).txnList = pool.txnList := by
  induction inputs generalizing pool with
  | nil => rfl
  | cons input inputs ih => exact ih

theorem inputUTXOList_delInputs (inputs : List Outpoint) (o : Outpoint) :
    (pool.delInputs inputs).inputUTXOList o =
      if o ∈ inputs then none else pool.inputUTXOList o := by
  induction inputs generalizing pool with
  | nil => rfl
  | cons input inputs ih =>
    rw [delInputs, List.foldl_cons, ← delInputs, ih, inputUTXOList_delInputUTXOList]
    split_ifs <;> simp_all

@[simp] theorem inputUTXOList_cleanTransactionList (txns : List Transaction) :
    (pool.cleanTransactionList txns).inputUTXOList = pool.inputUTXOList := by
  induction txns generalizing pool with
  | nil => rfl
  | cons txn txns ih =>
    rw [cleanTransactionList, List.foldl_cons, ← cleanTransactionList, ih]
    split <;> rfl

/-- The hashes of the transactions that `cleanTransactionList` removes. -/
def cleanedHashes (env : Env) (txns : List Transaction) : List Uint256 :=
  (txns.filter fun txn => !txn.isCoinBaseTx).map (Transaction.hash env.crypto)

theorem mem_cleanedHashes_cons {txns : List Transaction} {hash : Uint256} :
    hash ∈ cleanedHashes env (txn :: txns) ↔
      (txn.isCoinBaseTx = false ∧ hash = txn.hash env.crypto) ∨ hash ∈ cleanedHashes env txns := by
  unfold cleanedHashes
  cases coinbase : txn.isCoinBaseTx <;> simp [coinbase]

theorem txnList_cleanTransactionList (txns : List Transaction) (hash : Uint256) :
    (pool.cleanTransactionList txns).txnList hash =
      if hash ∈ cleanedHashes env txns then none else pool.txnList hash := by
  induction txns generalizing pool with
  | nil => rfl
  | cons txn txns ih =>
    have head : (if txn.isCoinBaseTx then pool else pool.deltxnList txn).txnList hash =
        if txn.isCoinBaseTx = false ∧ hash = txn.hash env.crypto then none
        else pool.txnList hash := by
      cases coinbase : txn.isCoinBaseTx
      · simpa using txnList_deltxnList hash
      · simp
    rw [cleanTransactionList, List.foldl_cons, ← cleanTransactionList, ih, head]
    by_cases both : hash ∈ cleanedHashes env (txn :: txns)
    · rw [if_pos both]
      rcases mem_cleanedHashes_cons.mp both with first | later
      · simp [first]
      · rw [if_pos later]
    · rw [if_neg both]
      rw [mem_cleanedHashes_cons, not_or] at both
      rw [if_neg both.2, if_neg both.1]

/-- Looking the outpoints up fails or gives them; either way `txnList` stays. -/
theorem delReferences_eq_ok {ε : Type} (deleted : pool.delReferences store txn = .ok (ε := ε) after) :
    after.txnList = pool.txnList ∧ ∀ o, after.inputUTXOList o =
      if (getReferenceKeys store txn).isOk ∧ o ∈ references txn then none
      else pool.inputUTXOList o := by
  unfold delReferences at deleted
  cases found : getReferenceKeys store txn with
  | ok keys =>
    have keys_eq := getReferenceKeys_eq_ok found
    subst keys_eq
    simp only [found, Outcome.ok.injEq] at deleted
    subst deleted
    exact ⟨txnList_delInputs _, fun o => by simp [inputUTXOList_delInputs, Outcome.isOk]⟩
  | error reason =>
    simp only [found, Outcome.ok.injEq] at deleted
    subst deleted
    exact ⟨rfl, fun o => by simp [Outcome.isOk]⟩
  | panic => simp [found] at deleted

/-- The outpoints that `cleanUTXOList` takes out of the index. -/
def CleansInput (store : ChainStore) (txns : List Transaction) (o : Outpoint) : Prop :=
  ∃ txn ∈ txns, (getReferenceKeys store txn).isOk ∧ o ∈ references txn

theorem cleanUTXOList_eq_ok {ε : Type} {txns : List Transaction}
    (cleaned : pool.cleanUTXOList store txns = .ok (ε := ε) after) :
    after.txnList = pool.txnList ∧ ∀ o, (CleansInput store txns o → after.inputUTXOList o = none) ∧
      (¬ CleansInput store txns o → after.inputUTXOList o = pool.inputUTXOList o) := by
  induction txns generalizing pool with
  | nil =>
    simp only [cleanUTXOList, List.foldlM_nil, Outcome.pure_eq, Outcome.ok.injEq] at cleaned
    subst cleaned
    exact ⟨rfl, fun o => ⟨by simp [CleansInput], by simp⟩⟩
  | cons txn txns ih =>
    simp only [cleanUTXOList, List.foldlM_cons, Outcome.bind_eq_ok] at cleaned
    obtain ⟨middle, deleted, cleaned⟩ := cleaned
    obtain ⟨list, inputs⟩ := delReferences_eq_ok deleted
    obtain ⟨list', inputs'⟩ := ih cleaned
    refine ⟨list'.trans list, fun o => ?_⟩
    have split : CleansInput store (txn :: txns) o ↔
        ((getReferenceKeys store txn).isOk ∧ o ∈ references txn) ∨ CleansInput store txns o := by
      simp [CleansInput]
    rw [split]
    by_cases later : CleansInput store txns o
    · simp [later, (inputs' o).1 later]
    · rw [(inputs' o).2 later, inputs o]
      split_ifs with here
      · simp [here]
      · simp [here, later]

theorem appendTxnPool_eq_ok (appended : pool.appendTxnPool assetID store txn = .ok after) :
    (∀ o ∈ references txn, pool.inputUTXOList o = none) ∧
      after = TXNPool.addtxnList ((references txn).foldl
        (fun pool input => pool.addInputUTXOList txn input) pool) txn := by
  simp only [appendTxnPool, verifyDoubleSpend, Outcome.bind_eq_ok, withError_eq_ok,
    Outcome.require_eq_ok, Outcome.pure_eq, Outcome.ok.injEq] at appended
  obtain ⟨_, _, _, _, middle, ⟨keys, found, _, free, rfl⟩, rfl⟩ := appended
  have keys_eq := getReferenceKeys_eq_ok found
  subst keys_eq
  refine ⟨fun o member => ?_, rfl⟩
  have none_found := List.all_eq_true.mp free o member
  simpa [getInputUTXOList] using none_found

end Maps

end TXNPool

/-! ## A sample scenario

A transaction is submitted, and a block is persisted that contains it or that
contains another consumer of the same output. -/

namespace Sample

open Ledger.Blockchain

/-- A transaction that spends the coinbase output which `spendingBlock` spends,
with another amount. -/
def rival : Transaction :=
  Ledger.Sample.spend .transferAsset (Ledger.Sample.coinbase 1 0x80000000 5000) 2000

/-- The transaction that `spendingBlock` contains. -/
def contained : Transaction :=
  Ledger.Sample.spend .transferAsset (Ledger.Sample.coinbase 1 0x80000000 5000) 1000

/-- A transaction is submitted after the first block, and then `spendingBlock`
is persisted: the two ledgers and the two pools. -/
def submitThenPersist (txn : Transaction) :
    Option (Blockchain × TXNPool .sample × Blockchain × TXNPool .sample) := do
  let before ← run .sample (Ledger.Sample.deliveries [firstBlock])
  let pool ← ((TXNPool.init .sample).appendTxnPool before.assetID before.store txn).toOption
  let persisted ← run .sample (Ledger.Sample.deliveries [firstBlock, spendingBlock])
  let after ← (pool.cleanSubmittedTransactions (ε := PoolError)
    persisted.store spendingBlock).toOption
  return (before, pool, persisted, after)

theorem submitThenPersist_eq_some {txn : Transaction} {before persisted : Blockchain}
    {pool after : TXNPool .sample}
    (ended : submitThenPersist txn = some (before, pool, persisted, after)) :
    run .sample (Ledger.Sample.deliveries [firstBlock]) = some before ∧
      (TXNPool.init .sample).appendTxnPool before.assetID before.store txn = .ok pool ∧
      run .sample (Ledger.Sample.deliveries [firstBlock, spendingBlock]) = some persisted ∧
      pool.cleanSubmittedTransactions (ε := PoolError) persisted.store spendingBlock =
        .ok after := by
  simp only [submitThenPersist, Option.bind_eq_bind, Option.bind_eq_some_iff,
    Outcome.toOption_eq_some, Option.pure_def, Option.some.injEq, Prod.mk.injEq] at ended
  obtain ⟨_, ran, _, appended, _, ran', _, cleaned, rfl, rfl, rfl, rfl⟩ := ended
  exact ⟨ran, appended, ran', cleaned⟩

/-- The outpoint that both transactions consume. -/
def spent : Outpoint := ⟨(Ledger.Sample.coinbase 1 0x80000000 5000).hash Env.sample.crypto, 0⟩

/-- The rival is still in the pool, and its outpoint is free again. -/
theorem rival_left : (submitThenPersist rival).map (fun (_, _, _, after) =>
    (after.txnList (rival.hash Env.sample.crypto), after.inputUTXOList spent)) =
      some (some rival, none) := by
  decide +kernel

/-- The pool after the first event holds the submitted transaction only. -/
theorem submitted_only {before : Blockchain} {pool : TXNPool .sample} {txn other : Transaction}
    {hash : Uint256}
    (appended : (TXNPool.init .sample).appendTxnPool before.assetID before.store txn = .ok pool)
    (stored : pool.txnList hash = some other) : hash = txn.hash Env.sample.crypto ∧ other = txn := by
  obtain ⟨-, rfl⟩ := TXNPool.appendTxnPool_eq_ok appended
  rw [TXNPool.txnList_addtxnList, TXNPool.txnList_addInputs] at stored
  split_ifs at stored with new
  · exact ⟨new.1, (Option.some_inj.mp stored).symm⟩
  · cases stored

end Sample

namespace TXNPool

open Sample Ledger.Blockchain

variable {env : Env}

/-! ## The pool after a block -/

section Clean

variable {store : ChainStore} {pool after : TXNPool env} {block : Block}

/-- Two transactions that cannot both be on a chain: they have one hash or
consume a common outpoint. -/
def Conflicts (env : Env) (txn other : Transaction) : Prop :=
  txn.hash env.crypto = other.hash env.crypto ∨ ∃ o ∈ txn.outpoints, o ∈ other.outpoints

/-- No transaction of the pool conflicts with one of the block. -/
def NoConflict (pool : TXNPool env) (block : Block) : Prop :=
  ∀ hash txn, pool.txnList hash = some txn → ∀ other ∈ block.transactions, ¬ Conflicts env txn other

/-- The transactions of the pool that conflict with the block are in the block,
and not as its coinbase transaction. -/
def ConflictsContained (pool : TXNPool env) (block : Block) : Prop :=
  ∀ hash txn, pool.txnList hash = some txn → ∀ other ∈ block.transactions,
    Conflicts env txn other → hash ∈ cleanedHashes env block.transactions

/-- Cleaning removes what is in the block and nothing else, so a conflict with
the block remains exactly when the pool had another consumer of an outpoint. -/
theorem cleanSubmittedTransactions_noConflict_iff {ε : Type}
    (cleaned : pool.cleanSubmittedTransactions store block = .ok (ε := ε) after) :
    after.NoConflict block ↔ pool.ConflictsContained block := by
  have list (hash : Uint256) : after.txnList hash =
      if hash ∈ cleanedHashes env block.transactions then none else pool.txnList hash := by
    rw [(cleanUTXOList_eq_ok cleaned).1, txnList_cleanTransactionList]
  constructor
  · intro noConflict hash txn stored other member conflict
    by_contra kept
    have left : after.txnList hash = some txn := by rw [list, if_neg kept, stored]
    exact noConflict hash txn left other member conflict
  · intro contained hash txn left other member conflict
    rw [list] at left
    split_ifs at left with removed
    exact removed (contained hash txn left other member conflict)

theorem rival_conflicts : ∃ before pool persisted after,
    run .sample (Ledger.Sample.deliveries [firstBlock]) = some before ∧
    (init .sample).appendTxnPool before.assetID before.store rival = .ok pool ∧
    run .sample (Ledger.Sample.deliveries [firstBlock, spendingBlock]) = some persisted ∧
    pool.cleanSubmittedTransactions (ε := PoolError) persisted.store spendingBlock = .ok after ∧
    ¬ after.NoConflict spendingBlock := by
  obtain ⟨⟨before, pool, persisted, after⟩, ended, left⟩ := Option.map_eq_some_iff.mp rival_left
  simp only [Prod.mk.injEq] at left
  obtain ⟨ran, appended, ran', cleaned⟩ := submitThenPersist_eq_some ended
  refine ⟨before, pool, persisted, after, ran, appended, ran', cleaned, fun noConflict => ?_⟩
  refine noConflict _ rival left.1 contained (by simp [spendingBlock, contained,
    Ledger.Sample.block]) (.inr ⟨spent, ?_, ?_⟩)
  · exact List.mem_singleton_self _
  · exact List.mem_singleton_self _

/-- A pool transaction that is itself in the block is removed. -/
theorem contained_noConflict : ∃ (pool after : TXNPool .sample) (persisted : ChainStore),
    pool.cleanSubmittedTransactions (ε := PoolError) persisted spendingBlock = .ok after ∧
    pool.txnList (contained.hash Env.sample.crypto) = some contained ∧
    after.NoConflict spendingBlock := by
  have stored : (submitThenPersist contained).map (fun (_, pool, _, _) =>
      pool.txnList (contained.hash Env.sample.crypto)) = some (some contained) := by decide +kernel
  obtain ⟨⟨before, pool, persisted, after⟩, ended, stored⟩ := Option.map_eq_some_iff.mp stored
  obtain ⟨-, appended, -, cleaned⟩ := submitThenPersist_eq_some ended
  refine ⟨pool, after, persisted.store, cleaned, stored, ?_⟩
  rw [cleanSubmittedTransactions_noConflict_iff cleaned]
  intro hash txn stored _ _ _
  rw [(submitted_only appended stored).1]
  decide +kernel

end Clean

/-! ## The index of the pool -/

/-- `inputUTXOList` is the index of `txnList`: its keys are the outpoints that
the pool transactions consume, each with its consumer. -/
structure Indexed (pool : TXNPool env) : Prop where
  listed : ∀ o txn, pool.inputUTXOList o = some txn →
    pool.txnList (txn.hash env.crypto) = some txn ∧ o ∈ references txn
  registered : ∀ hash txn, pool.txnList hash = some txn → ∀ o ∈ references txn,
    pool.inputUTXOList o = some txn

theorem indexed_init : (init env).Indexed where
  listed := by simp [init]
  registered := by simp [init]

section Indexed

variable {assetID : Uint256} {store : ChainStore} {pool after : TXNPool env} {txn : Transaction}
  {block : Block}

/-- A transaction of the pool with the hash of the given one consumes the same outpoints. -/
def SameInputs (pool : TXNPool env) (txn : Transaction) : Prop :=
  ∀ other, pool.txnList (txn.hash env.crypto) = some other → references other = references txn

/-- A submission keeps the index. -/
theorem Indexed.appendTxnPool (indexed : pool.Indexed) (same : pool.SameInputs txn)
    (appended : pool.appendTxnPool assetID store txn = .ok after) : after.Indexed := by
  obtain ⟨free, rfl⟩ := appendTxnPool_eq_ok appended
  cases known : pool.txnList (txn.hash env.crypto) with
  | some other =>
    -- the inputs of a known transaction are registered, so there are none
    have no_inputs : references txn = [] := by
      rw [List.eq_nil_iff_forall_not_mem]
      intro o member
      have taken := indexed.registered _ other known o (by rwa [same other known])
      rw [free o member] at taken
      cases taken
    have unchanged : pool.addtxnList txn = pool := by simp [addtxnList, known]
    rw [no_inputs, List.foldl_nil, unchanged]
    exact indexed
  | none =>
    constructor
    · intro o other found
      rw [inputUTXOList_addtxnList, inputUTXOList_addInputs] at found
      rw [txnList_addtxnList, txnList_addInputs]
      split_ifs at found with new
      · rw [Option.some_inj] at found
        subst found
        exact ⟨by simp [known], new.1⟩
      · obtain ⟨stored, consumes⟩ := indexed.listed o other found
        refine ⟨?_, consumes⟩
        split_ifs with clash
        · rw [clash.2] at stored
          cases stored
        · exact stored
    · intro hash other stored o consumes
      rw [txnList_addtxnList, txnList_addInputs] at stored
      rw [inputUTXOList_addtxnList, inputUTXOList_addInputs]
      split_ifs at stored with new
      · rw [Option.some_inj] at stored
        subst stored
        rw [if_pos ⟨consumes, free o consumes⟩]
      · have registered := indexed.registered hash other stored o consumes
        rw [if_neg (by simp [registered]), registered]

/-- A transaction that is accepted has an unknown hash. -/
theorem Indexed.maybeAcceptTransaction (indexed : pool.Indexed)
    (accepted : pool.maybeAcceptTransaction assetID store txn = .ok after) : after.Indexed := by
  simp only [TXNPool.maybeAcceptTransaction, Outcome.bind_eq_ok, Outcome.require_eq_ok,
    withError_eq_ok] at accepted
  obtain ⟨_, unknown, _, _, appended⟩ := accepted
  apply indexed.appendTxnPool _ appended
  intro other known
  rw [known] at unknown
  simp at unknown

/-- Every transaction of the block that is in the pool can be looked up and
consumes the outpoints of the one in the pool. -/
def BlockKnown (store : ChainStore) (pool : TXNPool env) (block : Block) : Prop :=
  ∀ txn ∈ block.transactions, txn.isCoinBaseTx = false → ∀ other,
    pool.txnList (txn.hash env.crypto) = some other →
      references other = references txn ∧ (getReferenceKeys store txn).isOk

/-- Cleaning keeps the index when the pool has no other consumers. -/
theorem Indexed.cleanSubmittedTransactions {ε : Type} (indexed : pool.Indexed)
    (contained : pool.ConflictsContained block) (known : pool.BlockKnown store block)
    (cleaned : pool.cleanSubmittedTransactions store block = .ok (ε := ε) after) :
    after.Indexed := by
  obtain ⟨list, inputs⟩ := cleanUTXOList_eq_ok cleaned
  simp only [inputUTXOList_cleanTransactionList] at inputs
  have list' (hash : Uint256) : after.txnList hash =
      if hash ∈ cleanedHashes env block.transactions then none else pool.txnList hash := by
    rw [list, txnList_cleanTransactionList]
  constructor
  · intro o txn found
    by_cases removed : CleansInput store block.transactions o
    · rw [(inputs o).1 removed] at found
      cases found
    · rw [(inputs o).2 removed] at found
      obtain ⟨stored, consumes⟩ := indexed.listed o txn found
      refine ⟨?_, consumes⟩
      rw [list', if_neg, stored]
      intro contains
      simp only [cleanedHashes, List.mem_map, List.mem_filter, Bool.not_eq_true'] at contains
      obtain ⟨other, ⟨member, notCoinbase⟩, same⟩ := contains
      rw [← same] at stored
      obtain ⟨inputs_eq, found_keys⟩ := known other member notCoinbase txn stored
      exact removed ⟨other, member, found_keys, by rwa [← inputs_eq]⟩
  · intro hash txn stored o consumes
    rw [list'] at stored
    split_ifs at stored with removed
    have registered := indexed.registered hash txn stored o consumes
    rw [(inputs o).2, registered]
    rintro ⟨other, member, -, consumes'⟩
    apply removed
    refine contained hash txn stored other member (.inr ⟨o, ?_, ?_⟩)
    · exact references_subset consumes
    · exact references_subset consumes'

/-- No transaction of the pool or of the list consumes an output of one of the list. -/
def OutputsUnused (pool : TXNPool env) (txns : List Transaction) : Prop :=
  ∀ txn ∈ txns, ∀ o : Outpoint, o.referTxID = txn.hash env.crypto →
    pool.inputUTXOList o = none ∧ ∀ other ∈ txns, o ∉ references other

theorem removeTransaction_of_unused {ε : Type}
    (unused : ∀ o : Outpoint, o.referTxID = txn.hash env.crypto → pool.inputUTXOList o = none) :
    pool.RemoveTransaction store txn = .ok (ε := ε) pool := by
  unfold RemoveTransaction
  induction List.range txn.outputs.length with
  | nil => rfl
  | cons index indexes ih =>
    rw [List.foldlM_cons, unused _ rfl]
    exact ih

/-- A transaction that is accepted again registers its own inputs only. -/
theorem OutputsUnused.maybeAcceptTransaction {txns : List Transaction}
    (unused : pool.OutputsUnused txns) (member : txn ∈ txns)
    (accepted : pool.maybeAcceptTransaction assetID store txn = .ok after) :
    after.OutputsUnused txns := by
  simp only [TXNPool.maybeAcceptTransaction, Outcome.bind_eq_ok, withError_eq_ok] at accepted
  obtain ⟨_, _, _, _, appended⟩ := accepted
  obtain ⟨_, rfl⟩ := appendTxnPool_eq_ok appended
  intro source source_member o refers
  obtain ⟨free, others⟩ := unused source source_member o refers
  refine ⟨?_, others⟩
  rw [inputUTXOList_addtxnList, inputUTXOList_addInputs, if_neg, free]
  rintro ⟨consumes, -⟩
  exact others txn member consumes

theorem Indexed.rollbackOne {ε : Type} {txns : List Transaction} (indexed : pool.Indexed)
    (unused : pool.OutputsUnused txns) (member : txn ∈ txns)
    (rolled : pool.rollbackOne assetID store txn = .ok (ε := ε) after) :
    after.Indexed ∧ after.OutputsUnused txns := by
  unfold TXNPool.rollbackOne at rolled
  cases accepted : pool.maybeAcceptTransaction assetID store txn with
  | ok middle =>
    have unused' := unused.maybeAcceptTransaction member accepted
    simp only [accepted] at rolled
    rw [removeTransaction_of_unused fun o refers => (unused' txn member o refers).1] at rolled
    cases rolled
    exact ⟨indexed.maybeAcceptTransaction accepted, unused'⟩
  | error reason =>
    simp only [accepted, Outcome.ok.injEq] at rolled
    subst rolled
    exact ⟨indexed, unused⟩
  | panic => simp [accepted] at rolled

/-- A rollback keeps the index when no transaction of the pool consumes an
output of the block. -/
theorem Indexed.rollbackTransaction {ε : Type} (indexed : pool.Indexed)
    (unused : pool.OutputsUnused block.transactions.tail)
    (rolled : pool.rollbackTransaction assetID store block = .ok (ε := ε) after) :
    after.Indexed := by
  unfold TXNPool.rollbackTransaction at rolled
  cases transactions : block.transactions with
  | nil => simp [transactions] at rolled
  | cons first txns =>
    simp only [transactions, List.tail_cons] at rolled unused
    -- the loop runs through a suffix of the block's transactions
    have loop : ∀ (rest : List Transaction) (pool : TXNPool env), rest ⊆ txns → pool.Indexed →
        pool.OutputsUnused txns →
        rest.foldlM (fun pool txn => pool.rollbackOne assetID store txn) pool =
          .ok (ε := ε) after → after.Indexed := by
      intro rest
      induction rest with
      | nil =>
        intro pool _ indexed _ ended
        cases ended
        exact indexed
      | cons txn rest ih =>
        intro pool sub indexed unused looped
        rw [List.foldlM_cons, Outcome.bind_eq_ok] at looped
        obtain ⟨middle, one, looped⟩ := looped
        obtain ⟨indexed', unused'⟩ := indexed.rollbackOne unused (sub (by simp)) one
        exact ih middle (fun _ later => sub (by simp [later])) indexed' unused' looped
    exact loop txns pool (fun _ later => later) indexed unused rolled

end Indexed

/-! ## Runs of the pool -/

/-- A call that reaches the pool, with the ledger store at its time: a submitted
transaction, a persisted block, a block that was rolled back. -/
inductive Event where
  | appendTxnPool (assetID : Uint256) (store : ChainStore) (txn : Transaction)
  | maybeAcceptTransaction (assetID : Uint256) (store : ChainStore) (txn : Transaction)
  | blockPersistCompleted (store : ChainStore) (block : Block)
  | rollbackTransaction (assetID : Uint256) (store : ChainStore) (block : Block)

/-- The pool after a call, which an error leaves as it was; `none` after a panic. -/
def afterCall {ε : Type} (pool : TXNPool env) : Outcome ε (TXNPool env) → Option (TXNPool env)
  | .ok after => some after
  | .error _ => some pool
  | .panic => none

namespace Event

/-- The effect of an event on the pool. -/
def apply (pool : TXNPool env) : Event → Option (TXNPool env)
  | appendTxnPool assetID store txn => pool.afterCall (pool.appendTxnPool assetID store txn)
  | maybeAcceptTransaction assetID store txn =>
      pool.afterCall (pool.maybeAcceptTransaction assetID store txn)
  | blockPersistCompleted store block =>
      pool.afterCall (pool.cleanSubmittedTransactions (ε := PoolError) store block)
  | rollbackTransaction assetID store block =>
      pool.afterCall (pool.rollbackTransaction (ε := PoolError) assetID store block)

/-- What keeps the index: a hash belongs to one set of inputs, a persisted block
conflicts only with pool transactions that it contains, and nothing in the pool
depends on a block that is rolled back. -/
def Admissible (pool : TXNPool env) : Event → Prop
  | appendTxnPool _ _ txn => pool.SameInputs txn
  | maybeAcceptTransaction _ _ _ => True
  | blockPersistCompleted store block =>
      pool.ConflictsContained block ∧ pool.BlockKnown store block
  | rollbackTransaction _ _ block => pool.OutputsUnused block.transactions.tail

end Event

/-- The pool after a sequence of events. -/
def runEvents (pool : TXNPool env) (events : List Event) : Option (TXNPool env) :=
  events.foldlM Event.apply pool

/-- Every event is admissible in the pool it finds. -/
def AdmissibleRun (pool : TXNPool env) : List Event → Prop
  | [] => True
  | event :: events =>
      event.Admissible pool ∧ ∀ next, event.apply pool = some next → AdmissibleRun next events

theorem Indexed.afterCall {ε : Type} {pool after : TXNPool env} {call : Outcome ε (TXNPool env)}
    (indexed : pool.Indexed) (keeps : ∀ next, call = .ok next → next.Indexed)
    (called : pool.afterCall call = some after) : after.Indexed := by
  cases call with
  | ok next =>
    simp only [TXNPool.afterCall, Option.some.injEq] at called
    subst called
    exact keeps next rfl
  | error reason =>
    simp only [TXNPool.afterCall, Option.some.injEq] at called
    subst called
    exact indexed
  | panic => cases called

/-- An admissible event keeps the index. -/
theorem Indexed.apply {pool after : TXNPool env} {event : Event} (indexed : pool.Indexed)
    (admissible : event.Admissible pool) (applied : event.apply pool = some after) :
    after.Indexed := by
  cases event with
  | appendTxnPool assetID store txn =>
    exact indexed.afterCall (fun _ => indexed.appendTxnPool admissible) applied
  | maybeAcceptTransaction assetID store txn =>
    exact indexed.afterCall (fun _ => indexed.maybeAcceptTransaction) applied
  | blockPersistCompleted store block =>
    exact indexed.afterCall
      (fun _ => indexed.cleanSubmittedTransactions admissible.1 admissible.2) applied
  | rollbackTransaction assetID store block =>
    exact indexed.afterCall (fun _ => indexed.rollbackTransaction admissible) applied

/-- In every run of admissible events from the empty pool, the pool stays indexed. -/
theorem indexed_of_runEvents {events : List Event} {pool : TXNPool env}
    (admissible : AdmissibleRun (init env) events)
    (ran : runEvents (init env) events = some pool) : pool.Indexed := by
  have run : ∀ (events : List Event) (start : TXNPool env), start.Indexed →
      AdmissibleRun start events → runEvents start events = some pool → pool.Indexed := by
    intro events
    induction events with
    | nil =>
      intro start indexed _ ended
      cases ended
      exact indexed
    | cons event events ih =>
      intro start indexed admissible ran
      rw [runEvents, List.foldlM_cons, Option.bind_eq_bind, Option.bind_eq_some_iff] at ran
      obtain ⟨next, applied, ran⟩ := ran
      exact ih next (indexed.apply admissible.1 applied) (admissible.2 next applied) ran
  exact run events (init env) indexed_init admissible ran

theorem rival_unindexed : ∃ before persisted after,
    run .sample (Ledger.Sample.deliveries [firstBlock]) = some before ∧
    run .sample (Ledger.Sample.deliveries [firstBlock, spendingBlock]) = some persisted ∧
    runEvents (init .sample)
      [.appendTxnPool before.assetID before.store rival,
        .blockPersistCompleted persisted.store spendingBlock] = some after ∧
    ¬ after.Indexed := by
  obtain ⟨⟨before, pool, persisted, after⟩, ended, left⟩ := Option.map_eq_some_iff.mp rival_left
  simp only [Prod.mk.injEq] at left
  obtain ⟨ran, appended, ran', cleaned⟩ := submitThenPersist_eq_some ended
  refine ⟨before, persisted, after, ran, ran', ?_, fun indexed => ?_⟩
  · simp [runEvents, Event.apply, appended, cleaned, afterCall]
  · have registered := indexed.registered _ rival left.1 spent (List.mem_singleton_self _)
    rw [left.2] at registered
    cases registered

/-- The same transaction in the pool and in the block. -/
theorem contained_indexed : ∃ (before persisted : Blockchain) (after : TXNPool .sample),
    runEvents (init .sample) [.appendTxnPool before.assetID before.store contained,
      .blockPersistCompleted persisted.store spendingBlock] = some after ∧ after.Indexed := by
  have known : (submitThenPersist contained).map (fun (_, _, persisted, _) =>
      (getReferenceKeys persisted.store contained).isOk) = some true := by decide +kernel
  obtain ⟨⟨before, pool, persisted, after⟩, ended, known⟩ := Option.map_eq_some_iff.mp known
  obtain ⟨-, appended, -, cleaned⟩ := submitThenPersist_eq_some ended
  have ran : runEvents (init .sample) [.appendTxnPool before.assetID before.store contained,
      .blockPersistCompleted persisted.store spendingBlock] = some after := by
    simp [runEvents, Event.apply, appended, cleaned, afterCall]
  refine ⟨before, persisted, after, ran, indexed_of_runEvents ?_ ran⟩
  constructor
  · intro other stored
    cases stored
  · intro next applied
    simp only [Event.apply, appended, afterCall, Option.some.injEq] at applied
    subst applied
    refine ⟨⟨?_, ?_⟩, fun _ _ => trivial⟩
    · intro hash txn stored _ _ _
      rw [(submitted_only appended stored).1]
      decide +kernel
    · intro txn member notCoinbase other stored
      have cases : txn = Ledger.Sample.coinbase 2 2 5000 ∨ txn = contained := by
        simpa [spendingBlock, contained, Ledger.Sample.block] using member
      rcases cases with rfl | rfl
      · cases notCoinbase
      · rw [(submitted_only appended stored).2]
        exact ⟨rfl, known⟩

end TXNPool

end DnaPow.Net
