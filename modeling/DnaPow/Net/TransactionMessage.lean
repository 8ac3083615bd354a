import DnaPow.Net.TransactionPool
import DnaPow.Std.RecentItems

/-!
# Transaction messages

What a node does with a `tx` message: the filter for identifiers that were seen
before, submission to the memory pool, and relaying to the neighbours. The filter is
keyed by the hash of a transaction, which does not cover its programs, and it is
updated before the transaction is validated.
-/

namespace DnaPow.Net

open DnaPow.Std Common Core Ledger

/-- `MAXIDCACHED`. -/
def maxIdCached : Nat := 5000

/-- The parts of a node that a `tx` message touches. -/
structure TxNode (env : Env) where
  idCache : RecentItems Uint256
  txnPool : TXNPool env
  /-- The transactions handed to `Relay`, in order. -/
  relayed : List Transaction

inductive TrnError where
  | verifyTransactionFailed
  deriving DecidableEq, Repr

namespace TxNode

variable {env : Env}

/-- `ExistedID`: whether an identifier was seen before. One that was not is noted. -/
def existedID {ε : Type} (id : Uint256) : Action ε (TxNode env) Bool := do
  if (← Action.get).idCache.knows id then return true
  else do
    Action.modify fun node => { node with idCache := node.idCache.add maxIdCached id }
    return false

variable (assetID : Uint256) (store : ChainStore)

/-- `trn.Handle`, on the given ledger. -/
def trnHandle (txn : Transaction) : Action TrnError (TxNode env) Unit := do
  if ← existedID (txn.hash env.crypto) then pure ()
  else
    match (← Action.get).txnPool.appendTxnPool assetID store txn with
    | .ok txnPool => Action.modify fun node => { node with txnPool, relayed := node.relayed ++ [txn] }
    | .error _ => Action.throw .verifyTransactionFailed
    | .panic => Action.crash

/-- Handle messages that are all rejected by the memory pool. -/
def rejectAll (node : TxNode env) : List Transaction → Option (TxNode env)
  | [] => some node
  | txn :: txns =>
      match (trnHandle assetID store txn).run node with
      | (.error _, after) => rejectAll after txns
      | _ => none

/-- A message is accepted: its transaction is in the pool and relayed. -/
def Accepts (node : TxNode env) (txn : Transaction) : Prop :=
  ∃ txnPool, node.txnPool.appendTxnPool assetID store txn = .ok txnPool ∧
    ((trnHandle assetID store txn).run node).2.txnPool = txnPool ∧
    ((trnHandle assetID store txn).run node).2.relayed = node.relayed ++ [txn]

variable {assetID store} {node after : TxNode env} {txn : Transaction}

theorem trnHandle_known (known : node.idCache.knows (txn.hash env.crypto) = true) :
    (trnHandle assetID store txn).run node = (.ok (), node) := by
  simp [trnHandle, existedID, Action.run_bind, known]

/-- A hash that is new is noted, whatever the pool says. -/
theorem trnHandle_new (new : node.idCache.knows (txn.hash env.crypto) = false) :
    (trnHandle assetID store txn).run node =
      match node.txnPool.appendTxnPool assetID store txn with
      | .ok txnPool => (.ok (), ⟨node.idCache.add maxIdCached (txn.hash env.crypto), txnPool,
          node.relayed ++ [txn]⟩)
      | .error _ => (.error .verifyTransactionFailed,
          { node with idCache := node.idCache.add maxIdCached (txn.hash env.crypto) })
      | .panic => (.panic,
          { node with idCache := node.idCache.add maxIdCached (txn.hash env.crypto) }) := by
  have seen : (existedID (txn.hash env.crypto) : Action TrnError (TxNode env) Bool).run node =
      (.ok false, { node with idCache := node.idCache.add maxIdCached (txn.hash env.crypto) }) := by
    simp [existedID, Action.run_bind, new]
  rw [trnHandle, Action.run_bind_of_ok seen]
  cases appended : node.txnPool.appendTxnPool assetID store txn <;>
    simp [Action.run_bind, appended]

/-- A message is accepted if its hash is new and the pool takes the transaction. -/
theorem accepts_iff : node.Accepts assetID store txn ↔
    node.idCache.knows (txn.hash env.crypto) = false ∧
      (node.txnPool.appendTxnPool assetID store txn).isOk = true := by
  unfold Accepts
  cases known : node.idCache.knows (txn.hash env.crypto) with
  | true => simp [trnHandle_known known]
  | false =>
    rw [trnHandle_new known]
    cases node.txnPool.appendTxnPool assetID store txn <;> simp [Outcome.isOk]

/-- A rejected message leaves its hash behind and nothing else. -/
theorem trnHandle_error {reason : TrnError}
    (rejected : (trnHandle assetID store txn).run node = (.error reason, after)) :
    node.idCache.knows (txn.hash env.crypto) = false ∧
      after = { node with idCache := node.idCache.add maxIdCached (txn.hash env.crypto) } := by
  cases known : node.idCache.knows (txn.hash env.crypto) with
  | true => simp [trnHandle_known known] at rejected
  | false =>
    rw [trnHandle_new known] at rejected
    cases appended : node.txnPool.appendTxnPool assetID store txn <;>
      simp only [appended, Prod.mk.injEq, reduceCtorEq, false_and] at rejected
    exact ⟨rfl, rejected.2.symm⟩

/-- A message with a new hash that the pool refuses. -/
theorem rejectAll_single (new : node.idCache.knows (txn.hash env.crypto) = false)
    (refused : (node.txnPool.appendTxnPool assetID store txn).isError = true) :
    rejectAll assetID store node [txn] =
      some { node with idCache := node.idCache.add maxIdCached (txn.hash env.crypto) } := by
  rw [rejectAll, trnHandle_new new]
  cases appended : node.txnPool.appendTxnPool assetID store txn <;>
    simp [appended, Outcome.isError, rejectAll] at refused ⊢

/-- Rejected messages change the filter only, which then knows their hashes. -/
theorem rejectAll_eq_some {seen : List Uint256} {txns : List Transaction}
    (remembers : RecentItems.Remembers maxIdCached 0 seen node.idCache)
    (nonzero : ∀ txn ∈ txns, txn.hash env.crypto ≠ 0)
    (rejected : rejectAll assetID store node txns = some after) :
    after.txnPool = node.txnPool ∧
      RecentItems.Remembers maxIdCached 0 (seen ++ txns.map (Transaction.hash env.crypto))
        after.idCache := by
  induction txns generalizing node seen with
  | nil =>
    obtain rfl := Option.some.inj rejected
    exact ⟨rfl, by simpa using remembers⟩
  | cons txn txns ih =>
    rw [rejectAll] at rejected
    split at rejected
    · next reason middle failed =>
      obtain ⟨new, rfl⟩ := trnHandle_error failed
      have noted := remembers.add (nonzero txn List.mem_cons_self) new
      have rest := ih noted (fun other member => nonzero other (List.mem_cons_of_mem _ member))
        rejected
      rwa [List.append_assoc] at rest
    · cases rejected

/-! ## Sample messages -/

/-- A node that has not received anything. -/
def idle (env : Env) : TxNode env := ⟨.init 0, .init env, []⟩

/-- The same transaction without its programs: the hash does not change. -/
def stripped (txn : Transaction) : Transaction := { txn with programs := [] }

/-- After the first block, the pool takes the transactions of the sample and refuses them
without their programs. -/
theorem sample_appendTxnPool : ∃ before,
    Blockchain.run .sample (Ledger.Sample.deliveries [Blockchain.firstBlock]) = some before ∧
    ((TXNPool.init .sample).appendTxnPool before.assetID before.store Sample.contained).isOk ∧
    ((TXNPool.init .sample).appendTxnPool before.assetID before.store
      (stripped Sample.contained)).isError ∧
    ((TXNPool.init .sample).appendTxnPool before.assetID before.store
      (stripped Sample.rival)).isError := by
  have facts : (Blockchain.run .sample (Ledger.Sample.deliveries [Blockchain.firstBlock])).map
      (fun before => decide (
        ((TXNPool.init .sample).appendTxnPool before.assetID before.store Sample.contained).isOk ∧
        ((TXNPool.init .sample).appendTxnPool before.assetID before.store
          (stripped Sample.contained)).isError ∧
        ((TXNPool.init .sample).appendTxnPool before.assetID before.store
          (stripped Sample.rival)).isError)) = some true := by
    decide +kernel
  obtain ⟨before, ran, facts⟩ := Option.map_eq_some_iff.mp facts
  exact ⟨before, ran, of_decide_eq_true facts⟩

/-! ## No trace -/

/-- Whether a transaction is accepted does not depend on rejected messages before it:
exactly if the pool refuses it, or the filter, which knows the last hashes seen, does
not come to know or to forget its hash by theirs. -/
theorem rejected_noTrace_iff (env : Env) (assetID : Uint256) (store : ChainStore)
    (node after : TxNode env) (seen : List Uint256) (rejected : List Transaction)
    (txn : Transaction) (remembers : RecentItems.Remembers maxIdCached 0 seen node.idCache)
    (nonzero : ∀ other ∈ txn :: rejected, other.hash env.crypto ≠ 0)
    (ended : rejectAll assetID store node rejected = some after) :
    (after.Accepts assetID store txn ↔ node.Accepts assetID store txn) ↔
      (node.txnPool.appendTxnPool assetID store txn).isOk = false ∨
      (txn.hash env.crypto ∈ RecentItems.recent maxIdCached seen ↔
        txn.hash env.crypto ∈ RecentItems.recent maxIdCached
          (seen ++ rejected.map (Transaction.hash env.crypto))) := by
  obtain ⟨notZero, nonzero⟩ := List.forall_mem_cons.mp nonzero
  obtain ⟨samePool, remembers'⟩ := rejectAll_eq_some remembers nonzero ended
  have room : 0 < maxIdCached := by decide
  rw [accepts_iff, accepts_iff, samePool, ← (remembers.holds room).knows_iff room notZero,
    ← (remembers'.holds room).knows_iff room notZero]
  cases (node.txnPool.appendTxnPool assetID store txn).isOk <;>
    cases node.idCache.knows (txn.hash env.crypto) <;>
      cases after.idCache.knows (txn.hash env.crypto) <;> simp

/-- A rejected message with another hash. -/
theorem rejected_rival : ∃ before,
    Blockchain.run .sample (Ledger.Sample.deliveries [Blockchain.firstBlock]) = some before ∧
    ∃ after, rejectAll before.assetID before.store (idle .sample) [stripped Sample.rival] =
        some after ∧
      (after.Accepts before.assetID before.store Sample.contained ↔
        (idle .sample).Accepts before.assetID before.store Sample.contained) := by
  obtain ⟨before, ran, -, -, refused⟩ := sample_appendTxnPool
  have ended := @rejectAll_single .sample before.assetID before.store (idle .sample)
    (stripped Sample.rival) (by decide +kernel) refused
  refine ⟨before, ran, _, ended, ?_⟩
  exact (rejected_noTrace_iff .sample before.assetID before.store (idle .sample) _ []
    [stripped Sample.rival] Sample.contained .init (by decide +kernel) ended).mpr
    (.inr (by decide +kernel))

/-- A copy of a transaction without its programs makes the node ignore the transaction. -/
theorem rejected_copy : ∃ before,
    Blockchain.run .sample (Ledger.Sample.deliveries [Blockchain.firstBlock]) = some before ∧
    ∃ after, rejectAll before.assetID before.store (idle .sample) [stripped Sample.contained] =
        some after ∧
      (idle .sample).Accepts before.assetID before.store Sample.contained ∧
      ¬ after.Accepts before.assetID before.store Sample.contained := by
  obtain ⟨before, ran, taken, refused, -⟩ := sample_appendTxnPool
  have ended := @rejectAll_single .sample before.assetID before.store (idle .sample)
    (stripped Sample.contained) (by decide +kernel) refused
  refine ⟨before, ran, _, ended, accepts_iff.mpr ⟨by decide +kernel, taken⟩, ?_⟩
  rw [accepts_iff]
  rintro ⟨unknown, -⟩
  revert unknown
  decide +kernel

end TxNode

end DnaPow.Net
