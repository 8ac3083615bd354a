import DnaPow.Net.TransactionPool

/-!
# Concurrent submission

Any number of `AppendTxnPool` calls that run at the same time on one pool. Only
`getInputUTXOList`, `addInputUTXOList` and `addtxnList` take the lock, so a
schedule interleaves these steps; the checks against the ledger come first and
do not touch the pool.

A call has claimed the outpoints that it has found free and has not registered
yet. As long as no outpoint is claimed for two transactions at a time, the pool
keeps one consumer for each outpoint.
-/

namespace DnaPow.Net

open DnaPow.Std Common Core Ledger

/-- Where a call stands between two locked steps. -/
inductive AppendPhase where
  | verifying
  | checking (inputs left : List Outpoint)
  | adding (left : List Outpoint)
  | returned (errCode : Option ErrCode)
  deriving DecidableEq

/-- A call of `AppendTxnPool`. The order is the one in which the map of its
references is iterated. -/
structure AppendCall where
  txn : Transaction
  order : List Outpoint
  order_perm : order.Perm (references txn)
  phase : AppendPhase

namespace AppendCall

/-- A call that has not started. -/
def start (txn : Transaction) : AppendCall := ⟨txn, references txn, .refl _, .verifying⟩

/-- The same call in another phase. -/
def moveTo (call : AppendCall) (phase : AppendPhase) : AppendCall := { call with phase }

/-- The part of a call that only reads the ledger. -/
def verify (env : Env) (assetID : Uint256) (store : ChainStore) (txn : Transaction) :
    Outcome ErrCode Unit := do
  checkTransactionSanity env assetID store txn
  checkTransactionContext env store txn
  let _ ← withError .errDoubleSpend (getReferenceKeys store txn)
  return ()

/-- One locked step of a call; `none` when the call has ended. -/
def step {env : Env} (assetID : Uint256) (store : ChainStore) (pool : TXNPool env)
    (call : AppendCall) : Option (TXNPool env × AppendCall) :=
  match call.phase with
  | .verifying =>
      match verify env assetID store call.txn with
      | .ok _ => some (pool, call.moveTo (.checking [] call.order))
      | .error errCode => some (pool, call.moveTo (.returned (some errCode)))
      | .panic => none
  | .checking inputs (input :: left) =>
      if (pool.getInputUTXOList input).isSome then
        some (pool, call.moveTo (.returned (some .errDoubleSpend)))
      else some (pool, call.moveTo (.checking (inputs ++ [input]) left))
  | .checking inputs [] => some (pool, call.moveTo (.adding inputs))
  | .adding (input :: left) =>
      some (pool.addInputUTXOList call.txn input, call.moveTo (.adding left))
  | .adding [] => some (pool.addtxnList call.txn, call.moveTo (.returned none))
  | .returned _ => none

/-- The outpoints a call has found free and not registered yet. -/
def claims (call : AppendCall) : List Outpoint :=
  match call.phase with
  | .checking inputs _ => inputs
  | .adding left => left
  | _ => []

end AppendCall

/-- A pool and the calls that run on it. -/
structure PoolSystem (env : Env) where
  pool : TXNPool env
  calls : List AppendCall

namespace PoolSystem

variable {env : Env}

section Runs

variable (assetID : Uint256) (store : ChainStore)

/-- One step of the call at a position. -/
def step (system : PoolSystem env) (position : Nat) : Option (PoolSystem env) := do
  let call ← system.calls[position]?
  let (pool, next) ← call.step assetID store system.pool
  return ⟨pool, system.calls.set position next⟩

/-- A run: the positions of the calls that take the steps. -/
def run (system : PoolSystem env) (schedule : List Nat) : Option (PoolSystem env) :=
  schedule.foldlM (step assetID store) system

/-- The states of a run, from the first on. -/
def states (system : PoolSystem env) : List Nat → List (PoolSystem env)
  | [] => [system]
  | position :: schedule =>
      system :: match system.step assetID store position with
        | some next => states next schedule
        | none => []

end Runs

/-- No outpoint is claimed for two different transactions. -/
def Exclusive (system : PoolSystem env) : Prop :=
  ∀ call ∈ system.calls, ∀ other ∈ system.calls, ∀ o ∈ call.claims, o ∈ other.claims →
    call.txn.hash env.crypto = other.txn.hash env.crypto

end PoolSystem

/-- The transaction is registered as the consumer of an outpoint. Transactions
are told apart by their hash. -/
def TXNPool.SpentBy {env : Env} (pool : TXNPool env) (txn : Transaction) (o : Outpoint) : Prop :=
  ∃ other, pool.inputUTXOList o = some other ∧ other.hash env.crypto = txn.hash env.crypto

/-- Every transaction of the pool is registered for each of its inputs. -/
def TXNPool.Covered {env : Env} (pool : TXNPool env) : Prop :=
  ∀ hash txn, pool.txnList hash = some txn → ∀ o ∈ txn.outpoints, pool.SpentBy txn o

namespace PoolSystem

variable {env : Env}

/-- The pool has no two transactions that consume one outpoint, and each
transaction whose call succeeded is registered for each of its inputs. -/
structure Sound (system : PoolSystem env) : Prop where
  unique : ∀ hash hash' txn txn', system.pool.txnList hash = some txn →
    system.pool.txnList hash' = some txn' → ∀ o ∈ txn.outpoints, o ∈ txn'.outpoints → hash = hash'
  registered : ∀ call ∈ system.calls, call.phase = .returned none → ∀ o ∈ call.txn.outpoints,
    system.pool.SpentBy call.txn o

end PoolSystem

/-! ## A call that runs alone

The steps of a single call, taken one after the other, are `appendTxnPool`. -/

namespace PoolSystem

variable {env : Env} {assetID : Uint256} {store : ChainStore} {pool after : TXNPool env}
  {call : AppendCall}

theorem run_append (system : PoolSystem env) (first second : List Nat) :
    system.run assetID store (first ++ second) =
      (system.run assetID store first).bind fun middle => middle.run assetID store second :=
  List.foldlM_append

theorem run_cons_alone {next : AppendCall}
    (stepped : call.step assetID store pool = some (after, next)) (schedule : List Nat) :
    (⟨pool, [call]⟩ : PoolSystem env).run assetID store (0 :: schedule) =
      (⟨after, [next]⟩ : PoolSystem env).run assetID store schedule := by
  simp [run, step, stepped]

/-- The first loop finds all inputs free. -/
theorem run_checking (inputs left : List Outpoint)
    (free : ∀ o ∈ left, pool.inputUTXOList o = none) :
    (⟨pool, [call.moveTo (.checking inputs left)]⟩ : PoolSystem env).run assetID store
      (List.replicate left.length 0) =
        some ⟨pool, [call.moveTo (.checking (inputs ++ left) [])]⟩ := by
  induction left generalizing inputs with
  | nil => simp [run]
  | cons input left ih =>
    have stepped : (call.moveTo (.checking inputs (input :: left))).step assetID store pool =
        some (pool, call.moveTo (.checking (inputs ++ [input]) left)) := by
      simp [AppendCall.step, AppendCall.moveTo, TXNPool.getInputUTXOList, free input (by simp)]
    have rest := ih (inputs ++ [input]) fun o member => free o (by simp [member])
    rw [List.append_assoc, List.singleton_append] at rest
    rw [List.length_cons, List.replicate_succ, run_cons_alone stepped, rest]

/-- The second loop registers them. -/
theorem run_adding (left : List Outpoint) :
    (⟨pool, [call.moveTo (.adding left)]⟩ : PoolSystem env).run assetID store
      (List.replicate left.length 0) =
        some ⟨left.foldl (fun pool input => pool.addInputUTXOList call.txn input) pool,
          [call.moveTo (.adding [])]⟩ := by
  induction left generalizing pool with
  | nil => simp [run]
  | cons input left ih =>
    have stepped : (call.moveTo (.adding (input :: left))).step assetID store pool =
        some (pool.addInputUTXOList call.txn input, call.moveTo (.adding left)) := by
      simp [AppendCall.step, AppendCall.moveTo]
    rw [List.length_cons, List.replicate_succ, run_cons_alone stepped, ih, List.foldl_cons]

/-- A call that is not interrupted has the effect of `appendTxnPool`. -/
theorem run_alone {txn : Transaction} (appended : pool.appendTxnPool assetID store txn = .ok after) :
    ∃ schedule, (⟨pool, [.start txn]⟩ : PoolSystem env).run assetID store schedule =
      some ⟨after, [(AppendCall.start txn).moveTo (.returned none)]⟩ := by
  have verified : AppendCall.verify env assetID store txn = .ok () := by
    simp only [TXNPool.appendTxnPool, TXNPool.verifyDoubleSpend, Outcome.bind_eq_ok,
      withError_eq_ok] at appended
    obtain ⟨_, sane, _, context, _, ⟨keys, found, _⟩, _⟩ := appended
    simp [AppendCall.verify, sane, context, withError, found]
  obtain ⟨free, rfl⟩ := TXNPool.appendTxnPool_eq_ok appended
  have started : (AppendCall.start txn).step assetID store pool =
      some (pool, (AppendCall.start txn).moveTo (.checking [] (references txn))) := by
    simp [AppendCall.step, AppendCall.start, verified]
  have turned : ((AppendCall.start txn).moveTo (.checking (references txn) [])).step assetID store
      pool = some (pool, (AppendCall.start txn).moveTo (.adding (references txn))) := rfl
  have listed (registered : TXNPool env) :
      ((AppendCall.start txn).moveTo (.adding [])).step assetID store registered =
        some (registered.addtxnList txn, (AppendCall.start txn).moveTo (.returned none)) := rfl
  refine ⟨0 :: (List.replicate (references txn).length 0 ++
    0 :: (List.replicate (references txn).length 0 ++ [0])), ?_⟩
  rw [run_cons_alone started, run_append, run_checking _ _ free, Option.bind_some, List.nil_append,
    run_cons_alone turned, run_append, run_adding, Option.bind_some, run_cons_alone (listed _)]
  rfl

theorem run_alone_contained : ∃ bc pool schedule, Ledger.Blockchain.run .sample
      (Ledger.Sample.deliveries [Ledger.Blockchain.firstBlock]) = some bc ∧
    (⟨.init .sample, [.start Sample.contained]⟩ : PoolSystem .sample).run bc.assetID bc.store
      schedule = some ⟨pool, [(AppendCall.start Sample.contained).moveTo (.returned none)]⟩ := by
  have accepted : (do
      let bc ← Ledger.Blockchain.run .sample
        (Ledger.Sample.deliveries [Ledger.Blockchain.firstBlock])
      ((TXNPool.init .sample).appendTxnPool bc.assetID bc.store Sample.contained).toOption).isSome =
      true := by decide +kernel
  obtain ⟨pool, accepted⟩ := Option.isSome_iff_exists.mp accepted
  obtain ⟨bc, ran, appended⟩ := Option.bind_eq_some_iff.mp accepted
  obtain ⟨schedule, ended⟩ := run_alone (Outcome.toOption_eq_some.mp appended)
  exact ⟨bc, pool, schedule, ran, ended⟩

end PoolSystem

/-! ## One step -/

/-- What holds of a call between its steps: an outpoint it has claimed can only
have been registered for its own transaction meanwhile, and what it has left
behind is registered. -/
structure AppendCall.Orderly {env : Env} (pool : TXNPool env) (call : AppendCall) : Prop where
  notRegistration : call.txn.txType ≠ .registerAsset
  claimed : ∀ o ∈ call.claims, ∀ other, pool.inputUTXOList o = some other →
    other.hash env.crypto = call.txn.hash env.crypto
  checked : ∀ inputs left, call.phase = .checking inputs left → inputs ++ left = call.order
  added : ∀ left, call.phase = .adding left → ∀ o ∈ call.order, o ∈ left ∨ pool.SpentBy call.txn o
  registered : call.phase = .returned none → ∀ o ∈ call.order, pool.SpentBy call.txn o

/-- A step registers at most one outpoint, which it had claimed, and what was
registered stays. -/
structure TXNPool.Grows {env : Env} (before after : TXNPool env) (call : AppendCall) : Prop where
  kept : ∀ o txn, before.inputUTXOList o = some txn → after.inputUTXOList o = some txn
  fresh : ∀ o txn, after.inputUTXOList o = some txn →
    before.inputUTXOList o = some txn ∨ (o ∈ call.claims ∧ txn = call.txn)

section Step

variable {env : Env} {assetID : Uint256} {store : ChainStore} {pool after : TXNPool env}
  {call next : AppendCall} {input : Outpoint} {left : List Outpoint}

theorem TXNPool.Grows.refl (call : AppendCall) : pool.Grows pool call :=
  ⟨fun _ _ found => found, fun _ _ found => .inl found⟩

theorem TXNPool.SpentBy.grows {txn : Transaction} {o : Outpoint} (spent : pool.SpentBy txn o)
    (grows : pool.Grows after call) : after.SpentBy txn o := by
  obtain ⟨other, found, same⟩ := spent
  exact ⟨other, grows.kept o other found, same⟩

/-- The calls that do not take the step are not disturbed by it. -/
theorem AppendCall.Orderly.other {other : AppendCall} (orderly : other.Orderly pool)
    (grows : pool.Grows after call)
    (exclusive : ∀ o ∈ call.claims, o ∈ other.claims →
      call.txn.hash env.crypto = other.txn.hash env.crypto) : other.Orderly after where
  notRegistration := orderly.notRegistration
  claimed := by
    intro o claimed txn found
    rcases grows.fresh o txn found with old | ⟨claims, rfl⟩
    · exact orderly.claimed o claimed txn old
    · exact exclusive o claims claimed
  checked := orderly.checked
  added := by
    intro left phase o member
    exact (orderly.added left phase o member).imp_right fun spent => spent.grows grows
  registered := by
    intro phase o member
    exact (orderly.registered phase o member).grows grows

/-- The order in which a call goes through its inputs contains all of them. -/
theorem AppendCall.mem_order_iff (notRegistration : call.txn.txType ≠ .registerAsset)
    {o : Outpoint} : o ∈ call.order ↔ o ∈ call.txn.outpoints := by
  rw [call.order_perm.mem_iff, references, if_neg notRegistration]

/-- A call without claims and without an obligation. -/
theorem AppendCall.orderly_of_idle (notRegistration : call.txn.txType ≠ .registerAsset)
    (idle : call.phase = .verifying ∨ ∃ errCode, call.phase = .returned (some errCode)) :
    call.Orderly pool := by
  rcases idle with phase | ⟨errCode, phase⟩ <;>
    exact ⟨notRegistration, by simp [claims, phase], by simp [phase], by simp [phase],
      by simp [phase]⟩

/-- An input that was found free is claimed. -/
theorem AppendCall.Orderly.check {inputs left : List Outpoint}
    (orderly : call.Orderly pool) (phase : call.phase = .checking inputs (input :: left))
    (free : pool.inputUTXOList input = none) :
    (call.moveTo (.checking (inputs ++ [input]) left)).Orderly pool where
  notRegistration := orderly.notRegistration
  claimed := by
    intro o member other found
    simp only [claims, moveTo, List.mem_append, List.mem_singleton] at member
    rcases member with earlier | rfl
    · exact orderly.claimed o (by simpa [claims, phase] using earlier) other found
    · rw [free] at found
      cases found
  checked := by
    have order := orderly.checked _ _ phase
    simp [moveTo, ← order]
  added := by simp [moveTo]
  registered := by simp [moveTo]

/-- Registering a claimed input leaves it registered for the transaction, by
this call or by another one for the same transaction. -/
theorem AppendCall.Orderly.spentBy_add (orderly : call.Orderly pool)
    (phase : call.phase = .adding (input :: left)) :
    (pool.addInputUTXOList call.txn input).SpentBy call.txn input := by
  unfold TXNPool.SpentBy
  rw [TXNPool.inputUTXOList_addInputUTXOList]
  cases found : pool.inputUTXOList input with
  | none => exact ⟨call.txn, by simp, rfl⟩
  | some other =>
    have claimed : input ∈ call.claims := by simp [claims, phase]
    exact ⟨other, by simp, orderly.claimed input claimed other found⟩

theorem TXNPool.grows_addInputUTXOList
    (phase : call.phase = .adding (input :: left)) :
    pool.Grows (pool.addInputUTXOList call.txn input) call where
  kept := by
    intro o txn found
    rw [inputUTXOList_addInputUTXOList, if_neg (by simp [found]), found]
  fresh := by
    intro o txn found
    rw [inputUTXOList_addInputUTXOList] at found
    split_ifs at found with new
    · right
      rw [Option.some_inj] at found
      exact ⟨by simp [AppendCall.claims, phase, new.1], found.symm⟩
    · exact .inl found

theorem AppendCall.Orderly.add
    (orderly : call.Orderly pool) (phase : call.phase = .adding (input :: left)) :
    (call.moveTo (.adding left)).Orderly (pool.addInputUTXOList call.txn input) where
  notRegistration := orderly.notRegistration
  claimed := by
    intro o member other found
    have earlier : o ∈ call.claims := by
      simp only [claims, moveTo] at member
      simp [claims, phase, member]
    rcases (TXNPool.grows_addInputUTXOList phase).fresh o other found with old | ⟨-, rfl⟩
    · exact orderly.claimed o earlier other old
    · rfl
  checked := by simp [moveTo]
  added := by
    intro left' phase' o member
    simp only [moveTo, AppendPhase.adding.injEq] at phase'
    subst phase'
    rcases orderly.added _ phase o member with waiting | spent
    · rcases List.mem_cons.mp waiting with rfl | later
      · exact .inr (orderly.spentBy_add phase)
      · exact .inl later
    · exact .inr (spent.grows (TXNPool.grows_addInputUTXOList phase))
  registered := by simp [moveTo]

theorem TXNPool.Covered.grows (covered : pool.Covered) (grows : pool.Grows after call)
    (list : after.txnList = pool.txnList) : after.Covered := by
  intro hash txn stored o member
  rw [list] at stored
  exact (covered hash txn stored o member).grows grows

/-- A transaction whose inputs are registered may be listed. -/
theorem TXNPool.Covered.addtxnList {txn : Transaction} (covered : pool.Covered)
    (spent : ∀ o ∈ txn.outpoints, pool.SpentBy txn o) : (pool.addtxnList txn).Covered := by
  intro hash other stored o member
  rw [txnList_addtxnList] at stored
  unfold SpentBy
  rw [inputUTXOList_addtxnList]
  split_ifs at stored with new
  · rw [Option.some_inj] at stored
    subst stored
    exact spent o member
  · exact covered hash other stored o member

theorem AppendCall.Orderly.finish (orderly : call.Orderly pool) (phase : call.phase = .adding []) :
    (call.moveTo (.returned none)).Orderly (pool.addtxnList call.txn) ∧
      (pool.Covered → (pool.addtxnList call.txn).Covered) := by
  have spent : ∀ o ∈ call.order, pool.SpentBy call.txn o := by
    intro o member
    simpa using orderly.added [] phase o member
  constructor
  · constructor
    · exact orderly.notRegistration
    · simp [moveTo, claims]
    · simp [moveTo]
    · simp [moveTo]
    · intro _ o member
      unfold TXNPool.SpentBy
      rw [TXNPool.inputUTXOList_addtxnList]
      exact spent o member
  · intro covered
    apply covered.addtxnList
    intro o member
    exact spent o ((mem_order_iff orderly.notRegistration).mpr member)

/-- A step of an orderly call: it stays orderly, the index only grows, and the
pool stays covered. -/
theorem AppendCall.Orderly.step (orderly : call.Orderly pool) (covered : pool.Covered)
    (stepped : call.step assetID store pool = some (after, next)) :
    next.Orderly after ∧ pool.Grows after call ∧ after.Covered := by
  unfold AppendCall.step at stepped
  split at stepped
  · split at stepped
    · -- the call passes the checks against the ledger
      cases stepped
      refine ⟨⟨orderly.notRegistration, by simp [moveTo, claims], ?_, ?_, ?_⟩, .refl call, covered⟩
      · simp [moveTo]
      · simp [moveTo]
      · simp [moveTo]
    · cases stepped
      exact ⟨orderly_of_idle orderly.notRegistration (.inr ⟨_, rfl⟩), .refl call, covered⟩
    · cases stepped
  · next inputs input left phase =>
    split_ifs at stepped with taken
    · cases stepped
      exact ⟨orderly_of_idle orderly.notRegistration (.inr ⟨_, rfl⟩), .refl call, covered⟩
    · cases stepped
      exact ⟨orderly.check phase (by simpa [TXNPool.getInputUTXOList] using taken), .refl call,
        covered⟩
  · next inputs phase =>
    -- all inputs were found free
    cases stepped
    have order := orderly.checked _ _ phase
    rw [List.append_nil] at order
    refine ⟨⟨orderly.notRegistration, ?_, ?_, ?_, ?_⟩, .refl call, covered⟩
    · intro o member
      exact orderly.claimed o (by simpa [claims, phase, moveTo] using member)
    · simp [moveTo]
    · intro left phase' o member
      simp only [moveTo, AppendPhase.adding.injEq] at phase'
      rw [← phase', order]
      exact .inl member
    · simp [moveTo]
  · next input left phase =>
    cases stepped
    have grows : pool.Grows (pool.addInputUTXOList call.txn input) call :=
      TXNPool.grows_addInputUTXOList phase
    exact ⟨orderly.add phase, grows, covered.grows grows (TXNPool.txnList_addInputUTXOList input)⟩
  · next phase =>
    cases stepped
    obtain ⟨finished, stays⟩ := orderly.finish phase
    refine ⟨finished, ⟨?_, ?_⟩, stays covered⟩
    · simp
    · intro o txn found
      exact .inl (by simpa using found)
  · cases stepped

end Step

/-! ## Runs -/

namespace PoolSystem

variable {env : Env} {assetID : Uint256} {store : ChainStore} {system next : PoolSystem env}

/-- All calls are orderly and the pool is covered. -/
def Orderly (system : PoolSystem env) : Prop :=
  system.pool.Covered ∧ ∀ call ∈ system.calls, call.Orderly system.pool

theorem Orderly.step {position : Nat} (orderly : system.Orderly) (exclusive : system.Exclusive)
    (stepped : system.step assetID store position = some next) : next.Orderly := by
  simp only [PoolSystem.step, Option.bind_eq_bind, Option.bind_eq_some_iff, Option.pure_def,
    Option.some.injEq] at stepped
  obtain ⟨call, found, ⟨pool, moved⟩, stepped, rfl⟩ := stepped
  have member := List.mem_of_getElem? found
  obtain ⟨moved_orderly, grows, covered⟩ := (orderly.2 call member).step orderly.1 stepped
  refine ⟨covered, fun other other_member => ?_⟩
  rcases List.mem_or_eq_of_mem_set other_member with old | rfl
  · exact (orderly.2 other old).other grows (exclusive call member other old)
  · exact moved_orderly

theorem Orderly.run {schedule : List Nat} {final : PoolSystem env} (orderly : system.Orderly)
    (exclusive : ∀ state ∈ system.states assetID store schedule, state.Exclusive)
    (ran : system.run assetID store schedule = some final) : final.Orderly := by
  induction schedule generalizing system with
  | nil =>
    cases ran
    exact orderly
  | cons position schedule ih =>
    rw [PoolSystem.run, List.foldlM_cons, Option.bind_eq_bind, Option.bind_eq_some_iff] at ran
    obtain ⟨next, stepped, ran⟩ := ran
    rw [states, stepped] at exclusive
    have now := exclusive system (by simp)
    exact ih (orderly.step now stepped) (fun state later => exclusive state (by simp [later])) ran

/-- Consumers of one outpoint in a covered pool have one hash. -/
theorem Orderly.sound (orderly : system.Orderly) : system.Sound where
  unique := by
    intro hash hash' txn txn' stored stored' o consumes consumes'
    obtain ⟨other, found, same⟩ := orderly.1 hash txn stored o consumes
    obtain ⟨other', found', same'⟩ := orderly.1 hash' txn' stored' o consumes'
    rw [found, Option.some_inj] at found'
    rw [← system.pool.hashed hash txn stored, ← system.pool.hashed hash' txn' stored', ← same,
      ← same', found']
  registered := by
    intro call member phase o consumes
    have call_orderly := orderly.2 call member
    exact call_orderly.registered phase o
      ((AppendCall.mem_order_iff call_orderly.notRegistration).mpr consumes)

/-- A call that has not started, for a transaction whose inputs are registered. -/
def Fresh (call : AppendCall) : Prop :=
  call.phase = .verifying ∧ call.txn.txType ≠ .registerAsset

theorem orderly_of_fresh (covered : system.pool.Covered)
    (fresh : ∀ call ∈ system.calls, Fresh call) : system.Orderly := by
  refine ⟨covered, fun call member => ?_⟩
  obtain ⟨phase, notRegistration⟩ := fresh call member
  exact AppendCall.orderly_of_idle notRegistration (.inl phase)

/-- Concurrent calls whose claims never overlap leave one consumer for each
outpoint, and each call that succeeds has registered its transaction. -/
theorem sound_of_run {schedule : List Nat} {final : PoolSystem env}
    (covered : system.pool.Covered) (fresh : ∀ call ∈ system.calls, Fresh call)
    (exclusive : ∀ state ∈ system.states assetID store schedule, state.Exclusive)
    (ran : system.run assetID store schedule = some final) : final.Sound :=
  ((orderly_of_fresh covered fresh).run exclusive ran).sound

/-! ## Two calls for one outpoint -/

open Ledger.Blockchain Sample

/-- The rival and the transaction of `spendingBlock`, submitted at the same time
to an empty pool. -/
def rivals : PoolSystem .sample := ⟨.init .sample, [.start rival, .start contained]⟩

/-- Both calls look at the outpoint before one of them registers it. -/
theorem rivals_unsound : ∃ bc final, Ledger.Blockchain.run .sample
      (Ledger.Sample.deliveries [firstBlock]) = some bc ∧
    rivals.run bc.assetID bc.store [0, 1, 0, 1, 0, 1, 0, 1, 0, 1] = some final ∧
    ¬ final.Sound := by
  have ended : (do
      let bc ← Ledger.Blockchain.run .sample (Ledger.Sample.deliveries [firstBlock])
      let final ← rivals.run bc.assetID bc.store [0, 1, 0, 1, 0, 1, 0, 1, 0, 1]
      return (final.pool.txnList (rival.hash Env.sample.crypto),
        final.pool.txnList (contained.hash Env.sample.crypto))) =
      some (some rival, some contained) := by decide +kernel
  simp only [Option.bind_eq_bind, Option.bind_eq_some_iff, Option.pure_def, Option.some.injEq,
    Prod.mk.injEq] at ended
  obtain ⟨bc, ran, final, ended, first, second⟩ := ended
  refine ⟨bc, final, ran, ended, fun sound => ?_⟩
  have same := sound.unique _ _ rival contained first second spent (List.mem_singleton_self _)
    (List.mem_singleton_self _)
  exact absurd same (by decide +kernel)

instance (system : PoolSystem env) : Decidable system.Exclusive :=
  inferInstanceAs (Decidable (∀ call ∈ system.calls, ∀ other ∈ system.calls, ∀ o ∈ call.claims,
    o ∈ other.claims → call.txn.hash env.crypto = other.txn.hash env.crypto))

/-- The second call starts when the first one has returned. -/
theorem rivals_sound_in_sequence : ∃ bc final, Ledger.Blockchain.run .sample
      (Ledger.Sample.deliveries [firstBlock]) = some bc ∧
    rivals.run bc.assetID bc.store [0, 0, 0, 0, 0, 1, 1] = some final ∧ final.Sound := by
  have ended : (do
      let bc ← Ledger.Blockchain.run .sample (Ledger.Sample.deliveries [firstBlock])
      let _ ← rivals.run bc.assetID bc.store [0, 0, 0, 0, 0, 1, 1]
      return (rivals.states bc.assetID bc.store [0, 0, 0, 0, 0, 1, 1]).all
        fun state => decide state.Exclusive) = some true := by decide +kernel
  simp only [Option.bind_eq_bind, Option.bind_eq_some_iff, Option.pure_def, Option.some.injEq,
    List.all_eq_true, decide_eq_true_eq] at ended
  obtain ⟨bc, ran, final, ended, exclusive⟩ := ended
  refine ⟨bc, final, ran, ended, sound_of_run ?_ ?_ exclusive ended⟩
  · intro hash txn stored
    cases stored
  · intro call member
    rcases List.mem_pair.mp member with rfl | rfl
    · exact ⟨rfl, by decide⟩
    · exact ⟨rfl, by decide⟩

end PoolSystem

end DnaPow.Net
