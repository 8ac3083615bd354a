import DnaPow.Ledger.Chain
import DnaPow.Ledger.Terms

/-!
# Rules for runs

What has to be shown of an invariant so that it holds along every run that meets
given terms: taking an orphan out of the pool, accepting a block on the terms and
shelving a block keep it. `ready` is what is known of a block that is about to be
accepted, on arrival as well as from the pool.
-/

namespace DnaPow.Ledger

open DnaPow.Std Common Core Action

namespace Blockchain

/-! ## The orphan pool -/

/-- Only the orphan pool has changed, and all orphans in it satisfy `allowed`. -/
structure PoolOnly (allowed : OrphanBlock → Prop) (before after : Blockchain) : Prop where
  same : after = { before with
    orphans := after.orphans, prevOrphans := after.prevOrphans
    oldestOrphan := after.oldestOrphan, orphanCount := after.orphanCount }
  allowed : ∀ hash, ∀ orphan ∈ after.prevOrphans hash, allowed orphan

variable {env : Env} {bc after : Blockchain} {allowed : OrphanBlock → Prop}

theorem ensures_removeOrphanBlock {orphan : OrphanBlock} {post : Unit → Blockchain → Prop}
    {fail : Blockchain → Prop} :
    (removeOrphanBlock env orphan).Ensures bc post fail ↔ post () (bc.withoutOrphan env orphan) :=
  Iff.rfl

/-- `AddOrphanBlock` step by step: expired orphans are taken out, the oldest one is looked for
and makes room if the pool is full, and the block is put in. -/
theorem addOrphanBlock_rule (holds roomy : Blockchain → Prop) {post : Blockchain → Prop}
    {now : Int} {block : Block} (initially : holds bc)
    (expire : ∀ {after}, ∀ orphan ∈ bc.orphans, holds after → holds
      { after.withoutOrphan env orphan with
        oldestOrphan := after.oldestOrphan.filter (· ≠ orphan) })
    (find : ∀ {after}, holds after → holds
      { after with oldestOrphan := findOldest after.orphans after.oldestOrphan })
    (room : ∀ {after}, holds after →
      after.orphans.length + 1 ≤ env.chainParam.maxOrphanBlocks → roomy after)
    (evict : ∀ {after}, ∀ oldest ∈ after.oldestOrphan, holds after → roomy
      { after.withoutOrphan env oldest with oldestOrphan := none })
    (insert : ∀ {after}, roomy after →
      (insertOrphan env now block).Ensures after (fun _ => post) fun _ => False) :
    (addOrphanBlock env now block).Ensures bc (fun _ => post) fun _ => False := by
  have expired : ∀ orphans, (∀ orphan ∈ orphans, orphan ∈ bc.orphans) → ∀ after, holds after →
      (removeExpired env orphans).Ensures after (fun _ => holds) fun _ => False := by
    intro orphans
    induction orphans with
    | nil => exact fun _ _ kept => kept
    | cons orphan orphans ih =>
      intro members after kept
      simp only [removeExpired, ensures_bind, ensures_removeOrphanBlock, ensures_modify]
      exact ih (fun other member => members other (List.mem_cons_of_mem _ member)) _
        (expire orphan (members orphan List.mem_cons_self) kept)
  simp only [addOrphanBlock, makeRoom, ensures_bind, ensures_get, ensures_modify, ensures_ite,
    ensures_pure]
  refine (expired _ (fun _ => List.mem_of_mem_filter) _ initially).mono
    (fun _ after kept => ⟨fun _ => ?_, fun fits => ?_⟩) fun _ => id
  · split
    · exact ensures_crash
    · next oldest isOldest => exact insert (evict oldest isOldest (find kept))
  · exact insert (room (find kept) (Nat.le_of_not_lt fits))

theorem PoolOnly.withoutOrphan (pool : PoolOnly allowed bc after) (orphan : OrphanBlock)
    (oldest : Option OrphanBlock) :
    PoolOnly allowed bc { after.withoutOrphan env orphan with oldestOrphan := oldest } := by
  refine ⟨by rw [pool.same]; rfl, fun hash other member => ?_⟩
  simp only [Blockchain.withoutOrphan, removeOrphanBlock, run_modify,
    Function.update_apply] at member
  split at member
  · exact pool.allowed _ other (List.mem_of_mem_filter member)
  · exact pool.allowed hash other member

theorem PoolOnly.insertOrphan (pool : PoolOnly allowed bc after) {block : Block} {now : Int}
    (isAllowed : ∀ orphan, orphan.block = block → allowed orphan) :
    (insertOrphan env now block).Ensures after (fun _ => PoolOnly allowed bc) (fun _ => False) := by
  simp only [Blockchain.insertOrphan, ensures_modify]
  refine ⟨by rw [pool.same], fun hash orphan member => ?_⟩
  simp only [Function.update_apply] at member
  split at member
  · rcases List.mem_append.mp member with old | new
    · exact pool.allowed _ orphan old
    · exact isAllowed orphan (by rw [List.mem_singleton.mp new])
  · exact pool.allowed hash orphan member

theorem addOrphanBlock_pool {block : Block} {now : Int}
    (before : ∀ hash, ∀ orphan ∈ bc.prevOrphans hash, allowed orphan)
    (isAllowed : ∀ orphan, orphan.block = block → allowed orphan) :
    (addOrphanBlock env now block).Ensures bc (fun _ => PoolOnly allowed bc) (fun _ => False) :=
  addOrphanBlock_rule (PoolOnly allowed bc) (PoolOnly allowed bc) ⟨rfl, before⟩
    (fun _ _ pool => pool.withoutOrphan _ _) (fun pool => ⟨by rw [pool.same], pool.allowed⟩)
    (fun pool _ => pool) (fun _ _ pool => pool.withoutOrphan _ _)
    fun pool => pool.insertOrphan isAllowed

/-! ## `ProcessBlock` -/

@[simp] theorem ends_rejecting {α : Type} {inMainChain isOrphan : Bool} {call : Call α}
    {post : α → Blockchain → Prop} {fail : Rejection → Blockchain → Prop}
    {panics : Blockchain → Prop} :
    (rejecting inMainChain isOrphan call).Ends bc post fail panics ↔
      call.Ends bc post (fun reason => fail ⟨inMainChain, isOrphan, reason⟩) panics := by
  simp only [Ends, rejecting]
  generalize call.run bc = ending
  obtain ⟨result, after⟩ := ending
  cases result <;> rfl

/-- A block that passes the checks on arrival is sane and neither in the ledger nor in
the orphan pool. -/
theorem checkArrival_absent (bc : Blockchain) (delivery : Delivery) :
    (checkArrival env delivery).Ends bc
      (fun _ after => after = bc ∧ Sane env delivery.block ∧
        bc.blockExists (delivery.block.hash env.crypto) = false ∧
        ∀ orphan ∈ bc.orphans, orphan.block.hash env.crypto ≠ delivery.block.hash env.crypto)
      (fun reason after => reason ≠ .missingFromCache ∧ after = bc) (fun _ => True) := by
  simp only [checkArrival, checked, ends_bind, ends_get, ends_ite, ends_throw, ends_check,
    mapError_eq_ok]
  refine ⟨fun _ => ⟨by simp, trivial⟩, fun missing => ⟨fun _ => ⟨by simp, trivial⟩, fun absent =>
    ⟨fun _ passed => ⟨trivial, Sane.of_check passed, by simpa using missing, ?_⟩,
      fun reason failed => ⟨?_, trivial⟩, fun _ => trivial⟩⟩⟩
  · simpa using absent
  · rintro rfl
    revert failed
    generalize powCheckBlockSanity env _ _ _ _ = checks
    cases checks <;> rintro ⟨⟩

theorem ensures_rejecting {α : Type} {inMainChain isOrphan : Bool} {call : Call α}
    {post : α → Blockchain → Prop} {fail : Blockchain → Prop} :
    (rejecting inMainChain isOrphan call).Ensures bc post fail ↔ call.Ensures bc post fail :=
  ends_rejecting

/-- What a call of `ProcessBlock` ensures either way holds after the delivery. -/
theorem of_deliver {delivery : Delivery} {holds : Blockchain → Prop}
    (ensures : (processBlock env delivery).Ensures bc (fun _ => holds) holds)
    (delivered : deliver env bc delivery = some after) : holds after := by
  unfold Ensures at ensures
  unfold deliver at delivered
  generalize (processBlock env delivery).run bc = ending at ensures delivered
  obtain ⟨result, final⟩ := ending
  cases result with
  | ok value => exact Option.some.inj delivered ▸ ensures
  | error reason => exact Option.some.inj delivered ▸ ensures
  | panic => cases delivered

/-- A block that passes the checks on arrival, and is sane and new, is ready, and it may be
shelved on the terms. -/
def Arrives (env : Env) (terms : Terms) (holds : Blockchain → Prop)
    (ready : Blockchain → Block → Prop) (delivery : Delivery) (bc : Blockchain) : Prop :=
  Sane env delivery.block → bc.blockExists (delivery.block.hash env.crypto) = false →
    (∀ orphan ∈ bc.orphans, orphan.block.hash env.crypto ≠ delivery.block.hash env.crypto) →
    ready bc delivery.block ∧ (terms.shelving bc delivery.block →
      (addOrphanBlock env delivery.now delivery.block).Ensures bc (fun _ => holds) fun _ => False)

variable {terms : Terms} {holds : Blockchain → Prop} {ready : Blockchain → Block → Prop}
  {fail : LedgerError → Blockchain → Prop} {delivery : Delivery} {deliveries : List Delivery}

section Process

variable
  (taken : ∀ pending bc hash orphan others, holds bc → bc.prevOrphans hash = orphan :: others →
    terms.accepting pending (bc.withoutOrphan env orphan) orphan.block →
      holds (bc.withoutOrphan env orphan) ∧ ready (bc.withoutOrphan env orphan) orphan.block)
include taken

section Ends

variable (accepted : ∀ pending bc block, holds bc → ready bc block →
  terms.accepting pending bc block →
    (maybeAcceptBlock env block).Ends bc (fun _ => holds) fail fun _ => True)
include accepted

theorem processOrphansLoop_ends (start : holds bc) {fuel : Nat} {hashes : List Uint256}
    (meets : LoopMeets env terms fuel hashes bc) :
    (processOrphansLoop env fuel hashes).Ends bc (fun _ => holds) fail fun _ => True := by
  induction fuel generalizing bc hashes with
  | zero => exact start
  | succ fuel ih =>
    cases hashes with
    | nil => exact start
    | cons hash hashes =>
      simp only [processOrphansLoop, ends_bind, ends_get]
      rw [LoopMeets] at meets
      split
      · next nobody =>
        simp only [nobody] at meets
        exact ih start meets
      · next orphan others found =>
        simp only [found] at meets
        obtain ⟨onTerms, rest⟩ := meets
        obtain ⟨start', isReady⟩ := taken _ bc hash orphan others start found onTerms
        rw [ends_bind]
        refine (ensures_removeOrphanBlock.mpr ?_).ends.mono (fun _ _ ends => ends)
          (fun _ _ => False.elim) fun _ => id
        rw [ends_bind]
        exact ((accepted _ _ _ start' isReady onTerms).and rest).mono
          (fun _ _ ends => ih ends.1 ends.2) (fun _ _ failed => failed.1) fun _ => id

/-- One delivery. A block that passes the checks on arrival is sane and new. -/
theorem processBlock_ends
    (others : ∀ reason bc, reason ≠ .missingFromCache → holds bc → fail reason bc)
    (start : holds bc) (arrived : Arrives env terms holds ready delivery bc)
    (meets : StepMeets env terms bc delivery) :
    (processBlock env delivery).Ends bc (fun _ => holds) (fun rejection => fail rejection.reason)
      fun _ => True := by
  simp only [processBlock, ends_bind, ends_rejecting, ends_get, ends_ite, ends_pure]
  refine ((checkArrival_absent bc delivery).and meets).mono (fun _ checked passed => ?_)
    (fun _ _ failed => others _ _ failed.1.1 (failed.1.2 ▸ start)) (fun _ => id)
  obtain ⟨⟨rfl, sane, missing, absent⟩, branches⟩ := passed
  obtain ⟨isReady, shelved⟩ := arrived sane missing absent
  refine ⟨fun isOrphan => ?_, fun notOrphan => ?_⟩
  · rw [if_pos isOrphan] at branches
    exact (shelved branches).ends.mono (fun _ _ ends => ends) (fun _ _ => False.elim) fun _ => id
  · rw [if_neg notOrphan] at branches
    obtain ⟨onTerms, rest⟩ := branches
    refine ((accepted _ _ _ start isReady onTerms).and rest).mono
      (fun _ _ passed => ?_) (fun _ _ failed => failed.1) fun _ => id
    simp only [processOrphans, ends_bind, ends_get]
    exact processOrphansLoop_ends taken accepted passed.1 passed.2

end Ends

variable (accepted : ∀ pending bc block, holds bc → ready bc block →
  terms.accepting pending bc block →
    (maybeAcceptBlock env block).Ensures bc (fun _ => holds) holds)
include accepted

theorem processBlock_rule (start : holds bc) (arrived : Arrives env terms holds ready delivery bc)
    (meets : StepMeets env terms bc delivery) :
    (processBlock env delivery).Ensures bc (fun _ => holds) holds :=
  Ends.ensures (@processBlock_ends _ _ _ _ _ (fun _ => holds) _ taken accepted
    (fun _ _ _ start => start) start arrived meets)

/-- A whole run. -/
theorem run_rule
    (arrived : ∀ delivery ∈ deliveries, ∀ bc, holds bc → Arrives env terms holds ready delivery bc)
    (start : holds (fresh env)) (meets : RunMeets env terms (fresh env) deliveries)
    (ran : run env deliveries = some bc) : holds bc := by
  refine run_induction_of_meets start ?_ meets ran
  intro delivery member before after start stepMeets delivered
  exact of_deliver (processBlock_rule taken accepted start (arrived delivery member before start)
    stepMeets) delivered

end Process

/-! ## Terms that are always met -/

section Meets

variable
  (taken : ∀ bc hash orphan others, holds bc → bc.prevOrphans hash = orphan :: others →
    holds (bc.withoutOrphan env orphan) ∧ ready (bc.withoutOrphan env orphan) orphan.block)
  (accepted : ∀ pending bc block, holds bc → ready bc block →
    terms.accepting pending bc block ∧
      (maybeAcceptBlock env block).Ensures bc (fun _ => holds) holds)
include taken accepted

theorem loopMeets_of_holds (start : holds bc) (fuel : Nat) (hashes : List Uint256) :
    LoopMeets env terms fuel hashes bc := by
  induction fuel generalizing bc hashes with
  | zero => exact True.intro
  | succ fuel ih =>
    cases hashes with
    | nil => exact True.intro
    | cons hash hashes =>
      rw [LoopMeets]
      split
      · exact ih start hashes
      · next orphan others found =>
        obtain ⟨start, isReady⟩ := taken bc hash orphan others start found
        obtain ⟨onTerms, ends⟩ := accepted _ _ _ start isReady
        exact ⟨onTerms, ends.mono (fun _ _ start => ih start _) fun _ _ => True.intro⟩

/-- Terms that follow from an invariant are met by all runs. -/
theorem runMeets_of_holds {first : Blockchain}
    (arrived : ∀ delivery ∈ deliveries, ∀ bc, holds bc → Arrives env terms holds ready delivery bc)
    (shelving : ∀ bc block, holds bc → terms.shelving bc block) (start : holds first) :
    RunMeets env terms first deliveries := by
  induction deliveries generalizing first with
  | nil => exact True.intro
  | cons delivery deliveries ih =>
    have arrives := arrived delivery List.mem_cons_self first start
    have meets : StepMeets env terms first delivery := by
      refine Ends.ensures ((checkArrival_absent first delivery).mono (fun _ _ passed => ?_)
        (fun _ _ _ => True.intro) fun _ => id)
      obtain ⟨rfl, sane, missing, absent⟩ := passed
      split
      · exact shelving _ _ start
      · obtain ⟨onTerms, ends⟩ :=
          accepted [delivery.block.hash env.crypto] _ _ start (arrives sane missing absent).1
        exact ⟨onTerms, ends.mono (fun _ _ start => loopMeets_of_holds taken accepted start _ _)
          fun _ _ => True.intro⟩
    refine ⟨meets, fun after delivered => ?_⟩
    refine ih (fun other member => arrived other (List.mem_cons_of_mem _ member)) ?_
    exact of_deliver (processBlock_rule (fun _ bc hash orphan others start found _ =>
      taken bc hash orphan others start found) (fun pending bc block start isReady _ =>
        (accepted pending bc block start isReady).2) start arrives meets) delivered

end Meets

/-- A property that the orphan pool does not matter to holds along a run if accepting
blocks on the terms keeps it. -/
theorem holds_of_run (start : holds (fresh env))
    (pool : ∀ before after, PoolOnly (fun _ => True) before after → holds before → holds after)
    (accepted : ∀ pending bc block, holds bc → terms.accepting pending bc block →
      (maybeAcceptBlock env block).Ensures bc (fun _ => holds) holds)
    (meets : RunMeets env terms (fresh env) deliveries) (ran : run env deliveries = some bc) :
    holds bc := by
  have unchanged (bc : Blockchain) : PoolOnly (fun _ => True) bc bc := ⟨rfl, fun _ _ _ => trivial⟩
  refine @run_rule _ _ _ _ (fun _ _ => True) _ ?_ ?_ ?_ start meets ran
  · intro _ bc hash orphan others start _ _
    exact ⟨pool _ _ ((unchanged bc).withoutOrphan orphan bc.oldestOrphan) start, trivial⟩
  · exact fun pending bc block start _ => accepted pending bc block start
  · intro delivery _ before start _ _ _
    refine ⟨trivial, fun _ => ?_⟩
    exact (addOrphanBlock_pool (fun _ _ _ => trivial) fun _ _ => trivial).mono
      (fun _ after changed => pool before after changed start) (fun _ => id)

/-- Terms that ask nothing are met. -/
theorem runMeets_of_forall {first : Blockchain}
    (accepting : ∀ pending bc block, terms.accepting pending bc block)
    (shelving : ∀ bc block, terms.shelving bc block) : RunMeets env terms first deliveries := by
  refine @runMeets_of_holds _ _ (fun _ => True) (fun _ _ => True) _ ?_ ?_ _ ?_ ?_ True.intro
  · exact fun _ _ _ _ _ _ => ⟨trivial, trivial⟩
  · exact fun pending bc block _ _ =>
      ⟨accepting pending bc block, ensures_of_forall (fun _ _ => trivial) fun _ => trivial⟩
  · intro delivery _ bc _ _ _ _
    refine ⟨trivial, fun _ => ?_⟩
    exact (addOrphanBlock_pool (fun _ _ _ => trivial) fun _ _ => trivial).mono
      (fun _ _ _ => trivial) (fun _ => id)
  · exact fun bc block _ => shelving bc block

end Blockchain

end DnaPow.Ledger
