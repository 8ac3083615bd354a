import DnaPow.Ledger.OrphanPool
import DnaPow.Ledger.WorkSums

/-!
# Rejected blocks

A block that is rejected should leave the main chain as it was. `ReorganizeChain` however
detaches the old branch before it validates the new one, and `ProcessOrphans` reports the
error of an orphan for the block that the orphan waited for. A block that can cause
neither leaves the chain alone when it is rejected.
-/

namespace DnaPow.Ledger.Blockchain

open DnaPow.Std Common Core Action

/-- The best chain, its height and the store have not changed. -/
structure SameChain (before after : Blockchain) : Prop where
  bestChain : after.bestChain = before.bestChain
  blockHeight : after.blockHeight = before.blockHeight
  store : after.store = before.store

/-- No orphan waits for the block. Its parent, if the node has it, is in memory, and the
block is on top of the best one or has no more work behind it. -/
structure Quiet (env : Env) (bc : Blockchain) (block : Block) : Prop where
  nobody : bc.prevOrphans (block.hash env.crypto) = []
  inMemory : bc.blockExists block.blockdata.prevBlockHash = true →
    ∃ parent < bc.nodes.count, bc.index block.blockdata.prevBlockHash = some parent
  behind : ∀ parent ∈ bc.index block.blockdata.prevBlockHash, ∀ best ∈ bc.bestChain,
    (bc.nodes.get parent).hash = (bc.nodes.get best).hash ∨
      (bc.nodes.get parent).workSum + calcWork block.blockdata.bits ≤ (bc.nodes.get best).workSum

variable {env : Env} {bc after : Blockchain} {id : NodeId} {block : Block}

theorem SameChain.of_outside (same : after.outside = bc.outside) : SameChain bc after := by
  have sameView {α : Type} (view : Blockchain → α) := congrArg view same
  exact ⟨sameView Blockchain.bestChain, sameView Blockchain.blockHeight, sameView Blockchain.store⟩

/-- Without a reorganisation only `ConnectBlock` can fail, before it changes anything. -/
theorem connectBestChain_failed
    (behind : ∀ parent ∈ (bc.nodes.get id).parent, ∀ best ∈ bc.bestChain,
      (bc.nodes.get parent).hash = (bc.nodes.get best).hash ∨
        (bc.nodes.get id).workSum ≤ (bc.nodes.get best).workSum) :
    (connectBestChain env id block).Ensures bc (fun _ _ => True) (· = bc) := by
  have connects := @connectBlock_connects env bc id block
  rw [connectBestChain, ensures_bind, ensures_get]
  split
  · rw [ensures_bind]
    refine connects.mono (fun _ _ _ => ?_) (fun _ same => same)
    cases (bc.nodes.get id).parent <;> exact trivial
  · exact ensures_crash
  · next best parent isBest link =>
    refine ensures_ite.mpr ⟨fun _ => ?_, fun differs => ?_⟩
    · rw [ensures_bind]
      exact connects.mono (fun _ _ _ => trivial) (fun _ same => same)
    · have behind := (behind parent link best isBest).resolve_left differs
      simp only [addToSideChain, addNodeToIndex, modifyNode, appendChild, ensures_bind,
        ensures_modify, ensures_get, ensures_ite, ensures_pure]
      refine ⟨fun _ => trivial, fun heavier => absurd ?_ heavier⟩
      have sum (other : NodeId) : (((bc.nodes.modify id (.withInMainChain false)).modify parent
          (.withChild id)).get other).workSum = (bc.nodes.get other).workSum := by
        rw [Nodes.view_modify BlockNode.workSum _ _ _ rfl,
          Nodes.view_modify BlockNode.workSum _ _ _ rfl]
      rwa [sum, sum]

theorem maybeAcceptBlock_failed (quiet : Quiet env bc block)
    (known : block.blockdata.prevBlockHash = 0 ∨
      bc.blockExists block.blockdata.prevBlockHash = true) :
    (maybeAcceptBlock env block).Ensures bc (fun _ _ => True) (SameChain bc) := by
  have unchanged : SameChain bc bc := .of_outside rfl
  have inMemory : block.blockdata.prevBlockHash = 0 ∨
      (bc.index block.blockdata.prevBlockHash).isSome := by
    refine known.imp_right fun exist => ?_
    obtain ⟨parent, -, found⟩ := quiet.inMemory exist
    exact Option.isSome_iff_exists.mpr ⟨parent, found⟩
  rw [maybeAcceptBlock, ensures_bind]
  refine (getPrevNodeFromBlock_inMemory inMemory).mono (fun prev before looked => ?_)
    (fun _ => False.elim)
  obtain ⟨rfl, found⟩ := looked
  simp only [checked, ensures_bind, ensures_get, ensures_ite, ensures_throw, ensures_check,
    mapError_eq_ok]
  refine ⟨fun _ => unchanged, fun _ => ⟨fun _ _ => ?_, fun _ _ => unchanged⟩⟩
  refine (pruneBlockNodes_shrinks env _).mono (fun _ pruned shrinks => ?_)
    (fun _ shrinks => .of_outside shrinks.outside)
  simp only [allocateNode, ensures_bind, ensures_get, ensures_modify, ensures_pure]
  refine (connectBestChain_failed ?_).mono (fun _ _ same => same)
    (fun _ same => .of_outside (same ▸ shrinks.outside))
  intro parent link best isBest
  dsimp only at link isBest ⊢
  rw [Nodes.get_allocate_self] at link ⊢
  cases prev with
  | none => cases link
  | some id =>
    obtain rfl : id = parent := Option.some.inj link
    have entry := found id rfl
    obtain ⟨_, bound, entry'⟩ := quiet.inMemory (decide_eq_true (.inl (by rw [entry]; rfl)))
    obtain rfl := Option.some.inj (entry.symm.trans entry')
    rw [← shrinks.nodes.count] at bound
    by_cases isNew : best = pruned.nodes.count
    · right
      rw [isNew, Nodes.get_allocate_self]
    · have sameBest : before.bestChain = some best :=
        (SameChain.of_outside shrinks.outside).bestChain.symm.trans isBest
      have behind := quiet.behind id entry best sameBest
      rw [Nodes.get_allocate_of_lt bound, Nodes.get_allocate_of_ne isNew,
        BlockNode.hash_of_fixed (shrinks.nodes.fixed id),
        BlockNode.hash_of_fixed (shrinks.nodes.fixed best), shrinks.workSum best]
      refine behind.imp_right fun lighter => ?_
      rwa [← shrinks.workSum id] at lighter

theorem processBlock_failed {delivery : Delivery} (quiet : Quiet env bc delivery.block) :
    (processBlock env delivery).Ensures bc (fun _ _ => True) (SameChain bc) := by
  simp only [processBlock, ensures_bind, ensures_rejecting, ensures_get, ensures_ite, ensures_pure]
  refine Ends.ensures ((checkArrival_absent bc delivery).mono (fun _ checked passed => ?_)
    (fun _ _ failed => failed.2 ▸ .of_outside rfl) fun _ => id)
  obtain ⟨rfl, -⟩ := passed
  refine ⟨fun _ => ?_, fun notOrphan => ?_⟩
  · exact (addOrphanBlock_pool (fun _ _ _ => trivial) fun _ _ => trivial).mono
      (fun _ _ _ => trivial) (fun _ => False.elim)
  · have known : delivery.block.blockdata.prevBlockHash = 0 ∨
        checked.blockExists delivery.block.blockdata.prevBlockHash = true := by
      rwa [isOrphan, decide_eq_true_eq, not_and_or, not_not, Bool.not_eq_false] at notOrphan
    refine ((maybeAcceptBlock_failed quiet known).and
      (maybeAcceptBlock_pool delivery.block checked)).mono (fun _ after ends => ?_)
      (fun _ failed => failed.1)
    -- nobody waits for the block, so the loop stops at once
    have nobody : after.prevOrphans (delivery.block.hash env.crypto) = [] := by
      rw [(Pool.mk.inj ends.2).2.1]
      exact quiet.nobody
    simp only [processOrphans, processOrphansLoop, ensures_bind, ensures_get, nobody]
    exact trivial

theorem exists_rejected {delivery : Delivery} {rejection : Rejection}
    (rejected : ((processBlock env delivery).run bc).1 = .error rejection) :
    ∃ after, (processBlock env delivery).run bc = (.error rejection, after) :=
  ⟨_, Prod.ext rejected rfl⟩

/-- A block on top of the fork block that holds its transactions once more. -/
def repeatingBlock : Block := Sample.block forkBlock forkBlock.transactions

end DnaPow.Ledger.Blockchain
