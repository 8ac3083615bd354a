import DnaPow.Ledger.Constants
import DnaPow.Ledger.Orphans
import DnaPow.Ledger.RootedTree

/-!
# The tree in memory

The index of the nodes in memory is a tree under one root, the nodes on the main
chain are the ancestors of the best one, and the cache holds the blocks of the others:
as long as blocks are put on nodes in memory and pruning removes no node that a side
chain starts from. Pruning such a node cuts the side chain off, and a node that is
loaded again is put above whatever nodes still wait for it.
-/

namespace DnaPow.Ledger

open DnaPow.Std Common Core Action

namespace Blockchain

/-- A state whose tree is in order under the given root, with the given best node. -/
structure Rooted (root best : NodeId) (bc : Blockchain) : Prop where
  tree : RootedTree bc.nodes bc.index root
  marks : Marked bc.nodes bc.index bc.blockCache best
  isBest : bc.bestChain = some best

/-- The state is in order under the root that it names. -/
def InWindow (bc : Blockchain) : Prop := ∃ root best, bc.root = some root ∧ Rooted root best bc

/-- The nodes that `PruneBlockNodes` removes. -/
def prunedNodes (env : Env) (bc : Blockchain) : List NodeId :=
  match (bc.nodes.lineage bc.bestChain)[(env.chainParam.minMemoryNodes - 1).toNat]? with
  | none => []
  | some newRoot => bc.nodes.lineage (bc.nodes.get newRoot).parent

/-- Blocks are put on nodes in memory, and pruning removes neither the parent of the
block nor a node that a side chain starts from. -/
def windowTerms (env : Env) : Terms where
  accepting _ bc block :=
    (block.blockdata.prevBlockHash = 0 ∨ (bc.index block.blockdata.prevBlockHash).isSome) ∧
      ∀ id ∈ bc.prunedNodes env, bc.index block.blockdata.prevBlockHash ≠ some id ∧
        ∀ child ∈ (bc.nodes.get id).children, child ∈ bc.nodes.lineage bc.bestChain
  shelving _ _ := True

instance (env : Env) (pending : List Uint256) (bc : Blockchain) (block : Block) :
    Decidable ((windowTerms env).accepting pending bc block) :=
  inferInstanceAs (Decidable (_ ∧ _))

instance (env : Env) (bc : Blockchain) (block : Block) :
    Decidable ((windowTerms env).shelving bc block) :=
  inferInstanceAs (Decidable True)

variable {env : Env} {bc after : Blockchain} {root best id : NodeId} {block : Block} {next : NodeId}

theorem Rooted.lineage_best (rooted : Rooted root best bc) :
    bc.nodes.lineage (some best) = best :: bc.nodes.lineage (bc.nodes.get best).parent :=
  rooted.tree.ordered.lineage_some (rooted.tree.allocated rooted.marks.bestIndexed)

/-! ## Pruning -/

theorem ensures_removeBlockNodes_append {ids others : List NodeId}
    {post : Unit → Blockchain → Prop} {fail : Blockchain → Prop} :
    (removeBlockNodes (ids ++ others)).Ensures bc post fail ↔
      (removeBlockNodes ids).Ensures bc
        (fun _ after => (removeBlockNodes others).Ensures after post fail) fail := by
  induction ids generalizing bc with
  | nil => rfl
  | cons id ids ih => simp only [List.cons_append, removeBlockNodes, ensures_bind, ih]

/-- The root is removed, and the next node of the best chain takes its place. -/
theorem removeBlockNode_rooted (rooted : Rooted root best bc)
    (member : next ∈ bc.nodes.lineage (some best)) (link : (bc.nodes.get next).parent = some root)
    (onlyBest : ∀ child ∈ (bc.nodes.get root).children, child ∈ bc.nodes.lineage (some best)) :
    (removeBlockNode root).Ensures bc
      (fun _ after => Rooted next best after ∧ after.nodes = bc.nodes.unlinkChildren root ∧
        after.index = Function.update bc.index (bc.nodes.get root).hash none)
      (fun _ => False) := by
  obtain ⟨tree, marks, isBest⟩ := rooted
  simp only [removeBlockNode, ensures_bind, ensures_get, ensures_ite, ensures_throw, ensures_modify]
  refine ⟨fun hasParent => ?_, fun _ => ⟨⟨?_, ?_, isBest⟩, trivial, trivial⟩⟩
  · rw [tree.rootParent] at hasParent
    cases hasParent
  · exact tree.removeRoot marks.bestIndexed member link onlyBest
  · exact marks.removeRoot tree member link onlyBest

/-- All ancestors of a node of the best chain have been removed, and nothing above it
has changed. -/
structure PrunedBelow (next best : NodeId) (before after : Blockchain) : Prop where
  rooted : Rooted next best after
  above : ∀ id, next < id → after.nodes.get id = before.nodes.get id
  children : (after.nodes.get next).children = (before.nodes.get next).children
  lineage : ∀ id, next < id → id ∈ before.nodes.lineage (some best) →
    id ∈ after.nodes.lineage (some best)
  indexed : ∀ id, InIndex before.nodes before.index id →
    id ∉ before.nodes.lineage (before.nodes.get next).parent → InIndex after.nodes after.index id

/-- One more node is removed. -/
theorem PrunedBelow.step (pruned : PrunedBelow root best bc after)
    (rooted : Rooted id best bc) (member : next ∈ bc.nodes.lineage (some best))
    (link : (bc.nodes.get next).parent = some root)
    (onlyBest : ∀ child ∈ (bc.nodes.get root).children, child ∈ bc.nodes.lineage (some best)) :
    (removeBlockNode root).Ensures after (fun _ => PrunedBelow next best bc) (fun _ => False) := by
  have older := rooted.tree.ordered next root link
  have link' : (after.nodes.get next).parent = some root := by
    rw [pruned.above next older, link]
  have member' := pruned.lineage next older member
  have onlyBest' : ∀ child ∈ (after.nodes.get root).children,
      child ∈ after.nodes.lineage (some best) := by
    intro child isChild
    have newer := pruned.rooted.tree.ordered child root
      (pruned.rooted.tree.children root pruned.rooted.tree.rootIndexed child isChild).2
    exact pruned.lineage child newer (onlyBest child (pruned.children ▸ isChild))
  have tree := pruned.rooted.tree
  have bestIndexed := pruned.rooted.marks.bestIndexed
  have get := tree.get_unlinkRoot bestIndexed member' link' onlyBest'
  refine (removeBlockNode_rooted pruned.rooted member' link' onlyBest').mono
    (fun _ final removed => ?_) (fun _ => False.elim)
  obtain ⟨rooted', nodes, index⟩ := removed
  refine ⟨rooted', fun other newer => ?_, ?_, fun other newer isMember => ?_,
    fun other indexed notBelow => ?_⟩
  · have notNext : other ≠ next := Nat.ne_of_gt newer
    have notRoot : other ≠ root := Nat.ne_of_gt (older.trans newer)
    rw [nodes, get, if_neg notNext, if_neg notRoot]
    exact pruned.above other (older.trans newer)
  · rw [nodes, get]
    simp only [if_neg (Nat.ne_of_gt older)]
    rw [pruned.above next older]
  · rw [nodes, tree.mem_lineage_removeRoot bestIndexed member' link' onlyBest']
    exact ⟨pruned.lineage other (older.trans newer) isMember, Nat.ne_of_gt (older.trans newer)⟩
  · have bound : root < bc.nodes.count := rooted.tree.allocated
      (rooted.tree.parent_indexed
        (rooted.tree.indexed_of_mem_lineage rooted.marks.bestIndexed member) link).1
    rw [link, rooted.tree.ordered.mem_lineage bound, not_or] at notBelow
    rw [nodes, index]
    exact tree.indexed_removeRoot.mpr ⟨pruned.indexed other indexed notBelow.2, notBelow.1⟩

theorem removeBlockNodes_prunedBelow (rooted : Rooted root best bc)
    (member : next ∈ bc.nodes.lineage (some best))
    (onlyBest : ∀ id ∈ bc.nodes.lineage (bc.nodes.get next).parent,
      ∀ child ∈ (bc.nodes.get id).children, child ∈ bc.nodes.lineage (some best)) :
    (removeBlockNodes (bc.nodes.lineage (bc.nodes.get next).parent).reverse).Ensures bc
      (fun _ => PrunedBelow next best bc) (fun _ => False) := by
  have ordered := rooted.tree.ordered
  have bestBound := rooted.tree.allocated rooted.marks.bestIndexed
  induction next using ordered.induction with
  | first next noParent =>
    have nextIndexed := rooted.tree.indexed_of_mem_lineage rooted.marks.bestIndexed member
    have isRoot := rooted.tree.root_mem_lineage nextIndexed
    rw [ordered.lineage_some (rooted.tree.allocated nextIndexed), noParent, Nodes.lineage_none,
      List.mem_singleton] at isRoot
    rw [noParent, Nodes.lineage_none]
    exact ⟨isRoot ▸ rooted, fun _ _ => rfl, rfl, fun _ _ same => same, fun _ same _ => same⟩
  | later next parent link ih =>
    have parentMember := ordered.parent_mem_lineage bestBound member link
    have parentBound := rooted.tree.allocated
      (rooted.tree.indexed_of_mem_lineage rooted.marks.bestIndexed parentMember)
    rw [link, ordered.lineage_some parentBound] at onlyBest ⊢
    rw [List.reverse_cons, ensures_removeBlockNodes_append]
    refine (ih parentMember fun id below => onlyBest id (List.mem_cons_of_mem _ below)).mono
      (fun _ middle pruned => ?_) (fun _ => id)
    simp only [removeBlockNodes, ensures_bind, ensures_pure]
    exact pruned.step rooted member link (onlyBest parent List.mem_cons_self)

theorem pruneBlockNodes_rooted (rooted : Rooted root best bc) (isRoot : bc.root = some root)
    (onlyBest : ∀ id ∈ bc.prunedNodes env, ∀ child ∈ (bc.nodes.get id).children,
      child ∈ bc.nodes.lineage bc.bestChain) :
    (pruneBlockNodes env).Ensures bc
      (fun _ after => (∃ newRoot, after.root = some newRoot ∧ Rooted newRoot best after) ∧
        ∀ id, InIndex bc.nodes bc.index id → id ∉ bc.prunedNodes env →
          InIndex after.nodes after.index id)
      (fun _ => False) := by
  simp only [prunedNodes] at onlyBest ⊢
  simp only [pruneBlockNodes, ensures_bind, ensures_get]
  rw [rooted.isBest] at onlyBest ⊢
  split
  · next short =>
    exact ⟨⟨root, isRoot, rooted⟩, fun _ same _ => same⟩
  · next newRoot found =>
    have member := List.mem_of_getElem? found
    simp only [found] at onlyBest ⊢
    split
    · next noParent => exact ⟨⟨root, isRoot, rooted⟩, fun _ same _ => same⟩
    · next parent link =>
      rw [ensures_bind, ← link]
      refine (removeBlockNodes_prunedBelow rooted member onlyBest).mono
        (fun _ middle pruned => ?_) (fun _ => id)
      rw [ensures_modify]
      refine ⟨⟨newRoot, rfl, ?_⟩, pruned.indexed⟩
      exact ⟨pruned.rooted.tree, pruned.rooted.marks, pruned.rooted.isBest⟩

/-! ## Adding a leaf -/

section Leaf

variable (rooted : Rooted root best bc) (bound : id < bc.nodes.count)
  (unused : bc.index (bc.nodes.get id).hash = none)
  (leaf : (bc.nodes.get id).children = [])
include rooted bound unused leaf

/-- A block on top of the best one. -/
theorem Connects.onBest (link : (bc.nodes.get id).parent = some best)
    (connects : Connects env id block bc after) :
    Rooted root id { after with nodes := after.nodes.modify best (.withChild id) } := by
  obtain ⟨store, blockHeight, median, -, rfl⟩ := connects.effect
  have flagged : RootedTree (bc.nodes.modify id (.withInMainChain true)) bc.index root :=
    rooted.tree.congr rfl (by simp) (by simp) (by simp)
  have added := flagged.addLeaf bound (by simpa using unused) (by simpa using link)
    (by simpa [InIndex] using rooted.marks.bestIndexed) (by simpa using leaf)
  rw [Nodes.hash_withInMainChain] at added
  exact ⟨added, rooted.marks.extend rooted.tree bound unused link, rfl⟩

/-- A block on top of any other one. -/
theorem addToSideChain_rooted {parent : NodeId} (link : (bc.nodes.get id).parent = some parent)
    (parentIndexed : InIndex bc.nodes bc.index parent) :
    (addToSideChain id parent block).Ensures bc
      (fun _ after => Rooted root best after ∧ InIndex after.nodes after.index id ∧
        after.root = bc.root)
      (fun _ => False) := by
  simp only [Blockchain.addToSideChain, modifyNode, appendChild, addNodeToIndex, ensures_bind,
    ensures_modify]
  have flagged : RootedTree (bc.nodes.modify id (.withInMainChain false)) bc.index root :=
    rooted.tree.congr rfl (by simp) (by simp) (by simp)
  have added := flagged.addLeaf bound (by simpa using unused) (by simpa using link)
    (by simpa [InIndex] using parentIndexed) (by simpa using leaf)
  rw [Nodes.hash_withInMainChain] at added
  refine ⟨⟨added, rooted.marks.keepAside rooted.tree unused parent block, rooted.isBest⟩, ?_, trivial⟩
  rw [InIndex, Nodes.hash_withChild, Nodes.hash_withInMainChain, Function.update_self]

end Leaf

variable {parent : NodeId}

/-! ## Reorganisations -/

/-- The links have not changed. -/
structure SameLinks (before after : Blockchain) : Prop where
  root : after.root = before.root
  index : after.index = before.index
  parent : ∀ id, (after.nodes.get id).parent = (before.nodes.get id).parent
  hash : ∀ id, (after.nodes.get id).hash = (before.nodes.get id).hash
  lineage : ∀ start, after.nodes.lineage start = before.nodes.lineage start

theorem SameLinks.refl (bc : Blockchain) : SameLinks bc bc :=
  ⟨rfl, rfl, fun _ => rfl, fun _ => rfl, fun _ => rfl⟩

theorem SameLinks.trans {first second third : Blockchain} (left : SameLinks first second)
    (right : SameLinks second third) : SameLinks first third where
  root := right.root.trans left.root
  index := right.index.trans left.index
  parent id := (right.parent id).trans (left.parent id)
  hash id := (right.hash id).trans (left.hash id)
  lineage start := (right.lineage start).trans (left.lineage start)

theorem rollbackBlock_store (bc : Blockchain) (hash : Uint256) :
    (rollbackBlock env hash).Ensures bc
      (fun _ after => ∃ store blockHeight, after = { bc with store, blockHeight })
      (fun _ => False) := by
  rw [rollbackBlock, ensures_bind, ensures_get]
  split
  · exact ensures_crash
  · exact ⟨_, _, rfl⟩
  · simp only [ensures_bind, ensures_check, ensures_modify]
    exact ⟨fun store _ => ⟨store, _, rfl⟩, fun _ => ChainStore.rollback_ne_error⟩

/-- `DisconnectBlock` on a node whose parent is in memory: nothing is loaded. -/
theorem disconnectBlock_linked (link : (bc.nodes.get id).parent = some parent) (block : Block) :
    (disconnectBlock env id block).Ensures bc
      (fun _ after => ∃ store blockHeight medianTimePast, after = { bc with
        store, blockHeight, medianTimePast
        nodes := bc.nodes.modify id (.withInMainChain false)
        blockCache := Function.update bc.blockCache (bc.nodes.get id).hash (some block)
        bestChain := some parent })
      (· = bc) := by
  simp only [disconnectBlock, ensures_bind, ensures_get, ensures_ite, ensures_throw,
    getPrevNodeFromNode, link, ensures_pure]
  refine ⟨fun _ => trivial, fun _ => ?_⟩
  refine (rollbackBlock_store bc _).mono (fun _ rolled rolledBack => ?_) (fun _ => False.elim)
  obtain ⟨store, blockHeight, rfl⟩ := rolledBack
  simp only [modifyNode, ensures_modify, Nodes.parent_withInMainChain, link]
  refine (setBestChain_sets _).mono (fun _ after sets => ?_) (fun _ => False.elim)
  obtain ⟨-, median, rfl⟩ := sets
  exact ⟨store, blockHeight, median, rfl⟩

/-- `DisconnectBlock` on the best node with its parent in memory. -/
theorem disconnectBlock_rooted (rooted : Rooted root best bc)
    (link : (bc.nodes.get best).parent = some parent) (block : Block) :
    (disconnectBlock env best block).Ensures bc
      (fun _ after => Rooted root parent after ∧ SameLinks bc after) (· = bc) := by
  refine (disconnectBlock_linked link block).mono (fun _ after effect => ?_) (fun _ same => same)
  obtain ⟨store, blockHeight, median, rfl⟩ := effect
  refine ⟨⟨?_, ?_, rfl⟩, ⟨rfl, rfl, ?_, ?_, ?_⟩⟩
  · exact rooted.tree.congr rfl (by simp) (by simp) (by simp)
  · exact rooted.marks.detach rooted.tree link block
  · simp
  · simp
  · simp

/-- Nodes at the end of the best chain are detached. -/
theorem detachNodes_rooted (rooted : Rooted root best bc) (isRoot : bc.root = some root)
    {ids : List NodeId} {fork : NodeId}
    (split : bc.nodes.lineage (some best) = ids ++ bc.nodes.lineage (some fork))
    (forkIndexed : InIndex bc.nodes bc.index fork) :
    (detachNodes env ids).Ensures bc
      (fun _ after => Rooted root fork after ∧ SameLinks bc after) InWindow := by
  induction ids generalizing bc best with
  | nil =>
    rw [List.nil_append, rooted.lineage_best,
      rooted.tree.ordered.lineage_some (rooted.tree.allocated forkIndexed)] at split
    obtain ⟨rfl, -⟩ := List.cons.inj split
    exact ⟨rooted, .refl bc⟩
  | cons id ids ih =>
    rw [rooted.lineage_best, List.cons_append] at split
    obtain ⟨rfl, below⟩ := List.cons.inj split
    cases link : (bc.nodes.get best).parent with
    | none =>
      rw [link, Nodes.lineage_none,
        rooted.tree.ordered.lineage_some (rooted.tree.allocated forkIndexed)] at below
      simp at below
    | some parent =>
      simp only [detachNodes, checked, ensures_bind, ensures_get, ensures_check, mapError_eq_ok]
      refine ⟨fun block _ => ?_, fun _ _ => ⟨root, best, isRoot, rooted⟩⟩
      refine (disconnectBlock_rooted rooted link block).mono (fun _ middle moved => ?_)
        (fun _ same => ⟨root, best, same ▸ isRoot, same ▸ rooted⟩)
      obtain ⟨rooted', same⟩ := moved
      have forkIndexed' : InIndex middle.nodes middle.index fork := by
        rw [InIndex, same.index, same.hash]
        exact forkIndexed
      refine (ih rooted' (same.root.trans isRoot) ?_ forkIndexed').mono
        (fun _ after rest => ⟨rest.1, same.trans rest.2⟩) (fun _ failed => failed)
      rw [same.lineage, same.lineage, ← below, link]

/-- Nodes of a side chain that starts at the best node are attached. -/
theorem attachNodes_inWindow (rooted : Rooted root best bc) (isRoot : bc.root = some root)
    {ids : List NodeId}
    (climbs : (best :: ids).IsChain fun parent id => (bc.nodes.get id).parent = some parent)
    (indexed : ∀ id ∈ ids, InIndex bc.nodes bc.index id) :
    (attachNodes env ids).Ensures bc (fun _ => InWindow) InWindow := by
  induction ids generalizing bc best with
  | nil => exact ⟨root, best, isRoot, rooted⟩
  | cons id ids ih =>
    obtain ⟨link, climbs⟩ := List.isChain_cons_cons.mp climbs
    have isIndexed := indexed id List.mem_cons_self
    simp only [attachNodes, ensures_bind, ensures_get]
    split
    · exact ensures_crash
    · next block entry =>
      rw [ensures_bind]
      refine (connectBlock_connects bc id block).mono (fun _ middle connects => ?_)
        (fun _ same => ⟨root, best, same ▸ isRoot, same ▸ rooted⟩)
      rw [ensures_bind, ensures_modify]
      obtain ⟨store, blockHeight, median, -, rfl⟩ := connects.effect
      have sameIndex : Function.update bc.index (bc.nodes.get id).hash (some id) = bc.index := by
        rw [← show bc.index (bc.nodes.get id).hash = some id from isIndexed,
          Function.update_eq_self]
      simp only [sameIndex]
      refine ih ⟨?_, ?_, rfl⟩ isRoot ?_ ?_
      · exact rooted.tree.congr rfl (by simp) (by simp) (by simp)
      · exact rooted.marks.attach rooted.tree isIndexed link
      · simpa using climbs
      · intro other member
        simpa [InIndex] using indexed other (List.mem_cons_of_mem _ member)

/-- What `GetReorganizeNodes` finds: the way down from the best node to a fork and the
way up to the given node. -/
theorem Rooted.getReorganizeNodes (rooted : Rooted root best bc)
    (indexed : InIndex bc.nodes bc.index id) :
    ∃ fork, InIndex bc.nodes bc.index fork ∧
      bc.nodes.lineage (some best) =
        (bc.getReorganizeNodes id).1 ++ bc.nodes.lineage (some fork) ∧
      (fork :: (bc.getReorganizeNodes id).2).IsChain
        (fun parent id => (bc.nodes.get id).parent = some parent) ∧
      ∀ other ∈ (bc.getReorganizeNodes id).2, InIndex bc.nodes bc.index other ∧
        (bc.nodes.get other).inMainChain = false := by
  have tree := rooted.tree
  have bestBound := tree.allocated rooted.marks.bestIndexed
  -- the fork is the first node on the way down that is not off the main chain
  have notOff : ∃ other ∈ bc.nodes.lineage (some id), ¬ bc.offMainChain other := by
    refine ⟨root, tree.root_mem_lineage indexed, ?_⟩
    simp [offMainChain, tree.rootParent]
  obtain ⟨fork, found⟩ := Option.isSome_iff_exists.mp
    (List.find?_isSome.mpr (by simpa using notOff) :
      ((bc.nodes.lineage (some id)).find? fun id => ¬ bc.offMainChain id).isSome)
  obtain ⟨stop, way, rest, lineage, off⟩ := List.find?_eq_some_iff_append.mp found
  have off : ∀ other ∈ way, bc.offMainChain other = true := by simpa using off
  have stop : bc.offMainChain fork = false := by simpa using stop
  have isIndexed : ∀ other ∈ way ++ fork :: rest, InIndex bc.nodes bc.index other := by
    intro other member
    rw [← lineage] at member
    exact tree.indexed_of_mem_lineage indexed member
  have forkIndexed := isIndexed fork (by simp)
  have onBest : fork ∈ bc.nodes.lineage (some best) := by
    cases link : (bc.nodes.get fork).parent with
    | none =>
      have isRoot : fork = root := by
        by_contra notRoot
        obtain ⟨parent, link', -⟩ := tree.linked fork forkIndexed notRoot
        rw [link] at link'
        cases link'
      rw [isRoot]
      exact tree.root_mem_lineage rooted.marks.bestIndexed
    | some parent =>
      rw [← rooted.marks.marked fork forkIndexed]
      simpa [offMainChain, link] using stop
  obtain ⟨down, split, fresh, linked⟩ := tree.ordered.exists_way bestBound onBest
  have attach : (bc.getReorganizeNodes id).2 = way.reverse := by
    simp only [Blockchain.getReorganizeNodes, lineage, List.takeWhile_append_of_pos off,
      List.takeWhile_cons_of_neg (Bool.eq_false_iff.mp stop), List.append_nil]
  have detach : (bc.getReorganizeNodes id).1 = down := by
    have differs : ∀ other ∈ down, (bc.nodes.get other).hash ≠ (bc.nodes.get fork).hash := by
      intro other member same
      have otherIndexed := tree.indexed_of_mem_lineage rooted.marks.bestIndexed
        (split ▸ List.mem_append_left _ member)
      exact fresh (otherIndexed.eq_of_hash forkIndexed same ▸ member)
    simp only [Blockchain.getReorganizeNodes, rooted.isBest, found, split, Option.map_some]
    rw [List.takeWhile_append_of_pos,
      tree.ordered.lineage_some (tree.allocated forkIndexed), List.takeWhile_cons_of_neg,
      List.append_nil]
    · simp
    · intro other member
      simpa [differs other member] using linked other member
  refine ⟨fork, forkIndexed, detach ▸ split, ?_, fun other member => ?_⟩
  · have chain := bc.nodes.isChain_lineage (some id)
    rw [lineage, List.append_cons] at chain
    rw [attach, ← List.reverse_concat, List.isChain_reverse]
    exact chain.left_of_append
  · rw [attach, List.mem_reverse] at member
    have isOff := off other member
    simp only [offMainChain, decide_eq_true_eq] at isOff
    exact ⟨isIndexed other (List.mem_append_left _ member), isOff.2⟩

/-- The call leaves the tree in order, and does not miss a block in the cache. -/
def StaysInWindow {α : Type} (call : Call α) (bc : Blockchain) : Prop :=
  call.Ends bc (fun _ => InWindow)
    (fun reason after => reason ≠ .missingFromCache ∧ InWindow after) fun _ => True

/-- All nodes that a reorganisation attaches have their blocks in the cache. -/
theorem reorganizeChain_inWindow (rooted : Rooted root best bc) (isRoot : bc.root = some root)
    (indexed : InIndex bc.nodes bc.index id) :
    StaysInWindow
      (reorganizeChain env (bc.getReorganizeNodes id).1 (bc.getReorganizeNodes id).2) bc := by
  obtain ⟨fork, forkIndexed, split, climbs, attached⟩ := rooted.getReorganizeNodes indexed
  have inCache : ((bc.getReorganizeNodes id).2.any fun other =>
      (bc.blockCache (bc.nodes.get other).hash).isNone) = false := by
    rw [List.any_eq_false]
    intro other member
    obtain ⟨otherIndexed, off⟩ := attached other member
    simpa [Option.isSome_iff_ne_none] using rooted.marks.isSome_of_not_marked otherIndexed off
  rw [StaysInWindow, reorganizeChain, ends_bind, ends_get, inCache, if_neg Bool.false_ne_true]
  refine Ensures.ends_of_ne (ensures_bind.mpr ?_)
    (((detachNodes_leaves _).bind fun _ => attachNodes_leaves _).avoids bc)
  refine (detachNodes_rooted rooted isRoot split forkIndexed).mono (fun _ middle detached => ?_)
    (fun _ failed => failed)
  obtain ⟨rooted', same⟩ := detached
  refine attachNodes_inWindow rooted' (same.root.trans isRoot) ?_ fun other member => ?_
  · simpa only [same.parent] using climbs
  · rw [InIndex, same.index, same.hash]
    exact (attached other member).1

/-! ## Accepting a block -/

theorem connectBestChain_inWindow (rooted : Rooted root best bc) (isRoot : bc.root = some root)
    (bound : id < bc.nodes.count) (unused : bc.index (bc.nodes.get id).hash = none)
    (leaf : (bc.nodes.get id).children = []) (link : (bc.nodes.get id).parent = some parent)
    (parentIndexed : InIndex bc.nodes bc.index parent) :
    StaysInWindow (connectBestChain env id block) bc := by
  rw [StaysInWindow, connectBestChain, ends_bind, ends_get, rooted.isBest, link]
  refine ends_ite.mpr ⟨fun same => ?_, fun _ => ?_⟩
  · obtain rfl := parentIndexed.eq_of_hash rooted.marks.bestIndexed same
    refine Ensures.ends_of_ne (ensures_bind.mpr ?_) (((connectBlock_leaves id block).bind fun _ =>
      (modifyNode_leaves _ _).bind fun _ => leaves_pure).avoids bc)
    refine (connectBlock_connects bc id block).mono (fun _ middle connects => ?_)
      (fun _ same => ⟨root, parent, same ▸ isRoot, same ▸ rooted⟩)
    refine ⟨root, id, ?_, connects.onBest rooted bound unused leaf link⟩
    obtain ⟨_, _, _, -, rfl⟩ := connects.effect
    exact isRoot
  · rw [ends_bind]
    refine (addToSideChain_rooted rooted bound unused leaf link parentIndexed).ends.mono
      (fun _ middle kept => ?_) (fun _ _ => False.elim) fun _ same => same
    obtain ⟨rooted', indexed, isRoot'⟩ := kept
    have isRoot' := isRoot'.trans isRoot
    simp only [ends_bind, ends_get, ends_ite, ends_pure]
    exact ⟨fun _ => ⟨root, best, isRoot', rooted'⟩,
      fun _ => reorganizeChain_inWindow rooted' isRoot' indexed⟩

/-- The parent of a block is found in memory. -/
theorem getPrevNodeFromBlock_inMemory
    (inMemory : block.blockdata.prevBlockHash = 0 ∨
      (bc.index block.blockdata.prevBlockHash).isSome) :
    (getPrevNodeFromBlock block).Ensures bc
      (fun prev after => after = bc ∧
        ∀ id, prev = some id → bc.index block.blockdata.prevBlockHash = some id)
      (fun _ => False) := by
  simp only [getPrevNodeFromBlock, ensures_ite, ensures_pure, ensures_bind, ensures_get]
  refine ⟨fun _ => ⟨trivial, by rintro _ ⟨⟩⟩, fun nonzero => ?_⟩
  obtain ⟨id, entry⟩ := Option.isSome_iff_exists.mp (inMemory.resolve_left nonzero)
  rw [entry]
  refine ⟨rfl, ?_⟩
  rintro _ ⟨⟩
  rfl

/-- A node is allocated above an indexed one. -/
theorem Rooted.allocateAbove (rooted : Rooted root best bc)
    (indexed : InIndex bc.nodes bc.index parent) (blockHeight : UInt32) :
    Rooted root best { bc with
      nodes := bc.nodes.allocate (bc.nodeAbove env (some parent) blockHeight block) } ∧
    InIndex (bc.nodes.allocate (bc.nodeAbove env (some parent) blockHeight block)) bc.index
      parent := by
  have older : ∀ id ∈ (bc.nodeAbove env (some parent) blockHeight block).parent,
      id < bc.nodes.count := by
    rintro _ ⟨⟩
    exact rooted.tree.allocated indexed
  exact ⟨⟨rooted.tree.allocate older, rooted.marks.allocate rooted.tree older, rooted.isBest⟩,
    rooted.tree.indexed_allocate.mpr indexed⟩

/-- The last two statements of `maybeAcceptBlock`, with the parent in memory. -/
theorem acceptAbove_inWindow (rooted : Rooted root best bc) (isRoot : bc.root = some root)
    (unused : bc.index (block.hash env.crypto) = none) {prev : Option NodeId}
    (indexed : ∀ id, prev = some id → InIndex bc.nodes bc.index id) (blockHeight : UInt32) :
    StaysInWindow (do
      let id ← allocateNode (bc.nodeAbove env prev blockHeight block)
      connectBestChain env id block) bc := by
  simp only [StaysInWindow, allocateNode, ends_bind, ends_get, ends_modify, ends_pure]
  cases prev with
  | none =>
    rw [connectBestChain, ends_bind, ends_get, rooted.isBest, Nodes.get_allocate_self]
    exact ends_crash.mpr trivial
  | some parent =>
    obtain ⟨allocated, parentIndexed⟩ := rooted.allocateAbove (indexed parent rfl) blockHeight
    refine connectBestChain_inWindow allocated isRoot (Nat.lt_succ_self _) ?_ ?_ ?_ parentIndexed
    · rw [Nodes.get_allocate_self]
      exact unused
    · rw [Nodes.get_allocate_self]
      rfl
    · rw [Nodes.get_allocate_self]
      rfl

/-- Pruning on the terms: the parent of the block stays. -/
theorem pruneBlockNodes_onTerms (rooted : Rooted root best bc) (isRoot : bc.root = some root)
    (unused : bc.index (block.hash env.crypto) = none) {prev : Option NodeId}
    (found : ∀ id, prev = some id → bc.index block.blockdata.prevBlockHash = some id)
    (pruning : ∀ id ∈ bc.prunedNodes env, bc.index block.blockdata.prevBlockHash ≠ some id ∧
      ∀ child ∈ (bc.nodes.get id).children, child ∈ bc.nodes.lineage bc.bestChain) :
    (pruneBlockNodes env).Ensures bc
      (fun _ after => ∃ newRoot, after.root = some newRoot ∧ Rooted newRoot best after ∧
        after.index (block.hash env.crypto) = none ∧
        ∀ id, prev = some id → InIndex after.nodes after.index id)
      (fun _ => False) := by
  refine ((pruneBlockNodes_rooted rooted isRoot fun id member => (pruning id member).2).and
    (pruneBlockNodes_shrinks env _)).mono (fun _ pruned kept => ?_) (fun _ failed => failed.1)
  obtain ⟨⟨⟨newRoot, isRoot, rooted'⟩, stays⟩, shrinks⟩ := kept
  refine ⟨newRoot, isRoot, rooted', ?_, fun id isPrev => ?_⟩
  · rw [← Option.not_isSome_iff_eq_none]
    intro entry
    obtain ⟨id, entry⟩ := Option.isSome_iff_exists.mp entry
    rw [shrinks.index _ id entry] at unused
    cases unused
  · have entry := found id isPrev
    exact stays id (rooted.tree.indexed_of_found entry) fun member => (pruning id member).1 entry

/-- A block that is accepted on the terms leaves the tree in order. -/
theorem maybeAcceptBlock_inWindow (inWindow : InWindow bc)
    (unused : bc.index (block.hash env.crypto) = none) {pending : List Uint256}
    (onTerms : (windowTerms env).accepting pending bc block) :
    StaysInWindow (maybeAcceptBlock env block) bc := by
  have start := inWindow
  obtain ⟨root, best, isRoot, rooted⟩ := start
  obtain ⟨inMemory, pruning⟩ := onTerms
  rw [StaysInWindow, maybeAcceptBlock, ends_bind]
  refine (getPrevNodeFromBlock_inMemory inMemory).ends.mono (fun prev before looked => ?_)
    (fun _ _ => False.elim) fun _ => id
  obtain ⟨rfl, found⟩ := looked
  rw [ends_bind, ends_get, ends_ite]
  refine ⟨fun _ => ⟨by simp, inWindow⟩, fun _ => ?_⟩
  rw [ends_bind]
  have checks {check : Blockchain → Outcome BlockError Unit} :
      (checked .context check).Ensures before (fun _ after => after = before) InWindow :=
    ensures_check.mpr ⟨fun _ _ => rfl, fun _ _ => inWindow⟩
  refine (checks.ends_of_ne ((leaves_checked (by simp)).avoids before)).mono (fun _ _ same => ?_)
    (fun _ _ failed => failed) fun _ => id
  obtain rfl := same
  rw [ends_bind]
  refine (pruneBlockNodes_onTerms rooted isRoot unused found pruning).ends.mono
    (fun _ pruned kept => ?_) (fun _ _ => False.elim) fun _ => id
  obtain ⟨newRoot, isRoot, rooted', unused', indexed⟩ := kept
  exact acceptAbove_inWindow rooted' isRoot unused' indexed _

end Blockchain

end DnaPow.Ledger
