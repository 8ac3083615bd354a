import DnaPow.Ledger.Window

/-!
# Runs within the memory window

The tree in memory along whole runs that meet `windowTerms`, and what such runs
exclude: an indexed node without its parent, a wrong mark, a block that is missing
from the cache. Two short runs show that pruning breaks each of them otherwise.
-/

namespace DnaPow.Ledger

open DnaPow.Std Common Core Action

namespace Blockchain

variable {env : Env} {known : Block → Prop} {bc after : Blockchain} {root best id : NodeId}
  {block : Block} {orphan : OrphanBlock}

/-- The tree is in order, and no orphan is known otherwise. -/
structure Windowed (env : Env) (known : Block → Prop) (bc : Blockchain) : Prop where
  sound : Sound env known bc
  pooled : Pooled known bc
  inWindow : InWindow bc
  isNew : ∀ orphan ∈ bc.orphans, ¬ bc.Keeps (orphan.block.hash env.crypto)

/-- A known block that is kept nowhere yet. -/
structure Novel (env : Env) (known : Block → Prop) (bc : Blockchain) (block : Block) : Prop where
  isKnown : known block
  notKept : ¬ bc.Keeps (block.hash env.crypto)
  others : ∀ orphan ∈ bc.orphans, orphan.block.hash env.crypto ≠ block.hash env.crypto

theorem InWindow.withPool (inWindow : InWindow bc) {allowed : OrphanBlock → Prop}
    (pool : PoolOnly allowed bc after) : InWindow after := by
  obtain ⟨root, best, isRoot, rooted⟩ := inWindow
  rw [pool.same]
  exact ⟨root, best, isRoot, rooted.tree, rooted.marks, rooted.isBest⟩

theorem Windowed.withoutOrphan (windowed : Windowed env known bc)
    (admissible : Admissible env known) (isKnown : known orphan.block) :
    Windowed env known (bc.withoutOrphan env orphan) := by
  have pool : PoolOnly (fun _ => True) bc bc := ⟨rfl, fun _ _ _ => trivial⟩
  have removed : PoolOnly (fun _ => True) bc (bc.withoutOrphan env orphan) :=
    pool.withoutOrphan orphan bc.oldestOrphan
  refine ⟨windowed.sound.withoutOrphan orphan, windowed.pooled.withoutOrphan
    (samePrev_of_admissible admissible) isKnown,
    windowed.inWindow.withPool removed, fun other member keeps => ?_⟩
  exact windowed.isNew other (mem_orphans_withoutOrphan.mp member).1 keeps

theorem Keeps.of_index {hash : Uint256} (notKept : ¬ bc.Keeps hash) : bc.index hash = none :=
  Option.not_isSome_iff_eq_none.mp fun entry => notKept (.inl entry)

section Process

variable (admissible : Admissible env known)
include admissible

section

variable (windowed : Windowed env known bc)
include windowed

/-- A block that is neither in the tree nor in the store is not in the cache either. -/
theorem Windowed.not_keeps {hash : Uint256}
    (missing : bc.blockExists hash = false) : ¬ bc.Keeps hash := by
  obtain ⟨chain, invariant⟩ := windowed.sound
  obtain ⟨root, best, -, rooted⟩ := windowed.inWindow
  obtain ⟨noIndex, noStore⟩ := not_or.mp (of_decide_eq_false missing)
  rintro (indexed | stored | cached)
  · exact noIndex indexed
  · exact noStore (invariant.isBlockInStore admissible stored)
  · exact noIndex (rooted.marks.kept hash cached)

theorem maybeAcceptBlock_windowed (novel : Novel env known bc block)
    {pending : List Uint256} (onTerms : (windowTerms env).accepting pending bc block) :
    (maybeAcceptBlock env block).Ends bc (fun _ => Windowed env known)
      (fun reason after => reason ≠ .missingFromCache ∧ Windowed env known after)
      fun _ => True := by
  obtain ⟨chain, invariant⟩ := windowed.sound
  have accepted {after : Blockchain} (inWindow : InWindow after) (confined : SoundlyConfined env
      known (fun hash => bc.Keeps hash ∨ hash = block.hash env.crypto) bc after) :
      Windowed env known after := by
    obtain ⟨sound, confined⟩ := confined
    refine ⟨sound, confined.pooled windowed.pooled, inWindow, fun orphan member keeps => ?_⟩
    rw [confined.orphans] at member
    rcases confined.keeps keeps with before | same
    · exact windowed.isNew orphan member before
    · exact novel.others orphan member same
  exact ((maybeAcceptBlock_inWindow windowed.inWindow (Keeps.of_index novel.notKept) onTerms).and
    (maybeAcceptBlock_confined admissible invariant novel.isKnown (.self bc _) (.inr rfl))).mono
    (fun _ _ ends => accepted ends.1 ends.2)
    (fun _ _ ends => ⟨ends.1.1, accepted ends.1.2 ends.2⟩) fun _ same => same

/-- An orphan that is taken out of the pool. -/
theorem Windowed.takeOrphan {hash : Uint256}
    {others : List OrphanBlock} (found : bc.prevOrphans hash = orphan :: others) :
    Windowed env known (bc.withoutOrphan env orphan) ∧
      Novel env known (bc.withoutOrphan env orphan) orphan.block := by
  have member : orphan ∈ bc.orphans :=
    (windowed.pooled.listed hash orphan (found ▸ List.mem_cons_self)).1
  have isKnown := windowed.pooled.isKnown orphan member
  refine ⟨windowed.withoutOrphan admissible isKnown, isKnown, windowed.isNew orphan member,
    fun other isOther => ?_⟩
  exact (mem_orphans_withoutOrphan.mp isOther).2

theorem addOrphanBlock_windowed (isKnown : known block)
    (missing : bc.blockExists (block.hash env.crypto) = false)
    (absent : ∀ orphan ∈ bc.orphans, orphan.block.hash env.crypto ≠ block.hash env.crypto)
    {now : Int} :
    (addOrphanBlock env now block).Ensures bc (fun _ => Windowed env known) (fun _ => False) := by
  obtain ⟨chain, invariant⟩ := windowed.sound
  refine ((addOrphanBlock_pool invariant.orphans fun orphan same => same ▸ isKnown).and
    (addOrphanBlock_pooled (samePrev_of_admissible admissible) windowed.pooled isKnown absent)).mono
    (fun _ after added => ?_) (fun _ failed => failed.1)
  obtain ⟨pool, pooled, fewer⟩ := added
  refine ⟨⟨chain, invariant.pool pool⟩, pooled, windowed.inWindow.withPool pool,
    fun orphan member keeps => ?_⟩
  have keeps : bc.Keeps (orphan.block.hash env.crypto) := by
    rw [pool.same] at keeps
    exact keeps
  rcases fewer orphan member with old | rfl
  · exact windowed.isNew orphan old keeps
  · exact windowed.not_keeps admissible missing keeps

theorem Windowed.arrives {delivery : Delivery}
    (isKnown : Sane env delivery.block → known delivery.block) :
    Arrives env (windowTerms env) (Windowed env known) (Novel env known) delivery bc := by
  intro sane missing absent
  have isKnown := isKnown sane
  exact ⟨⟨isKnown, windowed.not_keeps admissible missing, absent⟩, fun _ =>
    addOrphanBlock_windowed admissible windowed isKnown missing absent⟩

theorem processBlock_windowed {delivery : Delivery}
    (isKnown : Sane env delivery.block → known delivery.block)
    (meets : StepMeets env (windowTerms env) bc delivery) :
    (processBlock env delivery).Ends bc (fun _ => Windowed env known)
      (fun rejection after => rejection.reason ≠ .missingFromCache ∧ Windowed env known after)
      fun _ => True := by
  refine @processBlock_ends _ _ _ _ (Novel env known)
    (fun reason after => reason ≠ .missingFromCache ∧ Windowed env known after) _ ?_ ?_
    (fun _ _ differs windowed => ⟨differs, windowed⟩) windowed
    (windowed.arrives admissible isKnown) meets
  · exact fun _ bc hash orphan others windowed found _ => windowed.takeOrphan admissible found
  · exact fun pending bc block windowed novel => maybeAcceptBlock_windowed admissible windowed novel

end

end Process

theorem fresh_inWindow (env : Env) : InWindow (fresh env) := by
  rw [fresh, newBlockchainWithGenesisBlock_genesis]
  exact ⟨0, 0, rfl, @RootedTree.single (genesisNode env) rfl rfl,
    @Marked.single (genesisNode env) rfl, rfl⟩

theorem fresh_windowed (env : Env) (known : Block → Prop) : Windowed env known (fresh env) := by
  have settled := fresh_settled env known
  refine ⟨settled.sound, settled.pooled, fresh_inWindow env, ?_⟩
  rw [fresh, newBlockchainWithGenesisBlock_genesis]
  rintro _ ⟨⟩

theorem windowed_of_run {deliveries earlier : List Delivery} (apart : HashesApart env deliveries)
    (few : deliveries.length + 1 < 2 ^ 32) (among : ∀ delivery ∈ earlier, delivery ∈ deliveries)
    (meets : RunMeets env (windowTerms env) (fresh env) earlier)
    (ran : run env earlier = some bc) : Windowed env (Delivered env deliveries) bc := by
  have admissible := admissible_delivered apart few
  refine run_induction_of_meets (fresh_windowed env _) ?_ meets ran
  intro delivery member before after windowed stepMeets delivered
  have ends := processBlock_windowed admissible windowed
    (fun sane => .inr ⟨⟨delivery, among delivery member, rfl⟩, sane⟩) stepMeets
  refine of_deliver (Ends.ensures (ends.mono (fun _ _ same => same) (fun _ _ failed => failed.2)
    fun _ same => same)) delivered

/-! ## One rooted tree -/

/-- The index is a tree under the given root: every other node has its parent in the
index, among whose children it is, and following the parents ends at the root. -/
structure IsTree (bc : Blockchain) (root : NodeId) : Prop where
  isRoot : bc.root = some root
  rootIndexed : bc.index (bc.nodes.get root).hash = some root
  linked : ∀ hash id, bc.index hash = some id → id ≠ root → ∃ parent,
    (bc.nodes.get id).parent = some parent ∧
      bc.index (bc.nodes.get parent).hash = some parent ∧ id ∈ (bc.nodes.get parent).children
  reaches : ∀ hash id, bc.index hash = some id → root ∈ bc.nodes.lineage (some id)

theorem InWindow.isTree (inWindow : InWindow bc) : ∃ root, IsTree bc root := by
  obtain ⟨root, best, isRoot, rooted⟩ := inWindow
  refine ⟨root, isRoot, rooted.tree.rootIndexed, fun hash id entry notRoot => ?_,
    fun hash id entry => ?_⟩
  · exact rooted.tree.linked id (rooted.tree.indexed_of_found entry) notRoot
  · exact rooted.tree.root_mem_lineage (rooted.tree.indexed_of_found entry)

/-- In a run within the memory window the index is a tree under one root. -/
theorem isTree_of_run (env : Env) (deliveries : List Delivery) (bc : Blockchain)
    (apart : HashesApart env deliveries) (few : deliveries.length + 1 < 2 ^ 32)
    (meets : RunMeets env (windowTerms env) (fresh env) deliveries)
    (ran : run env deliveries = some bc) : ∃ root, IsTree bc root :=
  (windowed_of_run apart few (fun _ member => member) meets ran).inWindow.isTree

/-! ## The marks -/

/-- The nodes of the index on the main chain are the best one and its ancestors, and the
blocks of the others are in the cache. -/
structure MarksMainChain (bc : Blockchain) : Prop where
  inMainChain : ∀ hash id, bc.index hash = some id →
    ((bc.nodes.get id).inMainChain = true ↔ id ∈ bc.nodes.lineage bc.bestChain)
  blockCache : ∀ hash id, bc.index hash = some id →
    ((bc.blockCache hash).isSome ↔ (bc.nodes.get id).inMainChain = false)

theorem InWindow.marksMainChain (inWindow : InWindow bc) : MarksMainChain bc := by
  obtain ⟨root, best, -, rooted⟩ := inWindow
  refine ⟨fun hash id entry => ?_, fun hash id entry => ?_⟩
  · rw [rooted.isBest]
    exact rooted.marks.marked id (rooted.tree.indexed_of_found entry)
  · have sameHash := (rooted.tree.found hash id entry).2
    rw [← sameHash]
    exact rooted.marks.cached id (rooted.tree.indexed_of_found entry)

/-- In a run within the memory window the marks are right, and no delivery is rejected
because a block is missing from the cache. -/
theorem marksMainChain_of_run (env : Env) (deliveries : List Delivery) (bc : Blockchain)
    (apart : HashesApart env deliveries) (few : deliveries.length + 1 < 2 ^ 32)
    (meets : RunMeets env (windowTerms env) (fresh env) deliveries)
    (ran : run env deliveries = some bc) :
    MarksMainChain bc ∧ ∀ earlier delivery later before,
      deliveries = earlier ++ delivery :: later → run env earlier = some before →
      ∀ rejection, ((processBlock env delivery).run before).1 = .error rejection →
        rejection.reason ≠ .missingFromCache := by
  constructor
  · exact (windowed_of_run apart few (fun _ member => member) meets ran).inWindow.marksMainChain
  · intro earlier delivery later before split ranBefore rejection rejected
    rw [split] at meets
    obtain ⟨earlierMeets, stepMeets⟩ := meets.split ranBefore
    have windowed := windowed_of_run apart few
      (fun other member => split ▸ List.mem_append_left _ member) earlierMeets ranBefore
    have ends := processBlock_windowed (admissible_delivered apart few) windowed
      (fun sane => .inr ⟨⟨delivery, by simp [split], rfl⟩, sane⟩) stepMeets
    obtain ⟨-, differs, -⟩ := ends.of_error rejected
    exact differs

/-! ## Pruned forks -/

/-- The sample parameters with room for two nodes of the main chain in memory. -/
def smallEnv : Env :=
  { Env.sample with chainParam := { Env.sample.chainParam with minMemoryNodes := 2 } }

/-- Blocks on top of the given one, oldest first, whose coinbase transactions carry the
given tags. -/
def branchOn (parent : Block) : List UInt8 → List Block
  | [] => []
  | tag :: tags =>
      let block := Sample.block parent [Sample.coinbase tag 0 5000]
      block :: branchOn block tags

/-- Three blocks on top of each other: the genesis block is pruned, and nothing else
starts from it. -/
theorem isTree_branch :
    let deliveries := Sample.deliveries (branchOn (genesisBlock smallEnv) [1, 2, 3])
    ∃ bc, run smallEnv deliveries = some bc ∧
      bc.index ((genesisBlock smallEnv).hash smallEnv.crypto) = none ∧ ∃ root, IsTree bc root := by
  intro deliveries
  have ends : (run smallEnv deliveries).map
      (·.index ((genesisBlock smallEnv).hash smallEnv.crypto)) = some none := by decide +kernel
  obtain ⟨bc, ran, pruned⟩ := Option.map_eq_some_iff.mp ends
  refine ⟨bc, ran, pruned, isTree_of_run smallEnv _ bc ⟨?_, ?_, ?_⟩ ?_ ?_ ran⟩ <;> decide +kernel

/-- Another block on top of the genesis block. -/
def forkBlock : Block := Sample.block (genesisBlock smallEnv) [Sample.coinbase 9 0 5000]

/-- The second of four blocks starts a side chain. When the genesis block is pruned, it
stays in the index without a parent. -/
theorem forkBlock_cutOff :
    let branch := branchOn (genesisBlock smallEnv) [1, 2, 3]
    ∃ bc, run smallEnv (Sample.deliveries (branch.insertIdx 1 forkBlock)) = some bc ∧
      ¬ ∃ root, IsTree bc root := by
  intro branch
  have cutOff : (run smallEnv (Sample.deliveries (branch.insertIdx 1 forkBlock))).map (fun bc =>
      (bc.root, bc.index (forkBlock.hash smallEnv.crypto), (bc.nodes.get 2).parent)) =
      some (some 1, some 2, none) := by decide +kernel
  obtain ⟨bc, ran, cutOff⟩ := Option.map_eq_some_iff.mp cutOff
  simp only [Prod.mk.injEq] at cutOff
  obtain ⟨isRoot, indexed, noParent⟩ := cutOff
  refine ⟨bc, ran, ?_⟩
  rintro ⟨root, tree⟩
  obtain rfl := Option.some.inj (tree.isRoot.symm.trans isRoot)
  obtain ⟨parent, link, -⟩ := tree.linked _ 2 indexed (by decide)
  rw [noParent] at link
  cases link

/-- A side chain of one block that is given up again within the memory window. -/
theorem marksMainChain_fork :
    let deliveries := Sample.deliveries (forkBlock :: branchOn (genesisBlock smallEnv) [1, 2])
    ∃ bc, run smallEnv deliveries = some bc ∧
      (bc.blockCache (forkBlock.hash smallEnv.crypto)).isSome ∧ MarksMainChain bc := by
  intro deliveries
  have ends : (run smallEnv deliveries).map
      (fun bc => (bc.blockCache (forkBlock.hash smallEnv.crypto)).isSome) = some true := by
    decide +kernel
  obtain ⟨bc, ran, cached⟩ := Option.map_eq_some_iff.mp ends
  refine ⟨bc, ran, cached, (marksMainChain_of_run smallEnv _ bc ⟨?_, ?_, ?_⟩ ?_ ?_ ran).1⟩ <;>
    decide +kernel

/-- The chain that started with the fork block was given up for another one, and the
genesis block was pruned. Another block on top of the genesis block loads it again, as a
node of the main chain that is not an ancestor of the best node. -/
theorem genesis_mismarked :
    let branch := forkBlock :: branchOn (genesisBlock smallEnv) [1, 2, 3, 4]
    let late := branchOn (genesisBlock smallEnv) [10]
    ∃ bc, run smallEnv (Sample.deliveries (branch ++ late)) = some bc ∧ ¬ MarksMainChain bc := by
  intro branch late
  have loaded : (run smallEnv (Sample.deliveries (branch ++ late))).map (fun bc =>
      (bc.index ((genesisBlock smallEnv).hash smallEnv.crypto), (bc.nodes.get 6).inMainChain,
        decide (6 ∈ bc.nodes.lineage bc.bestChain))) = some (some 6, true, false) := by
    decide +kernel
  obtain ⟨bc, ran, loaded⟩ := Option.map_eq_some_iff.mp loaded
  simp only [Prod.mk.injEq] at loaded
  obtain ⟨indexed, onMainChain, notAncestor⟩ := loaded
  refine ⟨bc, ran, fun marks => of_decide_eq_false notAncestor ?_⟩
  exact (marks.inMainChain _ 6 indexed).mp onMainChain

end Blockchain

end DnaPow.Ledger
