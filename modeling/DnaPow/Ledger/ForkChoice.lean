import DnaPow.Ledger.WorkSums

/-!
# Fork choice

As long as no node has to be loaded and no block is rejected, no chain of the tree has
more work behind it than the main chain. A node that is loaded from the store however
starts over with its own work, and the blocks on top of it never catch up.
-/

namespace DnaPow.Ledger

open DnaPow.Std Common Core Action

/-- The work of all blocks of a chain. -/
def totalWork (chain : List Block) : Nat :=
  (chain.map fun block => calcWork block.blockdata.bits).sum

namespace Blockchain

/-- The main chain has at least the work of the chain of every block that was put into the
tree, pruned or not. -/
def HeaviestChain (env : Env) (known : Block → Prop) (bc : Blockchain) : Prop :=
  ∃ main, (blockLinks env).Branch known main ∧
    main.head?.map (Block.hash env.crypto) = bc.bestHash ∧
    ∀ id < bc.nodes.count, ∃ chain, (blockLinks env).Branch known chain ∧
      chain.head?.map (Block.hash env.crypto) = some (bc.nodes.get id).hash ∧
      totalWork chain ≤ totalWork main

/-- No delivery is rejected. -/
def AllAccepted (env : Env) : Blockchain → List Delivery → Prop
  | _, [] => True
  | bc, delivery :: deliveries =>
      ((processBlock env delivery).run bc).1.isOk = true ∧
        ∀ after ∈ deliver env bc delivery, AllAccepted env after deliveries

instance AllAccepted.decidable (env : Env) : ∀ (bc : Blockchain) (deliveries : List Delivery),
    Decidable (AllAccepted env bc deliveries)
  | _, [] => inferInstanceAs (Decidable True)
  | bc, delivery :: deliveries =>
      have := fun after => AllAccepted.decidable env after deliveries
      inferInstanceAs (Decidable (_ ∧ ∀ after ∈ deliver env bc delivery,
        AllAccepted env after deliveries))

/-- The sums of the nodes are those of their chains, and none is larger than that of the
best node. -/
structure Weighed (env : Env) (known : Block → Prop) (bc : Blockchain) : Prop where
  sound : Sound env known bc
  summed : Summed env bc
  weight : ∀ id < bc.nodes.count, ∀ block below,
    (blockLinks env).Branch known (block :: below) →
    (bc.nodes.get id).hash = block.hash env.crypto →
      (bc.nodes.get id).workSum = totalWork (block :: below)
  heaviest : ∀ best ∈ bc.bestChain, ∀ id < bc.nodes.count,
    (bc.nodes.get id).workSum ≤ (bc.nodes.get best).workSum

variable {env : Env} {known : Block → Prop} {bc after : Blockchain} {block : Block}

theorem Weighed.withPool (weighed : Weighed env known bc)
    (pool : PoolOnly (known ·.block) bc after) : Weighed env known after := by
  obtain ⟨⟨chain, invariant⟩, summed, weight, heaviest⟩ := weighed
  have sound : Sound env known after := ⟨chain, invariant.pool pool⟩
  rw [pool.same] at sound ⊢
  exact ⟨sound, ⟨summed.nodes, summed.index, summed.best⟩, weight, heaviest⟩

/-- Nodes with the same hash have the same sum. -/
theorem Weighed.workSum_eq (weighed : Weighed env known bc) {id other : NodeId}
    (bound : id < bc.nodes.count) (bound' : other < bc.nodes.count)
    (same : (bc.nodes.get id).hash = (bc.nodes.get other).hash) :
    (bc.nodes.get id).workSum = (bc.nodes.get other).workSum := by
  obtain ⟨chain, invariant⟩ := weighed.sound
  obtain ⟨block, below, branch, describes⟩ := invariant.tree.described id bound
  rw [weighed.weight id bound block below branch describes.hash,
    weighed.weight other bound' block below branch (same ▸ describes.hash)]

section Process

variable (admissible : Admissible env known)
include admissible

/-- The sum of the new node is that of the chains that end with its hash. -/
theorem Weighed.weight_new (weighed : Weighed env known bc) {parent : NodeId}
    (adds : Adds env block bc after parent) (isKnown : known block) {other : Block}
    {below : List Block} (branch : (blockLinks env).Branch known (other :: below))
    (same : block.hash env.crypto = other.hash env.crypto) :
    (bc.nodes.get parent).workSum + calcWork block.blockdata.bits =
      totalWork (other :: below) := by
  have otherKnown := branch.known_of_mem admissible.genesis _ List.mem_cons_self
  have prev : other.blockdata.prevBlockHash = block.blockdata.prevBlockHash :=
    admissible.faithful.prev_eq _ _ otherKnown isKnown same.symm
  have bits := congrArg Blockdata.bits (admissible.blockdata_eq otherKnown isKnown same.symm)
  obtain ⟨bound, isParent⟩ := weighed.summed.index _ _ adds.found
  cases branch with
  | root =>
    -- no block has the hash that stands for no parent
    obtain ⟨chain, invariant⟩ := weighed.sound
    obtain ⟨tip, rest, tipBranch, describes⟩ := invariant.tree.described parent bound
    refine absurd ?_ (admissible.nonzero tip (tipBranch.known_of_mem admissible.genesis _
      List.mem_cons_self))
    rw [← describes.hash, isParent, ← prev]
    rfl
  | extend rest _ linked _ =>
    have linked : other.blockdata.prevBlockHash = Block.hash env.crypto _ := linked
    rw [weighed.weight parent bound _ _ rest (isParent.trans (prev.symm.trans linked))]
    simp [totalWork, ← bits, Nat.add_comm]

theorem Weighed.maybeAcceptBlock (weighed : Weighed env known bc) (isKnown : known block)
    {pending : List Uint256} (onTerms : memoryTerms.accepting pending bc block) :
    (maybeAcceptBlock env block).Ensures bc (fun _ => Weighed env known) (fun _ => True) := by
  refine ((maybeAcceptBlock_adds weighed.summed onTerms).and
    (maybeAcceptBlock_sound admissible weighed.sound isKnown)).mono (fun _ after ends => ?_)
    (fun _ _ => trivial)
  obtain ⟨⟨middle, parent, adds, remarks, choice⟩, sound⟩ := ends
  obtain ⟨best, isBest⟩ := Option.isSome_iff_exists.mp weighed.summed.best
  have bestBound : best < bc.nodes.count := by
    obtain ⟨chain, invariant⟩ := weighed.sound
    obtain ⟨_, _, isBest', -, bound, -⟩ := invariant.best
    exact Option.some.inj (isBest'.symm.trans isBest) ▸ bound
  obtain ⟨bound, -⟩ := weighed.summed.index _ _ adds.found
  have old := weighed.heaviest best isBest
  refine ⟨sound, remarks.summed adds.summed, fun id idBound other below branch hash => ?_, ?_⟩
  · rw [remarks.count, adds.count] at idBound
    rw [remarks.hash] at hash
    rw [remarks.workSum]
    rcases Nat.lt_succ_iff_lt_or_eq.mp idBound with isOld | rfl
    · rw [(adds.old id isOld).1] at hash
      rw [(adds.old id isOld).2, weighed.weight id isOld other below branch hash]
    · rw [adds.hash] at hash
      rw [adds.workSum, weighed.weight_new admissible adds isKnown branch hash]
  · intro newBest isNewBest id idBound
    rw [remarks.count, adds.count] at idBound
    rw [remarks.workSum, remarks.workSum]
    have heaviest : ∀ id < bc.nodes.count,
        (middle.nodes.get id).workSum ≤ (middle.nodes.get best).workSum := fun id isOld => by
      rw [(adds.old id isOld).2, (adds.old best bestBound).2]
      exact old id isOld
    rcases choice best (adds.bestChain.trans isBest) with ⟨isNew, why⟩ | ⟨stays, lighter⟩
    · obtain rfl := Option.some.inj (isNew.symm.trans isNewBest)
      rcases Nat.lt_succ_iff_lt_or_eq.mp idBound with isOld | rfl
      · refine (heaviest id isOld).trans ?_
        rcases why with ⟨_, link, same⟩ | heavier
        · obtain rfl := Option.some.inj (adds.link.symm.trans link)
          rw [(adds.old parent bound).1, (adds.old best bestBound).1] at same
          rw [(adds.old best bestBound).2, adds.workSum, ← weighed.workSum_eq bound bestBound same]
          exact Nat.le_add_right _ _
        · exact heavier.le
      · exact Nat.le_refl _
    · obtain rfl := Option.some.inj (stays.symm.trans isNewBest)
      rcases Nat.lt_succ_iff_lt_or_eq.mp idBound with isOld | rfl
      · exact heaviest id isOld
      · exact lighter

theorem Weighed.processBlock (weighed : Weighed env known bc) {delivery : Delivery}
    (isKnown : Sane env delivery.block → known delivery.block)
    (meets : StepMeets env memoryTerms bc delivery) :
    (processBlock env delivery).Ensures bc (fun _ => Weighed env known) (fun _ => True) := by
  refine Ends.ensures (@processBlock_ends _ _ _ _ (fun _ => known) (fun _ _ => True) _ ?_ ?_
    (fun _ _ _ _ => trivial) weighed ?_ meets)
  · intro _ bc hash orphan others weighed found _
    have pool : PoolOnly (known ·.block) bc bc := by
      obtain ⟨chain, invariant⟩ := weighed.sound
      exact ⟨rfl, invariant.orphans⟩
    exact ⟨weighed.withPool (pool.withoutOrphan orphan bc.oldestOrphan),
      (weighed.sound.takeOrphan found).2⟩
  · exact fun _ bc block weighed isKnown onTerms =>
      (weighed.maybeAcceptBlock admissible isKnown onTerms).ends
  · intro sane _ _
    obtain ⟨chain, invariant⟩ := weighed.sound
    refine ⟨isKnown sane, fun _ => ?_⟩
    exact (addOrphanBlock_pool invariant.orphans fun orphan same => same ▸ isKnown sane).mono
      (fun _ _ pool => weighed.withPool pool) (fun _ => id)

end Process

theorem Weighed.heaviestChain (weighed : Weighed env known bc) : HeaviestChain env known bc := by
  obtain ⟨chain, invariant⟩ := weighed.sound
  obtain ⟨best, _, isBest, -, bound, -⟩ := invariant.best
  obtain ⟨tip, below, branch, describes⟩ := invariant.tree.described best bound
  refine ⟨tip :: below, branch, by simp [bestHash, isBest, describes.hash], fun id idBound => ?_⟩
  obtain ⟨other, rest, otherBranch, otherDescribes⟩ := invariant.tree.described id idBound
  refine ⟨other :: rest, otherBranch, by simp [otherDescribes.hash], ?_⟩
  rw [← weighed.weight id idBound other rest otherBranch otherDescribes.hash,
    ← weighed.weight best bound tip below branch describes.hash]
  exact weighed.heaviest best isBest id idBound

theorem fresh_weighed (admissible : Admissible env known) : Weighed env known (fresh env) := by
  refine ⟨⟨_, fresh_invariant env known⟩, fresh_summed env, ?_, ?_⟩
  all_goals rw [fresh, newBlockchainWithGenesisBlock_genesis]
  · intro id bound block below branch hash
    obtain rfl := Nat.lt_one_iff.mp bound
    have low := admissible.faithful.height_eq _ _ (branch.known_of_mem admissible.genesis _
      List.mem_cons_self) admissible.genesis hash.symm
    cases branch with
    | root => rfl
    | extend _ _ _ above =>
      rw [above] at low
      cases low
  · intro best isBest id bound
    obtain rfl := Nat.lt_one_iff.mp bound
    obtain rfl : 0 = best := Option.some.inj isBest
    exact Nat.le_refl _

theorem Weighed.run (weighed : Weighed env known bc) (admissible : Admissible env known)
    {deliveries : List Delivery}
    (isKnown : ∀ delivery ∈ deliveries, Sane env delivery.block → known delivery.block)
    (meets : RunMeets env memoryTerms bc deliveries) (accepted : AllAccepted env bc deliveries)
    (ran : deliveries.foldlM (deliver env) bc = some after) : Weighed env known after := by
  induction deliveries generalizing bc with
  | nil => exact Option.some.inj ran ▸ weighed
  | cons delivery deliveries ih =>
    rw [List.foldlM_cons] at ran
    obtain ⟨middle, delivered, rest⟩ := Option.bind_eq_some_iff.mp ran
    refine ih ?_ (fun other member => isKnown other (List.mem_cons_of_mem _ member))
      (meets.2 middle delivered) (accepted.2 middle delivered) rest
    exact of_deliver ((weighed.processBlock admissible (isKnown delivery List.mem_cons_self)
      meets.1).of_isOk accepted.1) delivered

/-- In a run in which no node has to be loaded and no block is rejected, no chain of the tree
has more work than the main chain. -/
theorem heaviestChain_of_run (env : Env) (deliveries : List Delivery) (bc : Blockchain)
    (apart : HashesApart env deliveries) (few : deliveries.length + 1 < 2 ^ 32)
    (meets : RunMeets env memoryTerms (fresh env) deliveries)
    (accepted : AllAccepted env (fresh env) deliveries) (ran : run env deliveries = some bc) :
    HeaviestChain env (Delivered env deliveries) bc := by
  have admissible := admissible_delivered apart few
  refine ((fresh_weighed admissible).run admissible (fun delivery member sane => ?_) meets accepted
    ran).heaviestChain
  exact .inr ⟨⟨delivery, member, rfl⟩, sane⟩

/-- A side chain of two blocks takes over from the chain of the fork block. -/
theorem heaviestChain_fork :
    let deliveries := Sample.deliveries (forkBlock :: branchOn (genesisBlock smallEnv) [1, 2])
    ∃ bc, run smallEnv deliveries = some bc ∧ bc.bestChain = some 3 ∧
      HeaviestChain smallEnv (Delivered smallEnv deliveries) bc := by
  intro deliveries
  have ends : (run smallEnv deliveries).map (·.bestChain) = some (some 3) := by decide +kernel
  obtain ⟨bc, ran, isBest⟩ := Option.map_eq_some_iff.mp ends
  refine ⟨bc, ran, isBest, heaviestChain_of_run smallEnv _ bc ⟨?_, ?_, ?_⟩ ?_ ?_ ?_ ran⟩ <;>
    decide +kernel

/-- The work of a chain of blocks that are equally hard. -/
theorem totalWork_of_branch {deliveries : List Delivery} {chain : List Block} {work : Nat}
    (equally : ∀ delivery ∈ deliveries, calcWork delivery.block.blockdata.bits = work)
    (branch : (blockLinks env).Branch (Delivered env deliveries) chain) :
    ∀ tip ∈ chain.head?, totalWork chain =
      calcWork (genesisBlock env).blockdata.bits + tip.blockdata.height.toNat * work := by
  induction branch with
  | root =>
    rintro _ ⟨⟩
    exact congrArg _ (Nat.zero_mul work).symm
  | @extend item parent _ rest isKnown linked above ih =>
    rintro _ ⟨⟩
    have above : item.blockdata.height.toNat = parent.blockdata.height.toNat + 1 := above
    have below := ih parent rfl
    rcases isKnown with rfl | ⟨⟨delivery, member, rfl⟩, -⟩
    · cases above
    · rw [above, Nat.add_mul, ← Nat.add_assoc, ← below, Nat.one_mul, Nat.add_comm,
        ← equally delivery member]
      rfl

/-- The sample parameters with room for one node of the main chain in memory. -/
def tinyEnv : Env :=
  { Env.sample with chainParam := { Env.sample.chainParam with minMemoryNodes := 1 } }

/-- Two chains on top of the first block. When the longer one arrives, the first block was
pruned, and the sums above the loaded node count its own work only: the longer chain is
overlooked. -/
theorem longerChain_overlooked :
    let first := Sample.block (genesisBlock tinyEnv) [Sample.coinbase 1 0 5000]
    let main := branchOn first [2, 3]
    let late := branchOn first [4, 5, 6]
    let deliveries := Sample.deliveries (first :: main ++ late)
    ∃ bc, run tinyEnv deliveries = some bc ∧ AllAccepted tinyEnv (fresh tinyEnv) deliveries ∧
      bc.index (bc.nodes.get 7).hash = some 7 ∧
      late.getLast?.map (Block.hash tinyEnv.crypto) = some (bc.nodes.get 7).hash ∧
      ¬ HeaviestChain tinyEnv (Delivered tinyEnv deliveries) bc := by
  intro first main late deliveries
  have ends : (run tinyEnv deliveries).map (fun bc => (bc.bestHash, bc.nodes.count,
      bc.index (bc.nodes.get 7).hash, some (bc.nodes.get 7).hash)) =
      some (main.getLast?.map (Block.hash tinyEnv.crypto), 8, some 7,
        late.getLast?.map (Block.hash tinyEnv.crypto)) := by decide +kernel
  obtain ⟨bc, ran, ends⟩ := Option.map_eq_some_iff.mp ends
  simp only [Prod.mk.injEq] at ends
  obtain ⟨best, count, indexed, isLast⟩ := ends
  have weigh {chain : List Block} {last : Option Block} {height : Nat}
      (branch : (blockLinks tinyEnv).Branch (Delivered tinyEnv deliveries) chain)
      (head : chain.head?.map (Block.hash tinyEnv.crypto) = last.map (Block.hash tinyEnv.crypto))
      (heights : ∀ block ∈ genesisBlock tinyEnv :: deliveries.map Delivery.block,
        last.map (Block.hash tinyEnv.crypto) = some (block.hash tinyEnv.crypto) →
          block.blockdata.height.toNat = height) :
      totalWork chain = calcWork (genesisBlock tinyEnv).blockdata.bits + height * 2 := by
    cases chain with
    | nil => cases branch
    | cons tip below =>
        have equally : ∀ delivery ∈ deliveries, calcWork delivery.block.blockdata.bits = 2 := by
          decide +kernel
        rw [totalWork_of_branch equally branch tip rfl, heights tip (Delivered.mem
          (branch.known_of_mem (.inl rfl) tip List.mem_cons_self)) head.symm]
  refine ⟨bc, ran, by decide +kernel, indexed, isLast.symm, ?_⟩
  rintro ⟨chain, branch, head, heavier⟩
  obtain ⟨other, branch', head', atMost⟩ := heavier 7 (by omega)
  rw [@weigh chain main.getLast? 3 branch (head.trans best) (by decide +kernel),
    @weigh other late.getLast? 4 branch' (head'.trans isLast) (by decide +kernel)] at atMost
  omega

end Blockchain

end DnaPow.Ledger
