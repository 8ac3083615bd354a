import DnaPow.Ledger.Refinement
import DnaPow.Ledger.Retarget

/-!
# Pruning and the ancestors of a block

The difficulty required of a block and the median time of the blocks before it
are computed along the parent links in memory. Here they are compared with the
values on the complete branch of the parent. They agree as long as the ancestors
that both functions go back to are in memory; a parent that was forgotten and is
loaded again comes without its ancestors.
-/

namespace DnaPow.Ledger

open DnaPow.Std Common Core Action

/-- The height at which the retarget interval of a node begins. -/
def ChainParams.firstHeight (params : ChainParams) (node : BlockNode) : UInt32 :=
  node.height - params.blocksPerRetarget + 1

/-! ## Ancestors in memory -/

/-- What is set once of the node of a block. -/
def Block.fixedNode (env : Env) (block : Block) : BlockNode :=
  (newBlockNode block.blockdata (block.hash env.crypto)).fixed

namespace Nodes

variable {env : Env}

/-- The nodes of a branch, newest block first, of which nothing was forgotten. The
last node is that of the first block. -/
def complete (env : Env) : List Block → Nodes
  | [] => .empty
  | block :: below =>
      (complete env below).allocate
        ((newBlockNode block.blockdata (block.hash env.crypto)).withParent
          (if below = [] then none else some (below.length - 1)))

/-- What is set once of a node and of its ancestors in memory. -/
def past (nodes : Nodes) (start : Option NodeId) : List BlockNode :=
  (nodes.lineage start).map fun id => (nodes.get id).fixed

theorem count_complete (chain : List Block) : (complete env chain).count = chain.length := by
  induction chain with
  | nil => rfl
  | cons block below ih => rw [complete, count_allocate, ih, List.length_cons]

theorem ordered_complete (chain : List Block) : (complete env chain).Ordered := by
  induction chain with
  | nil => exact fun _ _ link => by cases link
  | cons block below ih =>
    refine ih.allocate fun parent link => ?_
    rw [count_complete]
    cases below with
    | nil => cases link
    | cons next rest =>
      obtain rfl := Option.some.inj link
      exact Nat.lt_succ_self _

theorem past_complete (block : Block) (below : List Block) :
    (complete env (block :: below)).past (some below.length) =
      (block :: below).map (Block.fixedNode env) := by
  induction below generalizing block with
  | nil => rfl
  | cons next rest ih =>
    have ordered := @ordered_complete env (next :: rest)
    have count := @count_complete env (next :: rest)
    have allocated : (next :: rest).length < (complete env (block :: next :: rest)).count := by
      rw [count_complete]
      exact Nat.lt_succ_self _
    have older : rest.length < (complete env (next :: rest)).count := by
      rw [count]
      exact Nat.lt_succ_self _
    have last : (complete env (block :: next :: rest)).get (next :: rest).length =
        (newBlockNode block.blockdata (block.hash env.crypto)).withParent (some rest.length) := by
      rw [complete, ← count, get_allocate_self, count]
      rfl
    have lineage : (complete env (block :: next :: rest)).lineage (some rest.length) =
        (complete env (next :: rest)).lineage (some rest.length) := by
      refine ordered.lineage_allocate ?_ older
      rintro parent link
      obtain rfl := Option.some.inj link
      exact older
    rw [past, (ordered_complete _).lineage_some allocated, List.map_cons, last, List.map_cons,
      ← ih next, past]
    refine congrArg₂ List.cons rfl ?_
    dsimp only [BlockNode.withParent]
    rw [lineage]
    refine List.map_congr_left fun id member => ?_
    have bound := (ordered.le_of_mem_lineage older member).trans_lt older
    rw [complete, get_allocate_of_lt bound]

/-! ## What the two functions read -/

variable {nodes other : Nodes}

/-- The median time depends on the last eleven blocks only. -/
theorem calcPastMedianTime_congr {ε : Type} {start start' : Option NodeId}
    (same : (nodes.past start).take 11 = (other.past start').take 11) :
    nodes.calcPastMedianTime (ε := ε) start = other.calcPastMedianTime start' := by
  have timestamps (nodes : Nodes) (start : Option NodeId) :
      ((nodes.lineage start).take 11).map (fun id => (nodes.get id).timestamp.toNat) =
        ((nodes.past start).take 11).map fun node => node.timestamp.toNat := by
    rw [past, ← List.map_take, List.map_map]
    rfl
  rw [calcPastMedianTime, calcPastMedianTime, timestamps, timestamps, same]

/-- The difficulty after a node, given the first node of its interval. -/
def difficultyAfter (params : ChainParams) (node : BlockNode) (first : Option BlockNode) :
    Outcome DifficultyError UInt32 :=
  if node.height = 0 ∨ params.regNet then .ok params.powLimitBits
  else if params.blocksPerRetarget = 0 then .panic
  else if (node.height + 1) % params.blocksPerRetarget ≠ 0 then .ok node.bits
  else if params.firstHeight node > node.height then .error .noRetargetBlock
  else
    match first with
    | none => .panic
    | some first => .ok (params.retargetBits node.bits (params.adjustedTimespan
        (node.timestamp - first.timestamp).toNat))

/-- The difficulty depends on a node and on the first node of its interval. -/
theorem calcNextRequiredDifficulty_eq (params : ChainParams) (nodes : Nodes) (prev : NodeId) :
    calcNextRequiredDifficulty params nodes prev =
      difficultyAfter params (nodes.get prev).fixed ((nodes.past (some prev)).find?
        (·.height = params.firstHeight (nodes.get prev).fixed)) := by
  have found : (nodes.past (some prev)).find? (·.height = params.firstHeight (nodes.get prev).fixed) =
      ((nodes.lineage (some prev)).find? fun id => (nodes.get id).height =
        (nodes.get prev).height - params.blocksPerRetarget + 1).map
          fun id => (nodes.get id).fixed := List.find?_map ..
  rw [found]
  unfold calcNextRequiredDifficulty difficultyAfter
  dsimp only
  cases (nodes.lineage (some prev)).find? fun id => (nodes.get id).height =
    (nodes.get prev).height - params.blocksPerRetarget + 1 <;> rfl

/-- The ancestors that both functions go back to are in memory: all of them, or as
many as a retarget interval has and eleven. -/
def Covers (params : ChainParams) (nodes : Nodes) (prev : NodeId) : Prop :=
  (∃ id ∈ nodes.lineage (some prev), (nodes.get id).height = 0) ∨
    11 ≤ (nodes.lineage (some prev)).length ∧
      params.blocksPerRetarget.toNat ≤ (nodes.lineage (some prev)).length

instance (params : ChainParams) (nodes : Nodes) (prev : NodeId) :
    Decidable (nodes.Covers params prev) :=
  inferInstanceAs (Decidable (_ ∨ _))

end Nodes

/-! ## The branch of a node -/

/-- A list whose keys begin another one, when equal keys have equal values. -/
theorem map_prefix_map {α β κ ν : Type} {key : α → κ} {key' : β → κ} {value : α → ν}
    {value' : β → ν} {items : List α} {others : List β}
    (keys : items.map key <+: others.map key')
    (determined : ∀ item ∈ items, ∀ other ∈ others, key item = key' other →
      value item = value' other) : items.map value <+: others.map value' := by
  induction items generalizing others with
  | nil => exact List.nil_prefix
  | cons item items ih =>
    cases others with
    | nil => simp at keys
    | cons other others =>
      obtain ⟨same, rest⟩ := List.cons_prefix_cons.mp keys
      refine List.cons_prefix_cons.mpr ⟨determined _ (by simp) _ (by simp) same, ih rest ?_⟩
      intro item member other member'
      exact determined item (by simp [member]) other (by simp [member'])

variable {env : Env} {known : Block → Prop} {nodes : Nodes} {index : Uint256 → Option NodeId}
  {depNodes : Uint256 → List NodeId} {id : NodeId} {tip : Block} {below : List Block}

/-- A retarget interval that ends at a height begins where one expects. -/
theorem firstHeight_toNat {height interval : UInt32} (nonzero : interval ≠ 0)
    (due : (height + 1) % interval = 0) (bound : height.toNat + 1 < 2 ^ 32) :
    interval.toNat ≤ height.toNat + 1 ∧
      (height - interval + 1).toNat + interval.toNat = height.toNat + 1 := by
  have divides := congrArg UInt32.toNat due
  have bound' := interval.toNat_lt
  simp only [UInt32.toNat_mod, UInt32.toNat_add, UInt32.reduceToNat] at divides
  rw [Nat.mod_eq_of_lt bound] at divides
  have short := Nat.le_of_dvd (Nat.succ_pos _) (Nat.dvd_of_mod_eq_zero divides)
  have positive : interval.toNat ≠ 0 := fun zero => nonzero (UInt32.toNat_inj.mp zero)
  simp only [UInt32.toNat_add, UInt32.toNat_sub, UInt32.reduceToNat]
  omega

section Branch

variable (tree : Tree env known nodes index depNodes) (admissible : Admissible env known)
  (allocated : id < nodes.count) (branch : (blockLinks env).Branch known (tip :: below))
  (hash : (nodes.get id).hash = tip.hash env.crypto)
include tree admissible allocated branch hash

variable {params : ChainParams}

/-- The ancestors in memory, with all that is set once, begin the branch. -/
theorem Tree.past_prefix :
    nodes.past (some id) <+: (tip :: below).map (Block.fixedNode env) := by
  refine map_prefix_map (tree.lineage_prefix admissible allocated branch hash) ?_
  intro ancestor member block member' same
  have inMemory : ∀ ancestor ∈ nodes.lineage (some id), ancestor < nodes.count :=
    tree.lt_of_mem_lineage (by simpa using allocated)
  obtain ⟨other, _, branch', describes⟩ := tree.described ancestor (inMemory ancestor member)
  have isKnown := branch.known_of_mem admissible.genesis _ member'
  have isKnown' := branch'.known_of_mem admissible.genesis _ List.mem_cons_self
  have sameHash := describes.hash.symm.trans same
  have header := admissible.blockdata_eq isKnown' isKnown sameHash
  rw [describes, Block.fixedNode, ← header, sameHash]
  rfl

/-- The block of an ancestor in memory, and how high it is. -/
theorem Tree.block_of_past {place : Nat} (bound : place < (nodes.past (some id)).length) :
    ∃ block ∈ tip :: below, (nodes.past (some id)).get ⟨place, bound⟩ = block.fixedNode env ∧
      block.blockdata.height.toNat + place + 1 = (tip :: below).length := by
  have begins := tree.past_prefix admissible allocated branch hash
  have inBranch : place < (tip :: below).length := by
    simpa using bound.trans_le begins.length_le
  have found := List.getElem?_eq_getElem inBranch
  refine ⟨_, List.getElem_mem inBranch, ?_, branch.height_add_eq_length rfl found⟩
  rw [List.get_eq_getElem, begins.getElem bound, List.getElem_map]

/-- The ancestors in memory are all there are, or enough. -/
theorem Tree.past_eq_or_le (covers : nodes.Covers params id) :
    nodes.past (some id) = (tip :: below).map (Block.fixedNode env) ∨
      11 ≤ (nodes.past (some id)).length ∧
        params.blocksPerRetarget.toNat ≤ (nodes.past (some id)).length := by
  have begins := tree.past_prefix admissible allocated branch hash
  rcases covers with ⟨ancestor, member, isGenesis⟩ | enough
  · left
    have inPast : (nodes.get ancestor).fixed ∈ nodes.past (some id) := List.mem_map_of_mem member
    obtain ⟨place, bound, same⟩ := List.getElem_of_mem inPast
    obtain ⟨block, -, found, length⟩ := tree.block_of_past admissible allocated branch hash bound
    rw [List.get_eq_getElem, same] at found
    have height : block.blockdata.height = 0 := (congrArg BlockNode.height found).symm.trans isGenesis
    refine begins.eq_of_length_le ?_
    rw [height, UInt32.toNat_zero, Nat.zero_add] at length
    rw [List.length_map, ← length]
    exact bound
  · right
    simpa only [Nodes.past, List.length_map] using enough

/-- The last eleven ancestors are the last eleven of the branch. -/
theorem Tree.past_take (covers : nodes.Covers params id) :
    (nodes.past (some id)).take 11 = ((tip :: below).map (Block.fixedNode env)).take 11 := by
  rcases tree.past_eq_or_le admissible allocated branch hash covers with all | ⟨enough, -⟩
  · rw [all]
  · obtain ⟨rest, split⟩ := tree.past_prefix admissible allocated branch hash
    rw [← split, List.take_append_of_le_length enough]

/-- The first block of a retarget interval is found in memory. -/
theorem Tree.past_find? (covers : nodes.Covers params id) (interval : params.blocksPerRetarget ≠ 0)
    (due : (tip.blockdata.height + 1) % params.blocksPerRetarget = 0) :
    ∃ first, (nodes.past (some id)).find?
        (·.height = params.firstHeight (tip.fixedNode env)) = some first ∧
      ((tip :: below).map (Block.fixedNode env)).find?
        (·.height = params.firstHeight (tip.fixedNode env)) = some first := by
  have begins := tree.past_prefix admissible allocated branch hash
  have length : tip.blockdata.height.toNat + 1 = (tip :: below).length :=
    branch.height_eq_length rfl tip rfl
  obtain ⟨short, first⟩ := firstHeight_toNat interval due
    (length ▸ admissible.bounded _ branch)
  have positive : params.blocksPerRetarget.toNat ≠ 0 := fun zero =>
    interval (UInt32.toNat_inj.mp zero)
  have bound : params.blocksPerRetarget.toNat - 1 < (nodes.past (some id)).length := by
    rcases tree.past_eq_or_le admissible allocated branch hash covers with all | ⟨-, enough⟩
    · rw [all, List.length_map, ← length]
      omega
    · omega
  obtain ⟨block, -, found, place⟩ := tree.block_of_past admissible allocated branch hash bound
  have height : block.blockdata.height = params.firstHeight (tip.fixedNode env) := by
    have sameHeight : block.blockdata.height.toNat =
        (tip.blockdata.height - params.blocksPerRetarget + 1).toNat := by omega
    exact UInt32.toNat_inj.mp sameHeight
  have isSome : ((nodes.past (some id)).find?
      (·.height = params.firstHeight (tip.fixedNode env))).isSome := by
    rw [List.find?_isSome]
    exact ⟨_, List.get_mem _ _, by rw [found]; exact decide_eq_true height⟩
  obtain ⟨node, isFirst⟩ := Option.isSome_iff_exists.mp isSome
  exact ⟨node, isFirst, begins.find?_eq_some isFirst⟩

end Branch

/-- What is computed from the ancestors in memory is what the complete branch gives,
and no node is missing. -/
structure ExactAncestors (env : Env) (nodes : Nodes) (prev : NodeId) (tip : Block)
    (below : List Block) : Prop where
  difficulty : calcNextRequiredDifficulty env.chainParam nodes prev =
    calcNextRequiredDifficulty env.chainParam (.complete env (tip :: below)) below.length
  difficulty_returns : calcNextRequiredDifficulty env.chainParam nodes prev ≠ .panic
  median : nodes.calcPastMedianTime (ε := BlockError) (some prev) =
    (Nodes.complete env (tip :: below)).calcPastMedianTime (some below.length)
  median_returns : nodes.calcPastMedianTime (ε := BlockError) (some prev) ≠ .panic

theorem Nodes.calcPastMedianTime_ne_panic {ε : Type} {nodes : Nodes} {start : Option NodeId}
    (someone : nodes.past start ≠ []) : nodes.calcPastMedianTime (ε := ε) start ≠ .panic := by
  have positive : 0 < ((nodes.lineage start).take 11).length := by
    rw [List.length_take, Nat.lt_min]
    refine ⟨by decide, List.length_pos_of_ne_nil fun nobody => someone ?_⟩
    rw [past, nobody, List.map_nil]
  unfold calcPastMedianTime medianOf
  rw [List.getElem?_eq_getElem]
  · exact nofun
  · rw [List.length_insertionSort, List.length_map]
    exact Nat.div_lt_self positive (by decide)

/-- The difficulty after a node whose interval begins at a known node. -/
theorem Nodes.difficultyAfter_ne_panic {params : ChainParams} {node : BlockNode}
    {first : Option BlockNode} (interval : params.blocksPerRetarget ≠ 0)
    (begins : (node.height + 1) % params.blocksPerRetarget = 0 → first.isSome) :
    difficultyAfter params node first ≠ .panic := by
  unfold difficultyAfter
  split_ifs with _ due
  · exact nofun
  · exact nofun
  · exact nofun
  · obtain ⟨node, rfl⟩ := Option.isSome_iff_exists.mp (begins (not_not.mp due))
    exact nofun

theorem Tree.exactAncestors (tree : Tree env known nodes index depNodes)
    (admissible : Admissible env known) (allocated : id < nodes.count)
    (branch : (blockLinks env).Branch known (tip :: below))
    (hash : (nodes.get id).hash = tip.hash env.crypto)
    (covers : nodes.Covers env.chainParam id)
    (interval : env.chainParam.blocksPerRetarget ≠ 0) :
    ExactAncestors env nodes id tip below := by
  have whole := @Nodes.past_complete env tip below
  obtain ⟨fuel, count⟩ := Nat.exists_eq_add_one_of_ne_zero (Nat.ne_zero_of_lt allocated)
  have nonempty : nodes.past (some id) = (nodes.get id).fixed ::
      (nodes.follow fuel (nodes.get id).parent).map fun id => (nodes.get id).fixed := by
    rw [Nodes.past, Nodes.lineage, count, Nodes.follow, List.map_cons]
  have same : (nodes.get id).fixed = tip.fixedNode env := by
    have begins := tree.past_prefix admissible allocated branch hash
    rw [nonempty] at begins
    exact (List.cons_prefix_cons.mp begins).1
  have last : ((Nodes.complete env (tip :: below)).get below.length).fixed = tip.fixedNode env := by
    rw [Nodes.complete, ← @Nodes.count_complete env below, Nodes.get_allocate_self]
    rfl
  have found (due : (tip.blockdata.height + 1) % env.chainParam.blocksPerRetarget = 0) :=
    tree.past_find? admissible allocated branch hash covers interval due
  refine ⟨?_, ?_, ?_, ?_⟩
  · rw [Nodes.calcNextRequiredDifficulty_eq, Nodes.calcNextRequiredDifficulty_eq, same, last, whole]
    by_cases due : (tip.blockdata.height + 1) % env.chainParam.blocksPerRetarget = 0
    · obtain ⟨first, inMemory, inBranch⟩ := found due
      rw [inMemory, inBranch]
    · have due : ((tip.fixedNode env).height + 1) % env.chainParam.blocksPerRetarget ≠ 0 := due
      simp only [Nodes.difficultyAfter, if_pos due]
  · rw [Nodes.calcNextRequiredDifficulty_eq, same]
    refine Nodes.difficultyAfter_ne_panic interval fun due => ?_
    obtain ⟨first, inMemory, -⟩ := found due
    rw [inMemory]
    rfl
  · refine Nodes.calcPastMedianTime_congr ?_
    rw [whole]
    exact tree.past_take admissible allocated branch hash covers
  · exact Nodes.calcPastMedianTime_ne_panic (by rw [nonempty]; exact List.cons_ne_nil _ _)

namespace Blockchain

/-- What is claimed of a block that is offered to `maybeAcceptBlock`: if its parent
can be delivered with enough of its ancestors, all is computed as on the complete
branch of the parent. -/
def AncestorsExact (env : Env) (known : Block → Prop) (bc : Blockchain) (block : Block) : Prop :=
  ∀ prev after, (getPrevNodeFromBlock block).run bc = (.ok (some prev), after) →
    after.nodes.Covers env.chainParam prev →
    (∃ tip below, (blockLinks env).Branch known (tip :: below) ∧
      tip.hash env.crypto = block.blockdata.prevBlockHash) ∧
    ∀ tip below, (blockLinks env).Branch known (tip :: below) →
      tip.hash env.crypto = block.blockdata.prevBlockHash →
        ExactAncestors env after.nodes prev tip below

theorem ancestorsExact_of_sound (admissible : Admissible env known)
    (interval : env.chainParam.blocksPerRetarget ≠ 0) {bc : Blockchain}
    (sound : Sound env known bc) (block : Block) : AncestorsExact env known bc block := by
  intro prev after delivered covers
  obtain ⟨chain, invariant⟩ := sound
  have found := getPrevNodeFromBlock_isNode (invariant.mainChain.branch admissible)
    (invariant.mainChain.represents admissible) (.refl invariant.tree) block
  rw [Ensures, delivered] at found
  obtain ⟨inOrder, isNode⟩ := found
  obtain ⟨tip, below, branch, describes⟩ := inOrder.tree.described prev isNode.allocated
  refine ⟨⟨tip, below, branch, describes.hash.symm.trans isNode.hash⟩, ?_⟩
  intro tip below branch hash
  exact inOrder.tree.exactAncestors admissible isNode.allocated branch
    (isNode.hash.trans hash.symm) covers interval

/-- At every call of `maybeAcceptBlock`. -/
def ancestorTerms (env : Env) (known : Block → Prop) : Terms where
  accepting _ bc block := AncestorsExact env known bc block
  shelving _ _ := True

/-- A predecessor that was found and passes a test. -/
theorem exists_delivered {call : Outcome LedgerError (Option NodeId) × Blockchain}
    {test : NodeId → Bool} (passed : call.1.toOption.join.any test = true) :
    ∃ prev after, call = (.ok (some prev), after) ∧ test prev = true := by
  obtain ⟨result, after⟩ := call
  cases result with
  | ok found =>
    cases found with
    | none => cases passed
    | some prev => exact ⟨prev, after, rfl, passed⟩
  | error reason => cases passed
  | panic => cases passed

/-- A node that retargets every second block, never changes the target, and keeps as
few nodes as are asked for. -/
def shortMemory : Env :=
  { Env.sample with
    chainParam := { Ledger.regNet with
      regNet := false, targetTimespan := 2, targetTimePerBlock := 1, adjustmentFactor := 1
      minMemoryNodes := 13 } }

/-- Blocks on top of the genesis block, oldest first. -/
def tower (count : Nat) : List Block :=
  (List.range count).foldl (fun blocks tag => blocks ++ [Sample.block
    (blocks.getLastD (genesisBlock shortMemory))
    [Sample.coinbase (UInt8.ofNat tag) 0x80000000 5000]]) []

/-- A second block on top of the first one of the tower. -/
def lateBlock : Block :=
  Sample.block (Sample.block (genesisBlock shortMemory) [Sample.coinbase 0 0x80000000 5000])
    [Sample.coinbase 99 0x80000000 5000]

end Blockchain

end DnaPow.Ledger
