import DnaPow.Ledger.Lineage

/-!
# The tree under one root

The shape of the in-memory tree and the marks on its nodes, and how they change when
a node is added, moved between the main chain and a side chain, or when the root is
removed. Everything here is about nodes and maps; the calls come later.
-/

namespace DnaPow.Ledger

open DnaPow.Std Common Core

/-- The node is the one that is found under its hash. -/
def InIndex (nodes : Nodes) (index : Uint256 → Option NodeId) (id : NodeId) : Prop :=
  index (nodes.get id).hash = some id

/-- The indexed nodes form a tree under one root, linked both ways. -/
structure RootedTree (nodes : Nodes) (index : Uint256 → Option NodeId) (root : NodeId) :
    Prop where
  ordered : nodes.Ordered
  found : ∀ hash id, index hash = some id → id < nodes.count ∧ (nodes.get id).hash = hash
  rootIndexed : InIndex nodes index root
  rootParent : (nodes.get root).parent = none
  linked : ∀ id, InIndex nodes index id → id ≠ root → ∃ parent,
    (nodes.get id).parent = some parent ∧ InIndex nodes index parent ∧
      id ∈ (nodes.get parent).children
  children : ∀ id, InIndex nodes index id → ∀ child ∈ (nodes.get id).children,
    child < nodes.count ∧ (nodes.get child).parent = some id

/-- The marks on the indexed nodes: those of the best chain are on the main chain, and
the blocks of all others are in the cache. -/
structure Marked (nodes : Nodes) (index : Uint256 → Option NodeId)
    (cache : Uint256 → Option Block) (best : NodeId) : Prop where
  bestIndexed : InIndex nodes index best
  marked : ∀ id, InIndex nodes index id →
    ((nodes.get id).inMainChain = true ↔ id ∈ nodes.lineage (some best))
  cached : ∀ id, InIndex nodes index id →
    ((cache (nodes.get id).hash).isSome ↔ (nodes.get id).inMainChain = false)
  kept : ∀ hash, (cache hash).isSome → (index hash).isSome

variable {nodes after : Nodes} {index : Uint256 → Option NodeId}
  {cache : Uint256 → Option Block} {root best id : NodeId}

theorem InIndex.eq_of_hash {other : NodeId} (indexed : InIndex nodes index id)
    (indexed' : InIndex nodes index other) (same : (nodes.get id).hash = (nodes.get other).hash) :
    id = other := by
  unfold InIndex at indexed indexed'
  rw [same, indexed'] at indexed
  exact (Option.some.inj indexed).symm

namespace RootedTree

section Facts

variable (tree : RootedTree nodes index root)
include tree

theorem allocated (indexed : InIndex nodes index id) : id < nodes.count :=
  (tree.found _ id indexed).1

theorem indexed_of_found {hash : Uint256} (entry : index hash = some id) :
    InIndex nodes index id := by
  rw [InIndex, (tree.found hash id entry).2, entry]

theorem parent_indexed (indexed : InIndex nodes index id) {parent : NodeId}
    (link : (nodes.get id).parent = some parent) :
    InIndex nodes index parent ∧ id ∈ (nodes.get parent).children := by
  have notRoot : id ≠ root := by
    rintro rfl
    rw [tree.rootParent] at link
    cases link
  obtain ⟨other, link', indexed', child⟩ := tree.linked id indexed notRoot
  obtain rfl := Option.some.inj (link'.symm.trans link)
  exact ⟨indexed', child⟩

theorem indexed_of_mem_lineage (indexed : InIndex nodes index id) {other : NodeId}
    (member : other ∈ nodes.lineage (some id)) : InIndex nodes index other := by
  induction id using tree.ordered.induction with
  | first id link =>
    rcases (tree.ordered.mem_lineage (tree.allocated indexed)).mp member with rfl | above
    · exact indexed
    · simp [link] at above
  | later id parent link ih =>
    rcases (tree.ordered.mem_lineage (tree.allocated indexed)).mp member with rfl | above
    · exact indexed
    · exact ih (tree.parent_indexed indexed link).1 (link ▸ above)

/-- Following the parents ends at the root. -/
theorem root_mem_lineage (indexed : InIndex nodes index id) :
    root ∈ nodes.lineage (some id) := by
  induction id using tree.ordered.induction with
  | first id link =>
    have isRoot : id = root := by
      by_contra notRoot
      obtain ⟨parent, link', -⟩ := tree.linked id indexed notRoot
      rw [link] at link'
      cases link'
    exact (tree.ordered.mem_lineage (tree.allocated indexed)).mpr (.inl isRoot.symm)
  | later id parent link ih =>
    refine (tree.ordered.mem_lineage (tree.allocated indexed)).mpr (.inr ?_)
    rw [link]
    exact ih (tree.parent_indexed indexed link).1

end Facts

/-- Only links, hashes and children matter. -/
theorem congr (tree : RootedTree nodes index root) (count : after.count = nodes.count)
    (parent : ∀ id, (after.get id).parent = (nodes.get id).parent)
    (hash : ∀ id, (after.get id).hash = (nodes.get id).hash)
    (children : ∀ id, (after.get id).children = (nodes.get id).children) :
    RootedTree after index root := by
  constructor
  · intro id
    rw [parent]
    exact tree.ordered id
  · intro key id
    rw [count, hash]
    exact tree.found key id
  · rw [InIndex, hash]
    exact tree.rootIndexed
  · rw [parent]
    exact tree.rootParent
  · simp only [InIndex, hash, parent, children]
    exact tree.linked
  · simp only [InIndex, hash, parent, children, count]
    exact tree.children

theorem indexed_allocate (tree : RootedTree nodes index root) {node : BlockNode} :
    InIndex (nodes.allocate node) index id ↔ InIndex nodes index id := by
  by_cases bound : id < nodes.count
  · rw [InIndex, InIndex, Nodes.get_allocate_of_lt bound]
  · constructor
    · intro entry
      exact absurd (tree.found _ id entry).1 bound
    · intro entry
      exact absurd (tree.allocated entry) bound

theorem allocate (tree : RootedTree nodes index root) {node : BlockNode}
    (older : ∀ parent ∈ node.parent, parent < nodes.count) :
    RootedTree (nodes.allocate node) index root := by
  have old {id : NodeId} (indexed : InIndex nodes index id) :
      (nodes.allocate node).get id = nodes.get id :=
    Nodes.get_allocate_of_lt (tree.allocated indexed)
  refine ⟨tree.ordered.allocate older, fun hash id entry => ?_, ?_, ?_, fun id indexed notRoot => ?_,
    fun id indexed child member => ?_⟩
  · obtain ⟨bound, same⟩ := tree.found hash id entry
    rw [Nodes.get_allocate_of_lt bound]
    exact ⟨Nat.lt_succ_of_lt bound, same⟩
  · exact tree.indexed_allocate.mpr tree.rootIndexed
  · rw [old tree.rootIndexed]
    exact tree.rootParent
  · have indexed := tree.indexed_allocate.mp indexed
    obtain ⟨parent, link, parentIndexed, child⟩ := tree.linked id indexed notRoot
    refine ⟨parent, ?_, tree.indexed_allocate.mpr parentIndexed, ?_⟩
    · rw [old indexed, link]
    · rw [old parentIndexed]
      exact child
  · have indexed := tree.indexed_allocate.mp indexed
    rw [old indexed] at member
    obtain ⟨bound, link⟩ := tree.children id indexed child member
    rw [Nodes.get_allocate_of_lt bound]
    exact ⟨Nat.lt_succ_of_lt bound, link⟩

/-- Other entries of the index do not change when a node is added under a new hash. -/
theorem indexed_update (unused : index (nodes.get id).hash = none) {other : NodeId} :
    InIndex nodes (Function.update index (nodes.get id).hash (some id)) other ↔
      other = id ∨ InIndex nodes index other := by
  unfold InIndex
  rw [Function.update_apply]
  split
  · next same =>
    rw [same, unused]
    simp [eq_comm]
  · next differs =>
    constructor
    · exact .inr
    · rintro (rfl | indexed)
      · exact absurd rfl differs
      · exact indexed

/-- A leaf is added below an indexed node. -/
theorem addLeaf (tree : RootedTree nodes index root) {parent : NodeId}
    (bound : id < nodes.count) (unused : index (nodes.get id).hash = none)
    (link : (nodes.get id).parent = some parent) (parentIndexed : InIndex nodes index parent)
    (leaf : (nodes.get id).children = []) :
    RootedTree (nodes.modify parent (.withChild id))
      (Function.update index (nodes.get id).hash (some id)) root := by
  have indexed_iff (other : NodeId) : InIndex (nodes.modify parent (.withChild id))
      (Function.update index (nodes.get id).hash (some id)) other ↔
        other = id ∨ InIndex nodes index other := by
    rw [← indexed_update unused, InIndex, InIndex, Nodes.hash_withChild]
  refine ⟨fun other above => ?_, fun hash other entry => ?_, (indexed_iff root).mpr
    (.inr tree.rootIndexed), ?_, fun other indexed notRoot => ?_, fun other indexed child member => ?_⟩
  · rw [Nodes.parent_withChild]
    exact tree.ordered other above
  · rw [Nodes.hash_withChild]
    rw [Function.update_apply] at entry
    split at entry
    · next same =>
      obtain rfl := Option.some.inj entry
      exact ⟨bound, same.symm⟩
    · exact tree.found hash other entry
  · rw [Nodes.parent_withChild]
    exact tree.rootParent
  · simp only [Nodes.parent_withChild, indexed_iff, Nodes.mem_children_withChild] at indexed ⊢
    rcases indexed with rfl | old
    · exact ⟨parent, link, .inr parentIndexed, .inr ⟨rfl, rfl⟩⟩
    · obtain ⟨above, link', indexed', child⟩ := tree.linked other old notRoot
      exact ⟨above, link', .inr indexed', .inl child⟩
  · simp only [Nodes.parent_withChild, indexed_iff, Nodes.mem_children_withChild] at indexed member ⊢
    rcases member with member | ⟨rfl, rfl⟩
    · rcases indexed with rfl | old
      · rw [leaf] at member
        cases member
      · exact tree.children other old child member
    · exact ⟨bound, link⟩

/-! ## Removing the root -/

section RemoveRoot

variable (tree : RootedTree nodes index root) (bestIndexed : InIndex nodes index best)
  {next : NodeId} (member : next ∈ nodes.lineage (some best))
  (link : (nodes.get next).parent = some root)
  (onlyBest : ∀ child ∈ (nodes.get root).children, child ∈ nodes.lineage (some best))
include tree bestIndexed member link onlyBest

/-- The only child of the root is the next node of the best chain. -/
theorem mem_children_root {child : NodeId} : child ∈ (nodes.get root).children ↔ child = next := by
  constructor
  · intro isChild
    exact tree.ordered.eq_of_parent_eq (tree.allocated bestIndexed) (onlyBest child isChild) member
      (tree.children root tree.rootIndexed child isChild).2 link
  · rintro rfl
    exact (tree.parent_indexed (tree.indexed_of_mem_lineage bestIndexed member) link).2

theorem get_unlinkRoot (id : NodeId) :
    (nodes.unlinkChildren root).get id =
      { nodes.get id with
        parent := if id = next then none else (nodes.get id).parent
        children := if id = root then [] else (nodes.get id).children } := by
  rw [Nodes.get_unlinkChildren]
  simp only [tree.mem_children_root bestIndexed member link onlyBest]

omit bestIndexed member link onlyBest in
theorem indexed_removeRoot {other : NodeId} :
    InIndex (nodes.unlinkChildren root) (Function.update index (nodes.get root).hash none) other ↔
      InIndex nodes index other ∧ other ≠ root := by
  have sameHash : ((nodes.unlinkChildren root).get other).hash = (nodes.get other).hash := by
    rw [Nodes.get_unlinkChildren]
  rw [InIndex, sameHash, Function.update_apply]
  split
  · next same =>
    simp only [reduceCtorEq, false_iff, not_and, not_not]
    intro indexed
    exact indexed.eq_of_hash tree.rootIndexed same
  · next differs =>
    refine ⟨fun indexed => ⟨indexed, ?_⟩, And.left⟩
    rintro rfl
    exact differs rfl

theorem ordered_removeRoot : (nodes.unlinkChildren root).Ordered := by
  intro id parent isParent
  rw [tree.get_unlinkRoot bestIndexed member link onlyBest] at isParent
  simp only at isParent
  split at isParent
  · cases isParent
  · exact tree.ordered id parent isParent

/-- The best chain loses the root and nothing else. -/
theorem mem_lineage_removeRoot {other : NodeId} :
    other ∈ (nodes.unlinkChildren root).lineage (some best) ↔
      other ∈ nodes.lineage (some best) ∧ other ≠ root := by
  have ordered' := tree.ordered_removeRoot bestIndexed member link onlyBest
  have get := tree.get_unlinkRoot bestIndexed member link onlyBest
  have count : (nodes.unlinkChildren root).count = nodes.count :=
    (Nodes.Retains.unlinkChildren nodes root).count
  have olderRoot := tree.ordered next root link
  have descend : ∀ top, next ∈ nodes.lineage (some top) → top < nodes.count →
      (other ∈ (nodes.unlinkChildren root).lineage (some top) ↔
        other ∈ nodes.lineage (some top) ∧ other ≠ root) := by
    intro top
    induction top using tree.ordered.induction with
    | first top noParent =>
      intro above bound
      rcases (tree.ordered.mem_lineage bound).mp above with rfl | higher
      · rw [noParent] at link
        cases link
      · simp [noParent] at higher
    | later top parent isParent ih =>
      intro above bound
      have bound' : top < (nodes.unlinkChildren root).count := count ▸ bound
      rw [ordered'.mem_lineage bound', tree.ordered.mem_lineage bound, get]
      by_cases atNext : top = next
      · -- below the next node there was the root only
        obtain rfl := atNext
        rw [link, tree.ordered.mem_lineage (olderRoot.trans bound), tree.rootParent]
        simp only [if_true, Nodes.lineage_none, List.not_mem_nil, or_false]
        constructor
        · rintro rfl
          exact ⟨.inl rfl, Nat.ne_of_gt olderRoot⟩
        · rintro ⟨rfl | rfl, notRoot⟩
          · rfl
          · exact absurd rfl notRoot
      · have higher : next ∈ nodes.lineage (some parent) := by
          rcases (tree.ordered.mem_lineage bound).mp above with rfl | higher
          · exact absurd rfl atNext
          · exact isParent ▸ higher
        have parentBound := (tree.ordered top parent isParent).trans bound
        have notRoot : top ≠ root := by
          have older := tree.ordered top parent isParent
          have le := tree.ordered.le_of_mem_lineage parentBound higher
          exact Nat.ne_of_gt (olderRoot.trans_le (le.trans (Nat.le_of_lt older)))
        simp only [if_neg atNext, isParent, ih higher parentBound]
        constructor
        · rintro (rfl | ⟨below, differs⟩)
          · exact ⟨.inl rfl, notRoot⟩
          · exact ⟨.inr below, differs⟩
        · rintro ⟨rfl | below, differs⟩
          · exact .inl rfl
          · exact .inr ⟨below, differs⟩
  exact descend best member (tree.allocated bestIndexed)

/-- The next node of the best chain becomes the root. -/
theorem removeRoot :
    RootedTree (nodes.unlinkChildren root) (Function.update index (nodes.get root).hash none)
      next := by
  have get := tree.get_unlinkRoot bestIndexed member link onlyBest
  have childOfRoot {child : NodeId} (isChild : child ∈ (nodes.get root).children) : child = next :=
    (tree.mem_children_root bestIndexed member link onlyBest).mp isChild
  have count : (nodes.unlinkChildren root).count = nodes.count :=
    (Nodes.Retains.unlinkChildren nodes root).count
  have nextIndexed := tree.indexed_of_mem_lineage bestIndexed member
  refine ⟨tree.ordered_removeRoot bestIndexed member link onlyBest, fun hash id entry => ?_,
    tree.indexed_removeRoot.mpr ⟨nextIndexed, Nat.ne_of_gt (tree.ordered next root link)⟩, ?_,
    fun id indexed notNext => ?_, fun id indexed child isChild => ?_⟩
  · rw [Function.update_apply] at entry
    split at entry
    · cases entry
    · rw [count, get]
      exact tree.found hash id entry
  · rw [get]
    simp
  · obtain ⟨indexed, notRoot⟩ := tree.indexed_removeRoot.mp indexed
    obtain ⟨parent, isParent, parentIndexed, isChild⟩ := tree.linked id indexed notRoot
    have parentNotRoot : parent ≠ root := by
      rintro rfl
      exact notNext (childOfRoot isChild)
    refine ⟨parent, ?_, tree.indexed_removeRoot.mpr ⟨parentIndexed, parentNotRoot⟩, ?_⟩
    · rw [get]
      simpa [notNext] using isParent
    · rw [get]
      simpa [parentNotRoot] using isChild
  · obtain ⟨indexed, notRoot⟩ := tree.indexed_removeRoot.mp indexed
    have isChild : child ∈ (nodes.get id).children := by
      rw [get] at isChild
      simpa [notRoot] using isChild
    obtain ⟨bound, isParent⟩ := tree.children id indexed child isChild
    have notNext : child ≠ next := by
      rintro rfl
      exact notRoot (Option.some.inj (isParent.symm.trans link))
    rw [count, get]
    exact ⟨bound, by simpa [notNext] using isParent⟩

end RemoveRoot

end RootedTree

/-! ## Marks -/

namespace Marked

variable (marks : Marked nodes index cache best)

section Facts

include marks

/-- A node on a side chain has its block in the cache. -/
theorem isSome_of_not_marked (indexed : InIndex nodes index id)
    (off : (nodes.get id).inMainChain = false) : (cache (nodes.get id).hash).isSome :=
  (marks.cached id indexed).mpr off

theorem cache_eq_none {hash : Uint256} (unused : index hash = none) : cache hash = none := by
  by_contra entry
  have indexed := marks.kept hash (Option.isSome_iff_ne_none.mpr entry)
  rw [unused] at indexed
  cases indexed

theorem allocate {root : NodeId} (tree : RootedTree nodes index root) {node : BlockNode}
    (older : ∀ parent ∈ node.parent, parent < nodes.count) :
    Marked (nodes.allocate node) index cache best := by
  have old {id : NodeId} (indexed : InIndex nodes index id) :
      (nodes.allocate node).get id = nodes.get id :=
    Nodes.get_allocate_of_lt (tree.allocated indexed)
  refine ⟨tree.indexed_allocate.mpr marks.bestIndexed, fun id indexed => ?_, fun id indexed => ?_,
    marks.kept⟩
  · have indexed := tree.indexed_allocate.mp indexed
    rw [old indexed, tree.ordered.lineage_allocate older (tree.allocated marks.bestIndexed)]
    exact marks.marked id indexed
  · have indexed := tree.indexed_allocate.mp indexed
    rw [old indexed]
    exact marks.cached id indexed

theorem removeRoot {root next : NodeId} (tree : RootedTree nodes index root)
    (member : next ∈ nodes.lineage (some best)) (link : (nodes.get next).parent = some root)
    (onlyBest : ∀ child ∈ (nodes.get root).children, child ∈ nodes.lineage (some best)) :
    Marked (nodes.unlinkChildren root) (Function.update index (nodes.get root).hash none) cache
      best := by
  have get := tree.get_unlinkRoot marks.bestIndexed member link onlyBest
  have bestNotRoot : best ≠ root := by
    have le := tree.ordered.le_of_mem_lineage (tree.allocated marks.bestIndexed) member
    exact Nat.ne_of_gt ((tree.ordered next root link).trans_le le)
  have rootMarked : (nodes.get root).inMainChain = true :=
    (marks.marked root tree.rootIndexed).mpr (tree.root_mem_lineage marks.bestIndexed)
  refine ⟨tree.indexed_removeRoot.mpr ⟨marks.bestIndexed, bestNotRoot⟩, fun id indexed => ?_,
    fun id indexed => ?_, fun hash entry => ?_⟩
  · obtain ⟨indexed, notRoot⟩ := tree.indexed_removeRoot.mp indexed
    rw [tree.mem_lineage_removeRoot marks.bestIndexed member link onlyBest, get]
    simpa [notRoot] using marks.marked id indexed
  · obtain ⟨indexed, -⟩ := tree.indexed_removeRoot.mp indexed
    rw [get]
    exact marks.cached id indexed
  · rw [Function.update_apply]
    split
    · next same =>
      -- the block of the root is not in the cache
      have off := (marks.cached root tree.rootIndexed).mp (same ▸ entry)
      rw [rootMarked] at off
      cases off
    · exact marks.kept hash entry

/-! The moves between the main chain and the side chains. -/

theorem withChild (parent child : NodeId) :
    Marked (nodes.modify parent (.withChild child)) index cache best := by
  refine ⟨?_, ?_, ?_, marks.kept⟩ <;> simp only [InIndex, Nodes.hash_withChild,
    Nodes.inMainChain_withChild, Nodes.lineage_withChild]
  exacts [marks.bestIndexed, marks.marked, marks.cached]

/-- One node is marked anew, and its block enters or leaves the cache with the mark. -/
theorem mark (flag : Bool) (block : Option Block) (stored : block.isSome ↔ flag = false)
    (alone : ∀ other, InIndex nodes index other →
      (nodes.get other).hash = (nodes.get id).hash → other = id)
    {top : NodeId} (topIndexed : top = id ∨ InIndex nodes index top)
    (lineage : ∀ other, other ∈ nodes.lineage (some top) ↔
      if other = id then flag = true else other ∈ nodes.lineage (some best)) :
    Marked (nodes.modify id (.withInMainChain flag))
      (Function.update index (nodes.get id).hash (some id))
      (Function.update cache (nodes.get id).hash block) top := by
  have indexed_iff (other : NodeId) : InIndex (nodes.modify id (.withInMainChain flag))
      (Function.update index (nodes.get id).hash (some id)) other ↔
        other = id ∨ InIndex nodes index other := by
    rw [InIndex, Nodes.hash_withInMainChain, Function.update_apply]
    split
    · next same => grind
    · next differs => exact ⟨.inr, fun either => either.resolve_left fun same => differs (by rw [same])⟩
  refine ⟨(indexed_iff top).mpr topIndexed, fun other indexed => ?_, fun other indexed => ?_,
    fun hash entry => ?_⟩
  · rw [Nodes.inMainChain_withInMainChain, Nodes.lineage_withInMainChain, lineage]
    split
    · rfl
    · next differs => exact marks.marked other (((indexed_iff other).mp indexed).resolve_left differs)
  · rw [Nodes.inMainChain_withInMainChain, Nodes.hash_withInMainChain]
    by_cases same : other = id
    · simpa [same] using stored
    · have old := ((indexed_iff other).mp indexed).resolve_left same
      simpa [same, mt (alone other old) same] using marks.cached other old
  · rw [Function.update_apply] at entry ⊢
    split
    · rfl
    · next differs => exact marks.kept hash (by rwa [if_neg differs] at entry)

variable {root : NodeId} (tree : RootedTree nodes index root)
include tree

/-- A new leaf above the best node becomes the best node. -/
theorem extend (bound : id < nodes.count) (unused : index (nodes.get id).hash = none)
    (link : (nodes.get id).parent = some best) :
    Marked ((nodes.modify id (.withInMainChain true)).modify best (.withChild id))
      (Function.update index (nodes.get id).hash (some id)) cache id := by
  have alone (other : NodeId) (indexed : InIndex nodes index other)
      (same : (nodes.get other).hash = (nodes.get id).hash) : other = id := by
    rw [InIndex, same, unused] at indexed
    cases indexed
  have moved := marks.mark true none (by simp) alone (.inl rfl) fun other => by
    rw [tree.ordered.lineage_some bound, link, List.mem_cons]
    split <;> simp_all
  have same : Function.update cache (nodes.get id).hash none = cache :=
    Function.update_eq_self_iff.mpr (marks.cache_eq_none unused).symm
  rw [same] at moved
  exact moved.withChild best id

/-- A new leaf elsewhere is kept on a side chain. -/
theorem keepAside (unused : index (nodes.get id).hash = none) (parent : NodeId) (block : Block) :
    Marked ((nodes.modify id (.withInMainChain false)).modify parent (.withChild id))
      (Function.update index (nodes.get id).hash (some id))
      (Function.update cache (nodes.get id).hash (some block)) best := by
  have fresh : ¬ InIndex nodes index id := by simp [InIndex, unused]
  refine (marks.mark false (some block) (by simp) (fun other indexed same => ?_) (.inr marks.bestIndexed)
    fun other => ?_).withChild parent id
  · rw [InIndex, same, unused] at indexed
    cases indexed
  · split
    · next same =>
      -- the new node is nobody's ancestor
      simpa [same] using mt (tree.indexed_of_mem_lineage marks.bestIndexed) fresh
    · rfl

/-- The best node goes to a side chain, and its parent becomes the best node. -/
theorem detach {parent : NodeId} (link : (nodes.get best).parent = some parent) (block : Block) :
    Marked (nodes.modify best (.withInMainChain false)) index
      (Function.update cache (nodes.get best).hash (some block)) parent := by
  have bound := tree.allocated marks.bestIndexed
  have notAbove : best ∉ nodes.lineage (some parent) :=
    link ▸ tree.ordered.not_mem_lineage_parent bound
  have moved := marks.mark false (some block) (by simp)
    (fun _ indexed => indexed.eq_of_hash marks.bestIndexed)
    (.inr (tree.parent_indexed marks.bestIndexed link).1) fun other => by
      rw [tree.ordered.lineage_some bound, link, List.mem_cons]
      split <;> simp_all
  rwa [Function.update_eq_self_iff.mpr marks.bestIndexed.symm] at moved

/-- A node of a side chain whose parent is the best node becomes the best node. -/
theorem attach (indexed : InIndex nodes index id) (link : (nodes.get id).parent = some best) :
    Marked (nodes.modify id (.withInMainChain true)) index
      (Function.update cache (nodes.get id).hash none) id := by
  have moved := marks.mark true none (by simp)
    (fun _ other => other.eq_of_hash indexed) (.inl rfl) fun other => by
      rw [tree.ordered.lineage_some (tree.allocated indexed), link, List.mem_cons]
      split <;> simp_all
  rwa [Function.update_eq_self_iff.mpr indexed.symm] at moved

end Facts

end Marked

/-! ## A single node -/

section Single

variable {node : BlockNode}

theorem indexed_single : InIndex (Nodes.empty.allocate node)
    (Function.update (fun _ => none) node.hash (some 0)) id ↔ id = 0 := by
  rw [InIndex, Function.update_apply]
  split
  · simp [eq_comm]
  · next differs =>
    simp only [reduceCtorEq, false_iff]
    rintro rfl
    exact differs rfl

theorem RootedTree.single (noParent : node.parent = none) (leaf : node.children = []) :
    RootedTree (Nodes.empty.allocate node) (Function.update (fun _ => none) node.hash (some 0))
      0 := by
  have empty : Nodes.empty.Ordered := fun _ _ link => by cases link
  refine ⟨empty.allocate (by simp [noParent]), fun hash id entry => ?_, indexed_single.mpr rfl,
    noParent, fun id indexed notRoot => absurd (indexed_single.mp indexed) notRoot,
    fun id indexed child member => ?_⟩
  · rw [Function.update_apply] at entry
    split at entry
    · next same =>
      obtain rfl := Option.some.inj entry
      exact ⟨Nat.zero_lt_one, same.symm⟩
    · cases entry
  · obtain rfl := indexed_single.mp indexed
    rw [show ((Nodes.empty.allocate node).get 0).children = [] from leaf] at member
    cases member

theorem Marked.single (onMainChain : node.inMainChain = true) :
    Marked (Nodes.empty.allocate node) (Function.update (fun _ => none) node.hash (some 0))
      (fun _ => none) 0 := by
  refine ⟨indexed_single.mpr rfl, fun id indexed => ?_, fun id indexed => ?_, nofun⟩
  · obtain rfl := indexed_single.mp indexed
    exact ⟨fun _ => List.mem_cons_self, fun _ => onMainChain⟩
  · obtain rfl := indexed_single.mp indexed
    rw [show ((Nodes.empty.allocate node).get 0).inMainChain = true from onMainChain]
    exact ⟨nofun, nofun⟩

end Single

end DnaPow.Ledger
