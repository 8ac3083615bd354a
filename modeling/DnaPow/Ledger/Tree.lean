import DnaPow.Ledger.Blockchain
import DnaPow.Ledger.StoreRefinement

/-!
# The tree of block nodes

What always holds of the nodes in memory and of the maps that point to them:
every node describes a block of some branch, parent links agree with the hashes
of the headers, and the maps point to the right nodes. Loading, pruning and
adding nodes keep this and touch nothing outside the tree.
-/

namespace DnaPow.Ledger

open DnaPow.Std Common Core

/-- The part of a node that is set once. -/
def BlockNode.fixed (node : BlockNode) : BlockNode :=
  { node with workSum := 0, inMainChain := false, parent := none, children := [] }

theorem BlockNode.hash_of_fixed {node other : BlockNode} (same : node.fixed = other.fixed) :
    node.hash = other.hash := by
  have sameHash := congrArg BlockNode.hash same
  exact sameHash

theorem BlockNode.parentHash_of_fixed {node other : BlockNode} (same : node.fixed = other.fixed) :
    node.parentHash = other.parentHash := by
  have sameHash := congrArg BlockNode.parentHash same
  exact sameHash

/-- Nothing set once has changed, and no parent link is new. -/
structure Nodes.Retains (before after : Nodes) : Prop where
  count : after.count = before.count
  fixed : ∀ id, (after.get id).fixed = (before.get id).fixed
  parent : ∀ id parent, (after.get id).parent = some parent → (before.get id).parent = some parent

namespace Nodes

@[simp] theorem count_allocate (nodes : Nodes) (node : BlockNode) :
    (nodes.allocate node).count = nodes.count + 1 := rfl

@[simp] theorem get_allocate_self (nodes : Nodes) (node : BlockNode) :
    (nodes.allocate node).get nodes.count = node := Function.update_self ..

theorem get_allocate_of_ne {nodes : Nodes} {node : BlockNode} {id : NodeId}
    (differs : id ≠ nodes.count) : (nodes.allocate node).get id = nodes.get id :=
  Function.update_of_ne differs ..

theorem get_allocate_of_lt {nodes : Nodes} {node : BlockNode} {id : NodeId}
    (allocated : id < nodes.count) : (nodes.allocate node).get id = nodes.get id :=
  get_allocate_of_ne (Nat.ne_of_lt allocated)

@[simp] theorem count_modify (nodes : Nodes) (id : NodeId) (change : BlockNode → BlockNode) :
    (nodes.modify id change).count = nodes.count := rfl

theorem get_modify (nodes : Nodes) (id other : NodeId) (change : BlockNode → BlockNode) :
    (nodes.modify id change).get other =
      if other = id then change (nodes.get id) else nodes.get other :=
  Function.update_apply ..

/-- A property of single nodes is not changed by a modification that does not change it. -/
theorem view_modify {α : Type} (view : BlockNode → α) (nodes : Nodes) (id : NodeId)
    (change : BlockNode → BlockNode) (same : view (change (nodes.get id)) = view (nodes.get id))
    (other : NodeId) : view ((nodes.modify id change).get other) = view (nodes.get other) := by
  rw [get_modify]
  split
  · next equal => rw [equal, same]
  · rfl

namespace Retains

theorem refl (nodes : Nodes) : Retains nodes nodes := ⟨rfl, fun _ => rfl, fun _ _ => id⟩

theorem trans {first second third : Nodes} (left : Retains first second)
    (right : Retains second third) : Retains first third where
  count := right.count.trans left.count
  fixed id := (right.fixed id).trans (left.fixed id)
  parent id parent link := left.parent id parent (right.parent id parent link)

theorem modify {nodes : Nodes} {id : NodeId} {change : BlockNode → BlockNode}
    (fixed : (change (nodes.get id)).fixed = (nodes.get id).fixed)
    (parent : ∀ parent, (change (nodes.get id)).parent = some parent →
      (nodes.get id).parent = some parent) : Retains nodes (nodes.modify id change) where
  count := rfl
  fixed := view_modify BlockNode.fixed nodes id change fixed
  parent other link := by
    rw [get_modify]
    split
    · next equal => rw [equal]; exact parent link
    · exact fun unchanged => unchanged

theorem withChild (nodes : Nodes) (id child : NodeId) :
    Retains nodes (nodes.modify id (.withChild child)) := modify rfl fun _ same => same

theorem withInMainChain (nodes : Nodes) (id : NodeId) (inMainChain : Bool) :
    Retains nodes (nodes.modify id (.withInMainChain inMainChain)) :=
  modify rfl fun _ same => same

theorem foldl {step : Nodes → NodeId → Nodes} (retains : ∀ nodes id, Retains nodes (step nodes id))
    (ids : List NodeId) (nodes : Nodes) : Retains nodes (ids.foldl step nodes) := by
  induction ids generalizing nodes with
  | nil => exact refl nodes
  | cons id ids ih => exact (retains nodes id).trans (ih (step nodes id))

theorem addWork (work fuel : Nat) (nodes : Nodes) (id : NodeId) :
    Retains nodes (Nodes.addWork work fuel nodes id) := by
  induction fuel generalizing nodes id with
  | zero => exact refl nodes
  | succ fuel ih => exact (modify rfl fun _ same => same).trans (foldl ih _ _)

theorem unlinkChildren (nodes : Nodes) (id : NodeId) : Retains nodes (nodes.unlinkChildren id) := by
  have unlink (nodes : Nodes) (child : NodeId) :
      Retains nodes (nodes.modify child (.withParent none)) :=
    modify rfl fun parent link => by cases link
  exact (foldl unlink _ _).trans (modify rfl fun _ same => same)

end Retains

/-- What passes from nodes to their parents holds along a lineage. -/
theorem forall_mem_lineage {nodes : Nodes} {holds : NodeId → Prop}
    (passes : ∀ id parent, holds id → (nodes.get id).parent = some parent → holds parent)
    {start : Option NodeId} (first : ∀ id ∈ start, holds id) :
    ∀ id ∈ nodes.lineage start, holds id := by
  unfold lineage
  generalize nodes.count = fuel
  induction fuel generalizing start with
  | zero => simp [follow]
  | succ fuel ih =>
    intro id member
    cases start with
    | none => simp [follow] at member
    | some last =>
      rcases List.mem_cons.mp member with rfl | older
      · exact first id rfl
      · exact ih (fun parent link => passes last parent (first last rfl) link) id older

/-- A property of single nodes that no step changes. -/
theorem view_foldl {α : Type} (view : BlockNode → α) {step : Nodes → NodeId → Nodes}
    (same : ∀ nodes id other, view ((step nodes id).get other) = view (nodes.get other))
    (ids : List NodeId) (nodes : Nodes) (other : NodeId) :
    view ((ids.foldl step nodes).get other) = view (nodes.get other) := by
  induction ids generalizing nodes with
  | nil => rfl
  | cons id ids ih => exact (ih _).trans (same nodes id other)

theorem workSum_unlinkChildren (nodes : Nodes) (id other : NodeId) :
    ((nodes.unlinkChildren id).get other).workSum = (nodes.get other).workSum :=
  (view_modify BlockNode.workSum _ id .withoutChildren rfl other).trans
    (view_foldl BlockNode.workSum
      (fun nodes child => view_modify BlockNode.workSum nodes child _ rfl) _ nodes other)

end Nodes

/-- Nodes may have been added; those that were there describe the same blocks. -/
structure Nodes.Grows (before after : Nodes) : Prop where
  count : before.count ≤ after.count
  fixed : ∀ id < before.count, (after.get id).fixed = (before.get id).fixed

namespace Nodes.Grows

theorem refl (nodes : Nodes) : Grows nodes nodes := ⟨Nat.le_refl _, fun _ _ => rfl⟩

theorem trans {first second third : Nodes} (left : Grows first second)
    (right : Grows second third) : Grows first third where
  count := left.count.trans right.count
  fixed id bound := (right.fixed id (bound.trans_le left.count)).trans (left.fixed id bound)

theorem of_fixed {before after : Nodes} (count : after.count = before.count)
    (fixed : ∀ id, (after.get id).fixed = (before.get id).fixed) : Grows before after :=
  ⟨count.ge, fun id _ => fixed id⟩

theorem allocate (nodes : Nodes) (node : BlockNode) : Grows nodes (nodes.allocate node) :=
  ⟨Nat.le_succ _, fun _ bound => congrArg BlockNode.fixed (get_allocate_of_lt bound)⟩

end Nodes.Grows

theorem Nodes.Retains.grows {before after : Nodes} (retains : before.Retains after) :
    before.Grows after := .of_fixed retains.count retains.fixed

/-! ## The invariant -/

/-- A node describes a block. -/
def Describes (env : Env) (block : Block) (node : BlockNode) : Prop :=
  node.fixed = (newBlockNode block.blockdata (block.hash env.crypto)).fixed

theorem describes_newBlockNode (env : Env) (block : Block) (inMainChain : Bool) :
    Describes env block
      ((newBlockNode block.blockdata (block.hash env.crypto)).withInMainChain inMainChain) := rfl

namespace Describes

variable {env : Env} {block : Block} {node : BlockNode} (describes : Describes env block node)
include describes

theorem hash : node.hash = block.hash env.crypto := congrArg BlockNode.hash describes

theorem parentHash : node.parentHash = block.blockdata.prevBlockHash :=
  congrArg BlockNode.parentHash describes

theorem height : node.height = block.blockdata.height := congrArg BlockNode.height describes

theorem under (id : NodeId) (parent : BlockNode) : Describes env block (node.under id parent) :=
  describes

end Describes

/-- The nodes and the maps that point to them. -/
structure Tree (env : Env) (known : Block → Prop) (nodes : Nodes)
    (index : Uint256 → Option NodeId) (depNodes : Uint256 → List NodeId) : Prop where
  described : ∀ id < nodes.count, ∃ block below,
    (blockLinks env).Branch known (block :: below) ∧ Describes env block (nodes.get id)
  parent : ∀ id < nodes.count, ∀ parent, (nodes.get id).parent = some parent →
    parent < nodes.count ∧ (nodes.get parent).hash = (nodes.get id).parentHash
  index : ∀ hash id, index hash = some id → id < nodes.count ∧ (nodes.get id).hash = hash
  depNodes : ∀ hash, ∀ id ∈ depNodes hash,
    id < nodes.count ∧ (nodes.get id).parentHash = hash

namespace Tree

variable {env : Env} {known : Block → Prop} {nodes after : Nodes}
  {index : Uint256 → Option NodeId} {depNodes : Uint256 → List NodeId} {id : NodeId}

section

variable (tree : Tree env known nodes index depNodes)
include tree

/-- No node has the hash that stands for no parent. -/
theorem hash_ne_zero (admissible : Admissible env known) (allocated : id < nodes.count) :
    (nodes.get id).hash ≠ 0 := by
  obtain ⟨block, below, branch, describes⟩ := tree.described id allocated
  rw [describes.hash]
  exact admissible.nonzero _ (branch.known_of_mem admissible.genesis _ List.mem_cons_self)

/-- A node with the hash of a known block agrees with its header. -/
theorem header_eq (admissible : Admissible env known)
    (allocated : id < nodes.count) {block : Block} (isKnown : known block)
    (hash : (nodes.get id).hash = block.hash env.crypto) :
    (nodes.get id).parentHash = block.blockdata.prevBlockHash ∧
      (nodes.get id).height = block.blockdata.height := by
  obtain ⟨other, below, branch, describes⟩ := tree.described id allocated
  have isKnown' := branch.known_of_mem admissible.genesis _ List.mem_cons_self
  have same := describes.hash.symm.trans hash
  rw [describes.parentHash, describes.height]
  exact ⟨admissible.faithful.prev_eq _ _ isKnown' isKnown same,
    UInt32.toNat_inj.mp (admissible.faithful.height_eq _ _ isKnown' isKnown same)⟩

/-- What is not set once may change, entries may go, and links may change to
nodes with the right hash. -/
theorem relink (count : after.count = nodes.count)
    (fixed : ∀ id, (after.get id).fixed = (nodes.get id).fixed)
    (linked : ∀ id < nodes.count, ∀ parent, (after.get id).parent = some parent →
      parent < nodes.count ∧ (nodes.get parent).hash = (nodes.get id).parentHash)
    {index' : Uint256 → Option NodeId} {depNodes' : Uint256 → List NodeId}
    (fewer : ∀ hash id, index' hash = some id → index hash = some id)
    (fewer' : ∀ hash, ∀ id ∈ depNodes' hash, id ∈ depNodes hash) :
    Tree env known after index' depNodes' := by
  have sameHash id : (after.get id).hash = (nodes.get id).hash := BlockNode.hash_of_fixed (fixed id)
  have sameParentHash id : (after.get id).parentHash = (nodes.get id).parentHash :=
    BlockNode.parentHash_of_fixed (fixed id)
  refine ⟨fun id => ?_, fun id => ?_, fun hash id entry => ?_, fun hash id member => ?_⟩ <;>
    simp only [count, sameHash, sameParentHash]
  · intro allocated
    obtain ⟨block, below, branch, describes⟩ := tree.described id allocated
    exact ⟨block, below, branch, (fixed id).trans describes⟩
  · exact linked id
  · exact tree.index hash id (fewer hash id entry)
  · exact tree.depNodes hash id (fewer' hash id member)

/-- Dropping links and map entries keeps the tree. -/
theorem retain (retains : nodes.Retains after)
    {index' : Uint256 → Option NodeId} {depNodes' : Uint256 → List NodeId}
    (fewer : ∀ hash id, index' hash = some id → index hash = some id)
    (fewer' : ∀ hash, ∀ id ∈ depNodes' hash, id ∈ depNodes hash) :
    Tree env known after index' depNodes' :=
  tree.relink retains.count retains.fixed
    (fun id allocated parent link => tree.parent id allocated parent (retains.parent id parent link))
    fewer fewer'

/-- A new node that describes a block of a branch. -/
theorem allocate {node : BlockNode} {block : Block}
    {below : List Block} (branch : (blockLinks env).Branch known (block :: below))
    (describes : Describes env block node)
    (linked : ∀ parent, node.parent = some parent →
      parent < nodes.count ∧ (nodes.get parent).hash = node.parentHash) :
    Tree env known (nodes.allocate node) index depNodes where
  described id allocated := by
    rcases Nat.lt_succ_iff_lt_or_eq.mp allocated with old | rfl
    · rw [Nodes.get_allocate_of_lt old]
      exact tree.described id old
    · rw [Nodes.get_allocate_self]
      exact ⟨block, below, branch, describes⟩
  parent id allocated parent link := by
    have link' : parent < nodes.count ∧
        (nodes.get parent).hash = ((nodes.allocate node).get id).parentHash := by
      rcases Nat.lt_succ_iff_lt_or_eq.mp allocated with old | rfl
      · rw [Nodes.get_allocate_of_lt old] at link ⊢
        exact tree.parent id old parent link
      · rw [Nodes.get_allocate_self] at link ⊢
        exact linked parent link
    rw [Nodes.get_allocate_of_lt link'.1]
    exact ⟨Nat.lt_succ_of_lt link'.1, link'.2⟩
  index hash id entry := by
    obtain ⟨bound, same⟩ := tree.index hash id entry
    rw [Nodes.get_allocate_of_lt bound]
    exact ⟨Nat.lt_succ_of_lt bound, same⟩
  depNodes hash id member := by
    obtain ⟨bound, same⟩ := tree.depNodes hash id member
    rw [Nodes.get_allocate_of_lt bound]
    exact ⟨Nat.lt_succ_of_lt bound, same⟩

theorem addNodeToIndex
    (allocated : id < nodes.count) :
    Tree env known nodes (Function.update index (nodes.get id).hash (some id)) depNodes where
  described := tree.described
  parent := tree.parent
  depNodes := tree.depNodes
  index hash other entry := by
    rw [Function.update_apply] at entry
    split at entry
    · next same =>
      obtain rfl := Option.some.inj entry
      exact ⟨allocated, same.symm⟩
    · exact tree.index hash other entry

theorem addDepNode
    (allocated : id < nodes.count) {parentHash : Uint256}
    (linked : (nodes.get id).parentHash = parentHash) :
    Tree env known nodes index
      (Function.update depNodes parentHash (depNodes parentHash ++ [id])) where
  described := tree.described
  parent := tree.parent
  index := tree.index
  depNodes hash other member := by
    rw [Function.update_apply] at member
    split at member
    · next same =>
      rcases List.mem_append.mp member with old | new
      · rw [same]
        exact tree.depNodes parentHash other old
      · obtain rfl := List.mem_singleton.mp new
        exact ⟨allocated, linked.trans same.symm⟩
    · exact tree.depNodes hash other member

/-- A node may be put above another that names it as its parent. -/
theorem setParent {id child : NodeId} (allocated : id < nodes.count)
    (linked : (nodes.get id).hash = (nodes.get child).parentHash) :
    Tree env known (nodes.modify child (.withParent (some id))) index depNodes := by
  have fixed := Nodes.view_modify BlockNode.fixed nodes child (.withParent (some id)) rfl
  refine tree.relink (Nodes.count_modify ..) fixed ?_ (fun _ _ same => same) (fun _ _ same => same)
  intro other bound parent link
  rw [Nodes.get_modify] at link
  split at link
  · next same =>
    obtain rfl := Option.some.inj link
    exact ⟨allocated, same ▸ linked⟩
  · exact tree.parent other bound parent link

end

end Tree

end DnaPow.Ledger
