import DnaPow.Ledger.Tree
import Mathlib.Data.List.Chain

/-!
# Ancestors

As long as no node is loaded below its children, every parent is older than its
children, and following the parent links ends well within the bound of `lineage`.
-/

namespace DnaPow.Ledger

open DnaPow.Std Common Core

namespace Nodes

variable {nodes after : Nodes}

/-- Every parent was allocated before its children. -/
def Ordered (nodes : Nodes) : Prop :=
  ∀ id parent, (nodes.get id).parent = some parent → parent < id

@[simp] theorem follow_none (nodes : Nodes) (fuel : Nat) : nodes.follow fuel none = [] := by
  cases fuel <;> rfl

@[simp] theorem lineage_none (nodes : Nodes) : nodes.lineage none = [] := nodes.follow_none _

/-- The links alone determine the ancestors. -/
theorem lineage_congr (count : after.count = nodes.count)
    (parent : ∀ id, (after.get id).parent = (nodes.get id).parent) (start : Option NodeId) :
    after.lineage start = nodes.lineage start := by
  have follow : ∀ fuel start, after.follow fuel start = nodes.follow fuel start := by
    intro fuel
    induction fuel with
    | zero => exact fun _ => rfl
    | succ fuel ih =>
      intro start
      cases start with
      | none => rfl
      | some id => rw [Nodes.follow, Nodes.follow, ih, parent]
  rw [lineage, lineage, count, follow]

/-- Each ancestor is the parent of the one before. -/
theorem isChain_lineage (nodes : Nodes) (start : Option NodeId) :
    (nodes.lineage start).IsChain fun id parent => (nodes.get id).parent = some parent := by
  unfold lineage
  generalize nodes.count = fuel
  induction fuel generalizing start with
  | zero => exact .nil
  | succ fuel ih =>
    cases start with
    | none => exact .nil
    | some id =>
      rw [follow, List.isChain_cons]
      refine ⟨fun next first => ?_, ih _⟩
      cases link : (nodes.get id).parent with
      | none => simp [link] at first
      | some parent =>
        rw [link] at first
        cases fuel with
        | zero => cases first
        | succ fuel => exact first

namespace Ordered

variable (ordered : nodes.Ordered)
include ordered

variable {id other : NodeId}

/-- What holds of nodes without a parent and passes from parents to children holds
of all nodes. -/
theorem induction {holds : NodeId → Prop}
    (first : ∀ id, (nodes.get id).parent = none → holds id)
    (later : ∀ id parent, (nodes.get id).parent = some parent → holds parent → holds id)
    (id : NodeId) : holds id := by
  induction id using Nat.strong_induction_on with
  | _ id ih =>
    cases link : (nodes.get id).parent with
    | none => exact first id link
    | some parent => exact later id parent link (ih parent (ordered id parent link))

/-- Enough fuel is enough. -/
theorem follow_eq {fuel fuel' : Nat} {id : NodeId} (enough : id < fuel) (enough' : id < fuel') :
    nodes.follow fuel (some id) = nodes.follow fuel' (some id) := by
  induction fuel generalizing fuel' id with
  | zero => cases enough
  | succ fuel ih =>
    cases fuel' with
    | zero => cases enough'
    | succ fuel' =>
      rw [follow, follow]
      cases link : (nodes.get id).parent with
      | none => simp
      | some parent =>
        have older := ordered id parent link
        rw [ih (older.trans_le (Nat.le_of_lt_succ enough))
          (older.trans_le (Nat.le_of_lt_succ enough'))]

theorem lineage_some {id : NodeId} (allocated : id < nodes.count) :
    nodes.lineage (some id) = id :: nodes.lineage (nodes.get id).parent := by
  obtain ⟨fuel, bound⟩ := Nat.exists_eq_add_one_of_ne_zero (Nat.ne_zero_of_lt allocated)
  rw [lineage, lineage, bound, follow]
  cases link : (nodes.get id).parent with
  | none => simp
  | some parent =>
    have older := (ordered id parent link).trans_le (Nat.le_of_lt_succ (bound ▸ allocated))
    rw [ordered.follow_eq older (Nat.lt_succ_of_lt older)]

theorem mem_lineage (allocated : id < nodes.count) :
    other ∈ nodes.lineage (some id) ↔
      other = id ∨ other ∈ nodes.lineage (nodes.get id).parent := by
  rw [ordered.lineage_some allocated, List.mem_cons]

/-- Ancestors are older. -/
theorem le_of_mem_lineage (allocated : id < nodes.count)
    (member : other ∈ nodes.lineage (some id)) : other ≤ id := by
  induction id using ordered.induction with
  | first id link =>
    rcases (ordered.mem_lineage allocated).mp member with rfl | above
    · exact Nat.le_refl _
    · simp [link] at above
  | later id parent link ih =>
    have older := ordered id parent link
    rcases (ordered.mem_lineage allocated).mp member with rfl | above
    · exact Nat.le_refl _
    · rw [link] at above
      exact (ih (older.trans allocated) above).trans (Nat.le_of_lt older)

/-- A node is not an ancestor of its parent. -/
theorem not_mem_lineage_parent {id : NodeId} (allocated : id < nodes.count) :
    id ∉ nodes.lineage (nodes.get id).parent := by
  cases link : (nodes.get id).parent with
  | none => simp
  | some parent =>
    intro member
    have older := ordered id parent link
    exact absurd (ordered.le_of_mem_lineage (older.trans allocated) member) (Nat.not_le.mpr older)

/-- The parent of an ancestor is an ancestor. -/
theorem parent_mem_lineage {id other parent : NodeId} (allocated : id < nodes.count)
    (member : other ∈ nodes.lineage (some id)) (link : (nodes.get other).parent = some parent) :
    parent ∈ nodes.lineage (some id) := by
  induction id using ordered.induction with
  | first id noParent =>
    rcases (ordered.mem_lineage allocated).mp member with rfl | above
    · rw [noParent] at link
      cases link
    · simp [noParent] at above
  | later id next isNext ih =>
    have older := ordered id next isNext
    refine (ordered.mem_lineage allocated).mpr (.inr ?_)
    rw [isNext]
    rcases (ordered.mem_lineage allocated).mp member with rfl | above
    · obtain rfl := Option.some.inj (isNext.symm.trans link)
      exact (ordered.mem_lineage (older.trans allocated)).mpr (.inl rfl)
    · exact ih (older.trans allocated) (isNext ▸ above)

/-- No two ancestors of a node have the same parent. -/
theorem eq_of_parent_eq {id other another parent : NodeId} (allocated : id < nodes.count)
    (member : other ∈ nodes.lineage (some id)) (member' : another ∈ nodes.lineage (some id))
    (link : (nodes.get other).parent = some parent)
    (link' : (nodes.get another).parent = some parent) : other = another := by
  induction id using ordered.induction with
  | first id noParent =>
    rw [ordered.lineage_some allocated, noParent, lineage_none, List.mem_singleton] at member member'
    rw [member, member']
  | later id next isNext ih =>
    have older := ordered id next isNext
    have nextAllocated := older.trans allocated
    have below {some : NodeId} (above : some ∈ nodes.lineage (nodes.get id).parent) :
        some ≤ next := ordered.le_of_mem_lineage nextAllocated (isNext ▸ above)
    rcases (ordered.mem_lineage allocated).mp member with rfl | above <;>
      rcases (ordered.mem_lineage allocated).mp member' with rfl | above'
    · rfl
    · obtain rfl := Option.some.inj (isNext.symm.trans link)
      exact absurd (below above') (Nat.not_le.mpr (ordered another _ link'))
    · obtain rfl := Option.some.inj (isNext.symm.trans link')
      exact absurd (below above) (Nat.not_le.mpr (ordered other _ link))
    · exact ih nextAllocated (isNext ▸ above) (isNext ▸ above')

theorem allocate {node : BlockNode} (older : ∀ parent ∈ node.parent, parent < nodes.count) :
    (nodes.allocate node).Ordered := by
  intro id parent link
  by_cases new : id = nodes.count
  · rw [new, get_allocate_self] at link
    exact new ▸ older parent link
  · rw [show (nodes.allocate node).get id = nodes.get id from Function.update_of_ne new ..] at link
    exact ordered id parent link

/-- A new node is nobody's ancestor. -/
theorem lineage_allocate {node : BlockNode} (older : ∀ parent ∈ node.parent, parent < nodes.count)
    {id : NodeId} (allocated : id < nodes.count) :
    (nodes.allocate node).lineage (some id) = nodes.lineage (some id) := by
  have ordered' := ordered.allocate older
  induction id using ordered.induction with
  | first id link =>
    rw [ordered.lineage_some allocated, ordered'.lineage_some (Nat.lt_succ_of_lt allocated),
      get_allocate_of_lt allocated, link, lineage_none, lineage_none]
  | later id parent link ih =>
    rw [ordered.lineage_some allocated, ordered'.lineage_some (Nat.lt_succ_of_lt allocated),
      get_allocate_of_lt allocated, link, ih ((ordered id parent link).trans allocated)]

/-- The way down to an ancestor. -/
theorem exists_way (allocated : id < nodes.count) (member : other ∈ nodes.lineage (some id)) :
    ∃ way, nodes.lineage (some id) = way ++ nodes.lineage (some other) ∧ other ∉ way ∧
      ∀ between ∈ way, (nodes.get between).parent.isSome := by
  induction id using ordered.induction with
  | first id noParent =>
    rcases (ordered.mem_lineage allocated).mp member with rfl | above
    · exact ⟨[], rfl, List.not_mem_nil, nofun⟩
    · simp [noParent] at above
  | later id parent link ih =>
    rcases (ordered.mem_lineage allocated).mp member with rfl | above
    · exact ⟨[], rfl, List.not_mem_nil, nofun⟩
    · have older := ordered id parent link
      have le := ordered.le_of_mem_lineage (older.trans allocated) (link ▸ above)
      obtain ⟨way, split, fresh, linked⟩ := ih (older.trans allocated) (link ▸ above)
      refine ⟨id :: way, ?_, ?_, ?_⟩
      · rw [ordered.lineage_some allocated, link, split, List.cons_append]
      · rw [List.mem_cons, not_or]
        exact ⟨Nat.ne_of_lt (le.trans_lt older), fresh⟩
      · rintro between (_ | ⟨_, member⟩)
        · rw [link]
          rfl
        · exact linked between member

end Ordered

/-! ## Changes of single nodes -/

@[simp] theorem parent_withInMainChain (nodes : Nodes) (id other : NodeId) (inMainChain : Bool) :
    ((nodes.modify id (.withInMainChain inMainChain)).get other).parent =
      (nodes.get other).parent := view_modify BlockNode.parent nodes id _ rfl other

@[simp] theorem hash_withInMainChain (nodes : Nodes) (id other : NodeId) (inMainChain : Bool) :
    ((nodes.modify id (.withInMainChain inMainChain)).get other).hash = (nodes.get other).hash :=
  view_modify BlockNode.hash nodes id _ rfl other

@[simp] theorem children_withInMainChain (nodes : Nodes) (id other : NodeId) (inMainChain : Bool) :
    ((nodes.modify id (.withInMainChain inMainChain)).get other).children =
      (nodes.get other).children := view_modify BlockNode.children nodes id _ rfl other

theorem inMainChain_withInMainChain (nodes : Nodes) (id other : NodeId) (inMainChain : Bool) :
    ((nodes.modify id (.withInMainChain inMainChain)).get other).inMainChain =
      if other = id then inMainChain else (nodes.get other).inMainChain := by
  rw [get_modify]
  split <;> rfl

@[simp] theorem parent_withChild (nodes : Nodes) (id child other : NodeId) :
    ((nodes.modify id (.withChild child)).get other).parent = (nodes.get other).parent :=
  view_modify BlockNode.parent nodes id _ rfl other

@[simp] theorem hash_withChild (nodes : Nodes) (id child other : NodeId) :
    ((nodes.modify id (.withChild child)).get other).hash = (nodes.get other).hash :=
  view_modify BlockNode.hash nodes id _ rfl other

@[simp] theorem inMainChain_withChild (nodes : Nodes) (id child other : NodeId) :
    ((nodes.modify id (.withChild child)).get other).inMainChain =
      (nodes.get other).inMainChain := view_modify BlockNode.inMainChain nodes id _ rfl other

@[simp] theorem lineage_withInMainChain (nodes : Nodes) (id : NodeId) (inMainChain : Bool)
    (start : Option NodeId) :
    (nodes.modify id (.withInMainChain inMainChain)).lineage start = nodes.lineage start :=
  lineage_congr (count_modify ..) (nodes.parent_withInMainChain id · inMainChain) start

@[simp] theorem lineage_withChild (nodes : Nodes) (id child : NodeId) (start : Option NodeId) :
    (nodes.modify id (.withChild child)).lineage start = nodes.lineage start :=
  lineage_congr (count_modify ..) (nodes.parent_withChild id child) start

theorem mem_children_withChild {id child other some : NodeId} :
    some ∈ ((nodes.modify id (.withChild child)).get other).children ↔
      some ∈ (nodes.get other).children ∨ other = id ∧ some = child := by
  rw [get_modify]
  split
  · next same => simp [BlockNode.withChild, same]
  · next differs => simp [differs]

/-- What `unlinkChildren` does to a node. -/
theorem get_unlinkChildren (nodes : Nodes) (id other : NodeId) :
    (nodes.unlinkChildren id).get other =
      { nodes.get other with
        parent := if other ∈ (nodes.get id).children then none else (nodes.get other).parent
        children := if other = id then [] else (nodes.get other).children } := by
  have unlinked : ∀ (children : List NodeId) (nodes : Nodes),
      (children.foldl (fun nodes child => nodes.modify child (.withParent none)) nodes).get other =
        { nodes.get other with
          parent := if other ∈ children then none else (nodes.get other).parent } := by
    intro children
    induction children with
    | nil => simp
    | cons child children ih =>
      intro nodes
      rw [List.foldl_cons, ih, get_modify]
      by_cases first : other = child
      · simp [first, BlockNode.withParent]
      · by_cases later : other ∈ children <;> simp [first, later]
  rw [unlinkChildren, get_modify]
  split
  · next same =>
    rw [← same, unlinked]
    rfl
  · exact unlinked _ nodes

end Nodes

end DnaPow.Ledger
