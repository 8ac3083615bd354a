import Mathlib.Data.List.Nodup
import Mathlib.Data.Set.Function

/-!
# Trees of pairs

A list is reduced by combining its elements in pairs, level by level, until one
element is left. An odd last element is paired with itself, so different lists
can have the same pairs. Lists without repetitions cannot, and their levels have
no repetitions either when pairs are combined injectively. So two such lists with
the same top are levels of one tree (`Above.comparable`).
-/

namespace DnaPow.Std.PairTree

variable {α : Type*}

/-- The pairs of a level. -/
def pairs : List α → List (α × α)
  | [] => []
  | [last] => [(last, last)]
  | left :: right :: rest => (left, right) :: pairs rest

theorem mem_of_mem_pairs {nodes : List α} {pair : α × α} (member : pair ∈ pairs nodes) :
    pair.1 ∈ nodes ∧ pair.2 ∈ nodes := by
  fun_induction pairs nodes with
  | case1 => cases member
  | case2 last =>
    obtain rfl := List.mem_singleton.mp member
    simp
  | case3 left right rest ih =>
    rcases List.mem_cons.mp member with rfl | later
    · simp
    · have inside := ih later
      simp [inside.1, inside.2]

theorem pairs_nodup {nodes : List α} (nodup : nodes.Nodup) : (pairs nodes).Nodup := by
  fun_induction pairs nodes with
  | case1 => exact List.nodup_nil
  | case2 last => exact List.nodup_singleton _
  | case3 left right rest ih =>
    rw [List.nodup_cons, List.nodup_cons] at nodup
    rw [List.nodup_cons]
    refine ⟨fun member => ?_, ih nodup.2.2⟩
    exact nodup.1 (List.mem_cons_of_mem _ (mem_of_mem_pairs member).1)

theorem length_pairs (nodes : List α) : (pairs nodes).length = (nodes.length + 1) / 2 := by
  fun_induction pairs nodes with
  | case1 => simp
  | case2 last => simp
  | case3 left right rest ih =>
    simp only [List.length_cons, ih]
    omega

/-- Without repetitions a list is determined by its pairs. -/
theorem eq_of_pairs_eq {first second : List α} (nodupFirst : first.Nodup)
    (nodupSecond : second.Nodup) (same : pairs first = pairs second) : first = second := by
  induction first using pairs.induct generalizing second with
  | case1 =>
    rcases second with _ | ⟨other, _ | ⟨next, rest⟩⟩
    · rfl
    · simp [pairs] at same
    · simp [pairs] at same
  | case2 last =>
    rcases second with _ | ⟨other, _ | ⟨next, rest⟩⟩
    · simp [pairs] at same
    · simp only [pairs, List.cons.injEq, Prod.mk.injEq] at same
      rw [same.1.1]
    · -- a last element paired with itself would be a repetition
      simp only [pairs, List.cons.injEq, Prod.mk.injEq] at same
      obtain ⟨⟨rfl, rfl⟩, _⟩ := same
      simp at nodupSecond
  | case3 left right rest ih =>
    rcases second with _ | ⟨other, _ | ⟨next, rest'⟩⟩
    · simp [pairs] at same
    · simp only [pairs, List.cons.injEq, Prod.mk.injEq] at same
      obtain ⟨⟨rfl, rfl⟩, _⟩ := same
      simp at nodupFirst
    · simp only [pairs, List.cons.injEq, Prod.mk.injEq] at same
      obtain ⟨⟨rfl, rfl⟩, later⟩ := same
      rw [ih nodupFirst.of_cons.of_cons nodupSecond.of_cons.of_cons later]

/-- Lists with the same image under a function that tells their items apart are the same. -/
theorem eq_of_map_eq {β : Type*} {image : α → β} {items : Set α} (injective : Set.InjOn image items)
    {first second : List α} (inside : ∀ item ∈ first, item ∈ items)
    (within : ∀ item ∈ second, item ∈ items) (same : first.map image = second.map image) :
    first = second := by
  induction first generalizing second with
  | nil => exact (List.map_eq_nil_iff.mp same.symm).symm
  | cons item first ih =>
    cases second with
    | nil => cases same
    | cons other second =>
      rw [List.forall_mem_cons] at inside within
      obtain ⟨head, tail⟩ := List.cons.inj same
      rw [injective inside.1 within.1 head, ih inside.2 within.2 tail]

variable (combine : α × α → α)

/-- The level above. -/
def level (nodes : List α) : List α := (pairs nodes).map combine

/-- The first list is a level of the tree over the second. -/
inductive Above (upper : List α) : List α → Prop where
  | refl : Above upper upper
  | step {nodes : List α} (two : 2 ≤ nodes.length) (above : Above upper (level combine nodes)) :
      Above upper nodes

/-- A list without repetitions, with a tree whose pairs are all in the given set. -/
structure Clean (hashed : Set (α × α)) (nodes : List α) : Prop where
  nodup : nodes.Nodup
  pairs_mem : ∀ upper, Above combine upper nodes → 2 ≤ upper.length →
    ∀ pair ∈ pairs upper, pair ∈ hashed

variable {combine} {hashed : Set (α × α)}

theorem Clean.mem_hashed {nodes : List α} (clean : Clean combine hashed nodes)
    (two : 2 ≤ nodes.length) {pair : α × α} (member : pair ∈ pairs nodes) : pair ∈ hashed :=
  clean.pairs_mem nodes .refl two pair member

section

variable (injective : Set.InjOn combine hashed)
include injective

theorem Clean.level {nodes : List α}
    (clean : Clean combine hashed nodes) (two : 2 ≤ nodes.length) :
    Clean combine hashed (level combine nodes) where
  nodup := List.Nodup.map_on (fun _ first _ second same =>
    injective (clean.mem_hashed two first) (clean.mem_hashed two second) same)
    (pairs_nodup clean.nodup)
  pairs_mem upper above := clean.pairs_mem upper (.step two above)

/-- Lists with the same level above are the same. -/
theorem Clean.eq_of_level_eq {first second : List α}
    (cleanFirst : Clean combine hashed first) (cleanSecond : Clean combine hashed second)
    (twoFirst : 2 ≤ first.length) (twoSecond : 2 ≤ second.length)
    (same : PairTree.level combine first = PairTree.level combine second) : first = second := by
  apply eq_of_pairs_eq cleanFirst.nodup cleanSecond.nodup
  apply eq_of_map_eq injective _ _ same
  · intro pair member
    exact cleanFirst.mem_hashed twoFirst member
  · intro pair member
    exact cleanSecond.mem_hashed twoSecond member

/-- What is above the level above a list. -/
theorem Above.of_level {first second : List α}
    (cleanFirst : Clean combine hashed first) (cleanSecond : Clean combine hashed second)
    (twoFirst : 2 ≤ first.length) (twoSecond : 2 ≤ second.length)
    (above : Above combine (level combine first) (level combine second)) :
    Above combine first second := by
  generalize lowerEq : level combine second = lower at above
  induction above generalizing second with
  | refl =>
    rw [cleanFirst.eq_of_level_eq injective cleanSecond twoFirst twoSecond lowerEq.symm]
    exact .refl
  | @step lower two above ih =>
    subst lowerEq
    exact .step twoSecond (ih (cleanSecond.level injective twoSecond) two rfl)

/-- Two lists with the same top are levels of one tree. -/
theorem Above.comparable {top first second : List α}
    (cleanFirst : Clean combine hashed first) (cleanSecond : Clean combine hashed second)
    (topFirst : Above combine top first) (topSecond : Above combine top second) :
    Above combine first second ∨ Above combine second first := by
  induction topFirst generalizing second with
  | refl => exact .inl topSecond
  | @step nodes two above ih =>
    cases topSecond with
    | refl => exact .inr (.step two above)
    | step two' above' =>
      rcases ih (cleanFirst.level injective two) (cleanSecond.level injective two') above' with
        upward | downward
      · exact .inl (upward.of_level injective cleanFirst cleanSecond two two')
      · exact .inr (downward.of_level injective cleanSecond cleanFirst two' two)

/-- Above the level above, everything is combined from a pair. -/
theorem Above.exists_pair {upper nodes : List α}
    (clean : Clean combine hashed nodes) (two : 2 ≤ nodes.length)
    (above : Above combine upper (level combine nodes)) {node : α} (member : node ∈ upper) :
    ∃ pair ∈ hashed, combine pair = node := by
  generalize lowerEq : level combine nodes = lower at above
  induction above generalizing nodes with
  | refl =>
    subst lowerEq
    obtain ⟨pair, inside, rfl⟩ := List.mem_map.mp member
    exact ⟨pair, clean.mem_hashed two inside, rfl⟩
  | @step lower two' above ih =>
    subst lowerEq
    exact ih (clean.level injective two) two' rfl

end

/-! ## Branches -/

section Branch

variable (combine : α × α → α)

/-- What stands beside a node in its level: a last node alone is its own sibling. -/
def sibling (nodes : List α) (index : Nat) : List α :=
  ((pairs nodes)[index / 2]?.map fun pair => if index % 2 = 1 then pair.1 else pair.2).toList

/-- The siblings of a node and of the nodes above it, level by level. -/
def branch : (fuel : Nat) → List α → Nat → List α
  | fuel + 1, first :: second :: rest, index =>
      sibling (first :: second :: rest) index ++
        branch fuel (level combine (first :: second :: rest)) (index / 2)
  | _, _, _ => []

/-- Combine a node with siblings, one bit of the index a level. -/
def climb : α → List α → Nat → α
  | node, [], _ => node
  | node, sibling :: siblings, index =>
      climb (combine (if index % 2 = 1 then (sibling, node) else (node, sibling))) siblings
        (index / 2)

/-- The pairs that are combined on the way. -/
def climbed : α → List α → Nat → List (α × α)
  | _, [], _ => []
  | node, sibling :: siblings, index =>
      (if index % 2 = 1 then (sibling, node) else (node, sibling)) ::
        climbed (combine (if index % 2 = 1 then (sibling, node) else (node, sibling))) siblings
          (index / 2)

theorem getElem?_pairs {nodes : List α} {index : Nat} {node : α} (here : nodes[index]? = some node) :
    ∃ other, (pairs nodes)[index / 2]? =
      some (if index % 2 = 1 then (other, node) else (node, other)) := by
  induction nodes using pairs.induct generalizing index with
  | case1 => cases here
  | case2 last =>
    obtain rfl : index = 0 := by
      have inside := (List.getElem?_eq_some_iff.mp here).1
      simpa using inside
    exact ⟨node, by simpa [pairs] using here⟩
  | case3 left right rest ih =>
    match index with
    | 0 => exact ⟨right, by simpa [pairs] using here⟩
    | 1 => exact ⟨left, by simpa [pairs] using here⟩
    | index + 2 =>
      obtain ⟨other, found⟩ := @ih index (by simpa using here)
      have half : (index + 2) / 2 = index / 2 + 1 := by omega
      have bit : (index + 2) % 2 = index % 2 := by omega
      exact ⟨other, by rw [pairs, half, bit, List.getElem?_cons_succ, found]⟩

variable {combine}

/-- Climbing from a node along its branch leads to the top. -/
theorem climb_branch {top node : α} {nodes : List α} {fuel index : Nat}
    (above : Above combine [top] nodes) (enough : nodes.length ≤ fuel)
    (here : nodes[index]? = some node) :
    climb combine node (branch combine fuel nodes index) index = top := by
  induction above generalizing fuel index node with
  | refl =>
    obtain rfl : index = 0 := by
      have inside := (List.getElem?_eq_some_iff.mp here).1
      simpa using inside
    have same : top = node := by simpa using here
    cases fuel <;> exact same.symm
  | @step nodes two above ih =>
    rcases nodes with _ | ⟨first, _ | ⟨second, rest⟩⟩
    · cases here
    · simp at two
    · obtain ⟨fuel, rfl⟩ : ∃ less, fuel = less + 1 := ⟨fuel - 1, by simp at enough; omega⟩
      obtain ⟨other, found⟩ := getElem?_pairs here
      have beside : sibling (first :: second :: rest) index = [other] := by
        rw [sibling, found]
        split <;> rfl
      have higher : (level combine (first :: second :: rest))[index / 2]? =
          some (combine (if index % 2 = 1 then (other, node) else (node, other))) := by
        rw [level, List.getElem?_map, found, Option.map_some]
      have shorter : (level combine (first :: second :: rest)).length ≤ fuel := by
        rw [level, List.length_map, length_pairs]
        simp only [List.length_cons] at enough ⊢
        omega
      rw [branch, beside, List.singleton_append, climb]
      exact ih shorter higher

/-- The last pair on the way is combined to what the climb leads to. -/
theorem exists_climbed {node : α} {siblings : List α} {index : Nat} (nonempty : siblings ≠ []) :
    ∃ pair ∈ climbed combine node siblings index, climb combine node siblings index = combine pair := by
  induction siblings generalizing node index with
  | nil => exact absurd rfl nonempty
  | cons sibling siblings ih =>
    rcases siblings with _ | ⟨next, siblings⟩
    · exact ⟨_, List.mem_cons_self, rfl⟩
    · obtain ⟨pair, member, last⟩ := @ih _ (index / 2) (List.cons_ne_nil next siblings)
      exact ⟨pair, List.mem_cons_of_mem _ member, last⟩

theorem branch_ne_nil {nodes : List α} {fuel index : Nat} (two : 2 ≤ nodes.length)
    (enough : nodes.length ≤ fuel) (inside : index < nodes.length) :
    branch combine fuel nodes index ≠ [] := by
  rcases nodes with _ | ⟨first, _ | ⟨second, rest⟩⟩
  · cases inside
  · simp at two
  · obtain ⟨fuel, rfl⟩ : ∃ less, fuel = less + 1 := ⟨fuel - 1, by simp at enough; omega⟩
    obtain ⟨other, found⟩ := getElem?_pairs (List.getElem?_eq_getElem inside)
    rw [branch, sibling, found]
    exact List.cons_ne_nil _ _

end Branch

end DnaPow.Std.PairTree
