import Mathlib.Data.List.Nodup

/-!
# Hash-linked chains

Items that name their predecessor by its hash. A branch is a list of items,
newest first, in which every item names the next one and the last one is the
root. If hashes tell the known items apart, a branch is determined by the hash of
its first item.
-/

namespace DnaPow.Std

/-- How items are linked, and the item that every branch ends in. -/
structure Links (β η : Type*) where
  hash : β → η
  prev : β → η
  height : β → Nat
  root : β

namespace Links

variable {β η κ : Type*} (links : Links β η) (known : β → Prop)

/-- A list of known items, newest first, linked down to the root. -/
inductive Branch : List β → Prop
  | root : Branch [links.root]
  | extend {item parent : β} {below : List β} (rest : Branch (parent :: below))
      (isKnown : known item) (linked : links.prev item = links.hash parent)
      (above : links.height item = links.height parent + 1) :
      Branch (item :: parent :: below)

/-- Hashes tell the known items, and the root, apart as far as links go: an item
with the hash of another has the same predecessor and the same height. -/
structure Faithful : Prop where
  known_root : known links.root
  height_root : links.height links.root = 0
  prev_eq : ∀ item other, known item → known other → links.hash item = links.hash other →
    links.prev item = links.prev other
  height_eq : ∀ item other, known item → known other → links.hash item = links.hash other →
    links.height item = links.height other

variable {links known}

namespace Branch

variable {below : List β} {items : List β} {item : β}

theorem of_cons {item parent : β} (branch : links.Branch known (item :: parent :: below)) :
    links.Branch known (parent :: below) := by
  cases branch with
  | extend rest => exact rest

theorem of_suffix (branch : links.Branch known items)
    (suffix : (item :: below).IsSuffix items) : links.Branch known (item :: below) := by
  induction branch with
  | root =>
    rcases List.suffix_cons_iff.mp suffix with same | lower
    · exact same ▸ .root
    · simp at lower
  | extend rest isKnown linked above ih =>
    rcases List.suffix_cons_iff.mp suffix with same | lower
    · exact same ▸ .extend rest isKnown linked above
    · exact ih lower

theorem known_of_mem (known_root : known links.root)
    (branch : links.Branch known items) : ∀ item ∈ items, known item := by
  induction branch with
  | root => simpa using known_root
  | extend rest isKnown _ _ ih =>
    intro other member
    rcases List.mem_cons.mp member with rfl | member
    · exact isKnown
    · exact ih other member

/-- Below every item of a branch there is a branch. -/
theorem exists_below (branch : links.Branch known items)
    (member : item ∈ items) : ∃ below, links.Branch known (item :: below) := by
  obtain ⟨above, below, rfl⟩ := List.append_of_mem member
  exact ⟨below, branch.of_suffix (List.suffix_append _ _)⟩

/-- The predecessor of an item of a branch is in the branch. -/
theorem exists_parent (height_root : links.height links.root = 0)
    (branch : links.Branch known items) (member : item ∈ items) (positive : links.height item ≠ 0) :
    ∃ parent ∈ items, links.prev item = links.hash parent ∧
      links.height item = links.height parent + 1 := by
  obtain ⟨higher, below, rfl⟩ := List.append_of_mem member
  cases branch.of_suffix (List.suffix_append higher (item :: below)) with
  | root => exact absurd height_root positive
  | @extend _ parent _ _ _ linked above => exact ⟨parent, by simp, linked, above⟩

theorem height_eq_length (height_root : links.height links.root = 0)
    (branch : links.Branch known items) :
    ∀ item ∈ items.head?, links.height item + 1 = items.length := by
  induction branch with
  | root => simp [height_root]
  | extend rest isKnown linked above ih => simpa [above] using ih

/-- Every branch ends in the root. -/
theorem root_mem (branch : links.Branch known items) : links.root ∈ items := by
  induction branch with
  | root => exact List.mem_singleton_self _
  | extend _ _ _ _ ih => exact List.mem_cons_of_mem _ ih

/-- The height of an item tells its place. -/
theorem height_add_eq_length (height_root : links.height links.root = 0)
    (branch : links.Branch known items) {place : Nat}
    (found : items[place]? = some item) : links.height item + place + 1 = items.length := by
  obtain ⟨bound, rfl⟩ := List.getElem?_eq_some_iff.mp found
  have suffix : (items[place] :: items.drop (place + 1)).IsSuffix items := by
    rw [← List.drop_eq_getElem_cons bound]
    exact List.drop_suffix place items
  have length := (branch.of_suffix suffix).height_eq_length height_root _ rfl
  rw [List.length_cons, List.length_drop] at length
  omega

/-- All items below the first one are lower. -/
theorem height_lt (branch : links.Branch known items) :
    items.Pairwise fun item other => links.height other < links.height item := by
  induction branch with
  | root => simp
  | @extend item parent below rest isKnown linked above ih =>
    refine List.pairwise_cons.mpr ⟨fun other member => ?_, ih⟩
    rcases List.mem_cons.mp member with rfl | member
    · omega
    · have := (List.pairwise_cons.mp ih).1 other member
      omega

/-- Every height up to that of the first item occurs. -/
theorem exists_height (height_root : links.height links.root = 0)
    (branch : links.Branch known (item :: below)) {height : Nat}
    (bound : height ≤ links.height item) :
    ∃ other ∈ item :: below, links.height other = height := by
  induction below generalizing item with
  | nil =>
    cases branch
    exact ⟨links.root, by simp, by omega⟩
  | cons parent below ih =>
    cases branch with
    | extend rest isKnown linked above =>
      rcases Nat.lt_or_ge (links.height parent) height with higher | bound
      · exact ⟨item, by simp, by omega⟩
      · obtain ⟨other, member, same⟩ := ih rest bound
        exact ⟨other, List.mem_cons_of_mem _ member, same⟩

/-- Two items of a branch at one height are the same item. -/
theorem eq_of_height (branch : links.Branch known items) {item other : β}
    (member : item ∈ items) (member' : other ∈ items)
    (same : links.height item = links.height other) : item = other := by
  obtain ⟨i, bound, rfl⟩ := List.mem_iff_getElem.mp member
  obtain ⟨j, bound', rfl⟩ := List.mem_iff_getElem.mp member'
  have sorted := List.pairwise_iff_getElem.mp branch.height_lt
  rcases Nat.lt_trichotomy i j with lower | rfl | higher
  · have := sorted i j bound bound' lower
    omega
  · rfl
  · have := sorted j i bound' bound higher
    omega

/-- A branch is read back height by height. -/
theorem filterMap_range (height_root : links.height links.root = 0)
    (branch : links.Branch known items) {read : Nat → Option β}
    (reads : ∀ item ∈ items, read (links.height item) = some item) :
    (List.range items.length).reverse.filterMap read = items := by
  induction branch with
  | root =>
    have atRoot := reads links.root (by simp)
    rw [height_root] at atRoot
    simp [atRoot]
  | @extend item parent below rest isKnown linked above ih =>
    have height := rest.height_eq_length height_root parent rfl
    have atItem := reads item List.mem_cons_self
    rw [above, height] at atItem
    have lower := ih fun other member => reads other (List.mem_cons_of_mem _ member)
    rw [List.length_cons, List.range_succ, List.reverse_append, List.reverse_singleton,
      List.singleton_append, List.filterMap_cons_some atItem, lower]

section Faithful

variable (faithful : links.Faithful known)
include faithful

theorem eq_of_hash {items : List β} (branch : links.Branch known items) {item other : β}
    (member : item ∈ items) (member' : other ∈ items)
    (same : links.hash item = links.hash other) : item = other :=
  branch.eq_of_height member member' <| faithful.height_eq _ _
    (branch.known_of_mem faithful.known_root _ member)
    (branch.known_of_mem faithful.known_root _ member') same

end Faithful

end Branch

end Links

end DnaPow.Std
