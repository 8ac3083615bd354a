import Mathlib.Data.Set.Card

/-!
# A memory of the last items

A ring of a fixed number of slots, in which an item overwrites the oldest one, and a
map from the items to their slots. `RecentItems.Remembers` relates a memory to the
list of all items that were put into it: it knows the last of them.
-/

namespace DnaPow.Std

/-- The ring, the map and the item that was put in last. -/
structure RecentItems (α : Type) where
  last : α
  index : Nat
  slots : Nat → α
  position : α → Option Nat

namespace RecentItems

variable {α : Type} [DecidableEq α] {capacity : Nat} {blank item other : α}
  {items : List α} {memory : RecentItems α}

/-- Nothing was put in. The slots hold a blank item. -/
def init (blank : α) : RecentItems α where
  last := blank
  index := 0
  slots _ := blank
  position _ := none

/-- Put an item into the slot of the oldest one. -/
def add (capacity : Nat) (memory : RecentItems α) (item : α) : RecentItems α where
  last := item
  index := (memory.index + 1) % capacity
  slots := Function.update memory.slots memory.index item
  position := Function.update (Function.update memory.position (memory.slots memory.index) none)
    item (some memory.index)

/-- Whether an item is known. -/
def knows (memory : RecentItems α) (item : α) : Bool :=
  item = memory.last ∨ (memory.position item).isSome

/-- The last items of a list. -/
def recent (capacity : Nat) (items : List α) : List α := items.drop (items.length - capacity)

/-- The memory after items other than the blank one have been put in, each while it was not known. -/
inductive Remembers (capacity : Nat) (blank : α) : List α → RecentItems α → Prop
  | init : Remembers capacity blank [] (.init blank)
  | add {items : List α} {memory : RecentItems α} {item : α}
      (before : Remembers capacity blank items memory) (notBlank : item ≠ blank)
      (unknown : memory.knows item = false) :
      Remembers capacity blank (items ++ [item]) (memory.add capacity item)

/-- The slots and the map after the given items: the item with number `i` was put into
slot `i % capacity`. -/
structure Holds (capacity : Nat) (blank : α) (items : List α) (memory : RecentItems α) : Prop where
  index : memory.index = items.length % capacity
  last : memory.last = items.getLast?.getD blank
  notBlank : blank ∉ items
  written : ∀ i item, items[i]? = some item → items.length ≤ i + capacity →
    memory.slots (i % capacity) = item
  unwritten : ∀ slot, items.length ≤ slot → slot < capacity → memory.slots slot = blank
  position : ∀ item slot, memory.position item = some slot ↔
    ∃ i, items[i]? = some item ∧ items.length ≤ i + capacity ∧ slot = i % capacity

theorem mem_recent {α : Type} {capacity : Nat} {items : List α} {item : α} :
    item ∈ recent capacity items ↔ ∃ i, items[i]? = some item ∧ items.length ≤ i + capacity := by
  rw [recent, List.mem_iff_getElem?]
  simp only [List.getElem?_drop]
  constructor
  · rintro ⟨i, found⟩
    exact ⟨_, found, by omega⟩
  · rintro ⟨i, found, late⟩
    refine ⟨i - (items.length - capacity), ?_⟩
    rwa [Nat.add_sub_cancel' (by omega)]

theorem getElem?_concat_eq_some {α : Type} {items : List α} {item other : α} {i : Nat} :
    (items ++ [item])[i]? = some other ↔
      items[i]? = some other ∨ i = items.length ∧ item = other := by
  rcases Nat.lt_trichotomy i items.length with inside | rfl | beyond
  · rw [List.getElem?_append_left inside]
    exact (or_iff_left fun atEnd => absurd atEnd.1 (Nat.ne_of_lt inside)).symm
  · simp
  · have outside : items[i]? = none := List.getElem?_eq_none (Nat.le_of_lt beyond)
    have outside' : (items ++ [item])[i]? = none := List.getElem?_eq_none (by simp; omega)
    simp [outside, outside', Nat.ne_of_gt beyond]

/-- Numbers that are less than the capacity apart belong to different slots. -/
theorem mod_ne_mod {capacity i j : Nat} (before : i < j) (close : j < i + capacity) :
    i % capacity ≠ j % capacity := by
  intro same
  have multiple := Nat.sub_mod_eq_zero_of_mod_eq same.symm
  rw [Nat.mod_eq_of_lt (by omega)] at multiple
  omega

namespace Holds

variable (holds : Holds capacity blank items memory)
include holds

omit [DecidableEq α] in
/-- The map has an entry for each of the last items, and no other. -/
theorem isSome_position_iff : (memory.position item).isSome ↔ item ∈ recent capacity items := by
  simp only [mem_recent, Option.isSome_iff_exists, holds.position]
  constructor
  · rintro ⟨_, i, found, late, -⟩
    exact ⟨i, found, late⟩
  · rintro ⟨i, found, late⟩
    exact ⟨_, i, found, late, rfl⟩

theorem encard_position_le : {item | (memory.position item).isSome}.encard ≤ capacity := by
  have entries : {item | (memory.position item).isSome} = ((recent capacity items).toFinset : Set α) := by
    ext item
    simp [holds.isSome_position_iff]
  have few : (recent capacity items).length ≤ capacity := by
    rw [recent, List.length_drop]
    omega
  rw [entries, Set.encard_coe_eq_coe_finsetCard]
  exact_mod_cast (List.toFinset_card_le _).trans few

/-- The memory knows the last items. -/
theorem knows_iff (room : 0 < capacity) (notBlank : item ≠ blank) :
    memory.knows item = true ↔ item ∈ recent capacity items := by
  rw [knows, decide_eq_true_eq, holds.isSome_position_iff, or_iff_right_of_imp]
  intro isLast
  rw [holds.last] at isLast
  rcases List.eq_nil_or_concat items with rfl | ⟨before, last, rfl⟩
  · exact absurd isLast notBlank
  · refine mem_recent.mpr ⟨before.length, ?_, by simp; omega⟩
    simpa using isLast.symm

omit [DecidableEq α] in
/-- What is overwritten is the oldest item that is known, or a blank one. -/
theorem oldest {i : Nat} (found : items[i]? = some (memory.slots memory.index))
    (late : items.length ≤ i + capacity) : items.length = i + capacity := by
  have bound := (List.getElem?_eq_some_iff.mp found).1
  have slot := (holds.position _ _).mpr ⟨i, found, late, rfl⟩
  rw [holds.index] at found slot
  rcases Nat.lt_or_ge items.length capacity with few | many
  · rw [Nat.mod_eq_of_lt few, holds.unwritten _ (Nat.le_refl _) few] at found
    exact absurd (List.mem_of_getElem? found) holds.notBlank
  -- the oldest item is in that slot, and an item is in one slot only
  have isOld := List.getElem?_eq_getElem (show items.length - capacity < items.length by omega)
  have same := holds.written _ _ isOld (by omega)
  rw [← Nat.mod_eq_sub_mod many] at same
  rw [same, (holds.position _ _).mpr ⟨_, isOld, by omega, rfl⟩] at slot
  by_contra notOldest
  exact mod_ne_mod (show items.length - capacity < i by omega) (by omega) (Option.some.inj slot)

theorem add (room : 0 < capacity) (notBlank : item ≠ blank) (unknown : memory.knows item = false) :
    Holds capacity blank (items ++ [item]) (memory.add capacity item) where
  index := by simp [RecentItems.add, holds.index]
  last := by simp [RecentItems.add]
  notBlank := by simp [holds.notBlank, notBlank.symm]
  written i other found late := by
    rw [List.length_append, List.length_singleton] at late
    rw [RecentItems.add, holds.index]
    dsimp only
    rcases getElem?_concat_eq_some.mp found with old | ⟨rfl, rfl⟩
    · have bound := (List.getElem?_eq_some_iff.mp old).1
      rw [Function.update_of_ne (mod_ne_mod bound (by omega))]
      exact holds.written i other old (by omega)
    · exact Function.update_self ..
  unwritten slot high low := by
    rw [List.length_append, List.length_singleton] at high
    rw [RecentItems.add, holds.index, Nat.mod_eq_of_lt (show items.length < capacity by omega)]
    dsimp only
    rw [Function.update_of_ne (show slot ≠ items.length by omega)]
    exact holds.unwritten slot (by omega) low
  position other slot := by
    have absent : memory.position item = none := by
      simp only [knows, decide_eq_false_iff_not, not_or] at unknown
      simpa using unknown.2
    simp only [getElem?_concat_eq_some, List.length_append, List.length_singleton, RecentItems.add,
      Function.update_apply]
    split_ifs with isNew isOld
    · -- the new item is in no other slot
      subst isNew
      constructor
      · intro same
        exact ⟨_, .inr ⟨rfl, rfl⟩, by omega, by rw [← Option.some.inj same, holds.index]⟩
      · rintro ⟨i, old | ⟨rfl, -⟩, late, rfl⟩
        · have known := (holds.position _ _).mpr ⟨i, old, by omega, rfl⟩
          rw [absent] at known
          cases known
        · rw [holds.index]
    · -- the item that was overwritten is gone
      subst isOld
      constructor
      · nofun
      · rintro ⟨i, old | ⟨-, same⟩, late, -⟩
        · have := holds.oldest old (by omega)
          omega
        · exact absurd same.symm isNew
    · rw [holds.position]
      constructor
      · rintro ⟨i, old, late, rfl⟩
        refine ⟨i, .inl old, ?_, rfl⟩
        rcases Nat.lt_or_ge items.length (i + capacity) with early | last
        · exact early
        · have same := holds.written i other old late
          have bound := (List.getElem?_eq_some_iff.mp old).1
          have slot : i % capacity = items.length % capacity := by
            rw [show items.length = i + capacity by omega, Nat.add_mod_right]
          rw [slot, ← holds.index] at same
          exact absurd same.symm isOld
      · rintro ⟨i, old | ⟨-, same⟩, late, rfl⟩
        · exact ⟨i, old, by omega, rfl⟩
        · exact absurd same.symm isNew

end Holds

theorem Remembers.holds (room : 0 < capacity)
    (remembers : Remembers capacity blank items memory) : Holds capacity blank items memory := by
  induction remembers with
  | init =>
    exact ⟨rfl, rfl, List.not_mem_nil, by simp, fun _ _ _ => rfl, by simp [RecentItems.init]⟩
  | add before notBlank unknown ih => exact ih.add room notBlank unknown

end RecentItems

end DnaPow.Std
