import Mathlib.Data.List.Nodup
import Mathlib.Data.Set.List

/-!
# A ring of slots

Items are written to a fixed number of slots one after the other; after the last
slot the first one follows, and earlier items are overwritten. Once as many items
were written as there are slots, every slot is filled, and different slots hold
different items if all items were different.
-/

namespace DnaPow.Std

variable {α : Type*}

/-- Write items to the slots, beginning at the given one. -/
def fillSlots : Nat → List (Option α) → List α → List (Option α) × Nat
  | next, slots, [] => (slots, next)
  | next, slots, item :: items =>
      fillSlots (if next + 1 = slots.length then 0 else next + 1) (slots.set next (some item)) items

/-- No item is in two slots. -/
def SlotsDistinct (slots : List (Option α)) : Prop :=
  ∀ (i j : Nat) (item : α), slots[i]? = some (some item) → slots[j]? = some (some item) → i = j

variable {next : Nat} {slots : List (Option α)} {items : List α}

theorem length_fillSlots : (fillSlots next slots items).1.length = slots.length := by
  induction items generalizing next slots with
  | nil => rfl
  | cons item items ih => rw [fillSlots, ih, List.length_set]

theorem succ_mod_eq (inside : next < slots.length) :
    (if next + 1 = slots.length then 0 else next + 1) = (next + 1) % slots.length := by
  split
  · next last => rw [last, Nat.mod_self]
  · rw [Nat.mod_eq_of_lt (by omega)]

/-- Items may be replaced by what stands for them. -/
theorem fillSlots_map {β : Type*} (image : α → β) :
    fillSlots next (slots.map (Option.map image)) (items.map image) =
      ((fillSlots next slots items).1.map (Option.map image), (fillSlots next slots items).2) := by
  induction items generalizing next slots with
  | nil => rfl
  | cons item items ih =>
    rw [List.map_cons, fillSlots, fillSlots, ← ih, List.map_set, List.length_map]
    rfl

/-- The slot after the last one that was written. -/
theorem fillSlots_next (inside : next < slots.length) :
    (fillSlots next slots items).2 = (next + items.length) % slots.length := by
  induction items generalizing next slots with
  | nil => exact (Nat.mod_eq_of_lt inside).symm
  | cons item items ih =>
    have bound := Nat.mod_lt (next + 1) (Nat.zero_lt_of_lt inside)
    rw [fillSlots, succ_mod_eq inside, ih (by rwa [List.length_set]), List.length_set,
      Nat.mod_add_mod, List.length_cons]
    congr 1
    omega

/-- Writing does not empty a slot. -/
theorem fillSlots_keeps {place : Nat} {item : α} (filled : slots[place]? = some (some item)) :
    ∃ later, (fillSlots next slots items).1[place]? = some (some later) := by
  induction items generalizing next slots item with
  | nil => exact ⟨item, filled⟩
  | cons first items ih =>
    rw [fillSlots]
    by_cases here : next = place
    · subst here
      have bound := (List.getElem?_eq_some_iff.mp filled).1
      exact ih (List.getElem?_set_self bound)
    · exact ih ((List.getElem?_set_ne here).trans filled)

/-- Every slot within reach is filled. -/
theorem fillSlots_filled (inside : next < slots.length) {offset : Nat}
    (reached : offset < items.length) :
    ∃ item, (fillSlots next slots items).1[(next + offset) % slots.length]? = some (some item) := by
  induction items generalizing next slots offset with
  | nil => simp at reached
  | cons item items ih =>
    have bound := Nat.mod_lt (next + 1) (Nat.zero_lt_of_lt inside)
    rw [fillSlots, succ_mod_eq inside]
    cases offset with
    | zero =>
      have start : (next + 0) % slots.length = next := Nat.mod_eq_of_lt inside
      rw [start]
      exact fillSlots_keeps (List.getElem?_set_self inside)
    | succ offset =>
      have later := @ih ((next + 1) % slots.length) (slots.set next (some item))
        (by rwa [List.length_set]) offset (by simpa using reached)
      rw [List.length_set, Nat.mod_add_mod] at later
      rwa [show next + (offset + 1) = next + 1 + offset by omega]

/-- The slots hold no item but the written ones and those there were. -/
theorem mem_fillSlots {item : α} (member : some item ∈ (fillSlots next slots items).1) :
    item ∈ items ∨ some item ∈ slots := by
  induction items generalizing next slots with
  | nil => exact .inr member
  | cons first items ih =>
    rw [fillSlots] at member
    rcases ih member with later | earlier
    · exact .inl (List.mem_cons_of_mem _ later)
    · rcases List.mem_or_eq_of_mem_set earlier with before | same
      · exact .inr before
      · exact .inl (Option.some.inj same ▸ List.mem_cons_self)

theorem fillSlots_distinct (distinct : SlotsDistinct slots) (nodup : items.Nodup)
    (fresh : ∀ item ∈ items, some item ∉ slots) :
    SlotsDistinct (fillSlots next slots items).1 := by
  induction items generalizing next slots with
  | nil => exact distinct
  | cons first items ih =>
    obtain ⟨other, nodup⟩ := List.nodup_cons.mp nodup
    rw [fillSlots]
    refine ih ?_ nodup ?_
    · -- The new item is in no other slot.
      intro i j item atI atJ
      rw [List.getElem?_set] at atI atJ
      have absent : ∀ place, slots[place]? ≠ some (some first) := fun place found =>
        fresh first List.mem_cons_self (List.mem_of_getElem? found)
      split at atI <;> split at atJ
      · omega
      · next same _ =>
        split at atI <;> simp at atI
        exact absurd (atI ▸ atJ) (absent j)
      · split at atJ <;> simp at atJ
        exact absurd (atJ ▸ atI) (absent i)
      · exact distinct i j item atI atJ
    · intro item member inSlots
      rcases List.mem_or_eq_of_mem_set inSlots with before | same
      · exact fresh item (List.mem_cons_of_mem _ member) before
      · exact other (Option.some.inj same ▸ member)

/-- Empty slots that are filled at least once around: each holds an item of its own. -/
theorem exists_of_fillSlots {count : Nat} (inside : next < count) (nodup : items.Nodup)
    (enough : count ≤ items.length) :
    ∃ values : List α, fillSlots next (List.replicate count none) items =
        (values.map some, (next + items.length) % count) ∧
      values.length = count ∧ values.Nodup ∧ values ⊆ items := by
  have length : (List.replicate count (none : Option α)).length = count := List.length_replicate
  have distinct : SlotsDistinct (fillSlots next (List.replicate count none) items).1 := by
    refine fillSlots_distinct ?_ nodup (by simp)
    intro i j item found
    simp [List.getElem?_replicate] at found
  have full : ∀ place < count, ∃ item,
      (fillSlots next (List.replicate count none) items).1[place]? = some (some item) := by
    intro place bound
    -- The slot is reached after going forward from the first one.
    have offset : (place + count - next) % count < items.length :=
      Nat.lt_of_lt_of_le (Nat.mod_lt _ (by omega)) enough
    have reached := @fillSlots_filled α next (List.replicate count none) items (by rwa [length]) _ offset
    rw [length, Nat.add_mod_mod, show next + (place + count - next) = place + count by omega,
      Nat.add_mod_right, Nat.mod_eq_of_lt bound] at reached
    exact reached
  have ended : (fillSlots next (List.replicate count none) items).2 =
      (next + items.length) % count := by
    rw [fillSlots_next (by rwa [length]), length]
  have inItems : ∀ item, some item ∈ (fillSlots next (List.replicate count none) items).1 →
      item ∈ items := by
    intro item member
    rcases mem_fillSlots member with written | before
    · exact written
    · simp at before
  have size : (fillSlots next (List.replicate count (none : Option α)) items).1.length = count := by
    rw [length_fillSlots, length]
  generalize fillSlots next (List.replicate count none) items = filled at *
  obtain ⟨slots, index⟩ := filled
  dsimp only at *
  obtain ⟨values, rfl⟩ : slots ∈ Set.range (List.map some) := by
    rw [Set.range_list_map]
    intro slot member
    obtain ⟨place, bound, rfl⟩ := List.getElem_of_mem member
    obtain ⟨item, found⟩ := full place (by omega)
    exact ⟨item, (List.getElem?_eq_some_iff.mp found).2.symm⟩
  refine ⟨values, by rw [ended], by simpa using size, ?_, fun item member => ?_⟩
  · refine List.nodup_iff_injective_get.mpr fun i j same => ?_
    refine Fin.ext (distinct i j (values.get i) ?_ ?_)
    · simp
    · rw [same]
      simp
  · exact inItems item (List.mem_map_of_mem member)

end DnaPow.Std
