import Mathlib.Data.List.Nodup
import Mathlib.Data.List.Perm.Basic

/-!
# Key-value maps and batches

A map is a partial function. A batch is built from an overlay that holds the new
value of every key it touches; writing it replaces those keys and deletes the
ones whose new value is empty.
-/

namespace DnaPow.Std

variable {κ α β : Type*}

/-! ## Tables and their entries -/

/-- A table holds exactly the given entries. -/
def Holds (table : κ → Option α) (entries : List (κ × α)) : Prop :=
  ∀ key value, table key = some value ↔ (key, value) ∈ entries

namespace Holds

variable {table : κ → Option α} {entries : List (κ × α)}

/-- No key has two values. -/
theorem functional (holds : Holds table entries) {key : κ} {value value' : α}
    (member : (key, value) ∈ entries) (member' : (key, value') ∈ entries) : value = value' :=
  Option.some.inj <| ((holds key value).mpr member).symm.trans ((holds key value').mpr member')

theorem eq_none_iff (holds : Holds table entries) {key : κ} :
    table key = none ↔ key ∉ entries.map Prod.fst := by
  rw [Option.eq_none_iff_forall_ne_some]
  simp [holds key]

end Holds

/-! ## Writing -/

section Maps

variable [DecidableEq κ]

/-- Set or delete one key. -/
abbrev write (map : κ → Option α) (key : κ) (value : Option α) : κ → Option α :=
  Function.update map key value

theorem write_apply (map : κ → Option α) (key k : κ) (value : Option α) :
    write map key value k = if k = key then value else map k :=
  Function.update_apply map key value k

section FoldWrite

variable {key : β → κ} {value : β → Option α} {map : κ → Option α} {items : List β}

/-- Writing a list of entries leaves the other keys alone. -/
theorem foldl_write_of_not_mem {k : κ} (other : k ∉ items.map key) :
    items.foldl (fun map item => write map (key item) (value item)) map k = map k := by
  induction items generalizing map with
  | nil => rfl
  | cons item items ih =>
    simp only [List.map_cons, List.mem_cons, not_or] at other
    rw [List.foldl_cons, ih other.2, write_apply, if_neg other.1]

/-- A key that is written, and always with one value, has that value afterwards. -/
theorem foldl_write_of_mem {k : κ} {v : Option α} (written : k ∈ items.map key)
    (agree : ∀ item ∈ items, key item = k → value item = v) :
    items.foldl (fun map item => write map (key item) (value item)) map k = v := by
  induction items generalizing map with
  | nil => cases written
  | cons item items ih =>
    rw [List.foldl_cons]
    by_cases later : k ∈ items.map key
    · exact ih later fun other member => agree other (List.mem_cons_of_mem _ member)
    · have here : k = key item := (List.mem_cons.mp written).resolve_right later
      rw [foldl_write_of_not_mem later, write_apply, if_pos here]
      exact agree item List.mem_cons_self here.symm

/-- Writing new keys and deleting them again changes nothing. -/
theorem foldl_write_none (fresh : ∀ item ∈ items, map (key item) = none) :
    items.foldl (fun map item => write map (key item) none)
      (items.foldl (fun map item => write map (key item) (value item)) map) = map := by
  funext k
  by_cases written : k ∈ items.map key
  · obtain ⟨item, member, rfl⟩ := List.mem_map.mp written
    rw [foldl_write_of_mem written fun _ _ _ => rfl, fresh item member]
  · rw [foldl_write_of_not_mem written, foldl_write_of_not_mem written]

end FoldWrite

namespace Holds

variable {table : κ → Option α} {entries batch : List (κ × α)}

/-- Put a batch of new entries in. -/
theorem insert (holds : Holds table entries) (distinct : (batch.map Prod.fst).Nodup)
    (fresh : ∀ entry ∈ batch, table entry.1 = none) :
    Holds (batch.foldl (fun table entry => write table entry.1 (some entry.2)) table)
      (batch ++ entries) := by
  intro key value
  by_cases written : key ∈ batch.map Prod.fst
  · obtain ⟨⟨key, value'⟩, member, rfl⟩ := List.mem_map.mp written
    have absent := holds.eq_none_iff.mp (fresh _ member)
    have unique : ∀ entry ∈ batch, entry.1 = key → some entry.2 = some value' := by
      intro entry member' same
      rw [List.inj_on_of_nodup_map distinct member' member same]
    rw [foldl_write_of_mem written unique, Option.some_inj]
    constructor
    · rintro rfl
      exact List.mem_append_left _ member
    · intro member'
      rcases List.mem_append.mp member' with member' | old
      · exact (Option.some.inj (unique _ member' rfl)).symm
      · exact absurd (List.mem_map_of_mem old) absent
  · rw [foldl_write_of_not_mem written, holds key value, List.mem_append]
    constructor
    · exact .inr
    · rintro (member | old)
      · exact absurd (List.mem_map_of_mem member) written
      · exact old

theorem insert_one {key : κ} {value : α} (holds : Holds table entries)
    (fresh : table key = none) : Holds (write table key (some value)) ((key, value) :: entries) :=
  have only : ∀ entry ∈ [(key, value)], table entry.1 = none := by simpa using fresh
  holds.insert (by simp) only

/-- Take a batch of entries out again. -/
theorem delete (holds : Holds table (batch ++ entries))
    (apart : ∀ entry ∈ batch, entry.1 ∉ entries.map Prod.fst) :
    Holds (batch.foldl (fun table entry => write table entry.1 none) table) entries := by
  intro key value
  by_cases deleted : key ∈ batch.map Prod.fst
  · rw [foldl_write_of_mem deleted fun _ _ _ => rfl]
    obtain ⟨entry, member, rfl⟩ := List.mem_map.mp deleted
    constructor
    · exact nofun
    · intro kept
      exact absurd (List.mem_map_of_mem kept) (apart entry member)
  · rw [foldl_write_of_not_mem deleted, holds key value, List.mem_append]
    constructor
    · rintro (member | kept)
      · exact absurd (List.mem_map_of_mem member) deleted
      · exact kept
    · exact .inr

theorem delete_one {key : κ} {value : α} (holds : Holds table ((key, value) :: entries))
    (apart : key ∉ entries.map Prod.fst) : Holds (write table key none) entries :=
  have only : ∀ entry ∈ [(key, value)], entry.1 ∉ entries.map Prod.fst := by simpa using apart
  have holds : Holds table ([(key, value)] ++ entries) := holds
  holds.delete only

end Holds

end Maps

/-! ## Overlays of lists -/

/-- Read a key through an overlay. -/
def readThrough (overlay map : κ → Option α) (key : κ) : Option α :=
  (overlay key).or (map key)

/-- Write an overlay of lists, where an empty list deletes its key. -/
def writeLists (map overlay : κ → Option (List α)) (key : κ) : Option (List α) :=
  match overlay key with
  | none => map key
  | some [] => none
  | some (first :: rest) => some (first :: rest)

/-- The items of a key; a key that is missing has none. -/
def itemsOf (map : κ → Option (List α)) (key : κ) : List α := (map key).getD []

variable {map overlay : κ → Option (List α)} {key : κ}

theorem itemsOf_eq_of_some {items : List α} (found : map key = some items) :
    itemsOf map key = items := by
  rw [itemsOf, found, Option.getD_some]

theorem exists_of_mem_itemsOf {item : α} (member : item ∈ itemsOf map key) :
    ∃ items, map key = some items ∧ item ∈ items := by
  unfold itemsOf at member
  cases found : map key with
  | none => simp [found] at member
  | some items => exact ⟨items, rfl, by simpa [found] using member⟩

theorem itemsOf_writeLists : itemsOf (writeLists map overlay) key =
    itemsOf (readThrough overlay map) key := by
  unfold itemsOf writeLists readThrough
  rcases overlay key with - | - | - <;> rfl

/-- Writing lists stores no empty one. -/
theorem writeLists_ne_nil (nonempty : ∀ key, map key ≠ some []) (key : κ) :
    writeLists map overlay key ≠ some [] := by
  unfold writeLists
  rcases overlay key with - | - | - <;> simp [nonempty]

theorem itemsOf_eq_nil_iff (nonempty : map key ≠ some []) :
    itemsOf map key = [] ↔ map key = none := by
  unfold itemsOf
  cases found : map key with
  | none => simp
  | some items => simpa [found] using nonempty

section Write

variable [DecidableEq κ]

theorem readThrough_write {k : κ} {value : α} {map overlay : κ → Option α} :
    readThrough (write overlay k (some value)) map key =
      if key = k then some value else readThrough overlay map key := by
  unfold readThrough
  rw [write_apply]
  split <;> rfl

theorem itemsOf_readThrough_write {k : κ} {items : List α} :
    itemsOf (readThrough (write overlay k (some items)) map) key =
      if key = k then items else itemsOf (readThrough overlay map) key := by
  unfold itemsOf
  rw [readThrough_write]
  split <;> rfl

end Write

variable {list : List α}

/-! ## Removal by moving the last element -/

/-- Replace the element at an index by the last one and drop the last one. -/
def swapRemove (list : List α) (index : Nat) : List α :=
  match list.getLast? with
  | some last => (list.set index last).dropLast
  | none => []

/-- The order apart, this removes the element at the index. -/
theorem swapRemove_perm {index : Nat} (bound : index < list.length) :
    (swapRemove list index).Perm (list.eraseIdx index) := by
  rcases List.eq_nil_or_concat list with rfl | ⟨front, last, rfl⟩
  · simp at bound
  · simp only [List.concat_eq_append] at bound ⊢
    have removed : swapRemove (front ++ [last]) index =
        ((front ++ [last]).set index last).dropLast := by
      simp [swapRemove]
    have kept : ((front ++ [last]).set index last).dropLast ++ [last] =
        (front ++ [last]).set index last := by
      rcases Nat.lt_or_ge index front.length with inside | atEnd
      · simp [List.set_append_left _ _ inside]
      · obtain rfl : index = front.length := by
          rw [List.length_append, List.length_singleton] at bound
          omega
        simp [List.set_append_right]
    have moved := List.set_perm_cons_eraseIdx bound last
    rw [← kept, ← removed] at moved
    exact (List.perm_cons last).mp ((List.perm_append_singleton ..).symm.trans moved)

theorem findIdx?_getD_lt (nonempty : list ≠ []) (test : α → Bool) :
    (list.findIdx? test).getD 0 < list.length := by
  cases found : list.findIdx? test with
  | none => exact List.length_pos_iff.mpr nonempty
  | some position => exact (List.findIdx?_eq_some_iff_getElem.mp found).1

/-- Removing the first match that way removes the item, if no other item matches. -/
theorem swapRemove_of_mem [DecidableEq α] {item : α} (member : item ∈ list)
    (test : α → Bool) (tests : ∀ other ∈ list, test other ↔ other = item) :
    ∃ index, list.findIdx? test = some index ∧
      (swapRemove list index).Perm (list.erase item) := by
  have found : (list.findIdx? test).isSome := by
    rw [List.findIdx?_isSome, List.any_eq_true]
    exact ⟨item, member, (tests item member).mpr rfl⟩
  obtain ⟨index, isIndex⟩ := Option.isSome_iff_exists.mp found
  obtain ⟨bound, passed, -⟩ := List.findIdx?_eq_some_iff_getElem.mp isIndex
  have same : list[index] = item := (tests _ (List.getElem_mem bound)).mp passed
  have erased := (List.getElem_cons_eraseIdx_perm bound).trans (List.perm_cons_erase member)
  rw [same, List.perm_cons] at erased
  exact ⟨index, isIndex, (swapRemove_perm bound).trans erased⟩

end DnaPow.Std
