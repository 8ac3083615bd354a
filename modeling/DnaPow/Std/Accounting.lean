import Mathlib.Algebra.BigOperators.Group.List.Basic
import Mathlib.Algebra.Order.Group.Nat
import Mathlib.Algebra.Order.Monoid.Canonical.Basic
import Mathlib.Algebra.Order.Pi
import Mathlib.Tactic.Abel
import DnaPow.Std.Overlay

/-!
# Accounts

An account says how many of each item a state holds. A step adds some items and
removes others: what it leaves, with what it removed, is what there was, with what
it added. Stated as sums, steps compose by adding them up.
-/

namespace DnaPow.Std

variable {σ τ ι κ α : Type*}

/-! ## Sequences of steps -/

section Folds

variable {m : Type _ → Type _} [Monad m] [LawfulMonad m] {step : σ → τ → m σ}
  (amount : σ → ι → Nat) (added removed : τ → ι → Nat) {items : List τ}

/-- If each step succeeds where there is enough to remove, so does a sequence of
steps, and its account is the sum of theirs. A step may rely on a property of the
items that are there, if all items that are added have it. -/
theorem foldlM_account_of (valid : ι → Prop)
    (steps : ∀ item ∈ items, ∀ state, (∀ i, 0 < amount state i → valid i) →
      removed item ≤ amount state →
      ∃ state', step state item = pure state' ∧
        amount state' + removed item = amount state + added item)
    (addsValid : ∀ item ∈ items, ∀ i, 0 < added item i → valid i)
    (state : σ) (isValid : ∀ i, 0 < amount state i → valid i)
    (enough : (items.map removed).sum ≤ amount state) :
    ∃ state', items.foldlM step state = pure state' ∧
      amount state' + (items.map removed).sum = amount state + (items.map added).sum := by
  induction items generalizing state with
  | nil => exact ⟨state, rfl, rfl⟩
  | cons item items ih =>
    obtain ⟨stepFirst, steps⟩ := List.forall_mem_cons.mp steps
    obtain ⟨firstValid, addsValid⟩ := List.forall_mem_cons.mp addsValid
    simp only [List.map_cons, List.sum_cons] at enough ⊢
    obtain ⟨middle, first, account⟩ := stepFirst state isValid (le_self_add.trans enough)
    have middleValid : ∀ i, 0 < amount middle i → valid i := by
      intro i positive
      have here := congrFun account i
      simp only [Pi.add_apply] at here
      rcases Nat.eq_zero_or_pos (amount state i) with none | some
      · exact firstValid i (by omega)
      · exact isValid i some
    have enoughLeft : (items.map removed).sum ≤ amount middle := by
      refine Pi.le_def.mpr fun i => ?_
      have total := Pi.le_def.mp enough i
      have here := congrFun account i
      simp only [Pi.add_apply] at total here
      omega
    obtain ⟨last, rest, account'⟩ := ih steps addsValid middle middleValid enoughLeft
    refine ⟨last, by rw [List.foldlM_cons, first, pure_bind, rest], ?_⟩
    calc amount last + (removed item + (items.map removed).sum)
        = amount last + (items.map removed).sum + removed item := by abel
      _ = amount middle + removed item + (items.map added).sum := by rw [account']; abel
      _ = amount state + (added item + (items.map added).sum) := by rw [account]; abel

theorem foldlM_account
    (steps : ∀ item ∈ items, ∀ state, removed item ≤ amount state →
      ∃ state', step state item = pure state' ∧
        amount state' + removed item = amount state + added item)
    (state : σ) (enough : (items.map removed).sum ≤ amount state) :
    ∃ state', items.foldlM step state = pure state' ∧
      amount state' + (items.map removed).sum = amount state + (items.map added).sum :=
  foldlM_account_of amount added removed (fun _ => True)
    (fun item member state _ => steps item member state) (fun _ _ _ _ => trivial) state
    (fun _ _ => trivial) enough

/-- The same for steps that only add. -/
theorem foldl_account {step : σ → τ → σ}
    (steps : ∀ item ∈ items, ∀ state, amount (step state item) = amount state + added item)
    (state : σ) : amount (items.foldl step state) = amount state + (items.map added).sum := by
  induction items generalizing state with
  | nil => rfl
  | cons item items ih =>
    obtain ⟨stepFirst, steps⟩ := List.forall_mem_cons.mp steps
    rw [List.foldl_cons, ih steps, stepFirst, List.map_cons, List.sum_cons, add_assoc]

end Folds

/-! ## Lists as accounts -/

section Lists

variable [DecidableEq α] {items : List α} {item : α}

/-- How often each item occurs. -/
def occurrences (items : List α) : α → Nat := fun item => items.count item

@[simp] theorem occurrences_nil : occurrences ([] : List α) = 0 := rfl

@[simp] theorem occurrences_append (items others : List α) :
    occurrences (items ++ others) = occurrences items + occurrences others :=
  funext fun _ => List.count_append

/-- The sum of the accounts of several lists, looked at through a view. -/
theorem sum_occurrences_view {β : Type*} (view : β → α) (lists : List τ) (items : τ → List α) :
    (lists.map fun list place => occurrences (items list) (view place)).sum =
      fun place => occurrences (lists.flatMap items) (view place) := by
  induction lists with
  | nil => rfl
  | cons list lists ih =>
    rw [List.map_cons, List.sum_cons, ih, List.flatMap_cons, occurrences_append]
    rfl

theorem sum_occurrences (lists : List τ) (items : τ → List α) :
    (lists.map fun list => occurrences (items list)).sum = occurrences (lists.flatMap items) :=
  sum_occurrences_view id lists items

theorem occurrences_singleton_self (item : α) : occurrences [item] item = 1 :=
  List.count_singleton_self

theorem occurrences_pos : 0 < occurrences items item ↔ item ∈ items :=
  List.count_pos_iff

theorem occurrences_eq_zero (absent : item ∉ items) :
    occurrences items item = 0 :=
  List.count_eq_zero.mpr absent

theorem occurrences_le_one : items.Nodup ↔ ∀ item, occurrences items item ≤ 1 :=
  List.nodup_iff_count_le_one

/-- Distinct items that are all there. -/
theorem occurrences_le_of_subset {amount : α → Nat} (nodup : items.Nodup)
    (subset : ∀ item ∈ items, 0 < amount item) : occurrences items ≤ amount := by
  intro item
  by_cases member : item ∈ items
  · exact (occurrences_le_one.mp nodup item).trans (subset item member)
  · simp [occurrences_eq_zero member]

/-- A partial renaming that is injective renames the account. -/
theorem occurrences_filterMap {β : Type*} [DecidableEq β] {f : α → Option β}
    (injective : ∀ item other image, f item = some image → f other = some image → item = other)
    {image : β} (renamed : f item = some image) (items : List α) :
    occurrences (items.filterMap f) image = occurrences items item := by
  rw [occurrences, occurrences, List.count, List.count, List.countP_filterMap]
  refine List.countP_congr fun other _ => ?_
  cases here : f other with
  | none =>
    have different : other ≠ item := fun same => by simp [same, renamed] at here
    simp [different]
  | some image' =>
    simp only [Option.map_some, Option.getD_some, beq_iff_eq]
    constructor
    · rintro rfl
      exact injective _ _ _ here renamed
    · rintro rfl
      exact Option.some.inj (here.symm.trans renamed)

/-- An injective renaming renames the account. -/
theorem occurrences_map {β : Type*} [DecidableEq β] {f : α → β} (injective : f.Injective)
    (items : List α) (item : α) : occurrences (items.map f) (f item) = occurrences items item :=
  List.count_map_of_injective items f injective item

end Lists

/-! ## Tables of lists -/

section Tables

variable [DecidableEq α] {table overlay : κ → Option (List α)} {key : κ}

/-- How often each item is listed under each key. -/
def listed (map : κ → Option (List α)) : κ × α → Nat := fun (key, item) =>
  (itemsOf map key).count item

theorem listed_pos {map : κ → Option (List α)} {item : α} :
    0 < listed map (key, item) ↔ item ∈ itemsOf map key :=
  List.count_pos_iff

/-- Two tables with the same account have the same lists up to order. -/
theorem perm_of_listed_eq {map map' : κ → Option (List α)} (same : listed map = listed map')
    (key : κ) : (itemsOf map key).Perm (itemsOf map' key) :=
  List.perm_iff_count.mpr fun item => congrFun same (key, item)

theorem listed_writeLists : listed (writeLists table overlay) = listed (readThrough overlay table) :=
  funext fun (_, item) => congrArg (List.count item) itemsOf_writeLists

variable [DecidableEq κ]

/-- If a list holds what the pairs with its key hold, it is as long as there are such pairs. -/
theorem length_itemsOf_of_listed {map : κ → Option (List α)} {pairs : List (κ × α)}
    (same : ∀ item, listed map (key, item) = occurrences pairs (key, item)) :
    (itemsOf map key).length = occurrences (pairs.map Prod.fst) key := by
  have items : ∀ item, ((pairs.filter (·.1 = key)).map Prod.snd).count item =
      occurrences pairs (key, item) := by
    intro item
    simp only [occurrences, List.count, List.countP_map, List.countP_filter]
    refine List.countP_congr fun pair _ => ?_
    simp [Prod.ext_iff, and_comm]
  have perm := List.perm_iff_count.mpr fun item => (same item).trans (items item).symm
  rw [perm.length_eq, List.length_map, ← List.countP_eq_length_filter, occurrences, List.count,
    List.countP_map]
  rfl

theorem listed_append (items : List α) :
    listed (readThrough (write overlay key
      (some (itemsOf (readThrough overlay table) key ++ items))) table) =
    listed (readThrough overlay table) + occurrences (items.map (Prod.mk key)) := by
  funext (k, item)
  simp only [listed, Pi.add_apply, itemsOf_readThrough_write]
  split
  · next same =>
    subst same
    rw [occurrences_map (Prod.mk_right_injective k), List.count_append, occurrences]
  · next other =>
    have absent : (k, item) ∉ items.map (Prod.mk key) := by
      simp only [List.mem_map, Prod.mk.injEq, not_exists, not_and]
      exact fun _ _ same => absurd same.symm other
    rw [occurrences_eq_zero absent, Nat.add_zero]

theorem listed_remove {items : List α} {item : α} (member : item ∈ itemsOf (readThrough overlay table) key)
    (removed : items.Perm ((itemsOf (readThrough overlay table) key).erase item)) :
    listed (readThrough (write overlay key (some items)) table) + occurrences [(key, item)] =
      listed (readThrough overlay table) := by
  funext (k, other)
  have positive := List.count_pos_iff.mpr member
  simp only [listed, Pi.add_apply, itemsOf_readThrough_write, occurrences, List.count_singleton]
  split
  · next same =>
    subst same
    rw [removed.count_eq, List.count_erase]
    by_cases same : other = item
    · subst same
      simp only [beq_self_eq_true, if_true]
      omega
    · simp [Ne.symm same]
  · next different => simp [Ne.symm different]

end Tables

end DnaPow.Std
