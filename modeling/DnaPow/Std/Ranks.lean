import Mathlib.Data.List.Sort

/-!
# Ranks in sorted lists

The item at a position of a sorted list is compared with a bound by counting the items
below the bound, which does not depend on the order of the list. So a rank can be
followed through changes of the list without sorting it again.
-/

namespace DnaPow.Std

variable {α : Type*} [LinearOrder α] {list : List α} {bound : α}

theorem countP_lt_eq_zero (above : ∀ item ∈ list, bound ≤ item) :
    list.countP (· < bound) = 0 := by
  rw [List.countP_eq_zero]
  intro item member
  simpa using above item member

/-- An item of a sorted list is not below a bound if its rank is not below the number of
smaller items. -/
theorem le_getElem_iff_countP (sorted : list.Pairwise (· ≤ ·))
    {rank : Nat} (inside : rank < list.length) :
    bound ≤ list[rank] ↔ list.countP (· < bound) ≤ rank := by
  induction list generalizing rank with
  | nil => cases inside
  | cons first rest ih =>
    rw [List.pairwise_cons] at sorted
    by_cases smaller : first < bound
    · rw [List.countP_cons_of_pos (by simpa using smaller)]
      cases rank with
      | zero => simp [smaller]
      | succ rank =>
        rw [List.getElem_cons_succ, ih sorted.2 (Nat.lt_of_succ_lt_succ inside)]
        exact Nat.succ_le_succ_iff.symm
    · -- nothing in the list is below the bound
      have above : ∀ item ∈ first :: rest, bound ≤ item := by
        rw [List.forall_mem_cons]
        exact ⟨not_lt.mp smaller, fun item member => (not_lt.mp smaller).trans (sorted.1 item member)⟩
      rw [countP_lt_eq_zero above]
      exact iff_of_true (above _ (List.getElem_mem inside)) (Nat.zero_le rank)

/-- The item of a rank, found by sorting. -/
theorem le_getElem_insertionSort_iff {rank : Nat}
    (inside : rank < (list.insertionSort (· ≤ ·)).length) :
    bound ≤ (list.insertionSort (· ≤ ·))[rank] ↔ list.countP (· < bound) ≤ rank := by
  rw [le_getElem_iff_countP (List.pairwise_insertionSort (· ≤ ·) list) inside,
    (List.perm_insertionSort (· ≤ ·) list).countP_eq]

end DnaPow.Std
