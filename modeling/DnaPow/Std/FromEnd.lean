import Mathlib.Logic.Equiv.Basic

/-!
# Lists seen from their end

A stack that is kept with its top at the end of a list, seen as the list with the top
first: position `k` from the end is position `length - 1 - k` from the start.
-/

namespace DnaPow.Std

variable {α : Type} {list : List α} {k : Nat} {i j : Nat}

/-- The list is the other one with two positions exchanged. -/
def Exchanged (list after : List α) (i j : Nat) : Prop :=
  ∀ p : Nat, after[p]? = list[Equiv.swap i j p]?

/-- A list around the item `k` places from its end. -/
theorem exists_around (inside : k < list.length) :
    ∃ before item after, list = before ++ item :: after ∧ after.length = k ∧
      before.length = list.length - k - 1 := by
  have position : list.length - k - 1 < list.length := by omega
  refine ⟨list.take (list.length - k - 1), list[list.length - k - 1],
    list.drop (list.length - k - 1 + 1), ?_, ?_, ?_⟩
  · rw [← List.drop_eq_getElem_cons position, List.take_append_drop]
  · rw [List.length_drop]
    omega
  · rw [List.length_take]
    omega

theorem reverse_set (inside : k < list.length) (item : α) :
    (list.set (list.length - k - 1) item).reverse = list.reverse.set k item := by
  obtain ⟨before, old, after, rfl, rfl, position⟩ := exists_around inside
  rw [← position]
  simp

/-- Writing one item at two positions gives the same list only if it changes neither. -/
theorem set_eq_set_iff {item : α} (first : i < list.length) (second : j < list.length) :
    list.set i item = list.set j item ↔
      i = j ∨ list[i]? = some item ∧ list[j]? = some item := by
  constructor
  · intro same
    by_cases equal : i = j
    · exact .inl equal
    · have atFirst := congrArg (·[i]?) same
      have atSecond := congrArg (·[j]?) same
      simp only [List.getElem?_set_self first, List.getElem?_set_ne (Ne.symm equal)] at atFirst
      simp only [List.getElem?_set_self second, List.getElem?_set_ne equal] at atSecond
      exact .inr ⟨atFirst.symm, atSecond⟩
  · rintro (rfl | ⟨atFirst, atSecond⟩)
    · rfl
    · have kept {k : Nat} (found : list[k]? = some item) : list.set k item = list := by
        obtain ⟨inside, rfl⟩ := List.getElem?_eq_some_iff.mp found
        exact List.set_getElem_self inside
      rw [kept atFirst, kept atSecond]

theorem reverse_eraseIdx (inside : k < list.length) :
    (list.eraseIdx (list.length - k - 1)).reverse = list.reverse.eraseIdx k := by
  obtain ⟨before, old, after, rfl, rfl, position⟩ := exists_around inside
  rw [← position, List.eraseIdx_append_of_length_le (Nat.le_refl _)]
  simp [List.eraseIdx_append]

theorem reverse_getElem? (inside : k < list.length) :
    list.reverse[k]? = list[list.length - k - 1]? := by
  rw [List.getElem?_reverse inside]
  congr 1
  omega

theorem reverse_insert (list : List α) (k : Nat) (item : α) :
    (list.take (list.length - k) ++ item :: list.drop (list.length - k)).reverse =
      list.reverse.take k ++ item :: list.reverse.drop k := by
  simp only [List.reverse_append, List.reverse_cons, List.append_assoc, List.singleton_append,
    List.take_reverse, List.drop_reverse]

theorem Exchanged.length_eq {list after : List α} (first : i < list.length)
    (second : j < list.length) (exchanged : Exchanged list after i j) :
    after.length = list.length := by
  apply Nat.le_antisymm
  · have beyond := exchanged list.length
    rw [Equiv.swap_apply_of_ne_of_ne (by omega) (by omega), List.getElem?_eq_none (Nat.le_refl _)]
      at beyond
    exact List.getElem?_eq_none_iff.mp beyond
  · by_contra short
    have missing := exchanged after.length
    rw [List.getElem?_eq_none (Nat.le_refl _), eq_comm, List.getElem?_eq_none_iff,
      Equiv.swap_apply_def] at missing
    split_ifs at missing <;> omega

/-- An exchange counted from the end, position by position. -/
theorem exchanged_reverse {list after : List α} (first : i < list.length)
    (second : j < list.length) (exchanged : Exchanged list after i j) :
    Exchanged list.reverse after.reverse i j ↔ ∀ p < list.length,
      list[Equiv.swap i j (list.length - p - 1)]? = list[list.length - Equiv.swap i j p - 1]? := by
  have length := exchanged.length_eq first second
  have inside {p : Nat} (bound : p < list.length) : Equiv.swap i j p < list.length := by
    rw [Equiv.swap_apply_def]
    split_ifs <;> omega
  constructor
  · intro reversed p bound
    have same := reversed p
    rw [reverse_getElem? (by omega), reverse_getElem? (inside bound), exchanged, length] at same
    exact same
  · intro each p
    by_cases bound : p < list.length
    · rw [reverse_getElem? (by omega), reverse_getElem? (inside bound), exchanged, length]
      exact each p bound
    · have outside : Equiv.swap i j p = p := Equiv.swap_apply_of_ne_of_ne (by omega) (by omega)
      rw [outside, List.getElem?_eq_none (by simp; omega), List.getElem?_eq_none (by simp; omega)]

/-- Exchanging two positions counted from the start is exchanging the same positions
counted from the end exactly if the positions are the same in both counts, or nothing is
changed by either exchange. -/
theorem exchanged_reverse_iff {list after : List α} (first : i < list.length)
    (second : j < list.length) (exchanged : Exchanged list after i j) :
    Exchanged list.reverse after.reverse i j ↔
      i = j ∨ i + j + 1 = list.length ∨
        list[i]? = list[j]? ∧ list[list.length - i - 1]? = list[list.length - j - 1]? := by
  rw [exchanged_reverse first second exchanged]
  have twice {p : Nat} (bound : p < list.length) :
      list.length - (list.length - p - 1) - 1 = p := by omega
  constructor
  · intro each
    by_contra differs
    push Not at differs
    obtain ⟨apart, crossed, changed⟩ := differs
    have atFirst := each i first
    have atSecond := each j second
    have fromFirst := each (list.length - i - 1) (by omega)
    have fromSecond := each (list.length - j - 1) (by omega)
    rw [Equiv.swap_apply_left] at atFirst
    rw [Equiv.swap_apply_right] at atSecond
    rw [twice first, Equiv.swap_apply_left] at fromFirst
    rw [twice second, Equiv.swap_apply_right] at fromSecond
    -- a position in the middle is its own counterpart
    by_cases middle : list.length - i - 1 = i
    · have fixed : Equiv.swap i j (list.length - j - 1) = list.length - j - 1 :=
        Equiv.swap_apply_of_ne_of_ne (by omega) (by omega)
      rw [fixed, twice second] at fromSecond
      rw [fixed] at atSecond
      exact changed fromSecond atSecond.symm
    · have fixed : Equiv.swap i j (list.length - i - 1) = list.length - i - 1 :=
        Equiv.swap_apply_of_ne_of_ne middle (by omega)
      rw [fixed, twice first] at fromFirst
      rw [fixed] at atFirst
      exact changed fromFirst.symm atFirst
  · rintro (rfl | crossed | ⟨same, same'⟩) p bound
    · simp
    · congr 1
      rw [Equiv.swap_apply_def, Equiv.swap_apply_def]
      split_ifs <;> omega
    · -- neither exchange changes the list
      have kept : list[Equiv.swap i j (list.length - p - 1)]? = list[list.length - p - 1]? := by
        rw [Equiv.swap_apply_def]
        split_ifs with isFirst isSecond
        · rw [isFirst, same]
        · rw [isSecond, same]
        · rfl
      rw [kept, Equiv.swap_apply_def]
      split_ifs with isFirst isSecond
      · rw [isFirst, same']
      · rw [isSecond, same']
      · rfl

end DnaPow.Std
