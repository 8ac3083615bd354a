import DnaPow.Std.Action

/-!
# Checks on partial knowledge

The same check can be made against tables that know more or less. As long as the
tables do not contradict each other, the check that knows less ends as the other
one does, or it returns an error because something it looked up is missing.
`Outcome.Follows` is that comparison; it has one rule for each way of building a
check.
-/

namespace DnaPow.Std.Outcome

variable {ε α β : Type} {missing : Prop}

/-- The call ends as the reference does; otherwise something is missing and the
call returns an error. -/
def Follows (missing : Prop) (call reference : Outcome ε α) : Prop :=
  call = reference ∨ missing ∧ call.isError = true

namespace Follows

theorem refl (call : Outcome ε α) : Follows missing call call := .inl rfl

/-- The first call that does not end like its reference decides. -/
theorem bind {call reference : Outcome ε α} {next next' : α → Outcome ε β}
    (first : Follows missing call reference)
    (rest : ∀ value, Follows missing (next value) (next' value)) :
    Follows missing (call >>= next) (reference >>= next') := by
  rcases first with rfl | ⟨isMissing, failed⟩
  · cases call with
    | ok value => exact rest value
    | error reason => exact refl _
    | panic => exact refl _
  · cases call with
    | ok value => cases failed
    | error reason => exact .inr ⟨isMissing, rfl⟩
    | panic => cases failed

/-- Lookups for each item of a list, in order. -/
theorem mapM {items : List α} {lookup lookup' : α → Outcome ε β}
    (each : ∀ item ∈ items, Follows missing (lookup item) (lookup' item)) :
    Follows missing (items.mapM lookup) (items.mapM lookup') := by
  induction items with
  | nil => exact refl _
  | cons item items ih =>
    rw [List.mapM_cons, List.mapM_cons]
    have head := each item (by simp)
    have tail := ih fun other member => each other (by simp [member])
    exact head.bind fun _ => tail.bind fun _ => refl _

/-- Against a reference that returns, the call returns an error exactly when
something is missing, provided it cannot return without it. -/
theorem isError_iff {call : Outcome ε α} {value : α} (follows : Follows missing call (.ok value))
    (needed : call = .ok value → ¬ missing) : call.isError = true ↔ missing := by
  rcases follows with rfl | ⟨isMissing, failed⟩
  · exact iff_of_false (by simp [isError]) (needed rfl)
  · exact iff_of_true failed isMissing

end Follows

/-- A list of lookups returns only if each of them does. -/
theorem exists_of_mapM_eq_ok {items : List α} {lookup : α → Outcome ε β} {values : List β}
    (found : items.mapM lookup = .ok values) : ∀ item ∈ items, ∃ value, lookup item = .ok value := by
  induction items generalizing values with
  | nil => simp
  | cons item items ih =>
    rw [List.mapM_cons] at found
    simp only [bind_eq_ok] at found
    obtain ⟨value, head, others, tail, -⟩ := found
    intro other member
    rcases List.mem_cons.mp member with rfl | member
    · exact ⟨value, head⟩
    · exact ih tail other member

end DnaPow.Std.Outcome
