import DnaPow.Std.Decoding

/-!
# Panics

Where a call panics, with one rule for each way of building a reader.
-/

namespace DnaPow.Std.Action

variable {ε ε' σ α β : Type} {value : α} {state : σ} {call : Action ε σ α}

/-- The call panics from the given state. -/
def Panics (call : Action ε σ α) (state : σ) : Prop := (call.run state).1 = .panic

theorem panics_crash (state : σ) : (crash : Action ε σ α).Panics state := rfl

@[simp] theorem not_panics_pure :
    ¬ (pure value : Action ε σ α).Panics state := nofun

theorem Panics.not_returned {state after : σ}
    (panics : call.Panics state) : call.run state ≠ (.ok value, after) := by
  intro returned
  rw [Panics, returned] at panics
  cases panics

/-- A sequence panics where its first part does. -/
theorem Panics.bind (panics : call.Panics state)
    (next : α → Action ε σ β) : (call >>= next).Panics state := by
  unfold Panics at panics ⊢
  rw [run_bind]
  generalize call.run state = ending at panics ⊢
  obtain ⟨result, after⟩ := ending
  cases panics
  rfl

/-- A sequence panics where its second part does, after the first one has returned. -/
theorem Panics.after {next : α → Action ε σ β} {state state' : σ}
    (returned : call.run state = (.ok value, state')) (panics : (next value).Panics state') :
    (call >>= next).Panics state := by
  rw [Panics, run_bind_of_ok returned]
  exact panics

/-- Only an error is changed. -/
@[simp] theorem panics_mapError {change : ε → ε'} :
    (call.mapError change).Panics state ↔ call.Panics state := by
  simp only [Panics, mapError]
  generalize call.run state = ending
  obtain ⟨result, after⟩ := ending
  cases result <;> simp

@[simp] theorem panics_recover {other : ε → α} :
    (call.recover other : Action ε' σ α).Panics state ↔ call.Panics state := by
  simp only [Panics, recover]
  generalize call.run state = ending
  obtain ⟨result, after⟩ := ending
  cases result <;> simp

/-- Reading a list panics at the first item that makes the reader panic. -/
theorem panics_times {call : Action ε Bytes α} {encode : β → Bytes} {value : β → α}
    {bad : β → Prop} {items : List β}
    (good : ∀ item ∈ items, ¬ bad item → call.Decodes (encode item) (value item))
    (panics : ∀ item ∈ items, bad item → ∀ rest, call.Panics (encode item ++ rest))
    (found : ∃ item ∈ items, bad item) (rest : Bytes) :
    (call.times items.length).Panics (items.flatMap encode ++ rest) := by
  induction items with
  | nil => simp at found
  | cons first others ih =>
    rw [List.forall_mem_cons] at good panics
    rw [List.flatMap_cons, List.append_assoc]
    by_cases isBad : bad first
    · exact (panics.1 isBad _).bind _
    · have later := ih good.2 panics.2 (by simpa [isBad] using found)
      exact .after (good.1 isBad _) (later.bind _)

end DnaPow.Std.Action
