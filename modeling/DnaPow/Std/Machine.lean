import Mathlib.Algebra.BigOperators.Group.List.Basic
import Mathlib.Algebra.Ring.Nat

/-!
# Deterministic machines

A machine maps a state to the event of its next step and the state after it, or
to nothing when it has stopped. `Steps` relates two states by the events between
them.

The rules below are the three ways such machines are reasoned about here. An
invariant holds along all steps (`Steps.preserves`). A measure that every step
decreases makes the machine stop (`exists_stop_of_decreasing`). A budget that
pays for the events bounds their total cost (`Steps.cost_le`).
-/

namespace DnaPow.Std

/-- The next step of a machine from each state. -/
abbrev Machine (σ ε : Type*) := σ → Option (ε × σ)

namespace Machine

variable {σ ε : Type*} {machine : Machine σ ε}

/-- The machine goes from one state to another through the given events. -/
inductive Steps (machine : Machine σ ε) : σ → List ε → σ → Prop where
  | refl (state : σ) : Steps machine state [] state
  | step {state next final : σ} {event : ε} {events : List ε}
      (first : machine state = some (event, next)) (rest : Steps machine next events final) :
      Steps machine state (event :: events) final

theorem Steps.single {state next : σ} {event : ε} (step : machine state = some (event, next)) :
    machine.Steps state [event] next :=
  .step step (.refl next)

theorem Steps.trans {start middle final : σ} {before after : List ε}
    (first : machine.Steps start before middle) (second : machine.Steps middle after final) :
    machine.Steps start (before ++ after) final := by
  induction first with
  | refl => exact second
  | step first _ ih => exact .step first (ih second)

/-- A machine that has stopped takes no step. -/
theorem Steps.of_stopped {state final : σ} {events : List ε} (stopped : machine state = none)
    (steps : machine.Steps state events final) : events = [] ∧ final = state := by
  cases steps with
  | refl => exact ⟨rfl, rfl⟩
  | step first => simp [stopped] at first

/-- A run to the end continues every other run from the same state. -/
theorem Steps.continues {start state final : σ} {events all : List ε}
    (steps : machine.Steps start events state) (run : machine.Steps start all final)
    (stopped : machine final = none) :
    ∃ rest, all = events ++ rest ∧ machine.Steps state rest final := by
  induction steps generalizing all with
  | refl => exact ⟨all, rfl, run⟩
  | step first _ ih =>
    cases run with
    | refl => simp [first] at stopped
    | step other later =>
      obtain ⟨rfl, rfl⟩ := Prod.mk.inj (Option.some.inj (first.symm.trans other))
      obtain ⟨rest, rfl, run⟩ := ih later
      exact ⟨rest, rfl, run⟩

/-- The state after at most the given number of steps. -/
def advance (machine : Machine σ ε) : (fuel : Nat) → σ → σ
  | 0, state => state
  | fuel + 1, state =>
      match machine state with
      | none => state
      | some (_, next) => advance machine fuel next

theorem advance_of_stopped {state : σ} (stopped : machine state = none) (fuel : Nat) :
    machine.advance fuel state = state := by
  cases fuel with
  | zero => rfl
  | succ fuel => rw [advance, stopped]

/-- A run to the end is as far as the machine goes. -/
theorem Steps.advance_eq {start final : σ} {events : List ε}
    (steps : machine.Steps start events final) (stopped : machine final = none) {fuel : Nat}
    (enough : events.length ≤ fuel) : machine.advance fuel start = final := by
  induction steps generalizing fuel with
  | refl state => exact advance_of_stopped stopped fuel
  | step first _ ih =>
    cases fuel with
    | zero => cases enough
    | succ fuel =>
      rw [advance, first]
      exact ih stopped (Nat.le_of_succ_le_succ enough)

section Rules

variable {Inv : σ → Prop} {start final : σ} {events : List ε}

/-- What every step with an allowed event preserves holds along a run of such steps. -/
theorem Steps.preserves (Allowed : ε → Prop)
    (step : ∀ {state next event}, Inv state → machine state = some (event, next) →
      Allowed event → Inv next) (steps : machine.Steps start events final)
    (allowed : ∀ event ∈ events, Allowed event) (initially : Inv start) : Inv final := by
  induction steps with
  | refl => exact initially
  | step first _ ih =>
    rw [List.forall_mem_cons] at allowed
    exact ih allowed.2 (step initially first allowed.1)

/-- A machine whose steps decrease a measure stops. -/
theorem exists_stop_of_decreasing (measure : σ → Nat)
    (decreases : ∀ {state next event}, Inv state → machine state = some (event, next) →
      Inv next ∧ measure next < measure state)
    {start : σ} (initially : Inv start) :
    ∃ events final, machine.Steps start events final ∧ machine final = none := by
  induction bound : measure start using Nat.strongRecOn generalizing start with
  | _ bound' ih =>
    cases first : machine start with
    | none => exact ⟨[], start, .refl start, first⟩
    | some found =>
      obtain ⟨event, next⟩ := found
      obtain ⟨kept, less⟩ := decreases initially first
      obtain ⟨events, final, steps, stopped⟩ := ih (measure next) (bound ▸ less) kept rfl
      exact ⟨event :: events, final, .step first steps, stopped⟩

/-- When every step pays for its event out of a budget, the events and what is left
of the budget do not exceed it. -/
theorem Steps.cost_le (cost : ε → Nat) (budget : σ → Nat)
    (pays : ∀ {state next event}, Inv state → machine state = some (event, next) →
      Inv next ∧ cost event + budget next ≤ budget state) (steps : machine.Steps start events final)
    (initially : Inv start) : (events.map cost).sum + budget final ≤ budget start := by
  induction steps with
  | refl => simp
  | step first _ ih =>
    obtain ⟨kept, paid⟩ := pays initially first
    have rest := ih kept
    rw [List.map_cons, List.sum_cons]
    omega

/-- A machine takes no more steps than a measure that they decrease allows. -/
theorem Steps.length_le (measure : σ → Nat)
    (decreases : ∀ {state next event}, Inv state → machine state = some (event, next) →
      Inv next ∧ measure next < measure state) (steps : machine.Steps start events final)
    (initially : Inv start) : events.length ≤ measure start := by
  have paid := steps.cost_le (fun _ => 1) measure (fun kept first => by
    obtain ⟨kept, less⟩ := decreases kept first
    exact ⟨kept, by omega⟩) initially
  rw [List.map_const', List.sum_replicate_nat] at paid
  omega

end Rules

end Machine

end DnaPow.Std
