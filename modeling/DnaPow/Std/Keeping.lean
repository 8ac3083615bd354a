import DnaPow.Std.Action
import Mathlib.Data.List.Forall2

/-!
# What a call never changes

`Action.Keeps` says that a part of the state is the same after a call as before,
however the call ends. There is one rule for each way of building a call, and `Action.Leaves`
also excludes one error. A fold
that may stop keeps what each of its steps keeps, and one whose steps append to a list
appends to it.
-/

namespace DnaPow.Std

/-- An invariant of a fold that may stop. -/
theorem foldlM_keeps {α β : Type} {step : β → α → Option β} {items : List α} {start after : β}
    (holds : β → Prop) (keeps : ∀ item ∈ items, ∀ before after, holds before →
      step before item = some after → holds after)
    (holdsStart : holds start) (folded : items.foldlM step start = some after) : holds after := by
  induction items generalizing start with
  | nil => exact Option.some.inj folded ▸ holdsStart
  | cons item items ih =>
    rw [List.foldlM_cons] at folded
    obtain ⟨middle, first, rest⟩ := Option.bind_eq_some_iff.mp folded
    have holdsMiddle := keeps item (by simp) start middle holdsStart first
    exact ih (fun other member => keeps other (by simp [member])) holdsMiddle rest

/-- What lists related item by item have for each other's items. -/
theorem exists_of_forall₂ {α β : Type} {related : α → β → Prop} {items : List α} {others : List β}
    (each : List.Forall₂ related items others) :
    ∀ item ∈ items, ∃ other ∈ others, related item other := by
  induction each with
  | nil => simp
  | cons first _ ih =>
    rw [List.forall_mem_cons]
    refine ⟨⟨_, List.mem_cons_self, first⟩, fun item member => ?_⟩
    obtain ⟨other, found, isRelated⟩ := ih item member
    exact ⟨other, List.mem_cons_of_mem _ found, isRelated⟩

/-- A fold whose steps append items that go with the given ones. -/
theorem Outcome.foldlM_appends {ε α β γ : Type} {step : List β → α → Outcome ε (List β)}
    {given : α → List γ} {related : β → γ → Prop} {items : List α} {start after : List β}
    (appends : ∀ item ∈ items, ∀ before after, step before item = .ok after →
      ∃ added, after = before ++ added ∧ List.Forall₂ related added (given item))
    (folded : items.foldlM step start = .ok after) :
    ∃ added, after = start ++ added ∧ List.Forall₂ related added (items.flatMap given) := by
  induction items generalizing start with
  | nil =>
    cases folded
    exact ⟨[], by simp, .nil⟩
  | cons item items ih =>
    rw [List.foldlM_cons] at folded
    obtain ⟨middle, first, rest⟩ := Outcome.bind_eq_ok.mp folded
    obtain ⟨added, rfl, related⟩ := appends item (by simp) start middle first
    obtain ⟨others, rfl, relatedOthers⟩ := ih (fun other member => appends other (by simp [member])) rest
    refine ⟨added ++ others, by simp, ?_⟩
    rw [List.flatMap_cons]
    exact List.rel_append related relatedOthers

namespace Action

variable {ε σ κ α β : Type} {view : σ → κ}

/-- The call leaves a part of the state as it is. -/
def Keeps (view : σ → κ) (call : Action ε σ α) : Prop :=
  ∀ state, view (call.run state).2 = view state

theorem keeps_pure {value : α} : (pure value : Action ε σ α).Keeps view := fun _ => rfl

theorem keeps_get : (get : Action ε σ σ).Keeps view := fun _ => rfl

theorem keeps_throw {reason : ε} : (throw reason : Action ε σ α).Keeps view := fun _ => rfl

theorem keeps_crash : (crash : Action ε σ α).Keeps view := fun _ => rfl

theorem keeps_check {call : σ → Outcome ε α} : (check call).Keeps view := fun _ => rfl

theorem keeps_modify {update : σ → σ} (same : ∀ state, view (update state) = view state) :
    (modify update : Action ε σ Unit).Keeps view := same

namespace Keeps

variable {call : Action ε σ α}

theorem bind {next : α → Action ε σ β} (first : call.Keeps view)
    (rest : ∀ value, (next value).Keeps view) : (call >>= next).Keeps view := by
  intro state
  have kept := first state
  rw [run_bind]
  generalize call.run state = ending at kept
  obtain ⟨result, after⟩ := ending
  cases result with
  | ok value => exact (rest value after).trans kept
  | error reason => exact kept
  | panic => exact kept

theorem ite {condition : Prop} [Decidable condition] {yes no : Action ε σ α}
    (first : yes.Keeps view) (second : no.Keeps view) :
    (if condition then yes else no).Keeps view := by
  split
  · exact first
  · exact second

/-- A sequence that writes another part of the state first. -/
theorem write {update : σ → σ} {next : Unit → Action ε σ β}
    (same : ∀ state, view (update state) = view state) (rest : ∀ value, (next value).Keeps view) :
    (modify update >>= next).Keeps view := (keeps_modify same).bind rest

/-- A sequence that reads the state first. -/
theorem read {next : σ → Action ε σ β} (rest : ∀ state, (next state).Keeps view) :
    (get >>= next).Keeps view := keeps_get.bind rest

/-- What a part of the state determines is kept with it. -/
theorem map {ι : Type} (keeps : call.Keeps view) (derived : κ → ι) :
    call.Keeps fun state => derived (view state) := fun state => congrArg derived (keeps state)

theorem ensures (keeps : call.Keeps view) (state : σ) :
    call.Ensures state (fun _ after => view after = view state)
      (fun after => view after = view state) := by
  have kept := keeps state
  unfold Ensures
  generalize call.run state = ending at kept
  obtain ⟨result, after⟩ := ending
  cases result with
  | ok value => exact kept
  | error reason => exact kept
  | panic => exact True.intro

end Keeps

/-- The call leaves a part of the state as it is, and never returns the given error. -/
structure Leaves (view : σ → κ) (reason : ε) (call : Action ε σ α) : Prop where
  keeps : call.Keeps view
  avoids : call.Avoids reason

section Leaves

variable {reason : ε}

theorem leaves_pure {value : α} : (pure value : Action ε σ α).Leaves view reason :=
  ⟨keeps_pure, avoids_pure⟩

theorem leaves_crash : (crash : Action ε σ α).Leaves view reason := ⟨keeps_crash, avoids_crash⟩

theorem leaves_throw {other : ε} (differs : other ≠ reason) :
    (throw other : Action ε σ α).Leaves view reason := ⟨keeps_throw, avoids_throw differs⟩

theorem leaves_check {call : σ → Outcome ε α} (differs : ∀ state, call state ≠ .error reason) :
    (check call).Leaves view reason := ⟨keeps_check, avoids_check differs⟩

theorem leaves_modify {update : σ → σ} (same : ∀ state, view (update state) = view state) :
    (modify update : Action ε σ Unit).Leaves view reason := ⟨keeps_modify same, avoids_modify⟩

theorem Leaves.bind {call : Action ε σ α} {next : α → Action ε σ β}
    (first : call.Leaves view reason) (rest : ∀ value, (next value).Leaves view reason) :
    (call >>= next).Leaves view reason :=
  ⟨first.keeps.bind fun value => (rest value).keeps,
    first.avoids.bind fun value => (rest value).avoids⟩

theorem Leaves.ite {condition : Prop} [Decidable condition] {yes no : Action ε σ α}
    (first : yes.Leaves view reason) (second : no.Leaves view reason) :
    (if condition then yes else no).Leaves view reason :=
  ⟨first.keeps.ite second.keeps, first.avoids.ite second.avoids⟩

theorem Leaves.write {update : σ → σ} {next : Unit → Action ε σ β}
    (same : ∀ state, view (update state) = view state)
    (rest : ∀ value, (next value).Leaves view reason) :
    (modify update >>= next).Leaves view reason := (leaves_modify same).bind rest

theorem Leaves.read {next : σ → Action ε σ β} (rest : ∀ state, (next state).Leaves view reason) :
    (get >>= next).Leaves view reason := .bind ⟨keeps_get, avoids_get⟩ rest

end Leaves

end Action

end DnaPow.Std
