import Mathlib.Logic.Basic

/-!
# Actions that return, fail or panic

A call of imperative code returns a value, returns an error value, or panics.
An error is an ordinary result: the caller sees it, and whatever the callee
wrote before failing stays written. A panic ends the process.

`Outcome` is the result of a call and `Action` is a call that also reads and
writes a state. `Action.Ensures` is the partial-correctness judgement used to
reason about them, with one rule for each way of building an action.
`Action.Ends` is the judgement that also says how a call may fail or panic.
-/

namespace DnaPow.Std

/-- The three ways a call can end. -/
inductive Outcome (ε α : Type) where
  | ok (value : α)
  | error (reason : ε)
  | panic
  deriving DecidableEq, Repr

namespace Outcome

variable {ε α β : Type} {call : Outcome ε α} {reason : ε}

/-- Continue with the value of a call that returned; errors and panics pass through. -/
def bind : Outcome ε α → (α → Outcome ε β) → Outcome ε β
  | ok value, next => next value
  | error reason, _ => error reason
  | panic, _ => panic

instance : Monad (Outcome ε) where
  pure := ok
  bind := bind

instance : LawfulMonad (Outcome ε) := LawfulMonad.mk' (Outcome ε)
  (fun call => by cases call <;> rfl)
  (fun _ _ => rfl)
  (fun call _ _ => by cases call <;> rfl)

/-- Whether the call returned a value. -/
def isOk : Outcome ε α → Bool
  | ok _ => true
  | _ => false

/-- Whether the call returned an error value. -/
def isError : Outcome ε α → Bool
  | error _ => true
  | _ => false

/-- The value of a call that returned one. -/
def toOption : Outcome ε α → Option α
  | ok value => some value
  | _ => none

@[simp] theorem toOption_ok (value : α) : (ok value : Outcome ε α).toOption = some value := rfl

@[simp] theorem toOption_eq_some {value : α} :
    call.toOption = some value ↔ call = ok value := by
  cases call <;> simp [toOption]

/-- A lookup whose failure is reported as the given error. -/
def ofOption (reason : ε) : Option α → Outcome ε α
  | some value => ok value
  | none => error reason

/-- A check that fails with the given error. -/
def require (condition : Prop) [Decidable condition] (reason : ε) : Outcome ε Unit :=
  if condition then ok () else error reason

@[simp] theorem pure_eq (value : α) : (pure value : Outcome ε α) = ok value := rfl

@[simp] theorem bind_ok (value : α) (next : α → Outcome ε β) :
    (ok value >>= next) = next value := rfl

@[simp] theorem bind_error (reason : ε) (next : α → Outcome ε β) :
    ((error reason : Outcome ε α) >>= next) = error reason := rfl

@[simp] theorem bind_panic (next : α → Outcome ε β) :
    ((panic : Outcome ε α) >>= next) = panic := rfl

/-- A sequence returns exactly when both of its parts do. -/
@[simp] theorem bind_eq_ok {next : α → Outcome ε β} {result : β} :
    (call >>= next) = ok result ↔ ∃ value, call = ok value ∧ next value = ok result := by
  cases call <;> simp

/-- A sequence panics when its first part does, or the second one after the first returned. -/
theorem bind_eq_panic {next : α → Outcome ε β} :
    (call >>= next) = panic ↔ call = panic ∨ ∃ value, call = ok value ∧ next value = panic := by
  cases call <;> simp

@[simp] theorem require_eq_ok {condition : Prop} [Decidable condition] {value : Unit} :
    require condition reason = ok value ↔ condition := by
  unfold require
  split <;> simp_all

/-- Checks made one after the other pass when each of them does. -/
theorem each_eq_ok {check : α → Outcome ε Unit} {each : List α → Outcome ε Unit}
    (nil : each [] = ok ()) (cons : ∀ item items, each (item :: items) = do
      check item
      each items) {items : List α} :
    each items = ok () ↔ ∀ item ∈ items, check item = ok () := by
  induction items with
  | nil => simp [nil]
  | cons item items ih =>
    rw [cons, bind_eq_ok, List.forall_mem_cons, ih]
    exact ⟨by rintro ⟨_, passed⟩; exact passed, fun passed => ⟨(), passed⟩⟩

@[simp] theorem ofOption_eq_ok {found : Option α} {value : α} :
    ofOption reason found = ok value ↔ found = some value := by
  cases found <;> simp [ofOption]

@[simp] theorem ofOption_ne_panic {found : Option α} :
    ofOption reason found ≠ panic := by
  cases found <;> simp [ofOption]

end Outcome

/-- A call that reads and writes a state of type `σ`. The state is returned in
every case: an error does not undo the writes made before it. -/
structure Action (ε σ α : Type) where
  run : σ → Outcome ε α × σ

namespace Action

variable {ε σ α β : Type}

/-- Run one call and continue from the state it leaves. -/
def bind (call : Action ε σ α) (next : α → Action ε σ β) : Action ε σ β where
  run state :=
    match call.run state with
    | (.ok value, state') => (next value).run state'
    | (.error reason, state') => (.error reason, state')
    | (.panic, state') => (.panic, state')

instance : Monad (Action ε σ) where
  pure value := ⟨fun state => (.ok value, state)⟩
  bind := bind

/-- Read the state. -/
def get : Action ε σ σ := ⟨fun state => (.ok state, state)⟩

/-- Write the state. -/
def modify (update : σ → σ) : Action ε σ Unit := ⟨fun state => (.ok (), update state)⟩

/-- Return an error. -/
def throw (reason : ε) : Action ε σ α := ⟨fun state => (.error reason, state)⟩

/-- Stop the process. -/
def crash : Action ε σ α := ⟨fun state => (.panic, state)⟩

/-- Run a check that reads the state and cannot write it. -/
def check (call : σ → Outcome ε α) : Action ε σ α := ⟨fun state => (call state, state)⟩

@[simp] theorem run_pure (value : α) (state : σ) :
    (pure value : Action ε σ α).run state = (.ok value, state) := rfl

@[simp] theorem run_get (state : σ) : (get : Action ε σ σ).run state = (.ok state, state) := rfl

@[simp] theorem run_modify (update : σ → σ) (state : σ) :
    (modify update : Action ε σ Unit).run state = (.ok (), update state) := rfl

@[simp] theorem run_throw (reason : ε) (state : σ) :
    (throw reason : Action ε σ α).run state = (.error reason, state) := rfl

@[simp] theorem run_crash (state : σ) :
    (crash : Action ε σ α).run state = (.panic, state) := rfl

@[simp] theorem run_check (call : σ → Outcome ε α) (state : σ) :
    (check call).run state = (call state, state) := rfl

theorem run_bind (call : Action ε σ α) (next : α → Action ε σ β) (state : σ) :
    (call >>= next).run state =
      match call.run state with
      | (.ok value, state') => (next value).run state'
      | (.error reason, state') => (.error reason, state')
      | (.panic, state') => (.panic, state') := rfl

theorem run_bind_of_ok {call : Action ε σ α} {next : α → Action ε σ β} {state after : σ} {value : α}
    (returned : call.run state = (.ok value, after)) :
    (call >>= next).run state = (next value).run after := by
  rw [run_bind, returned]

/-! ## All ways of ending -/

/-- From the given state the call ends as `post` says if it returns, as `fail`
says if it returns an error and as `panics` says if it panics. -/
def Ends (call : Action ε σ α) (state : σ) (post : α → σ → Prop) (fail : ε → σ → Prop)
    (panics : σ → Prop) : Prop :=
  match call.run state with
  | (.ok value, after) => post value after
  | (.error reason, after) => fail reason after
  | (.panic, after) => panics after

section Ends

variable {state : σ} {post : α → σ → Prop} {fail : ε → σ → Prop} {panics : σ → Prop}
  {reason : ε} {call : Action ε σ α}

@[simp] theorem ends_pure {value : α} :
    (pure value : Action ε σ α).Ends state post fail panics ↔ post value state := Iff.rfl

@[simp] theorem ends_throw :
    (throw reason : Action ε σ α).Ends state post fail panics ↔ fail reason state := Iff.rfl

@[simp] theorem ends_crash :
    (crash : Action ε σ α).Ends state post fail panics ↔ panics state := Iff.rfl

@[simp] theorem ends_get {post : σ → σ → Prop} :
    (get : Action ε σ σ).Ends state post fail panics ↔ post state state := Iff.rfl

@[simp] theorem ends_modify {update : σ → σ} {post : Unit → σ → Prop} :
    (modify update : Action ε σ Unit).Ends state post fail panics ↔ post () (update state) :=
  Iff.rfl

/-- Sequencing: how the first call ends is where the second starts. -/
@[simp] theorem ends_bind {next : α → Action ε σ β} {post : β → σ → Prop} :
    (call >>= next).Ends state post fail panics ↔
      call.Ends state (fun value after => (next value).Ends after post fail panics) fail panics := by
  simp only [Ends, run_bind]
  obtain ⟨result, after⟩ := call.run state
  cases result <;> rfl

@[simp] theorem ends_ite {condition : Prop} [Decidable condition] {yes no : Action ε σ α} :
    (if condition then yes else no).Ends state post fail panics ↔
      (condition → yes.Ends state post fail panics) ∧
        (¬ condition → no.Ends state post fail panics) := by
  split <;> simp_all

@[simp] theorem ends_check {call : σ → Outcome ε α} :
    (check call).Ends state post fail panics ↔
      (∀ value, call state = .ok value → post value state) ∧
        (∀ reason, call state = .error reason → fail reason state) ∧
        (call state = .panic → panics state) := by
  simp only [Ends, run_check]
  cases call state <;> simp

/-- What is known of the ending of a call may be weakened. -/
theorem Ends.mono {post' : α → σ → Prop} {fail' : ε → σ → Prop} {panics' : σ → Prop}
    (ends : call.Ends state post fail panics)
    (returned : ∀ value after, post value after → post' value after)
    (failed : ∀ reason after, fail reason after → fail' reason after)
    (crashed : ∀ after, panics after → panics' after) :
    call.Ends state post' fail' panics' := by
  unfold Ends at ends ⊢
  generalize call.run state = ending at ends ⊢
  obtain ⟨result, after⟩ := ending
  cases result with
  | ok value => exact returned value after ends
  | error reason => exact failed reason after ends
  | panic => exact crashed after ends

theorem Ends.and {post' : α → σ → Prop} {fail' : ε → σ → Prop}
    (ends : call.Ends state post fail panics)
    (ends' : call.Ends state post' fail' fun _ => True) :
    call.Ends state (fun value after => post value after ∧ post' value after)
      (fun reason after => fail reason after ∧ fail' reason after) panics := by
  unfold Ends at ends ends' ⊢
  generalize call.run state = ending at ends ends' ⊢
  obtain ⟨result, after⟩ := ending
  cases result with
  | ok value => exact ⟨ends, ends'⟩
  | error reason => exact ⟨ends, ends'⟩
  | panic => exact ends

theorem Ends.of_error (ends : call.Ends state post fail panics)
    (failed : (call.run state).1 = .error reason) :
    ∃ after, fail reason after := by
  unfold Ends at ends
  generalize call.run state = ending at ends failed
  obtain ⟨result, after⟩ := ending
  obtain rfl : result = .error reason := failed
  exact ⟨after, ends⟩

end Ends

/-! ## Partial correctness -/

/-- From the given state the call ends as `post` says if it returns and as
`fail` says if it returns an error. Nothing is said about a panic. -/
def Ensures (call : Action ε σ α) (state : σ) (post : α → σ → Prop) (fail : σ → Prop) : Prop :=
  match call.run state with
  | (.ok value, after) => post value after
  | (.error _, after) => fail after
  | (.panic, _) => True

section Ensures

variable {state : σ} {post : α → σ → Prop} {fail : σ → Prop}
  {call : Action ε σ α} {fail' : σ → Prop}

theorem Ensures.ends (ensures : call.Ensures state post fail) :
    call.Ends state post (fun _ => fail) fun _ => True := ensures

theorem Ends.ensures (ends : call.Ends state post (fun _ => fail) fun _ => True) :
    call.Ensures state post fail := ends

@[simp] theorem ensures_pure {value : α} :
    (pure value : Action ε σ α).Ensures state post fail ↔ post value state := Iff.rfl

@[simp] theorem ensures_throw {reason : ε} :
    (throw reason : Action ε σ α).Ensures state post fail ↔ fail state := Iff.rfl

@[simp] theorem ensures_crash : (crash : Action ε σ α).Ensures state post fail := trivial

@[simp] theorem ensures_get {post : σ → σ → Prop} :
    (get : Action ε σ σ).Ensures state post fail ↔ post state state := Iff.rfl

@[simp] theorem ensures_modify {update : σ → σ} {post : Unit → σ → Prop} :
    (modify update : Action ε σ Unit).Ensures state post fail ↔ post () (update state) := Iff.rfl

/-- A check leaves the state alone, whatever it answers. -/
@[simp] theorem ensures_check {call : σ → Outcome ε α} :
    (check call).Ensures state post fail ↔
      (∀ value, call state = .ok value → post value state) ∧
        (∀ reason, call state = .error reason → fail state) := by
  simp only [Ensures, run_check]
  cases call state <;> simp

/-- Sequencing: what the first call ensures is what the second starts from. -/
@[simp] theorem ensures_bind {next : α → Action ε σ β} {post : β → σ → Prop} :
    (call >>= next).Ensures state post fail ↔
      call.Ensures state (fun value after => (next value).Ensures after post fail) fail :=
  ends_bind

@[simp] theorem ensures_ite {condition : Prop} [Decidable condition] {yes no : Action ε σ α} :
    (if condition then yes else no).Ensures state post fail ↔
      (condition → yes.Ensures state post fail) ∧ (¬ condition → no.Ensures state post fail) :=
  ends_ite

/-- What a call ensures may be weakened. -/
theorem Ensures.mono {post' : α → σ → Prop} (ensures : call.Ensures state post fail)
    (returned : ∀ value after, post value after → post' value after)
    (failed : ∀ after, fail after → fail' after) : call.Ensures state post' fail' :=
  (ensures.ends.mono returned (fun _ => failed) fun _ => id).ensures

/-- What a call ensures holds once it has returned. -/
theorem Ensures.of_returned {value : α} {after : σ}
    (ensures : call.Ensures state post fail) (returned : call.run state = (.ok value, after)) :
    post value after := by
  unfold Ensures at ensures
  rw [returned] at ensures
  exact ensures

/-- What always holds is ensured. -/
theorem ensures_of_forall (returned : ∀ value after, post value after)
    (failed : ∀ after, fail after) : call.Ensures state post fail := by
  unfold Ensures
  generalize call.run state = ending
  obtain ⟨result, after⟩ := ending
  cases result with
  | ok value => exact returned value after
  | error reason => exact failed after
  | panic => trivial

/-- Sequencing when nothing is known of how the first call ends. -/
theorem Ensures.bind_any {next : α → Action ε σ β} {post : β → σ → Prop}
    (rest : ∀ value after, (next value).Ensures after post fun _ => True) :
    (call >>= next).Ensures state post fun _ => True :=
  ensures_bind.mpr (ensures_of_forall rest fun _ => trivial)

/-- Two things that a call ensures it ensures together. -/
theorem Ensures.and {post' : α → σ → Prop}
    (ensures : call.Ensures state post fail) (ensures' : call.Ensures state post' fail') :
    call.Ensures state (fun value after => post value after ∧ post' value after)
      (fun after => fail after ∧ fail' after) := (ensures.ends.and ensures'.ends).ensures

/-- A call that does not return the given error fails with another one. -/
theorem Ensures.ends_of_ne {reason : ε} (ensures : call.Ensures state post fail) (differs : (call.run state).1 ≠ .error reason) :
    call.Ends state post (fun other after => other ≠ reason ∧ fail after) fun _ => True := by
  unfold Ensures at ensures
  unfold Ends
  generalize call.run state = ending at ensures differs ⊢
  obtain ⟨result, after⟩ := ending
  cases result with
  | ok value => exact ensures
  | error other => exact ⟨fun same => differs (congrArg Outcome.error same), ensures⟩
  | panic => exact trivial

/-- A call that returns a value does not fail. -/
theorem Ensures.of_isOk (ensures : call.Ensures state post fail)
    (returned : (call.run state).1.isOk = true) :
    call.Ensures state post fail' := by
  unfold Ensures at ensures ⊢
  generalize call.run state = ending at ensures returned ⊢
  obtain ⟨result, after⟩ := ending
  cases result with
  | ok value => exact ensures
  | error reason => cases returned
  | panic => trivial

/-- Whether a call ends in the given way is seen by running it. -/
instance Ensures.decidable [∀ value after, Decidable (post value after)]
    [∀ after, Decidable (fail after)] (call : Action ε σ α) :
    Decidable (call.Ensures state post fail) :=
  match ending : call.run state with
  | (.ok value, after) => decidable_of_iff (post value after) (by rw [Ensures, ending])
  | (.error _, after) => decidable_of_iff (fail after) (by rw [Ensures, ending])
  | (.panic, _) => .isTrue (by rw [Ensures, ending]; trivial)

end Ensures

/-! ## Errors that a call never returns -/

/-- The call never returns the given error. -/
def Avoids (call : Action ε σ α) (reason : ε) : Prop :=
  ∀ state, (call.run state).1 ≠ .error reason

section Avoids

variable {reason : ε}

@[simp] theorem avoids_pure {value : α} : (pure value : Action ε σ α).Avoids reason := nofun

@[simp] theorem avoids_get : (get : Action ε σ σ).Avoids reason := nofun

@[simp] theorem avoids_modify {update : σ → σ} :
    (modify update : Action ε σ Unit).Avoids reason := nofun

@[simp] theorem avoids_crash : (crash : Action ε σ α).Avoids reason := nofun

theorem avoids_throw {other : ε} (differs : other ≠ reason) :
    (throw other : Action ε σ α).Avoids reason := fun _ same => differs (Outcome.error.inj same)

theorem avoids_check {call : σ → Outcome ε α} (differs : ∀ state, call state ≠ .error reason) :
    (check call).Avoids reason := differs

theorem Avoids.bind {call : Action ε σ α} {next : α → Action ε σ β}
    (first : call.Avoids reason) (rest : ∀ value, (next value).Avoids reason) :
    (call >>= next).Avoids reason := by
  intro state
  have first := first state
  rw [run_bind]
  generalize call.run state = ending at first
  obtain ⟨result, after⟩ := ending
  cases result with
  | ok value => exact rest value after
  | error other => exact fun same => first (congrArg Outcome.error (Outcome.error.inj same))
  | panic => exact nofun

theorem Avoids.ite {condition : Prop} [Decidable condition] {yes no : Action ε σ α}
    (first : yes.Avoids reason) (second : no.Avoids reason) :
    (if condition then yes else no).Avoids reason := by
  split
  · exact first
  · exact second

end Avoids

end Action

end DnaPow.Std
