import DnaPow.Ledger.Blockchain

/-!
# Terms on the blocks of a run

`ProcessBlock` accepts the delivered block and then one orphan after the other, so
a condition on the state in which a block is accepted is not a condition on the
deliveries alone. `RunMeets` follows a run and asks for given terms whenever
`maybeAcceptBlock` is called and whenever a block is put into the orphan pool.
-/

namespace DnaPow.Ledger

open DnaPow.Std Common Core Action

namespace Blockchain

/-- What is asked of the blocks of a run. -/
structure Terms where
  /-- Asked of a state and a block that is about to be accepted in it, given the
  hashes of the blocks whose orphans are looked at next. -/
  accepting : List Uint256 → Blockchain → Block → Prop
  /-- Asked of a state and a block that is put into the orphan pool. -/
  shelving : Blockchain → Block → Prop

variable (env : Env) (terms : Terms)

/-- The state without an orphan. -/
def withoutOrphan (bc : Blockchain) (orphan : OrphanBlock) : Blockchain :=
  ((removeOrphanBlock env orphan).run bc).2

/-- The hashes to go on with after an orphan was taken out of the pool. -/
def pendingAfter (pending : List Uint256) (orphan : OrphanBlock) : List Uint256 :=
  pending ++ [orphan.block.hash env.crypto]

/-- The orphans that `processOrphansLoop` accepts meet the terms. -/
def LoopMeets : (fuel : Nat) → List Uint256 → Blockchain → Prop
  | 0, _, _ => True
  | _, [], _ => True
  | fuel + 1, hash :: hashes, bc =>
      match bc.prevOrphans hash with
      | [] => LoopMeets fuel hashes bc
      | orphan :: _ =>
          let pending := pendingAfter env (hash :: hashes) orphan
          terms.accepting pending (bc.withoutOrphan env orphan) orphan.block ∧
            (maybeAcceptBlock env orphan.block).Ensures (bc.withoutOrphan env orphan)
              (fun _ => LoopMeets fuel pending) (fun _ => True)

/-- A delivered block that passes the checks on arrival meets the terms, and so do
the orphans that are accepted after it. -/
def StepMeets (bc : Blockchain) (delivery : Delivery) : Prop :=
  (checkArrival env delivery).Ensures bc
    (fun _ arrived =>
      if arrived.isOrphan delivery.block then terms.shelving arrived delivery.block
      else
        let pending := [delivery.block.hash env.crypto]
        terms.accepting pending arrived delivery.block ∧
          (maybeAcceptBlock env delivery.block).Ensures arrived
            (fun _ after => LoopMeets env terms (2 * after.orphans.length + 2) pending after)
            (fun _ => True))
    (fun _ => True)

/-- All deliveries meet the terms in the states in which they arrive. -/
def RunMeets : Blockchain → List Delivery → Prop
  | _, [] => True
  | bc, delivery :: deliveries =>
      StepMeets env terms bc delivery ∧
        ∀ after ∈ deliver env bc delivery, RunMeets after deliveries

section Decidable

variable [∀ pending bc block, Decidable (terms.accepting pending bc block)]
  [∀ bc block, Decidable (terms.shelving bc block)]

instance LoopMeets.decidable : ∀ (fuel : Nat) (hashes : List Uint256) (bc : Blockchain),
    Decidable (LoopMeets env terms fuel hashes bc)
  | 0, _, _ => inferInstanceAs (Decidable True)
  | _ + 1, [], _ => inferInstanceAs (Decidable True)
  | fuel + 1, hash :: hashes, bc =>
      have := LoopMeets.decidable fuel
      match found : bc.prevOrphans hash with
      | [] => decidable_of_iff (LoopMeets env terms fuel hashes bc) (by rw [LoopMeets, found])
      | orphan :: _ =>
          decidable_of_iff
            (terms.accepting (pendingAfter env (hash :: hashes) orphan)
              (bc.withoutOrphan env orphan) orphan.block ∧
            (maybeAcceptBlock env orphan.block).Ensures (bc.withoutOrphan env orphan)
              (fun _ => LoopMeets env terms fuel (pendingAfter env (hash :: hashes) orphan))
              (fun _ => True)) (by rw [LoopMeets, found])

instance StepMeets.decidable (bc : Blockchain) (delivery : Delivery) :
    Decidable (StepMeets env terms bc delivery) :=
  inferInstanceAs (Decidable (Ensures _ _ _ _))

instance RunMeets.decidable : ∀ (bc : Blockchain) (deliveries : List Delivery),
    Decidable (RunMeets env terms bc deliveries)
  | _, [] => inferInstanceAs (Decidable True)
  | bc, delivery :: deliveries =>
      have := fun after => RunMeets.decidable after deliveries
      inferInstanceAs (Decidable (StepMeets env terms bc delivery ∧
        ∀ after ∈ deliver env bc delivery, RunMeets env terms after deliveries))

end Decidable

variable {env terms} {bc : Blockchain}

/-- An invariant of the deliveries of a run that meets the terms. -/
theorem run_induction_of_meets {deliveries : List Delivery} {holds : Blockchain → Prop}
    (start : holds (fresh env))
    (step : ∀ delivery ∈ deliveries, ∀ before after, holds before →
      StepMeets env terms before delivery → deliver env before delivery = some after →
        holds after)
    (meets : RunMeets env terms (fresh env) deliveries)
    (ran : run env deliveries = some bc) : holds bc := by
  unfold run at ran
  generalize fresh env = first at start ran meets
  induction deliveries generalizing first with
  | nil => exact Option.some.inj ran ▸ start
  | cons delivery deliveries ih =>
    rw [List.foldlM_cons] at ran
    obtain ⟨middle, delivered, rest⟩ := Option.bind_eq_some_iff.mp ran
    obtain ⟨stepMeets, restMeets⟩ := meets
    exact ih (fun other member => step other (List.mem_cons_of_mem _ member)) middle
      (step delivery List.mem_cons_self first middle start stepMeets delivered) rest
      (restMeets middle delivered)

/-- Each delivery of a run that meets the terms does so in the state that the earlier
ones lead to. -/
theorem RunMeets.split {first : Blockchain} {earlier later : List Delivery} {delivery : Delivery}
    (meets : RunMeets env terms first (earlier ++ delivery :: later))
    (ran : earlier.foldlM (deliver env) first = some bc) :
    RunMeets env terms first earlier ∧ StepMeets env terms bc delivery := by
  induction earlier generalizing first with
  | nil =>
    obtain rfl := Option.some.inj ran
    exact ⟨trivial, meets.1⟩
  | cons other earlier ih =>
    rw [List.foldlM_cons] at ran
    obtain ⟨middle, delivered, rest⟩ := Option.bind_eq_some_iff.mp ran
    obtain ⟨stepMeets, restMeets⟩ := meets
    obtain ⟨before, atLast⟩ := ih (restMeets middle delivered) rest
    refine ⟨⟨stepMeets, fun after isAfter => ?_⟩, atLast⟩
    obtain rfl := Option.some.inj (delivered.symm.trans isAfter)
    exact before

end Blockchain

end DnaPow.Ledger
