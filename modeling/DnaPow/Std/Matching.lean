import Mathlib.Data.List.Nodup
import Mathlib.Data.List.Perm.Basic

/-!
# Greedy matching

`greedyMatch` serves a list of requests one after the other: each takes the
first remaining offer it accepts. A successful run gives every request an offer
of its own. It may fail although a matching exists, but not when every request
accepts a single offer and no two requests accept the same one.
-/

namespace DnaPow.Std

variable {α β γ : Type*}

/-- Every request in turn takes the first remaining offer it accepts. -/
def greedyMatch (accepts : α → β → Bool) : List α → List β → Bool
  | [], _ => true
  | request :: requests, offers =>
      match offers.findIdx? (accepts request) with
      | some index => greedyMatch accepts requests (offers.eraseIdx index)
      | none => false

/-- Offers may be replaced by names for them. -/
theorem greedyMatch_map (accepts : α → β → Bool) (offer : γ → β) (requests : List α)
    (names : List γ) :
    greedyMatch accepts requests (names.map offer) =
      greedyMatch (fun request name => accepts request (offer name)) requests names := by
  induction requests generalizing names with
  | nil => rfl
  | cons request requests ih =>
    simp only [greedyMatch, List.findIdx?_map, Function.comp_def]
    cases names.findIdx? fun name => accepts request (offer name) with
    | none => rfl
    | some index => simp only [List.eraseIdx_map, ih]

section Distinct

variable [DecidableEq β] {accepts : α → β → Bool} {requests : List α} {offers : List β}

/-- Taking out the offer at an index leaves the others. -/
private theorem mem_eraseIdx_iff (distinct : offers.Nodup) {index : Nat}
    (bound : index < offers.length) {offer : β} :
    offer ∈ offers.eraseIdx index ↔ offer ≠ offers[index] ∧ offer ∈ offers := by
  rw [← distinct.erase_getElem index bound, distinct.mem_erase_iff]

/-- A successful match gives each request an offer it accepts, and no offer twice. -/
theorem exists_offers_of_greedyMatch (distinct : offers.Nodup)
    (matched : greedyMatch accepts requests offers = true) :
    ∃ taken : List β, taken.Nodup ∧ taken ⊆ offers ∧
      List.Forall₂ (fun request offer => accepts request offer = true) requests taken := by
  induction requests generalizing offers with
  | nil => exact ⟨[], .nil, by simp, .nil⟩
  | cons request requests ih =>
    rw [greedyMatch] at matched
    split at matched
    case h_2 => contradiction
    case h_1 index found =>
      obtain ⟨bound, accepted, _⟩ := List.findIdx?_eq_some_iff_getElem.mp found
      obtain ⟨taken, nodup, inside, served⟩ := ih (distinct.eraseIdx index) matched
      have others : ∀ offer ∈ taken, offer ≠ offers[index] ∧ offer ∈ offers :=
        fun _ member => (mem_eraseIdx_iff distinct bound).mp (inside member)
      exact ⟨offers[index] :: taken, .cons (fun again => (others _ again).1 rfl) nodup,
        List.cons_subset.mpr ⟨List.getElem_mem bound, fun _ member => (others _ member).2⟩,
        .cons accepted served⟩

/-- Requests that each accept one offer only, all of them different, are matched
in whatever order they come. -/
theorem greedyMatch_of_forced {targets : List β} (distinct : offers.Nodup)
    (nodup : targets.Nodup) (inside : targets ⊆ offers)
    (only : List.Forall₂ (fun request target =>
      ∀ offer ∈ offers, accepts request offer = true ↔ offer = target) requests targets) :
    greedyMatch accepts requests offers = true := by
  induction requests generalizing offers targets with
  | nil => rfl
  | cons request requests ih =>
    obtain _ | ⟨accepted, later⟩ := only
    rename_i target targets
    obtain ⟨here, inside⟩ := List.cons_subset.mp inside
    obtain ⟨fresh, nodup⟩ := List.nodup_cons.mp nodup
    have some : (offers.findIdx? (accepts request)).isSome := by
      rw [List.findIdx?_isSome, List.any_eq_true]
      exact ⟨target, here, (accepted target here).mpr rfl⟩
    obtain ⟨index, found⟩ := Option.isSome_iff_exists.mp some
    obtain ⟨bound, taken, _⟩ := List.findIdx?_eq_some_iff_getElem.mp found
    have same : offers[index] = target := (accepted _ (List.getElem_mem bound)).mp taken
    have stays : targets ⊆ offers.eraseIdx index := fun other member =>
      (mem_eraseIdx_iff distinct bound).mpr
        ⟨fun again => fresh (same ▸ again ▸ member), inside member⟩
    rw [greedyMatch, found]
    refine ih (distinct.eraseIdx index) nodup stays (later.imp fun _ _ forced offer member => ?_)
    exact forced offer (List.mem_of_mem_eraseIdx member)

end Distinct

end DnaPow.Std
