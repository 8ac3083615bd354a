import DnaPow.Ledger.OrphanPool

/-!
# The root of an orphan

`GetOrphanRoot` goes from an orphan to its parent for as long as the parent is an orphan too. A node
requests the blocks up to the root it finds.
-/

namespace DnaPow.Ledger.Blockchain

open Common Relation

section Root

variable (env : Env) (bc : Blockchain)

def isKnownOrphan (hash : Uint256) : Bool := bc.orphans.any (·.block.hash env.crypto = hash)

/-- The loop of `GetOrphanRoot`; `none` when the fuel runs out. -/
def orphanRootFrom : (fuel : Nat) → (orphanRoot prevHash : Uint256) → Option Uint256
  | 0, _, _ => none
  | fuel + 1, orphanRoot, prevHash =>
    match bc.orphans.find? (·.block.hash env.crypto = prevHash) with
    | none => some orphanRoot
    | some orphan => orphanRootFrom fuel prevHash orphan.block.blockdata.prevBlockHash

def getOrphanRoot (fuel : Nat) (hash : Uint256) : Option Uint256 :=
  bc.orphanRootFrom env fuel hash hash

/-- An orphan and the parent it waits for, by their hashes. -/
def WaitsFor (hash parent : Uint256) : Prop :=
  ∃ orphan ∈ bc.orphans, orphan.block.hash env.crypto = hash ∧
    orphan.block.blockdata.prevBlockHash = parent

variable {env bc} {hash : Uint256}

theorem orphanRootFrom_of_unknown (unknown : bc.isKnownOrphan env hash = false) (fuel : Nat)
    (root : Uint256) : bc.orphanRootFrom env (fuel + 1) root hash = some root := by
  have absent : bc.orphans.find? (·.block.hash env.crypto = hash) = none := by
    simpa [isKnownOrphan] using unknown
  rw [orphanRootFrom, absent]

theorem orphanRootFrom_of_known (known : bc.isKnownOrphan env hash = true) :
    ∃ parent, bc.WaitsFor env hash parent ∧ ∀ fuel root,
      bc.orphanRootFrom env (fuel + 1) root hash = bc.orphanRootFrom env fuel hash parent := by
  obtain ⟨orphan, found⟩ := Option.isSome_iff_exists.mp
    (List.find?_isSome.mpr (List.any_eq_true.mp known))
  refine ⟨_, ⟨orphan, List.mem_of_find?_eq_some found, ?_, rfl⟩, fun fuel root => ?_⟩
  · simpa using List.find?_some found
  · rw [orphanRootFrom, found]

end Root

/-- When no orphan is among its own ancestors, `GetOrphanRoot` ends, with an orphan that the given
one waits for and whose own parent is not in the pool. -/
theorem getOrphanRoot_ends (env : Env) (bc : Blockchain) (rank : Uint256 → Nat)
    (falls : ∀ hash parent, bc.WaitsFor env hash parent → rank parent < rank hash)
    (hash : Uint256) (known : bc.isKnownOrphan env hash = true) (fuel : Nat)
    (enough : rank hash < fuel) :
    ∃ root parent, bc.getOrphanRoot env fuel hash = some root ∧
      ReflTransGen (bc.WaitsFor env) hash root ∧ bc.WaitsFor env root parent ∧
      bc.isKnownOrphan env parent = false := by
  -- the rank of the hash that is looked up bounds the rounds that are left
  suffices walk : ∀ start, ∃ root parent, bc.orphanRootFrom env fuel start hash = some root ∧
      ReflTransGen (bc.WaitsFor env) hash root ∧ bc.WaitsFor env root parent ∧
      bc.isKnownOrphan env parent = false from walk hash
  intro start
  induction fuel generalizing start hash with
  | zero => cases enough
  | succ fuel ih =>
    obtain ⟨parent, waits, round⟩ := orphanRootFrom_of_known known
    have lower := falls hash parent waits
    rw [round]
    cases parentKnown : bc.isKnownOrphan env parent with
    | false =>
      obtain ⟨fuel, rfl⟩ := Nat.exists_eq_succ_of_ne_zero (by omega : fuel ≠ 0)
      exact ⟨hash, parent, orphanRootFrom_of_unknown parentKnown _ _, .refl, waits, parentKnown⟩
    | true =>
      obtain ⟨root, top, ends, path, rest⟩ := ih parent parentKnown (by omega) hash
      exact ⟨root, top, ends, .head waits path, rest⟩

theorem getOrphanRoot_stray :
    ∃ bc root parent, run .sample (Sample.deliveries [strayBlock 4]) = some bc ∧
      bc.getOrphanRoot .sample 2 ((strayBlock 4).hash Env.sample.crypto) = some root ∧
      bc.WaitsFor .sample root parent ∧ bc.isKnownOrphan .sample parent = false := by
  have ends : (run .sample (Sample.deliveries [strayBlock 4])).map
      (·.orphans.map OrphanBlock.block) = some [strayBlock 4] := by decide +kernel
  obtain ⟨bc, ran, orphans⟩ := Option.map_eq_some_iff.mp ends
  obtain ⟨orphan, pool, isBlock⟩ := List.map_eq_singleton_iff.mp orphans
  let rank (hash : Uint256) : Nat := if hash = (strayBlock 4).hash Env.sample.crypto then 1 else 0
  have falls : ∀ hash parent, bc.WaitsFor .sample hash parent → rank parent < rank hash := by
    rintro _ _ ⟨other, member, rfl, rfl⟩
    obtain rfl := List.mem_singleton.mp (pool ▸ member)
    rw [isBlock]
    decide +kernel
  obtain ⟨root, parent, found, -, rest⟩ := getOrphanRoot_ends .sample bc rank falls
    ((strayBlock 4).hash Env.sample.crypto) (by simp [isKnownOrphan, pool, isBlock]) 2 (by simp [rank])
  exact ⟨bc, root, parent, ran, found, rest⟩

end DnaPow.Ledger.Blockchain
