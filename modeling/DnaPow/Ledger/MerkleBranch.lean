import DnaPow.Ledger.TransactionsRoot

/-!
# Merkle branches

`CheckMerkleBranch` combines a hash with its siblings, level by level, as the tree does.
But it hashes a pair once, and the tree hashes a pair twice. So it leads to the root of
the tree only where there is nothing to combine.
-/

namespace DnaPow.Ledger

open DnaPow.Std DnaPow.Std.PairTree Common Core

variable (crypto : Primitives)

/-- The two hashes of a pair, one after the other. -/
def joined (pair : Uint256 × Uint256) : Bytes := pair.1.toArray ++ pair.2.toArray

/-- The pair hash of `CheckMerkleBranch`. -/
def branchHash (pair : Uint256 × Uint256) : Uint256 := crypto.sha256 (joined pair)

/-- The siblings of a leaf of the tree of `NewMerkleTree`, level by level. -/
def merkleBranch (hashes : List Uint256) (index : Nat) : List Uint256 :=
  branch (pairHash crypto) hashes.length hashes index

theorem checkMerkleBranch_eq_climb (hash : Uint256) (siblings : List Uint256) (index : Nat) :
    AuxPow.checkMerkleBranch crypto hash siblings index =
      climb (branchHash crypto) hash siblings index := by
  rw [AuxPow.checkMerkleBranch, if_neg (by omega)]
  induction siblings generalizing hash index with
  | nil => rfl
  | cons sibling siblings ih =>
    have half : ((index : Int) / 2) = ((index / 2 : Nat) : Int) := by omega
    have bit : (index : Int) % 2 = 1 ↔ index % 2 = 1 := by omega
    rw [AuxPow.foldBranch, climb, half, ih]
    simp only [bit]
    congr 2
    split <;> rfl

/-- With the pair hash of the tree, a branch leads to the root. -/
theorem climb_merkleBranch {hashes : List Uint256} {index : Nat} {leaf : Uint256}
    (here : hashes[index]? = some leaf) :
    computeRoot crypto hashes =
      some (climb (pairHash crypto) leaf (merkleBranch crypto hashes index) index) := by
  have nonempty : hashes ≠ [] := by
    rintro rfl
    cases here
  rw [computeRoot, if_neg nonempty, merkleBranch,
    climb_branch (above_merkleRoot crypto nonempty le_rfl) le_rfl here]

/-- What `CheckMerkleBranch` hashes on the way from a leaf. -/
def branchData (hashes : List Uint256) (index : Nat) (leaf : Uint256) : List Bytes :=
  (climbed (branchHash crypto) leaf (merkleBranch crypto hashes index) index).map joined

/-- What the tree hashes a second time on the way from a leaf. -/
def treeData (hashes : List Uint256) (index : Nat) (leaf : Uint256) : List Bytes :=
  (climbed (pairHash crypto) leaf (merkleBranch crypto hashes index) index).map fun pair =>
    (crypto.sha256 (joined pair)).toArray

/-- A branch leads `CheckMerkleBranch` to the root of the tree if the tree has one leaf. If
it has more, a pair and a hash would have to have the same hash. -/
theorem checkMerkleBranch_eq_computeRoot_iff {hashes : List Uint256} {index : Nat} {leaf : Uint256}
    (here : hashes[index]? = some leaf)
    (apart : ∀ data ∈ branchData crypto hashes index leaf, ∀ other ∈ treeData crypto hashes index leaf,
      crypto.sha256 data ≠ crypto.sha256 other) :
    some (AuxPow.checkMerkleBranch crypto leaf (merkleBranch crypto hashes index) index) =
        computeRoot crypto hashes ↔ hashes.length = 1 := by
  obtain ⟨inside, isLeaf⟩ := List.getElem?_eq_some_iff.mp here
  rw [checkMerkleBranch_eq_climb, climb_merkleBranch crypto here, Option.some.injEq]
  constructor
  · intro same
    by_contra more
    have siblings : merkleBranch crypto hashes index ≠ [] :=
      branch_ne_nil (by omega) le_rfl inside
    obtain ⟨pair, member, single⟩ := @exists_climbed _ (branchHash crypto) leaf _ index siblings
    obtain ⟨pair', member', double⟩ := @exists_climbed _ (pairHash crypto) leaf _ index siblings
    rw [single, double] at same
    exact apart _ (List.mem_map_of_mem member) _
      (List.mem_map_of_mem (f := fun pair => (crypto.sha256 (joined pair)).toArray) member') same
  · intro one
    obtain ⟨only, rfl⟩ := List.length_eq_one_iff.mp one
    rfl

theorem checkMerkleBranch_three :
    some (AuxPow.checkMerkleBranch .polynomial 3 (merkleBranch .polynomial [1, 2, 3] 2) 2) =
      computeRoot .polynomial [1, 2, 3] ↔ [1, 2, 3].length = 1 := by
  have apart : ((branchData .polynomial [1, 2, 3] 2 3).all fun data =>
      (treeData .polynomial [1, 2, 3] 2 3).all fun other =>
        decide (Primitives.polynomial.sha256 data ≠ Primitives.polynomial.sha256 other)) = true := by
    decide +kernel
  simp only [List.all_eq_true, decide_eq_true_eq] at apart
  exact checkMerkleBranch_eq_computeRoot_iff .polynomial rfl apart

/-- The first of two leaves. -/
theorem checkMerkleBranch_two :
    some (AuxPow.checkMerkleBranch .polynomial 1 (merkleBranch .polynomial [1, 2] 0) 0) ≠
      computeRoot .polynomial [1, 2] := by
  decide +kernel

end DnaPow.Ledger
