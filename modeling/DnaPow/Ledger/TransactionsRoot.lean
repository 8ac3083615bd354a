import DnaPow.Ledger.Block
import DnaPow.Std.PairTree

/-!
# What the transactions root commits to

`ComputeRoot` completes an odd level by pairing its last node with itself, so
lists with repetitions can have the same root. Among lists without repetitions
the root determines the list, as long as the hashing of pairs has no collision on
the data of the two trees and no transaction hash is the hash of a pair.
-/

namespace DnaPow.Ledger

open DnaPow.Std DnaPow.Std.PairTree Common

variable (crypto : Primitives) {nodes : List Uint256} {fuel : Nat}

/-- The pair hash of `levelUp`. -/
def pairHash (pair : Uint256 × Uint256) : Uint256 :=
  crypto.doubleSha256 (pair.1.toArray ++ pair.2.toArray)

/-- The pairs that the loop of `NewMerkleTree` hashes. -/
def merklePairs : (fuel : Nat) → List Uint256 → List (Uint256 × Uint256)
  | fuel + 1, first :: second :: rest =>
      pairs (first :: second :: rest) ++ merklePairs fuel (levelUp crypto (first :: second :: rest))
  | _, _ => []

/-- The pairs that `ComputeRoot` hashes. -/
def hashedPairs (hashes : List Uint256) : List (Uint256 × Uint256) :=
  merklePairs crypto hashes.length hashes

theorem levelUp_eq (nodes : List Uint256) : levelUp crypto nodes = level (pairHash crypto) nodes := by
  unfold level
  induction nodes using pairs.induct with
  | case1 => rfl
  | case2 last => rfl
  | case3 left right rest ih => rw [levelUp, pairs, List.map_cons, ih]; rfl

theorem length_levelUp (two : 2 ≤ nodes.length)
    (enough : nodes.length ≤ fuel + 1) : (levelUp crypto nodes).length ≤ fuel := by
  rw [levelUp_eq, level, List.length_map, length_pairs]
  omega

/-- The root is the top of the tree of pairs. -/
theorem above_merkleRoot (nonempty : nodes ≠ []) (enough : nodes.length ≤ fuel) :
    Above (pairHash crypto) [merkleRoot crypto fuel nodes] nodes := by
  induction fuel generalizing nodes with
  | zero => exact absurd (List.length_eq_zero_iff.mp (by omega)) nonempty
  | succ fuel ih =>
    rcases nodes with _ | ⟨first, _ | ⟨second, rest⟩⟩
    · exact absurd rfl nonempty
    · exact .refl
    · have two : 2 ≤ (first :: second :: rest).length := by simp
      have higher : levelUp crypto (first :: second :: rest) ≠ [] := by simp [levelUp]
      have above := ih higher (length_levelUp crypto two enough)
      rw [levelUp_eq] at above
      rw [merkleRoot, levelUp_eq]
      exact .step two above

theorem merklePairs_eq (two : 2 ≤ nodes.length) :
    merklePairs crypto (fuel + 1) nodes =
      pairs nodes ++ merklePairs crypto fuel (level (pairHash crypto) nodes) := by
  rcases nodes with _ | ⟨first, _ | ⟨second, rest⟩⟩
  · cases two
  · simp at two
  · rw [← levelUp_eq]
    rfl

/-- The pairs of all levels are hashed. -/
theorem mem_merklePairs {nodes upper : List Uint256} (enough : nodes.length ≤ fuel)
    (above : Above (pairHash crypto) upper nodes) (two : 2 ≤ upper.length)
    {pair : Uint256 × Uint256} (member : pair ∈ pairs upper) :
    pair ∈ merklePairs crypto fuel nodes := by
  induction above generalizing fuel with
  | refl =>
    obtain ⟨fuel, rfl⟩ : ∃ less, fuel = less + 1 := ⟨fuel - 1, by omega⟩
    rw [merklePairs_eq crypto two]
    exact List.mem_append_left _ member
  | @step nodes two' above ih =>
    obtain ⟨fuel, rfl⟩ : ∃ less, fuel = less + 1 := ⟨fuel - 1, by omega⟩
    rw [merklePairs_eq crypto two']
    have shorter := length_levelUp crypto two' enough
    rw [levelUp_eq] at shorter
    exact List.mem_append_right _ (ih shorter)

/-- A list of distinct hashes, with a tree whose pairs are hashed. -/
theorem clean_hashes {hashes : List Uint256} {hashed : Set (Uint256 × Uint256)}
    (nodup : hashes.Nodup) (inside : ∀ pair ∈ hashedPairs crypto hashes, pair ∈ hashed) :
    Clean (pairHash crypto) hashed hashes where
  nodup := nodup
  pairs_mem _ above two pair member := inside pair (mem_merklePairs crypto le_rfl above two member)

/-- Distinct transaction hashes are not a higher level of another tree. -/
theorem eq_of_above {first second : List Uint256} {hashed : Set (Uint256 × Uint256)}
    (injective : Set.InjOn (pairHash crypto) hashed) (clean : Clean (pairHash crypto) hashed second)
    (nonempty : first ≠ []) (leaves : ∀ hash ∈ first, ∀ pair ∈ hashed, pairHash crypto pair ≠ hash)
    (above : Above (pairHash crypto) first second) : first = second := by
  cases above with
  | refl => rfl
  | step two above =>
    obtain ⟨hash, member⟩ := List.exists_mem_of_ne_nil first nonempty
    obtain ⟨pair, inside, same⟩ := above.exists_pair injective clean two member
    exact absurd same (leaves hash member pair inside)

/-- Two lists of distinct transaction hashes with the same root are equal, when the
pairs hashed for them have different hashes, none of which is a transaction hash. -/
theorem eq_of_computeRoot_eq (crypto : Primitives) (first second : List Uint256)
    (nodupFirst : first.Nodup) (nodupSecond : second.Nodup)
    (injective : ∀ pair ∈ hashedPairs crypto first ++ hashedPairs crypto second,
      ∀ other ∈ hashedPairs crypto first ++ hashedPairs crypto second,
        pairHash crypto pair = pairHash crypto other → pair = other)
    (leaves : ∀ hash ∈ first ++ second,
      ∀ pair ∈ hashedPairs crypto first ++ hashedPairs crypto second, pairHash crypto pair ≠ hash)
    (same : computeRoot crypto first = computeRoot crypto second) : first = second := by
  by_cases emptyFirst : first = []
  · by_cases emptySecond : second = []
    · rw [emptyFirst, emptySecond]
    · simp [computeRoot, emptyFirst, emptySecond] at same
  by_cases emptySecond : second = []
  · simp [computeRoot, emptyFirst, emptySecond] at same
  simp only [computeRoot, emptyFirst, emptySecond, if_false, Option.some.injEq] at same
  let hashed : Set (Uint256 × Uint256) :=
    { pair | pair ∈ hashedPairs crypto first ++ hashedPairs crypto second }
  have apart : Set.InjOn (pairHash crypto) hashed := fun pair inside other inside' =>
    injective pair inside other inside'
  have cleanFirst : Clean (pairHash crypto) hashed first :=
    clean_hashes crypto nodupFirst fun pair member => List.mem_append_left _ member
  have cleanSecond : Clean (pairHash crypto) hashed second :=
    clean_hashes crypto nodupSecond fun pair member => List.mem_append_right _ member
  have topFirst := above_merkleRoot crypto emptyFirst le_rfl
  have topSecond := above_merkleRoot crypto emptySecond le_rfl
  rw [← same] at topSecond
  rcases topFirst.comparable apart cleanFirst cleanSecond topSecond with above | above
  · exact eq_of_above crypto apart cleanSecond emptyFirst
      (fun hash member => leaves hash (List.mem_append_left _ member)) above
  · exact (eq_of_above crypto apart cleanFirst emptySecond
      (fun hash member => leaves hash (List.mem_append_right _ member)) above).symm

/-- Three transactions: three pairs are hashed, one of them the last node with itself. -/
theorem eq_of_computeRoot_three :
    (hashedPairs .polynomial [1, 2, 3]).length = 3 ∧ ([1, 2, 3] : List Uint256) = [1, 2, 3] := by
  refine ⟨by decide +kernel, ?_⟩
  have injective : ((hashedPairs .polynomial [1, 2, 3]).all fun pair =>
      (hashedPairs .polynomial [1, 2, 3]).all fun other =>
        decide (pairHash .polynomial pair = pairHash .polynomial other → pair = other)) = true := by
    decide +kernel
  have leaves : (([1, 2, 3] : List Uint256).all fun hash =>
      (hashedPairs .polynomial [1, 2, 3]).all fun pair =>
        decide (pairHash .polynomial pair ≠ hash)) = true := by
    decide +kernel
  simp only [List.all_eq_true, decide_eq_true_eq] at injective leaves
  apply eq_of_computeRoot_eq .polynomial [1, 2, 3] [1, 2, 3] (by decide +kernel) (by decide +kernel)
  · simpa only [List.mem_append, or_self] using injective
  · simpa only [List.mem_append, or_self] using leaves
  · rfl

end DnaPow.Ledger
