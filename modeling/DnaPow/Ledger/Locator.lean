import DnaPow.Ledger.Constants
import DnaPow.Ledger.Refinement

/-!
# Block locators

A locator lists blocks of the main chain from the tip down, the first ten one after
the other and the rest at distances that double, and ends with the genesis block.
`locatorHeights` says which heights these are. Another node takes the first block of
a locator that it can read.
-/

namespace DnaPow.Ledger

open DnaPow.Std Common Core

def maxBlockLocatorsPerMsg : Nat := 500

namespace Blockchain

/-- The loop of `blockLocatorFromHash`. Every round lowers the height, which bounds
their number. -/
def locatorLoop (store : ChainStore) :
    (fuel : Nat) → List Uint256 → (increment blockHeight : Int32) → List Uint256
  | 0, locator, _, _ => locator
  | fuel + 1, locator, increment, blockHeight =>
      if locator.length < maxBlockLocatorsPerMsg - 1 then
        let increment := if locator.length > 10 then increment * 2 else increment
        let blockHeight := blockHeight - increment
        if blockHeight < 1 then locator
        else
          match store.getBlockHash blockHeight.toUInt32 with
          | .ok h => locatorLoop store fuel (locator ++ [h]) increment blockHeight
          | _ => locatorLoop store fuel locator increment blockHeight
      else locator

/-- `blockLocatorFromHash`. A block that is neither in memory nor in the store makes
a locator of its own. -/
def blockLocatorFromHash (env : Env) (bc : Blockchain) (hash : Uint256) :
    Outcome StoreError (List Uint256) :=
  if hash = bc.genesisHash then .ok [hash]
  else
    let above (height : UInt32) :=
      locatorLoop bc.store (height.toNat + 1) [hash] 1 height.toInt32 ++ [bc.genesisHash]
    match bc.index hash with
    | some id => .ok (above (bc.nodes.get id).height)
    | none =>
        match bc.store.getBlock env.crypto hash with
        | .ok block => .ok (above block.blockdata.height)
        | .error _ => .ok [hash]
        | .panic => .panic

/-- `LatestLocatorHash`: the first block of a locator that can be read. -/
def latestLocatorHash (env : Env) (bc : Blockchain) :
    List Uint256 → Outcome StoreError Uint256
  | [] => .ok 0
  | hash :: locator =>
      match bc.store.getBlock env.crypto hash with
      | .ok _ => .ok hash
      | .error _ => latestLocatorHash env bc locator
      | .panic => .panic

end Blockchain

/-! ## The heights of a locator -/

/-- The heights between the tip and the genesis block, for the given room. -/
def backOff : (room length increment height : Nat) → List Nat
  | 0, _, _, _ => []
  | room + 1, length, increment, height =>
      let increment := if length > 10 then increment * 2 else increment
      if height ≤ increment then []
      else (height - increment) :: backOff room (length + 1) increment (height - increment)

/-- The heights of the blocks in a locator, from that of the tip down to zero. -/
def locatorHeights (height : Nat) : List Nat :=
  if height = 0 then [0]
  else height :: backOff (maxBlockLocatorsPerMsg - 2) 1 1 height ++ [0]

theorem length_backOff_le (room length increment height : Nat) :
    (backOff room length increment height).length ≤ room := by
  induction room generalizing length increment height with
  | zero => exact Nat.le_refl _
  | succ room ih =>
    rw [backOff]
    generalize (if length > 10 then increment * 2 else increment) = step
    split
    · exact Nat.zero_le _
    · rw [List.length_cons]
      exact Nat.succ_le_succ (ih _ _ _)

theorem backOff_bounds {room length increment height : Nat} (positive : 0 < increment) :
    ∀ n ∈ backOff room length increment height, 0 < n ∧ n < height := by
  induction room generalizing length increment height with
  | zero => simp [backOff]
  | succ room ih =>
    intro n member
    rw [backOff] at member
    generalize grown : (if length > 10 then increment * 2 else increment) = step at member
    have stepPositive : 0 < step := by
      rw [← grown]
      split <;> omega
    split at member
    · cases member
    · rcases List.mem_cons.mp member with rfl | lower
      · omega
      · have bounds := ih stepPositive n lower
        omega

theorem pairwise_backOff {room length increment height : Nat} (positive : 0 < increment) :
    (backOff room length increment height).Pairwise (· > ·) := by
  induction room generalizing length increment height with
  | zero => exact .nil
  | succ room ih =>
    rw [backOff]
    generalize grown : (if length > 10 then increment * 2 else increment) = step
    have stepPositive : 0 < step := by
      rw [← grown]
      split <;> omega
    split
    · exact .nil
    · exact List.pairwise_cons.mpr
        ⟨fun n member => (backOff_bounds stepPositive n member).2, ih stepPositive⟩

theorem length_locatorHeights_le (height : Nat) :
    (locatorHeights height).length ≤ maxBlockLocatorsPerMsg := by
  unfold locatorHeights
  split
  · decide
  · have bound := length_backOff_le (maxBlockLocatorsPerMsg - 2) 1 1 height
    simp only [maxBlockLocatorsPerMsg, List.length_append, List.length_cons,
      List.length_nil] at bound ⊢
    omega

theorem pairwise_locatorHeights (height : Nat) : (locatorHeights height).Pairwise (· > ·) := by
  unfold locatorHeights
  split
  · exact List.pairwise_singleton _ _
  · have bounds (n : Nat) := @backOff_bounds (maxBlockLocatorsPerMsg - 2) 1 1 height (by decide) n
    rw [List.cons_append, List.pairwise_cons, List.pairwise_append]
    refine ⟨?_, pairwise_backOff (by decide), List.pairwise_singleton _ _, ?_⟩
    · intro n member
      rcases List.mem_append.mp member with between | last
      · exact (bounds n between).2
      · obtain rfl := List.mem_singleton.mp last
        omega
    · intro n member last isLast
      obtain rfl := List.mem_singleton.mp isLast
      exact (bounds n member).1

theorem head?_locatorHeights (height : Nat) : (locatorHeights height).head? = some height := by
  unfold locatorHeights
  split
  · next zero => rw [zero]; rfl
  · rfl

theorem getLast?_locatorHeights (height : Nat) : (locatorHeights height).getLast? = some 0 := by
  unfold locatorHeights
  split
  · rfl
  · exact List.getLast?_concat

theorem le_of_mem_locatorHeights {height n : Nat} (member : n ∈ locatorHeights height) :
    n ≤ height := by
  have order := pairwise_locatorHeights height
  obtain ⟨rest, split⟩ := List.head?_eq_some_iff.mp (head?_locatorHeights height)
  rw [split] at order member
  rcases List.mem_cons.mp member with rfl | lower
  · exact Nat.le_refl _
  · exact Nat.le_of_lt ((List.pairwise_cons.mp order).1 n lower)

/-! ## The locator of a main chain -/

/-- The block of a chain, newest first, at the given height. -/
def blockAt (env : Env) (chain : List Block) (height : Nat) : Block :=
  (chain.reverse[height]?).getD (genesisBlock env)

section Chain

variable {env : Env} {known : Block → Prop} {chain : List Block} {store : ChainStore}
  (branch : (blockLinks env).Branch known chain)
include branch

theorem blockAt_mem {height : Nat} (bound : height < chain.length) :
    blockAt env chain height ∈ chain ∧
      (blockAt env chain height).blockdata.height.toNat = height := by
  have found : chain[chain.length - 1 - height]? = some (blockAt env chain height) := by
    rw [blockAt, List.getElem?_reverse bound]
    have inside : chain.length - 1 - height < chain.length := by omega
    rw [List.getElem?_eq_getElem inside, Option.getD_some]
  have place : (blockAt env chain height).blockdata.height.toNat + (chain.length - 1 - height) + 1 =
      chain.length := branch.height_add_eq_length rfl found
  exact ⟨List.mem_of_getElem? found, by omega⟩

/-- A block of a chain is the one at its height. -/
theorem blockAt_height {block : Block} (member : block ∈ chain) :
    blockAt env chain block.blockdata.height.toNat = block := by
  obtain ⟨place, found⟩ := List.getElem?_of_mem member
  have height : block.blockdata.height.toNat + place + 1 = chain.length :=
    branch.height_add_eq_length rfl found
  rw [blockAt, List.getElem?_reverse (by omega),
    show chain.length - 1 - block.blockdata.height.toNat = place by omega, found, Option.getD_some]

theorem getBlockHash_blockAt (represents : Represents env chain store) {height : Nat}
    (bound : height < chain.length) :
    store.getBlockHash (UInt32.ofNat height) = .ok ((blockAt env chain height).hash env.crypto) := by
  obtain ⟨member, same⟩ := blockAt_mem branch bound
  refine represents.getBlockHash_eq_ok.mpr ⟨_, member, ?_, rfl⟩
  rw [← same, UInt32.ofNat_toNat, same]

/-- The loop appends the heights between the tip and the genesis block. Increments
are paid for by the distance from the tip, so no subtraction wraps around. -/
theorem locatorLoop_eq (represents : Represents env chain store) (low : chain.length ≤ 2 ^ 31)
    {fuel increment height : Nat} {locator : List Uint256} (inChain : height < chain.length)
    (enough : height < fuel) (positive : 0 < increment)
    (pace : increment = 1 ∧ locator.length + height ≤ chain.length ∨
      2 * increment + height < chain.length) :
    Blockchain.locatorLoop store fuel locator (Int32.ofNat increment) (Int32.ofNat height) =
      locator ++ (backOff (maxBlockLocatorsPerMsg - 1 - locator.length) locator.length increment
        height).map fun n => (blockAt env chain n).hash env.crypto := by
  induction fuel generalizing increment height locator with
  | zero => cases enough
  | succ fuel ih =>
    rw [Blockchain.locatorLoop]
    split
    · next room =>
      obtain ⟨left, isLeft⟩ : ∃ left, maxBlockLocatorsPerMsg - 1 - locator.length = left + 1 :=
        ⟨maxBlockLocatorsPerMsg - 1 - locator.length - 1, by omega⟩
      have step : (if locator.length > 10 then Int32.ofNat increment * 2
          else Int32.ofNat increment) =
          Int32.ofNat (if locator.length > 10 then increment * 2 else increment) := by
        split
        · rw [Int32.ofNat_mul]
          rfl
        · rfl
      rw [isLeft, backOff]
      simp only [step]
      generalize grown : (if locator.length > 10 then increment * 2 else increment) = next
      have paid : 0 < next ∧ next < 2 ^ 31 ∧ (height ≤ next ∨
          (next = 1 ∧ locator.length + 1 + (height - next) ≤ chain.length ∨
            2 * next + (height - next) < chain.length)) := by
        rw [← grown]
        split <;> omega
      obtain ⟨nextPositive, nextSmall, paid⟩ := paid
      have below : Int32.ofNat height - Int32.ofNat next < 1 ↔ height ≤ next := by
        rw [Int32.lt_iff_toInt_lt, Int32.toInt_sub, Int32.toInt_ofNat_of_lt (by omega),
          Int32.toInt_ofNat_of_lt nextSmall, Int32.toInt_one, Int.bmod_eq_of_le] <;> omega
      by_cases last : height ≤ next
      · rw [if_pos (below.mpr last), if_pos last, List.map_nil, List.append_nil]
      · rw [if_neg (fun less => last (below.mp less)), if_neg last,
          ← Int32.ofNat_sub _ _ (by omega), Int32.toUInt32_ofNat',
          getBlockHash_blockAt branch represents (by omega)]
        have lengths : left = maxBlockLocatorsPerMsg - 1 - (locator.length + 1) := by omega
        dsimp only
        rw [ih (by omega) (by omega) nextPositive (by
            simpa using paid.resolve_left last), List.append_assoc, List.length_append,
          List.length_singleton, lengths]
        rfl
    · next full =>
      rw [show maxBlockLocatorsPerMsg - 1 - locator.length = 0 by omega, backOff, List.map_nil,
        List.append_nil]

end Chain

/-- A block that the store can give back: it deploys no code. -/
def Block.Readable (block : Block) : Prop := ∀ tx ∈ block.transactions, tx.txType ≠ .deploy

instance (block : Block) : Decidable block.Readable :=
  inferInstanceAs (Decidable (∀ tx ∈ block.transactions, tx.txType ≠ .deploy))

theorem readable_genesisBlock (env : Env) : (genesisBlock env).Readable := by
  intro tx member
  rcases List.mem_pair.mp member with rfl | rfl
  · exact nofun
  · exact nofun

namespace Blockchain

variable {env : Env} {known : Block → Prop} {chain other : List Block} {bc : Blockchain} {tip : Block}
  {below : List Block}

section Nodes

variable (admissible : Admissible env known)
include admissible

theorem Invariant.getBlock_eq (invariant : Invariant env known chain bc) {block : Block}
    (member : block ∈ chain) :
    bc.store.getBlock env.crypto (block.hash env.crypto) =
      if block.Readable then .ok block else .panic := by
  have branch := invariant.mainChain.branch admissible
  have sane := admissible.sane _ (branch.known_of_mem admissible.genesis _ member)
  rw [(invariant.mainChain.represents admissible).getBlock_eq member sane]
  by_cases readable : block.Readable
  · rw [if_pos readable, if_neg]
    rintro ⟨tx, txMember, deploys⟩
    exact readable tx txMember deploys
  · rw [if_neg readable, if_pos]
    simpa [Block.Readable] using readable

/-- The locator of the tip of a main chain. Only the tip itself may have to be read. -/
theorem Invariant.blockLocatorFromHash_eq (invariant : Invariant env known (tip :: below) bc)
    (genesis : bc.genesisHash = (genesisBlock env).hash env.crypto)
    (low : (tip :: below).length ≤ 2 ^ 31) :
    bc.blockLocatorFromHash env (tip.hash env.crypto) =
      if (bc.index (tip.hash env.crypto)).isSome ∨ tip.Readable then
        .ok ((locatorHeights below.length).map fun n =>
          (blockAt env (tip :: below) n).hash env.crypto)
      else .panic := by
  have branch := invariant.mainChain.branch admissible
  have represents := invariant.mainChain.represents admissible
  have isKnown := branch.known_of_mem admissible.genesis
  have height : tip.blockdata.height.toNat = below.length := by
    have length := branch.height_eq_length rfl tip rfl
    exact Nat.succ.inj length
  have top : blockAt env (tip :: below) below.length = tip := by
    rw [← height]
    exact blockAt_height branch List.mem_cons_self
  by_cases lowest : below = []
  · subst lowest
    obtain rfl : tip = genesisBlock env := by
      cases branch
      rfl
    rw [if_pos (.inr (readable_genesisBlock env)), blockLocatorFromHash, if_pos genesis.symm]
    rfl
  · have positive : below.length ≠ 0 := fun zero => lowest (List.length_eq_zero_iff.mp zero)
    have notGenesis : tip.hash env.crypto ≠ bc.genesisHash := by
      intro same
      have zero := admissible.faithful.height_eq _ _ (isKnown tip List.mem_cons_self)
        admissible.genesis (same.trans genesis)
      exact positive (height.symm.trans zero)
    have above : locatorLoop bc.store (tip.blockdata.height.toNat + 1) [tip.hash env.crypto] 1
        tip.blockdata.height.toInt32 ++ [bc.genesisHash] = (locatorHeights below.length).map fun n =>
          (blockAt env (tip :: below) n).hash env.crypto := by
      have start : tip.blockdata.height.toInt32 = Int32.ofNat below.length := by
        rw [← height, ← UInt32.toInt32_ofNat', UInt32.ofNat_toNat]
      have loop := @locatorLoop_eq env known (tip :: below) bc.store branch represents low
        (below.length + 1) 1 below.length [tip.hash env.crypto] (Nat.lt_succ_self _)
        (Nat.lt_succ_self _) (by decide) (.inl ⟨rfl, by simp [Nat.add_comm]⟩)
      have last : blockAt env (tip :: below) 0 = genesisBlock env := by
        exact blockAt_height branch (branch.root_mem)
      rw [start, height, genesis]
      change locatorLoop bc.store (below.length + 1) [tip.hash env.crypto] (Int32.ofNat 1)
        (Int32.ofNat below.length) ++ _ = _
      rw [loop, locatorHeights, if_neg positive, List.map_append, List.map_cons, top, List.map_singleton,
        last]
      rfl
    rw [blockLocatorFromHash, if_neg notGenesis]
    dsimp only
    cases entry : bc.index (tip.hash env.crypto) with
    | some id =>
      obtain ⟨allocated, hash⟩ := invariant.tree.index _ _ entry
      dsimp only
      rw [(invariant.tree.header_eq admissible allocated (isKnown tip List.mem_cons_self) hash).2,
        above, if_pos (.inl rfl)]
    | none =>
      rw [invariant.getBlock_eq admissible List.mem_cons_self]
      by_cases readable : tip.Readable
      · rw [if_pos readable, if_pos (.inr readable)]
        exact congrArg Outcome.ok above
      · rw [if_neg readable, if_neg (by simpa using readable)]

/-- Two chains agree up to a height, and no further. -/
def AgreeUpTo (env : Env) (chain other : List Block) (fork : Nat) : Prop :=
  ∀ n, (n < chain.length ∧ n < other.length ∧
    (blockAt env chain n).hash env.crypto = (blockAt env other n).hash env.crypto) ↔ n ≤ fork

/-- The first block of a locator at or below the fork is the one that is read. -/
theorem Invariant.latestLocatorHash_eq (invariant : Invariant env known other bc)
    (branch : (blockLinks env).Branch known chain) {fork : Nat}
    (agree : AgreeUpTo env chain other fork) {heights : List Nat}
    (inChain : ∀ n ∈ heights, n < chain.length) {start : Nat}
    (first : heights.find? (· ≤ fork) = some start) :
    bc.latestLocatorHash env (heights.map fun n => (blockAt env chain n).hash env.crypto) =
      if (blockAt env other start).Readable then .ok ((blockAt env other start).hash env.crypto)
      else .panic := by
  have otherBranch := invariant.mainChain.branch admissible
  have represents := invariant.mainChain.represents admissible
  induction heights with
  | nil => cases first
  | cons n heights ih =>
    rw [List.map_cons, latestLocatorHash]
    by_cases common : n ≤ fork
    · obtain rfl : n = start := by simpa [common] using first
      obtain ⟨_, inOther, same⟩ := (agree n).mpr common
      rw [same, invariant.getBlock_eq admissible (blockAt_mem otherBranch inOther).1]
      by_cases readable : (blockAt env other n).Readable
      · rw [if_pos readable, if_pos readable]
      · rw [if_neg readable, if_neg readable]
    · rw [represents.getBlock_eq_error]
      · dsimp only
        refine ih (fun n member => inChain n (List.mem_cons_of_mem _ member)) ?_
        simpa [common] using first
      · intro block member same
        have bound := inChain n List.mem_cons_self
        obtain ⟨isMember, height⟩ := blockAt_mem branch bound
        have sameHeight : block.blockdata.height.toNat =
            (blockAt env chain n).blockdata.height.toNat := admissible.faithful.height_eq _ _
          (otherBranch.known_of_mem admissible.genesis _ member)
          (branch.known_of_mem admissible.genesis _ isMember) same
        rw [height] at sameHeight
        have isOther : blockAt env other n = block := by
          rw [← sameHeight]
          exact blockAt_height otherBranch member
        have inOther : block.blockdata.height.toNat < other.length := by
          obtain ⟨place, found⟩ := List.getElem?_of_mem member
          have length : block.blockdata.height.toNat + place + 1 = other.length :=
            otherBranch.height_add_eq_length rfl found
          omega
        exact common ((agree n).mp ⟨bound, sameHeight ▸ inOther, by rw [isOther, same]⟩)

/-- Two branches agree up to some height. -/
theorem exists_agreeUpTo (branch : (blockLinks env).Branch known chain)
    (branch' : (blockLinks env).Branch known other) : ∃ fork, AgreeUpTo env chain other fork := by
  classical
  let agrees (n : Nat) : Prop := n < chain.length ∧ n < other.length ∧
    (blockAt env chain n).hash env.crypto = (blockAt env other n).hash env.crypto
  have prev {chain : List Block} (branch : (blockLinks env).Branch known chain) {n : Nat}
      (bound : n + 1 < chain.length) :
      (blockAt env chain (n + 1)).blockdata.prevBlockHash =
        (blockAt env chain n).hash env.crypto := by
    obtain ⟨member, height⟩ := blockAt_mem branch bound
    obtain ⟨parent, isParent, linked, above⟩ := branch.exists_parent rfl member
      (by rw [show (blockLinks env).height _ = _ from height]; exact Nat.succ_ne_zero n)
    have lower : parent.blockdata.height.toNat = n := by
      have above : (blockAt env chain (n + 1)).blockdata.height.toNat =
        parent.blockdata.height.toNat + 1 := above
      omega
    rw [← lower, blockAt_height branch isParent]
    rw [lower]
    exact linked
  have down (n : Nat) (agree : agrees (n + 1)) : agrees n := by
    obtain ⟨bound, bound', same⟩ := agree
    refine ⟨by omega, by omega, ?_⟩
    rw [← prev branch bound, ← prev branch' bound']
    exact admissible.faithful.prev_eq _ _
      (branch.known_of_mem admissible.genesis _ (blockAt_mem branch bound).1)
      (branch'.known_of_mem admissible.genesis _ (blockAt_mem branch' bound').1) same
  have zero : agrees 0 := by
    have first {chain : List Block} (branch : (blockLinks env).Branch known chain) :
        blockAt env chain 0 = genesisBlock env := blockAt_height branch branch.root_mem
    refine ⟨List.length_pos_of_mem branch.root_mem, List.length_pos_of_mem branch'.root_mem, ?_⟩
    rw [first branch, first branch']
  refine ⟨Nat.findGreatest agrees chain.length, fun n => ⟨fun agree => ?_, fun low => ?_⟩⟩
  · exact Nat.le_findGreatest agree.1.le agree
  · have top : agrees (Nat.findGreatest agrees chain.length) :=
      Nat.findGreatest_spec (Nat.zero_le _) zero
    exact Nat.decreasingInduction (fun n _ agree => down n agree) top low

end Nodes

end Blockchain

end DnaPow.Ledger
