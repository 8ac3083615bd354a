import DnaPow.Ledger.Locator

/-!
# Block synchronisation

A node asks another one for blocks with the locator of its tip. The other node
answers with the hashes of the blocks that follow the first common one, at most
`MAXINVHDRCNT` of them.
-/

namespace DnaPow.Net

open DnaPow.Std Common Core Ledger

def maxInvHdrCnt : UInt32 := 50

/-- What an inventory lists. -/
inductive InventoryType where
  | transaction
  | block
  | consensus
  deriving DecidableEq, Repr

/-- `InvPayload`: the number of hashes, and their bytes. -/
structure InvPayload where
  invType : InventoryType
  cnt : UInt32
  blk : Bytes
  deriving DecidableEq

/-- `GetInvFromBlockHash` fails when a header is missing, or when the last block
asked for is below the first one. -/
inductive InventoryError where
  | store (reason : StoreError)
  | noHeader
  deriving DecidableEq, Repr

/-- The first height and the number of the blocks after it that are sent. -/
def invRange (store : ChainStore) (startHash stopHash : Uint256) :
    Outcome InventoryError (UInt32 × UInt32) := do
  let curHeight := store.currentBlockHeight
  if stopHash = 0 then
    if startHash = 0 then
      return (0, if curHeight > maxInvHdrCnt then maxInvHdrCnt else curHeight)
    else do
      let bkstart ← mapError .store (store.getHeader startHash)
      let count := curHeight - bkstart.height
      return (bkstart.height, if count > maxInvHdrCnt then maxInvHdrCnt else count)
  else do
    let bkstop ← mapError .store (store.getHeader stopHash)
    if startHash ≠ 0 then do
      let bkstart ← mapError .store (store.getHeader startHash)
      if bkstop.height < bkstart.height then .error .noHeader
      else
        let count := bkstop.height - bkstart.height
        return (bkstart.height, if count ≥ maxInvHdrCnt then maxInvHdrCnt else count)
    else
      return (0, if bkstop.height > maxInvHdrCnt then maxInvHdrCnt else bkstop.height)

/-- `GetInvFromBlockHash`. A hash that is missing is sent as zero. -/
def getInvFromBlockHash (store : ChainStore) (startHash stopHash : Uint256) :
    Outcome InventoryError InvPayload := do
  let (startHeight, count) ← invRange store startHash stopHash
  return ⟨.block, count, (List.range count.toNat).flatMap fun i =>
    match store.getBlockHash (startHeight + UInt32.ofNat (i + 1)) with
    | .ok hash => hash.toArray
    | _ => Uint256.toArray 0⟩

/-- `blocksReq.Handle`, up to the message that is sent. -/
def blocksReqHandle (env : Env) (bc : Blockchain) (hashStart : List Uint256) (hashEnd : Uint256) :
    Outcome InventoryError InvPayload := do
  let startHash ← mapError .store (bc.latestLocatorHash env hashStart)
  getInvFromBlockHash bc.store startHash hashEnd

/-! ## The answer -/

/-- The blocks that are sent after the one at the given height. -/
def blocksAfter (chain : List Block) (height : Nat) : List Block :=
  (chain.reverse.drop (height + 1)).take maxInvHdrCnt.toNat

theorem length_blocksAfter (chain : List Block) (height : Nat) :
    (blocksAfter chain height).length = min maxInvHdrCnt.toNat (chain.length - 1 - height) := by
  rw [blocksAfter, List.length_take, List.length_drop, List.length_reverse, Nat.sub_sub,
    Nat.add_comm 1]

theorem blocksAfter_eq_map (env : Env) (chain : List Block) (height : Nat) :
    blocksAfter chain height = (List.range (blocksAfter chain height).length).map fun i =>
      blockAt env chain (height + (i + 1)) := by
  refine List.ext_getElem (by simp) fun i bound _ => ?_
  have inside : height + 1 + i < chain.reverse.length := by
    rw [length_blocksAfter] at bound
    rw [List.length_reverse]
    omega
  simp only [blocksAfter, List.getElem_take, List.getElem_drop, List.getElem_map,
    List.getElem_range, blockAt]
  rw [show height + (i + 1) = height + 1 + i by omega, List.getElem?_eq_getElem inside,
    Option.getD_some]

section Answer

variable {env : Env} {known : Block → Prop} {chain : List Block} {bc : Blockchain}
  (admissible : Admissible env known) (invariant : Blockchain.Invariant env known chain bc)
include admissible invariant

theorem currentBlockHeight_toNat :
    bc.store.currentBlockHeight.toNat + 1 = chain.length := by
  have branch := invariant.mainChain.branch admissible
  obtain ⟨_, tip, -, head, -⟩ := invariant.best
  rw [(invariant.mainChain.represents admissible).currentBlockHeight tip head]
  exact branch.height_eq_length rfl tip head

theorem invRange_eq {height : Nat} (bound : height < chain.length) :
    invRange bc.store ((blockAt env chain height).hash env.crypto) 0 =
      .ok (UInt32.ofNat height, UInt32.ofNat (blocksAfter chain height).length) := by
  have branch := invariant.mainChain.branch admissible
  have represents := invariant.mainChain.represents admissible
  obtain ⟨member, same⟩ := blockAt_mem branch bound
  have nonzero := admissible.nonzero _ (branch.known_of_mem admissible.genesis _ member)
  have header := represents.getHeader_eq_ok.mpr ⟨_, member, rfl, rfl⟩
  have current := currentBlockHeight_toNat admissible invariant
  have below := bc.store.currentBlockHeight.toNat_lt
  have start : (blockAt env chain height).blockdata.height = UInt32.ofNat height := by
    rw [← same, UInt32.ofNat_toNat, same]
  have count : (bc.store.currentBlockHeight - UInt32.ofNat height).toNat =
      chain.length - 1 - height := by
    rw [UInt32.toNat_sub_of_le]
    · rw [UInt32.toNat_ofNat_of_lt' (by rw [UInt32.size]; omega)]
      omega
    · rw [UInt32.le_iff_toNat_le, UInt32.toNat_ofNat_of_lt' (by rw [UInt32.size]; omega)]
      omega
  simp only [invRange, if_pos, if_neg nonzero, header, mapError, Outcome.bind_ok, Outcome.pure_eq,
    start]
  refine congrArg (fun count => Outcome.ok (UInt32.ofNat height, count)) ?_
  rw [← UInt32.toNat_inj, length_blocksAfter, UInt32.toNat_ofNat_of_lt'
    (by rw [UInt32.size]; exact (Nat.min_le_left _ _).trans_lt (by decide))]
  split
  · next more =>
    rw [gt_iff_lt, UInt32.lt_iff_toNat_lt, count] at more
    exact (Nat.min_eq_left more.le).symm
  · next less =>
    rw [gt_iff_lt, UInt32.lt_iff_toNat_lt, count, Nat.not_lt] at less
    rw [count]
    exact (Nat.min_eq_right less).symm

/-- What is sent are the hashes of the blocks after the given one. -/
theorem getInvFromBlockHash_eq {height : Nat} (bound : height < chain.length) :
    getInvFromBlockHash bc.store ((blockAt env chain height).hash env.crypto) 0 =
      .ok ⟨.block, UInt32.ofNat (blocksAfter chain height).length,
        (blocksAfter chain height).flatMap fun block => (block.hash env.crypto).toArray⟩ := by
  have branch := invariant.mainChain.branch admissible
  have represents := invariant.mainChain.represents admissible
  have length := length_blocksAfter chain height
  rw [getInvFromBlockHash, invRange_eq admissible invariant bound]
  simp only [Outcome.bind_ok, Outcome.pure_eq]
  rw [UInt32.toNat_ofNat_of_lt'
    (by rw [UInt32.size, length]; exact (Nat.min_le_left _ _).trans_lt (by decide))]
  refine congrArg (fun blk => Outcome.ok (InvPayload.mk _ _ blk)) ?_
  conv_rhs => rw [blocksAfter_eq_map env chain height, List.flatMap_map]
  refine List.flatMap_congr fun i member => ?_
  have inside : i < (blocksAfter chain height).length := List.mem_range.mp member
  rw [← UInt32.ofNat_add, getBlockHash_blockAt branch represents (by omega)]

end Answer

/-! ## Request and answer -/

/-- The height at which a request with the locator of a tip of the given height is
answered, by a node that agrees up to the fork. -/
def answerHeight (height fork : Nat) : Nat :=
  ((locatorHeights height).find? (· ≤ fork)).getD 0

theorem find?_locatorHeights (height fork : Nat) :
    (locatorHeights height).find? (· ≤ fork) = some (answerHeight height fork) := by
  have last : 0 ∈ locatorHeights height := List.mem_of_getLast? (getLast?_locatorHeights height)
  have found : ((locatorHeights height).find? (· ≤ fork)).isSome := by
    rw [List.find?_isSome]
    exact ⟨0, last, by simp⟩
  obtain ⟨start, isStart⟩ := Option.isSome_iff_exists.mp found
  rw [answerHeight, isStart, Option.getD_some]

/-- The first height at or below the fork is the largest one. -/
theorem answerHeight_largest (height fork : Nat) :
    answerHeight height fork ∈ locatorHeights height ∧ answerHeight height fork ≤ fork ∧
      ∀ n ∈ locatorHeights height, n ≤ fork → n ≤ answerHeight height fork := by
  obtain ⟨isLow, before, after, split, above⟩ :=
    List.find?_eq_some_iff_append.mp (find?_locatorHeights height fork)
  have order := pairwise_locatorHeights height
  rw [split, List.pairwise_append, List.pairwise_cons] at order
  refine ⟨by rw [split]; simp, of_decide_eq_true isLow, fun n member low => ?_⟩
  rw [split] at member
  rcases List.mem_append.mp member with earlier | later
  · have notLow := above n earlier
    simp [low] at notLow
  · rcases List.mem_cons.mp later with rfl | lower
    · exact Nat.le_refl _
    · exact Nat.le_of_lt (order.2.1.1 n lower)

/-- The exchange between a node that asks with the locator of its tip and one that
answers, on the given main chains. -/
def Synchronises (env : Env) (asking answering : Blockchain) (chain other : List Block)
    (fork : Nat) : Prop :=
  ∃ (heights : List Nat) (start : Nat),
    let locator := heights.map fun n => (blockAt env chain n).hash env.crypto
    asking.blockLocatorFromHash env ((blockAt env chain (chain.length - 1)).hash env.crypto) =
      .ok locator ∧
    heights.length ≤ maxBlockLocatorsPerMsg ∧ heights.Pairwise (· > ·) ∧
    heights.head? = some (chain.length - 1) ∧ heights.getLast? = some 0 ∧
    start ∈ heights ∧ start ≤ fork ∧ (∀ n ∈ heights, n ≤ fork → n ≤ start) ∧
    answering.latestLocatorHash env locator = .ok ((blockAt env other start).hash env.crypto) ∧
    blocksReqHandle env answering locator 0 =
      .ok ⟨.block, UInt32.ofNat (blocksAfter other start).length,
        (blocksAfter other start).flatMap fun block => (block.hash env.crypto).toArray⟩

/-- The two blocks that have to be read back deploy no code: the tip, if it is not
in memory, and the block at which the request is answered. -/
def RequestReadable (env : Env) (asking : Blockchain) (chain other : List Block) (fork : Nat) :
    Prop :=
  ((asking.index ((blockAt env chain (chain.length - 1)).hash env.crypto)).isSome ∨
    (blockAt env chain (chain.length - 1)).Readable) ∧
  (blockAt env other (answerHeight (chain.length - 1) fork)).Readable

theorem synchronises_iff_readable {env : Env} {known : Block → Prop} {asking answering : Blockchain}
    {chain other : List Block} {fork : Nat} (admissible : Admissible env known)
    (invariant : Blockchain.Invariant env known chain asking)
    (invariant' : Blockchain.Invariant env known other answering)
    (genesis : asking.genesisHash = (genesisBlock env).hash env.crypto)
    (low : chain.length ≤ 2 ^ 31) (agree : Blockchain.AgreeUpTo env chain other fork) :
    Synchronises env asking answering chain other fork ↔
      RequestReadable env asking chain other fork := by
  have branch := invariant.mainChain.branch admissible
  obtain ⟨tip, below, rfl⟩ : ∃ tip below, chain = tip :: below := by
    cases branch with
    | root => exact ⟨_, _, rfl⟩
    | extend => exact ⟨_, _, rfl⟩
  have length : (tip :: below).length - 1 = below.length := rfl
  have top : blockAt env (tip :: below) below.length = tip := by
    have height : tip.blockdata.height.toNat + 1 = (tip :: below).length :=
      branch.height_eq_length rfl tip rfl
    rw [← Nat.succ.inj height]
    exact blockAt_height branch List.mem_cons_self
  have locator := invariant.blockLocatorFromHash_eq admissible genesis low
  have latest := invariant'.latestLocatorHash_eq admissible branch agree
    (fun n member => Nat.lt_succ_of_le (le_of_mem_locatorHeights member))
    (find?_locatorHeights below.length fork)
  obtain ⟨member, isLow, largest⟩ := answerHeight_largest below.length fork
  rw [RequestReadable, length, top]
  constructor
  · rintro ⟨heights, start, asked, -, -, -, -, -, -, -, selected, -⟩
    rw [length, top, locator] at asked
    split at asked
    · next readable =>
      refine ⟨readable, ?_⟩
      rw [← Outcome.ok.inj asked, latest] at selected
      split at selected
      · next answerReadable => exact answerReadable
      · cases selected
    · cases asked
  · rintro ⟨readable, answerReadable⟩
    rw [if_pos readable] at locator
    rw [if_pos answerReadable] at latest
    refine ⟨locatorHeights below.length, answerHeight below.length fork, ?_, length_locatorHeights_le _,
      pairwise_locatorHeights _, head?_locatorHeights _, getLast?_locatorHeights _, member, isLow,
      largest, latest, ?_⟩
    · rw [length, top, locator]
    · rw [blocksReqHandle, latest]
      exact getInvFromBlockHash_eq admissible invariant' ((agree _).mpr isLow).2.1

open Blockchain in
/-- Whatever two nodes with a common genesis block went through, the exchange works
exactly if the two blocks that it reads back deploy no code. -/
theorem synchronises_iff (env : Env) (deliveries deliveries' : List Delivery)
    (asking answering : Blockchain) (apart : HashesApart env (deliveries ++ deliveries'))
    (few : (deliveries ++ deliveries').length + 1 < 2 ^ 32)
    (ran : run env deliveries = some asking) (ran' : run env deliveries' = some answering)
    (low : asking.blockHeight.toNat < 2 ^ 31) :
    ∃ chain other,
      Invariant env (Delivered env (deliveries ++ deliveries')) chain asking ∧
      Invariant env (Delivered env (deliveries ++ deliveries')) other answering ∧
      (∃ fork, AgreeUpTo env chain other fork) ∧
      ∀ fork, AgreeUpTo env chain other fork →
        (Synchronises env asking answering chain other fork ↔
          RequestReadable env asking chain other fork) := by
  have admissible := admissible_delivered apart few
  obtain ⟨chain, invariant⟩ := run_sound_of_known admissible (fun delivery member sane =>
    .inr ⟨⟨delivery, List.mem_append_left _ member, rfl⟩, sane⟩) ran
  obtain ⟨other, invariant'⟩ := run_sound_of_known admissible (fun delivery member sane =>
    .inr ⟨⟨delivery, List.mem_append_right _ member, rfl⟩, sane⟩) ran'
  have branch := invariant.mainChain.branch admissible
  have short : chain.length ≤ 2 ^ 31 := by
    obtain ⟨_, tip, -, head, -⟩ := invariant.best
    have length : tip.blockdata.height.toNat + 1 = chain.length :=
      branch.height_eq_length rfl tip head
    rw [← length, ← invariant.blockHeight tip head]
    exact low
  refine ⟨chain, other, invariant, invariant',
    exists_agreeUpTo admissible branch (invariant'.mainChain.branch admissible), ?_⟩
  intro fork agree
  exact synchronises_iff_readable admissible invariant invariant' (genesisHash_of_run ran) short
    agree

/-- A second block without code to deploy. -/
def plainBlock : Block := Sample.block Blockchain.firstBlock [Sample.coinbase 2 2 5000]

open Blockchain in
/-- A node that knows one block asks one that knows two. -/
theorem synchronises_plainBlock : ∃ asking answering chain other fork,
    run .sample (Sample.deliveries [firstBlock]) = some asking ∧
    run .sample (Sample.deliveries [firstBlock, plainBlock]) = some answering ∧
    AgreeUpTo .sample chain other fork ∧
    Synchronises .sample asking answering chain other fork := by
  have ends : ((run .sample (Sample.deliveries [firstBlock])).map fun bc =>
      decide (bc.blockHeight.toNat < 2 ^ 31)) = some true := by decide +kernel
  have ends' : (run .sample (Sample.deliveries [firstBlock, plainBlock])).isSome = true := by
    decide +kernel
  obtain ⟨asking, ran, low⟩ := Option.map_eq_some_iff.mp ends
  obtain ⟨answering, ran'⟩ := Option.isSome_iff_exists.mp ends'
  have apart : HashesApart .sample (Sample.deliveries [firstBlock] ++
      Sample.deliveries [firstBlock, plainBlock]) := by
    constructor <;> decide +kernel
  obtain ⟨chain, other, invariant, invariant', ⟨fork, agree⟩, exchange⟩ :=
    synchronises_iff .sample _ _ asking answering apart (by decide) ran ran' (of_decide_eq_true low)
  have admissible := admissible_delivered apart (by decide)
  have readable {chain : List Block} {bc : Blockchain} {n : Nat}
      (invariant : Invariant .sample (Delivered .sample (Sample.deliveries [firstBlock] ++
        Sample.deliveries [firstBlock, plainBlock])) chain bc) (bound : n < chain.length) :
      (blockAt .sample chain n).Readable := by
    have branch := invariant.mainChain.branch admissible
    have delivered := branch.known_of_mem admissible.genesis _ (blockAt_mem branch bound).1
    have all : ∀ block ∈ genesisBlock .sample :: (Sample.deliveries [firstBlock] ++
        Sample.deliveries [firstBlock, plainBlock]).map Delivery.block, block.Readable := by
      decide +kernel
    exact all _ (Delivered.mem delivered)
  have nonempty : 0 < chain.length := ((agree 0).mpr (Nat.zero_le _)).1
  refine ⟨asking, answering, chain, other, fork, ran, ran', agree, (exchange fork agree).mpr ⟨?_, ?_⟩⟩
  · exact .inr (readable invariant (Nat.sub_lt nonempty (by decide)))
  · exact readable invariant' ((agree _).mpr (answerHeight_largest _ _).2.1).2.1

open Blockchain in
/-- Two nodes with the same chain: the second one cannot read the block at which it
should answer. -/
theorem blocksReq_deployingBlock : ∃ bc locator,
    run .sample (Sample.deliveries [firstBlock, deployingBlock]) = some bc ∧
    bc.bestHash = some (deployingBlock.hash Env.sample.crypto) ∧
    bc.blockLocatorFromHash .sample (deployingBlock.hash Env.sample.crypto) = .ok locator ∧
    locator = [deployingBlock, firstBlock, genesisBlock .sample].map
      (Block.hash Env.sample.crypto) ∧
    bc.latestLocatorHash .sample locator = .panic ∧
    blocksReqHandle .sample bc locator 0 = .panic := by
  have ended : ((run .sample (Sample.deliveries [firstBlock, deployingBlock])).map fun bc =>
      decide (bc.bestHash = some (deployingBlock.hash Env.sample.crypto) ∧
        bc.blockLocatorFromHash .sample (deployingBlock.hash Env.sample.crypto) =
          .ok ([deployingBlock, firstBlock, genesisBlock .sample].map
            (Block.hash Env.sample.crypto)) ∧
        bc.latestLocatorHash .sample ([deployingBlock, firstBlock, genesisBlock .sample].map
          (Block.hash Env.sample.crypto)) = .panic ∧
        blocksReqHandle .sample bc ([deployingBlock, firstBlock, genesisBlock .sample].map
          (Block.hash Env.sample.crypto)) 0 = .panic)) = some true := by decide +kernel
  obtain ⟨bc, ran, facts⟩ := Option.map_eq_some_iff.mp ended
  obtain ⟨best, asked, selected, answered⟩ := of_decide_eq_true facts
  exact ⟨bc, _, ran, best, asked, rfl, selected, answered⟩

end DnaPow.Net
