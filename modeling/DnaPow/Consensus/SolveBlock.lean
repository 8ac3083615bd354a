import DnaPow.Ledger.Node
import DnaPow.Std.Machine

/-!
# The search for a proof of work

`SolveBlock` tries nonces until the hash of the header meets the target. When all nonces
have been tried it is to go on with another extra nonce in the coinbase transaction. But
the inner loop counts in 32 bits up to the largest number of 32 bits: its condition is
always true, and the search begins again with the same block.
-/

namespace DnaPow.Consensus

open DnaPow.Std Common Core Ledger

def maxNonce : UInt32 := 0xffffffff

def maxExtraNonce : UInt64 := 0xffffffffffffffff

/-- `binary.BigEndian.Uint64`, which panics on fewer than eight bytes. -/
def bigEndianUint64 (data : Bytes) : Option UInt64 :=
  if 8 ≤ data.length then some (UInt64.ofNat (ofLittleEndian (data.take 8).reverse)) else none

/-- `binary.BigEndian.PutUint64` on data of eight bytes or more. -/
def bigEndianPutUint64 (data : Bytes) (value : UInt64) : Bytes :=
  (littleEndian 8 value.toNat).reverse ++ data.drop 8

/-- Add an extra nonce to the first attribute of the first transaction; nothing if that
panics. -/
def addExtraNonce (block : Block) (extraNonce : UInt64) : Option Block :=
  match block.transactions with
  | [] => none
  | coinbase :: transactions =>
      match coinbase.attributes with
      | [] => none
      | first :: attributes => do
          let attr ← bigEndianUint64 first.data
          let changed := { first with data := bigEndianPutUint64 first.data (attr + extraNonce) }
          return { block with
            transactions := { coinbase with attributes := changed :: attributes } :: transactions }

/-- The block with another nonce in its header. -/
def withNonce (block : Block) (nonce : UInt32) : Block :=
  { block with blockdata := { block.blockdata with nonce := nonce } }

/-- The hash of the header is not above the target. -/
def Meets (crypto : Primitives) (block : Block) : Prop :=
  ((block.blockdata.hash crypto).toNat : Int) ≤ compactToBig block.blockdata.bits

instance (crypto : Primitives) (block : Block) : Decidable (Meets crypto block) :=
  inferInstanceAs (Decidable (_ ≤ _))

/-- `SolveBlock` at the head of its inner loop, after a number of tries, or at its end. -/
inductive Solving where
  | trying (block : Block) (extraNonce : UInt64) (nonce : UInt32) (tries : Nat)
  | returned (block : Block) (solved : Bool)
  | panicked

/-- The head of the outer loop. -/
def outerLoop (block : Block) (extraNonce : UInt64) (tries : Nat) : Solving :=
  if extraNonce < maxExtraNonce then
    match addExtraNonce block extraNonce with
    | none => .panicked
    | some block => .trying block extraNonce 0 tries
  else .returned block false

/-- One round of the inner loop. What the ticker reports before each try is given: nothing, or
the tip of the chain. The event is the extra nonce and the nonce that are tried. -/
def solveBlock (crypto : Primitives) (ticker : Nat → Option Uint256) :
    Machine Solving (Option (UInt64 × UInt32))
  | .trying block extraNonce nonce tries =>
      if ∃ tip ∈ ticker tries, block.blockdata.prevBlockHash ≠ tip then
        some (none, .returned block false)
      else
        let block := withNonce block nonce
        some (some (extraNonce, nonce),
          if Meets crypto block then .returned block true
          else if nonce + 1 ≤ maxNonce then .trying block extraNonce (nonce + 1) (tries + 1)
          else outerLoop block (extraNonce + 1) (tries + 1))
  | _ => none

/-- The block can be given an extra nonce. -/
def HasNonce (block : Block) : Prop :=
  ∃ coinbase transactions first attributes, block.transactions = coinbase :: transactions ∧
    coinbase.attributes = first :: attributes ∧ 8 ≤ first.data.length

/-- The root in the header is that of the transactions. -/
def Rooted (crypto : Primitives) (block : Block) : Prop :=
  computeRoot crypto (block.txHashes crypto) = some block.blockdata.transactionsRoot

/-- No nonce is tried twice with one extra nonce. -/
def SearchesOnce (crypto : Primitives) (ticker : Nat → Option Uint256) (block : Block) : Prop :=
  ∀ tried final, (solveBlock crypto ticker).Steps (outerLoop block 0 0) tried final →
    (tried.filterMap id).Nodup

/-- A solved block has the root of its transactions. -/
def KeepsRoot (crypto : Primitives) (ticker : Nat → Option Uint256) (block : Block) : Prop :=
  ∀ tried solved, (solveBlock crypto ticker).Steps (outerLoop block 0 0) tried
    (.returned solved true) → Rooted crypto solved

section Search

variable {crypto : Primitives} {ticker : Nat → Option Uint256} {block : Block}

/-- Adding zero writes the same bytes. -/
theorem bigEndianPutUint64_zero {data : Bytes} (long : 8 ≤ data.length) :
    ∃ attr, bigEndianUint64 data = some attr ∧ bigEndianPutUint64 data (attr + 0) = data := by
  have eight : (data.take 8).reverse.length = 8 := by simpa using long
  have bound := ofLittleEndian_lt (data.take 8).reverse
  rw [eight] at bound
  have back := littleEndian_ofLittleEndian (data.take 8).reverse
  rw [eight] at back
  refine ⟨_, if_pos long, ?_⟩
  rw [bigEndianPutUint64, UInt64.add_zero, UInt64.toNat_ofNat_of_lt' bound, back,
    List.reverse_reverse, List.take_append_drop]

/-- The first extra nonce is zero and changes nothing. -/
theorem outerLoop_zero (hasNonce : HasNonce block) : outerLoop block 0 0 = .trying block 0 0 0 := by
  obtain ⟨coinbase, transactions, first, attributes, isFirst, hasFirst, long⟩ := hasNonce
  obtain ⟨attr, read, written⟩ := bigEndianPutUint64_zero long
  have same : addExtraNonce block 0 = some block := by
    obtain ⟨blockdata, _⟩ := block
    cases isFirst
    cases coinbase
    cases hasFirst
    simp only [addExtraNonce, read, written, Option.bind_eq_bind, Option.bind_some, Option.pure_def]
  rw [outerLoop, if_pos (by decide), same]

/-- The tries with the first extra nonce. -/
def tries (count : Nat) : List (Option (UInt64 × UInt32)) :=
  (List.range count).map fun index => some (0, UInt32.ofNat index)

theorem tries_succ (count : Nat) :
    tries (count + 1) = tries count ++ [some (0, UInt32.ofNat count)] := by
  rw [tries, List.range_succ, List.map_append]
  rfl

theorem filterMap_tries (count : Nat) :
    (tries count).filterMap id = (List.range count).map fun index => (0, UInt32.ofNat index) := by
  rw [tries, List.filterMap_map]
  exact congrFun List.filterMap_eq_map (List.range count)

/-- The tries are pairwise different as long as there are not more than there are nonces. -/
theorem nodup_tries_iff {count : Nat} : ((tries count).filterMap id).Nodup ↔ count ≤ 2 ^ 32 := by
  rw [filterMap_tries]
  constructor
  · intro nodup
    by_contra more
    have same := List.inj_on_of_nodup_map nodup (List.mem_range.mpr (by omega : 0 < count))
      (List.mem_range.mpr (by omega : 2 ^ 32 < count)) rfl
    cases same
  · intro few
    apply List.Nodup.map_on _ List.nodup_range
    intro first isFirst second isSecond same
    rw [List.mem_range] at isFirst isSecond
    have numbers := congrArg (fun tried => tried.2.toNat) same
    simp only [UInt32.toNat_ofNat_of_lt' (by omega : first < 2 ^ 32),
      UInt32.toNat_ofNat_of_lt' (by omega : second < 2 ^ 32)] at numbers
    exact numbers

variable (current : ∀ tries, ∀ tip ∈ ticker tries, tip = block.blockdata.prevBlockHash)
include current

/-- While the tip is the same, a round tries a nonce and goes on with the next one, or with
the first one again. -/
theorem solveBlock_trying {last nonce : UInt32} {tries : Nat} :
    solveBlock crypto ticker (.trying (withNonce block last) 0 nonce tries) =
      some (some (0, nonce),
        if Meets crypto (withNonce block nonce) then .returned (withNonce block nonce) true
        else .trying (withNonce block nonce) 0 (nonce + 1) (tries + 1)) := by
  have unchanged : ¬ ∃ tip ∈ ticker tries, (withNonce block last).blockdata.prevBlockHash ≠ tip := by
    rintro ⟨tip, reported, differs⟩
    exact differs (current tries tip reported).symm
  have always : nonce + 1 ≤ maxNonce := by
    rw [UInt32.le_iff_toNat_le]
    have := (nonce + 1).toNat_lt
    change _ ≤ 4294967295
    omega
  have again : withNonce (withNonce block last) nonce = withNonce block nonce := rfl
  rw [solveBlock, if_neg unchanged, again]
  simp only [if_pos always]

/-- The search from the start until the given number of nonces has been tried in vain. -/
theorem steps_of_misses {count : Nat}
    (misses : ∀ index < count, ¬ Meets crypto (withNonce block (UInt32.ofNat index))) :
    ∃ last, (solveBlock crypto ticker).Steps (.trying (withNonce block block.blockdata.nonce) 0 0 0)
      (tries count)
      (.trying (withNonce block last) 0 (UInt32.ofNat count) count) := by
  induction count with
  | zero => exact ⟨_, .refl _⟩
  | succ count ih =>
    obtain ⟨last, steps⟩ := ih fun index less => misses index (by omega)
    have next := @solveBlock_trying crypto ticker block current last (UInt32.ofNat count) count
    rw [if_neg (misses count (by omega))] at next
    have sum : UInt32.ofNat count + 1 = UInt32.ofNat (count + 1) := (UInt32.ofNat_add count 1).symm
    rw [sum] at next
    rw [tries_succ]
    exact ⟨_, steps.trans (.single next)⟩

/-- The search ends with the first nonce that meets the target. -/
theorem steps_of_hit {count : Nat}
    (misses : ∀ index < count, ¬ Meets crypto (withNonce block (UInt32.ofNat index)))
    (hit : Meets crypto (withNonce block (UInt32.ofNat count))) :
    (solveBlock crypto ticker).Steps (.trying (withNonce block block.blockdata.nonce) 0 0 0)
      (tries (count + 1))
      (.returned (withNonce block (UInt32.ofNat count)) true) := by
  obtain ⟨last, steps⟩ := steps_of_misses current misses
  have next := @solveBlock_trying crypto ticker block current last (UInt32.ofNat count) count
  rw [if_pos hit] at next
  rw [tries_succ]
  exact steps.trans (.single next)

end Search

/-- `SolveBlock` tries no nonce twice and keeps the root of the block if the template has the
root of its transactions and one of its nonces meets the target. Otherwise it tries the
nonces of the first extra nonce for ever. -/
theorem solveBlock_searches_iff {crypto : Primitives} {ticker : Nat → Option Uint256} {block : Block}
    (hasNonce : HasNonce block)
    (current : ∀ tries, ∀ tip ∈ ticker tries, tip = block.blockdata.prevBlockHash) :
    SearchesOnce crypto ticker block ∧ KeepsRoot crypto ticker block ↔
      (∃ nonce, Meets crypto (withNonce block nonce)) ∧ Rooted crypto block := by
  have start : outerLoop block 0 0 = .trying (withNonce block block.blockdata.nonce) 0 0 0 :=
    outerLoop_zero hasNonce
  simp only [SearchesOnce, KeepsRoot, start]
  by_cases found : ∃ count, Meets crypto (withNonce block (UInt32.ofNat count))
  · classical
    -- The run up to the first hit is the longest one; every other run is a part of it.
    have hit := Nat.find_spec found
    have misses : ∀ index < Nat.find found, ¬ Meets crypto (withNonce block (UInt32.ofNat index)) :=
      fun index less => Nat.find_min found less
    have steps := steps_of_hit current misses hit
    have few : Nat.find found + 1 ≤ 2 ^ 32 := by
      by_contra more
      have wrapped : UInt32.ofNat (Nat.find found) = UInt32.ofNat (Nat.find found - 2 ^ 32) := by
        rw [← UInt32.toNat_inj, UInt32.toNat_ofNat', UInt32.toNat_ofNat']
        omega
      rw [wrapped] at hit
      exact misses _ (by omega) hit
    constructor
    · rintro ⟨-, keeps⟩
      have kept := keeps _ _ steps
      exact ⟨⟨_, hit⟩, kept⟩
    · rintro ⟨-, rooted⟩
      constructor
      · intro tried final run
        obtain ⟨rest, whole, -⟩ := run.continues steps rfl
        have nodup := nodup_tries_iff.mpr few
        rw [whole, List.filterMap_append] at nodup
        exact (List.nodup_append.mp nodup).1
      · intro tried solved run
        obtain ⟨rest, -, later⟩ := run.continues steps rfl
        obtain ⟨-, same⟩ := later.of_stopped rfl
        cases same
        exact rooted
  · push Not at found
    constructor
    · rintro ⟨searches, -⟩
      obtain ⟨last, steps⟩ := @steps_of_misses crypto ticker block current (2 ^ 32 + 1)
        fun index _ => found index
      have few := nodup_tries_iff.mp (searches _ _ steps)
      omega
    · rintro ⟨⟨nonce, hit⟩, -⟩
      have missed := found nonce.toNat
      rw [UInt32.ofNat_toNat] at missed
      exact absurd hit missed

/-- Hashing everything to one value. -/
def constantHash (hash : Uint256) : Primitives := { Primitives.polynomial with sha256 := fun _ => hash }

/-- A block of one transaction, with a nonce of eight bytes. -/
def template (root : Uint256) : Block where
  blockdata := ⟨0, 0, root, 0, 0x207fffff, 1, 0, .empty⟩
  transactions := [{
    payloadVersion := 0
    payload := .coinBase []
    attributes := [⟨.nonce, List.replicate 8 0⟩]
    utxoInputs := []
    outputs := []
    lockTime := 0
    programs := [] }]

theorem template_hasNonce (root : Uint256) : HasNonce (template root) :=
  ⟨_, _, _, _, rfl, rfl, le_rfl⟩

theorem solveBlock_searches_solved :
    SearchesOnce (constantHash 0) (fun _ => none) (template 0) ∧
      KeepsRoot (constantHash 0) (fun _ => none) (template 0) :=
  (solveBlock_searches_iff (template_hasNonce 0) fun _ _ reported => by cases reported).mpr
    ⟨⟨0, by decide +kernel⟩, rfl⟩

/-- With hashes that never meet the target, nonces are tried again with the first extra
nonce. -/
theorem solveBlock_searches_unsolved :
    ¬ SearchesOnce (constantHash (BitVec.allOnes 256)) (fun _ => none)
      (template (BitVec.allOnes 256)) := by
  intro searches
  obtain ⟨last, steps⟩ := @steps_of_misses (constantHash (BitVec.allOnes 256)) (fun _ => none)
    (template (BitVec.allOnes 256)) (fun _ _ reported => by cases reported) (2 ^ 32 + 1) fun index _ => by
      change ¬ (((BitVec.allOnes 256).toNat : Int) ≤ compactToBig 0x207fffff)
      decide +kernel
  have few := nodup_tries_iff.mp (searches _ _ (by rwa [outerLoop_zero (template_hasNonce _)]))
  omega

end DnaPow.Consensus
