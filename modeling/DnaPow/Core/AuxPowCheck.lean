import DnaPow.Core.AuxPowCodec

/-!
# What the check of an auxiliary proof of work accepts

`Check` looks for the commitment in the hexadecimal digits of the coinbase script and
then reads numbers from its bytes. Two things follow. The commitment that is found may
begin in the middle of a byte, so that the bytes have none. And the number of digits left
behind it is compared with eight, which is enough for the size of the Merkle tree but not
for the nonce behind the size.
-/

namespace DnaPow.Core

open DnaPow.Std Common

namespace AuxPow

/-- The digits of the header, and of the root hash behind it, at a place in the digits of a
script. There is no other header and no root hash before. -/
structure Scanned (script : Bytes) (auxRootHash : Uint256) (place : Nat) : Prop where
  header : encodeToString pchMergedMiningHeader <+: (encodeToString script).drop place
  only : ∀ other, encodeToString pchMergedMiningHeader <+: (encodeToString script).drop other →
    other = place
  root : encodeToString auxRootHash.toArray <+: (encodeToString script).drop (place + 8)
  first : ∀ other < place + 8,
    ¬ encodeToString auxRootHash.toArray <+: (encodeToString script).drop other
  room : place + 80 ≤ 2 * script.length

section Scan

variable {script : Bytes} {auxRootHash : Uint256} {place other : Nat}

theorem length_toArray (hash : Uint256) : hash.toArray.length = 32 := littleEndian_length _ _

theorem encodeToString_root_ne_nil : encodeToString auxRootHash.toArray ≠ [] := by
  apply List.ne_nil_of_length_pos
  rw [length_encodeToString, length_toArray]
  decide

/-- Two headers are two or more digits apart. -/
theorem header_apart {text : List Nat} (header : encodeToString pchMergedMiningHeader <+: text)
    (next : encodeToString pchMergedMiningHeader <+: text.drop 1) : False := by
  obtain ⟨rest, rfl⟩ := header
  obtain ⟨rest', same⟩ := next
  cases same

/-- The tests on the text: what they find is the only header. -/
theorem findCommitment_eq_some_iff {start : Nat} :
    findCommitment script auxRootHash = some start ↔
      ∃ place, Scanned script auxRootHash place ∧ start = (place + 72) / 2 := by
  have header : encodeToString pchMergedMiningHeader ≠ [] := by decide
  have eight : (encodeToString pchMergedMiningHeader).length = 8 := rfl
  have root := @encodeToString_root_ne_nil auxRootHash
  have sixtyFour : (encodeToString auxRootHash.toArray).length = 64 := by
    rw [length_encodeToString, length_toArray]
  constructor
  · intro found
    simp only [findCommitment] at found
    split at found
    · next headerIndex rootHashIndex isHeader isRoot =>
      obtain ⟨atHeader, firstHeader⟩ := (indexOf_eq_some_iff header).mp isHeader
      obtain ⟨atRoot, firstRoot⟩ := (indexOf_eq_some_iff root).mp isRoot
      simp only [eight, sixtyFour, length_encodeToString] at found
      split at found
      · cases found
      · next noOther =>
        rw [Bool.not_eq_true, Option.isSome_eq_false_iff, Option.isNone_iff_eq_none,
          indexOf_eq_none_iff header] at noOther
        split at found
        · cases found
        · next behind =>
          obtain rfl : headerIndex + 8 = rootHashIndex := not_not.mp behind
          split at found
          · cases found
          · next room =>
            refine ⟨headerIndex, ⟨atHeader, fun other occurs => ?_, atRoot, firstRoot,
              by omega⟩, by rw [← Option.some.inj found]⟩
            by_contra differs
            rcases Nat.lt_or_gt_of_ne differs with before | after
            · exact firstHeader other before occurs
            · obtain rfl | ⟨far, rfl⟩ : other = headerIndex + 1 ∨
                  ∃ far, other = headerIndex + 2 + far := by
                rcases Nat.lt_or_ge other (headerIndex + 2) with near | far
                · exact .inl (by omega)
                · exact .inr ⟨other - (headerIndex + 2), by omega⟩
              · rw [← List.drop_drop] at occurs
                exact header_apart atHeader occurs
              · rw [← List.drop_drop] at occurs
                exact noOther far occurs
    · cases found
  · rintro ⟨place, scanned, rfl⟩
    have isHeader := (indexOf_eq_some_iff header).mpr ⟨scanned.header, fun other before occurs =>
      absurd (scanned.only other occurs) (by omega)⟩
    have isRoot := (indexOf_eq_some_iff root).mpr ⟨scanned.root, scanned.first⟩
    have noOther : indexOf ((encodeToString script).drop (place + 2))
        (encodeToString pchMergedMiningHeader) = none := by
      rw [indexOf_eq_none_iff header]
      intro far occurs
      rw [List.drop_drop] at occurs
      exact absurd (scanned.only _ occurs) (by omega)
    have room := scanned.room
    simp only [findCommitment, isHeader, isRoot, noOther, eight, sixtyFour, length_encodeToString,
      Option.isSome_none, Bool.false_eq_true, if_false, ne_eq, not_true_eq_false]
    rw [if_neg (by omega)]

end Scan

/-! ## The outcome of the check -/

/-- The coinbase transaction is in the tree of the parent block. -/
def ParentCommits (crypto : Primitives) (auxPow : AuxPow) (parMerkleIndex : Int) : Prop :=
  checkMerkleBranch crypto (auxPow.parCoinbaseTx.hash crypto) auxPow.parCoinBaseMerkle
    parMerkleIndex = auxPow.parBlockHeader.merkleRoot

/-- The root of the tree of auxiliary blocks. -/
def auxRoot (crypto : Primitives) (auxPow : AuxPow) (auxMerkleIndex : Int)
    (hashAuxBlock : Uint256) : Uint256 :=
  checkMerkleBranch crypto hashAuxBlock auxPow.auxMerkleBranch auxMerkleIndex

theorem shiftOne_eq_zero_iff {h : Nat} : shiftOne h = 0 ↔ 32 ≤ h % 2 ^ 32 := by
  rw [shiftOne]
  split
  · next small =>
    have power : 2 ^ (h % 2 ^ 32) < 2 ^ 32 := Nat.pow_lt_pow_right (by decide) small
    have positive := Nat.two_pow_pos (h % 2 ^ 32)
    rw [← UInt32.toNat_inj, UInt32.toNat_ofNat_of_lt' power]
    exact iff_of_false (by simp) (by omega)
  · next large => exact iff_of_true rfl (by omega)

/-- The number of the tree's leaves and the place in it, behind a commitment that was found. -/
structure Placed (script : Bytes) (start : Nat) (auxMerkleIndex : Int) (chainId : UInt32)
    (merkleHeight : Nat) : Prop where
  size : uint32At script start = shiftOne merkleHeight
  long : start + 8 ≤ script.length
  index : ∃ expected, getExpectedIndex (ε := Unit) (uint32At script (start + 4)) chainId
    merkleHeight = .ok expected ∧ auxMerkleIndex = expected.toNat

section Tail

variable {ε : Type} {script : Bytes} {start merkleHeight : Nat} {auxMerkleIndex : Int}
  {chainId : UInt32}

theorem getExpectedIndex_eq_panic {nonce : UInt32} (zero : shiftOne merkleHeight = 0) :
    getExpectedIndex (ε := ε) nonce chainId merkleHeight = .panic :=
  if_pos zero

/-- The index does not depend on what else may go wrong. -/
theorem getExpectedIndex_eq_ok {ε' : Type} {nonce expected : UInt32} :
    getExpectedIndex (ε := ε) nonce chainId merkleHeight = .ok expected ↔
      getExpectedIndex (ε := ε') nonce chainId merkleHeight = .ok expected := by
  rw [getExpectedIndex, getExpectedIndex]
  by_cases zero : shiftOne merkleHeight = 0
  · rw [if_pos zero, if_pos zero]
    constructor <;> exact nofun
  · rw [if_neg zero, if_neg zero, Outcome.ok.injEq, Outcome.ok.injEq]

theorem checkTail_panic_iff :
    checkTail (ε := ε) script start auxMerkleIndex chainId merkleHeight = .panic ↔
      uint32At script start = shiftOne merkleHeight ∧
        (script.length < start + 8 ∨ 32 ≤ merkleHeight % 2 ^ 32) := by
  rw [← shiftOne_eq_zero_iff, checkTail]
  by_cases size : uint32At script start = shiftOne merkleHeight
  · by_cases short : script.length < start + 8
    · simp [size, short]
    · by_cases zero : shiftOne merkleHeight = 0
      · simp [size, short, getExpectedIndex_eq_panic zero, zero]
      · obtain ⟨expected, found⟩ : ∃ expected, getExpectedIndex (ε := ε)
            (uint32At script (start + 4)) chainId merkleHeight = .ok expected := ⟨_, if_neg zero⟩
        simp [size, short, found, zero]
  · simp [size]

theorem checkTail_true_iff :
    checkTail (ε := ε) script start auxMerkleIndex chainId merkleHeight = .ok true ↔
      Placed script start auxMerkleIndex chainId merkleHeight := by
  rw [checkTail]
  constructor
  · intro accepted
    split at accepted
    · cases accepted
    · next size =>
      split at accepted
      · cases accepted
      · next long =>
        obtain ⟨expected, found, same⟩ := Outcome.bind_eq_ok.mp accepted
        refine ⟨not_not.mp size, by omega, expected, getExpectedIndex_eq_ok.mp found, ?_⟩
        exact of_decide_eq_true (Outcome.ok.inj same)
  · rintro ⟨size, long, expected, isExpected, rfl⟩
    rw [if_neg (not_not.mpr size), if_neg (by omega), getExpectedIndex_eq_ok.mpr isExpected,
      Outcome.bind_ok, decide_eq_true rfl, Outcome.pure_eq]

end Tail

section Check

variable {ε : Type} {crypto : Primitives} {auxPow : AuxPow} {auxMerkleIndex parMerkleIndex : Int}
  {hashAuxBlock : Uint256} {chainId : UInt32}

/-- The outcome of the check is that of its end, where it comes that far. -/
theorem checkWith_eq_iff {outcome : Outcome ε Bool} (notFalse : outcome ≠ .ok false) :
    checkWith crypto auxPow auxMerkleIndex parMerkleIndex hashAuxBlock chainId = outcome ↔
      ParentCommits crypto auxPow parMerkleIndex ∧
        (auxPow.parCoinbaseTx.txIn = [] ∧ outcome = .panic ∨
          ∃ input inputs place, auxPow.parCoinbaseTx.txIn = input :: inputs ∧
            Scanned input.signatureScript (auxRoot crypto auxPow auxMerkleIndex hashAuxBlock) place ∧
            checkTail input.signatureScript ((place + 72) / 2) auxMerkleIndex chainId
              auxPow.auxMerkleBranch.length = outcome) := by
  rw [checkWith, ParentCommits]
  by_cases parent : checkMerkleBranch crypto (auxPow.parCoinbaseTx.hash crypto)
      auxPow.parCoinBaseMerkle parMerkleIndex = auxPow.parBlockHeader.merkleRoot
  · rw [if_neg (not_not.mpr parent)]
    simp only [parent, true_and]
    cases given : auxPow.parCoinbaseTx.txIn with
    | nil => simp [eq_comm]
    | cons input inputs =>
      simp only [reduceCtorEq, false_and, false_or, List.cons.injEq]
      cases found : findCommitment input.signatureScript
          (checkMerkleBranch crypto hashAuxBlock auxPow.auxMerkleBranch auxMerkleIndex) with
      | none =>
        refine iff_of_false notFalse.symm ?_
        rintro ⟨_, _, place, ⟨rfl, rfl⟩, scanned, -⟩
        have some := findCommitment_eq_some_iff.mpr ⟨place, scanned, rfl⟩
        rw [auxRoot, found] at some
        cases some
      | some start =>
        constructor
        · intro ends
          obtain ⟨place, scanned, rfl⟩ := findCommitment_eq_some_iff.mp found
          exact ⟨input, inputs, place, ⟨rfl, rfl⟩, scanned, ends⟩
        · rintro ⟨_, _, place, ⟨rfl, rfl⟩, scanned, ends⟩
          have some := findCommitment_eq_some_iff.mpr ⟨place, scanned, rfl⟩
          rw [auxRoot, found] at some
          rw [Option.some.inj some]
          exact ends
  · rw [if_pos parent]
    exact iff_of_false notFalse.symm fun holds => parent holds.1

end Check

/-! ## Totality -/

/-- The values that `Check` panics on: the coinbase transaction is in the parent block, and
it has no input, or the script of its first input has the commitment and the size of the
tree, but no four bytes after them, or the tree is too high. -/
def Unguarded (crypto : Primitives) (auxPow : AuxPow) (hashAuxBlock : Uint256) : Prop :=
  ParentCommits crypto auxPow auxPow.parMerkleIndex.toNat ∧
    (auxPow.parCoinbaseTx.txIn = [] ∨
      ∃ input inputs place, auxPow.parCoinbaseTx.txIn = input :: inputs ∧
        Scanned input.signatureScript (auxRoot crypto auxPow auxPow.auxMerkleIndex.toNat hashAuxBlock)
          place ∧
        uint32At input.signatureScript ((place + 72) / 2) = shiftOne auxPow.auxMerkleBranch.length ∧
        (input.signatureScript.length < (place + 72) / 2 + 8 ∨
          32 ≤ auxPow.auxMerkleBranch.length % 2 ^ 32))

/-- The values that `Check` returns on. -/
theorem check_returns_iff {ε : Type} (crypto : Primitives) (auxPow : AuxPow)
    (hashAuxBlock : Uint256) (chainId : UInt32) :
    check (ε := ε) crypto auxPow hashAuxBlock chainId ≠ .panic ↔
      ¬ Unguarded crypto auxPow hashAuxBlock := by
  rw [check, ne_eq, checkWith_eq_iff (by simp)]
  simp only [checkTail_panic_iff, and_true]
  rfl

/-- A proof of work with the given inputs in the coinbase transaction, which is alone in its
block. -/
def ofInputs (inputs : List BtcTxIn) : AuxPow :=
  { empty with
    parCoinbaseTx := ⟨0, inputs, [], 0⟩
    parBlockHeader := ⟨0, 0, BtcTx.hash .polynomial ⟨0, inputs, [], 0⟩, 0, 0, 0⟩ }

/-- The input of a coinbase transaction with the given script. -/
def inputOf (script : Bytes) : BtcTxIn := ⟨0, 0, script, 0⟩

/-- The header, the root of a tree with one leaf, and the number of its leaves. -/
def shortScript : Bytes := pchMergedMiningHeader ++ Uint256.toArray 5 ++ [1, 0, 0, 0]

/-- A coinbase transaction without inputs, and a script that ends after the size of the tree;
both values are read from what they are written as. -/
theorem check_panics :
    (AuxPow.deserialize.Decodes (ofInputs []).serialize (ofInputs []) ∧
      check (ε := Unit) .polynomial (ofInputs []) 5 auxPowChainID = .panic) ∧
    AuxPow.deserialize.Decodes (ofInputs [inputOf shortScript]).serialize
        (ofInputs [inputOf shortScript]) ∧
      check (ε := Unit) .polynomial (ofInputs [inputOf shortScript]) 5 auxPowChainID = .panic := by
  refine ⟨⟨deserialize_decodes ?_, ?_⟩, deserialize_decodes ?_, ?_⟩ <;> decide +kernel

/-! ## Commitments -/

/-- A commitment at a place in the bytes of a script: the header, the root of the tree, the
number of its leaves, and a nonce for the place of the chain in it. -/
structure Commits (script : Bytes) (auxRootHash : Uint256) (auxMerkleIndex : Int)
    (chainId : UInt32) (merkleHeight offset : Nat) : Prop where
  header : pchMergedMiningHeader <+: script.drop offset
  root : auxRootHash.toArray <+: script.drop (offset + 4)
  size : ofLittleEndian ((script.drop (offset + 36)).take 4) = 2 ^ merkleHeight
  long : offset + 44 ≤ script.length
  index : ∃ expected, getExpectedIndex (ε := Unit) (uint32At script (offset + 40)) chainId
    merkleHeight = .ok expected ∧ auxMerkleIndex = expected.toNat

section Commitments

variable {script : Bytes} {auxRootHash : Uint256} {auxMerkleIndex : Int} {chainId : UInt32}
  {merkleHeight place offset : Nat}

/-- A header in the bytes is a header in the digits. -/
theorem header_digits (header : pchMergedMiningHeader <+: script.drop offset) :
    encodeToString pchMergedMiningHeader <+: (encodeToString script).drop (2 * offset) := by
  rw [drop_encodeToString]
  exact encodeToString_isPrefix_iff.mpr header

theorem ofLittleEndian_four_lt (start : Nat) :
    ofLittleEndian ((script.drop start).take 4) < 2 ^ 32 := by
  have bound := ofLittleEndian_lt ((script.drop start).take 4)
  have few : 256 ^ ((script.drop start).take 4).length ≤ 256 ^ 4 :=
    Nat.pow_le_pow_right (by decide) (List.length_take_le 4 _)
  omega

/-- A commitment that is found at the beginning of a byte. -/
theorem commits_of_scanned (scanned : Scanned script auxRootHash (2 * offset))
    (placed : Placed script ((2 * offset + 72) / 2) auxMerkleIndex chainId merkleHeight)
    (low : merkleHeight < 2 ^ 32) :
    Commits script auxRootHash auxMerkleIndex chainId merkleHeight offset := by
  have start : (2 * offset + 72) / 2 = offset + 36 := by omega
  rw [start] at placed
  obtain ⟨size, long, index⟩ := placed
  refine ⟨?_, ?_, ?_, long, index⟩
  · have header := scanned.header
    rwa [drop_encodeToString, encodeToString_isPrefix_iff] at header
  · have root := scanned.root
    rwa [show 2 * offset + 8 = 2 * (offset + 4) by omega, drop_encodeToString,
      encodeToString_isPrefix_iff] at root
  · obtain ⟨expected, isExpected, -⟩ := index
    have modulus : ¬ shiftOne merkleHeight = 0 := by
      intro zero
      rw [getExpectedIndex, if_pos zero] at isExpected
      cases isExpected
    rw [shiftOne_eq_zero_iff, Nat.mod_eq_of_lt low] at modulus
    have power : 2 ^ merkleHeight < 2 ^ 32 := Nat.pow_lt_pow_right (by decide) (by omega)
    rw [shiftOne, Nat.mod_eq_of_lt low, if_pos (by omega), uint32At] at size
    have value := congrArg UInt32.toNat size
    rwa [UInt32.toNat_ofNat_of_lt' (ofLittleEndian_four_lt _),
      UInt32.toNat_ofNat_of_lt' power] at value

end Commitments

/-- `Check` accepts only if there is exactly one commitment in the script. -/
def AcceptsCommitments (crypto : Primitives) (auxPow : AuxPow) (auxMerkleIndex parMerkleIndex : Int)
    (hashAuxBlock : Uint256) (chainId : UInt32) : Prop :=
  checkWith (ε := Unit) crypto auxPow auxMerkleIndex parMerkleIndex hashAuxBlock chainId = .ok true →
    ∃ input inputs, auxPow.parCoinbaseTx.txIn = input :: inputs ∧
      ∃! offset, Commits input.signatureScript (auxRoot crypto auxPow auxMerkleIndex hashAuxBlock)
        auxMerkleIndex chainId auxPow.auxMerkleBranch.length offset

/-- The digits of the script have a commitment in the middle of a byte, or the tree has a
height that is cut to 32 bits. -/
def Misplaced (crypto : Primitives) (auxPow : AuxPow) (auxMerkleIndex parMerkleIndex : Int)
    (hashAuxBlock : Uint256) (chainId : UInt32) : Prop :=
  ParentCommits crypto auxPow parMerkleIndex ∧
    ∃ input inputs place, auxPow.parCoinbaseTx.txIn = input :: inputs ∧
      Scanned input.signatureScript (auxRoot crypto auxPow auxMerkleIndex hashAuxBlock) place ∧
      Placed input.signatureScript ((place + 72) / 2) auxMerkleIndex chainId
        auxPow.auxMerkleBranch.length ∧
      (place % 2 = 1 ∨ 2 ^ 32 ≤ auxPow.auxMerkleBranch.length)

/-- What `Check` accepts is a commitment, unless the commitment is misplaced. -/
theorem acceptsCommitments_iff (crypto : Primitives) (auxPow : AuxPow)
    (auxMerkleIndex parMerkleIndex : Int) (hashAuxBlock : Uint256) (chainId : UInt32) :
    AcceptsCommitments crypto auxPow auxMerkleIndex parMerkleIndex hashAuxBlock chainId ↔
      ¬ Misplaced crypto auxPow auxMerkleIndex parMerkleIndex hashAuxBlock chainId := by
  rw [AcceptsCommitments, checkWith_eq_iff (by simp)]
  simp only [checkTail_true_iff, reduceCtorEq, and_false, false_or]
  constructor
  · rintro accepts ⟨parent, input, inputs, place, given, scanned, placed, misplaced⟩
    obtain ⟨input', inputs', given', offset, commits, -⟩ :=
      accepts ⟨parent, input, inputs, place, given, scanned, placed⟩
    obtain ⟨rfl, rfl⟩ := List.cons.inj (given.symm.trans given')
    rcases misplaced with odd | high
    · have even := scanned.only _ (header_digits commits.header)
      omega
    · have small := @ofLittleEndian_four_lt input.signatureScript (offset + 36)
      rw [commits.size] at small
      exact absurd (Nat.pow_lt_pow_iff_right (by decide) |>.mp small) (by omega)
  · rintro regular ⟨parent, input, inputs, place, given, scanned, placed⟩
    have aligned : ¬ (place % 2 = 1 ∨ 2 ^ 32 ≤ auxPow.auxMerkleBranch.length) := fun misplaced =>
      regular ⟨parent, input, inputs, place, given, scanned, placed, misplaced⟩
    obtain ⟨offset, rfl⟩ : ∃ offset, place = 2 * offset := ⟨place / 2, by omega⟩
    refine ⟨input, inputs, given, offset, commits_of_scanned scanned placed (by omega), ?_⟩
    intro other commits
    have same := scanned.only _ (header_digits commits.header)
    omega

/-- The commitment to a tree with one leaf, moved by half a byte. -/
def shiftedScript : Bytes :=
  [0x0f, 0xab, 0xe6, 0xd6, 0xd0, 0x50] ++ List.replicate 30 0 ++ [1, 0, 0, 0] ++ [0, 0, 0, 0]

/-- A script without the header is accepted. -/
theorem acceptsCommitments_shifted :
    check (ε := Unit) .polynomial (ofInputs [inputOf shiftedScript]) 5 auxPowChainID = .ok true ∧
      indexOf shiftedScript pchMergedMiningHeader = none := by
  decide +kernel

end AuxPow

end DnaPow.Core
