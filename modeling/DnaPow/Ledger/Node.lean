import DnaPow.Ledger.Block
import DnaPow.Std.BigEndian
import Mathlib.Data.List.Sort

/-!
# Block nodes, work and difficulty

The in-memory tree of block nodes. Nodes are allocated once and never freed; a
node is named by the number it was allocated under, and links between nodes are
such numbers. What follows the parent links is bounded by the number of nodes.
-/

namespace DnaPow.Ledger

open DnaPow.Std Common Core

/-! ## Compact targets -/

/-- `CompactToBig`. -/
def compactToBig (compact : UInt32) : Int :=
  let mantissa := compact.toNat % 2 ^ 23
  let exponent := compact.toNat / 2 ^ 24
  let magnitude : Nat :=
    if exponent ≤ 3 then mantissa / 256 ^ (3 - exponent) else mantissa * 256 ^ (exponent - 3)
  if compact.toNat / 2 ^ 23 % 2 = 1 then -magnitude else magnitude

/-- `BigToCompact`. Shifting a negative number right rounds down. -/
def bigToCompact (value : Int) : UInt32 :=
  if value = 0 then 0
  else
    let exponent := byteLength value.natAbs
    let mantissa :=
      if exponent ≤ 3 then value.natAbs * 256 ^ (3 - exponent)
      else (value / 256 ^ (exponent - 3)).natAbs % 2 ^ 32
    let (mantissa, exponent) :=
      if mantissa / 2 ^ 23 % 2 = 1 then (mantissa / 256, exponent + 1) else (mantissa, exponent)
    let compact := UInt32.ofNat (exponent * 2 ^ 24) ||| UInt32.ofNat mantissa
    if value < 0 then compact ||| 0x00800000 else compact

/-- `CalcWork`. -/
def calcWork (bits : UInt32) : Nat :=
  if compactToBig bits ≤ 0 then 0 else 2 ^ 256 / ((compactToBig bits).toNat + 1)

/-! ## Nodes -/

abbrev NodeId := Nat

structure BlockNode where
  hash : Uint256
  parentHash : Uint256
  height : UInt32
  version : UInt32
  bits : UInt32
  timestamp : UInt32
  workSum : Nat
  inMainChain : Bool
  parent : Option NodeId
  children : List NodeId
  deriving DecidableEq, Repr

/-- `NewBlockNode`. -/
def newBlockNode (header : Blockdata) (hash : Uint256) : BlockNode where
  hash
  parentHash := header.prevBlockHash
  height := header.height
  version := header.version
  bits := header.bits
  timestamp := header.timestamp
  workSum := calcWork header.bits
  inMainChain := false
  parent := none
  children := []

namespace BlockNode

/-! The ways in which a node changes after it was created. -/

def withParent (parent : Option NodeId) (node : BlockNode) : BlockNode := { node with parent }

def withChild (child : NodeId) (node : BlockNode) : BlockNode :=
  { node with children := node.children ++ [child] }

def withoutChildren (node : BlockNode) : BlockNode := { node with children := [] }

def withInMainChain (inMainChain : Bool) (node : BlockNode) : BlockNode :=
  { node with inMainChain }

def addWork (work : Nat) (node : BlockNode) : BlockNode :=
  { node with workSum := node.workSum + work }

/-- A new node below another one, whose work it continues. -/
def under (node : BlockNode) (id : NodeId) (parent : BlockNode) : BlockNode :=
  { node with parent := some id, workSum := parent.workSum + node.workSum }

end BlockNode

/-- The nodes allocated so far: those below `count`. -/
structure Nodes where
  get : NodeId → BlockNode
  count : Nat

namespace Nodes

/-- No node is allocated. -/
def empty : Nodes where
  get _ := newBlockNode ⟨0, 0, 0, 0, 0, 0, 0, .empty⟩ 0
  count := 0

/-- Allocate a node. -/
def allocate (nodes : Nodes) (node : BlockNode) : Nodes where
  get := Function.update nodes.get nodes.count node
  count := nodes.count + 1

/-- Change one node. -/
def modify (nodes : Nodes) (id : NodeId) (change : BlockNode → BlockNode) : Nodes :=
  { nodes with get := Function.update nodes.get id (change (nodes.get id)) }

/-- A node and its ancestors along the parent links. -/
def follow (nodes : Nodes) : (fuel : Nat) → Option NodeId → List NodeId
  | 0, _ => []
  | _, none => []
  | fuel + 1, some id => id :: follow nodes fuel (nodes.get id).parent

/-- A node and all its ancestors in memory. -/
def lineage (nodes : Nodes) (start : Option NodeId) : List NodeId :=
  nodes.follow nodes.count start

/-- `AddChildrenWork`, together with the addition to the node itself. -/
def addWork (work : Nat) : (fuel : Nat) → Nodes → NodeId → Nodes
  | 0, nodes, _ => nodes
  | fuel + 1, nodes, id =>
      (nodes.get id).children.foldl (addWork work fuel)
        (nodes.modify id (.addWork work))

/-- Cut the links between a node and its children. -/
def unlinkChildren (nodes : Nodes) (id : NodeId) : Nodes :=
  ((nodes.get id).children.foldl (fun nodes child => nodes.modify child (.withParent none))
    nodes).modify id .withoutChildren

/-- `RemoveChildNode`: drop the first node with the hash of the given one. -/
def removeChildNode (nodes : Nodes) (children : List NodeId) (id : NodeId) : List NodeId :=
  children.eraseP fun child => (nodes.get child).hash = (nodes.get id).hash

/-- The timestamp in the middle of a list. -/
def medianOf (timestamps : List Nat) : Option Nat :=
  (timestamps.insertionSort (· ≤ ·))[timestamps.length / 2]?

/-- `CalcPastMedianTime`: the median over the last eleven blocks. Without a node
there is no timestamp to take. -/
def calcPastMedianTime {ε : Type} (nodes : Nodes) (start : Option NodeId) : Outcome ε Nat :=
  match medianOf (((nodes.lineage start).take 11).map fun id => (nodes.get id).timestamp.toNat) with
  | some median => .ok median
  | none => .panic

end Nodes

/-! ## Difficulty -/

namespace ChainParams

variable (params : ChainParams)

def blocksPerRetarget : UInt32 :=
  UInt32.ofNat (params.targetTimespan.tdiv params.targetTimePerBlock).toNat

/-- The time between two blocks, limited to a factor of the target. -/
def adjustedTimespan (actual : Int) : Int :=
  let least := params.targetTimespan.tdiv params.adjustmentFactor
  let most := params.targetTimespan * params.adjustmentFactor
  if actual < least then least else if actual > most then most else actual

end ChainParams

/-- The previous retarget block would lie before the genesis block. -/
inductive DifficultyError where
  | noRetargetBlock
  deriving DecidableEq, Repr

/-- `CalcNextRequiredDifficulty`. A retarget block that is no longer in memory is
a nil pointer. -/
def calcNextRequiredDifficulty (params : ChainParams) (nodes : Nodes) (prev : NodeId) :
    Outcome DifficultyError UInt32 :=
  let node := nodes.get prev
  if node.height = 0 ∨ params.regNet then
    .ok params.powLimitBits
  else if params.blocksPerRetarget = 0 then
    .panic
  else if (node.height + 1) % params.blocksPerRetarget ≠ 0 then
    .ok node.bits
  else
    let height := node.height - params.blocksPerRetarget + 1
    if height > node.height then
      .error .noRetargetBlock
    else
      match (nodes.lineage (some prev)).find? fun id => (nodes.get id).height = height with
      | none => .panic
      | some first =>
          let actual : Int := (node.timestamp - (nodes.get first).timestamp).toNat
          let target := compactToBig node.bits * params.adjustedTimespan actual /
            params.targetTimespan
          .ok (bigToCompact (min target params.powLimit))

end DnaPow.Ledger
