import DnaPow.Ledger.Window

/-!
# Reorganisations

What `GetReorganizeNodes` returns on any tree, and where `ReorganizeChain` ends
when it returns without an error.
-/

namespace DnaPow.Ledger

open DnaPow.Std Common Core Action

/-- In a chain every item but the last is related to another one. -/
theorem exists_next_of_isChain {α : Type} {related : α → α → Prop} {before after : List α} {last : α}
    (chain : (before ++ last :: after).IsChain related) :
    ∀ item ∈ before, ∃ next, related item next := by
  induction before with
  | nil => nofun
  | cons first before ih =>
    rw [List.cons_append, List.isChain_cons] at chain
    intro item member
    rcases List.mem_cons.mp member with rfl | member
    · cases before with
      | nil => exact ⟨last, chain.1 last rfl⟩
      | cons next before => exact ⟨next, chain.1 next rfl⟩
    · exact ih chain.2 item member

namespace Blockchain

/-- The way from the end of the best chain and the way from another node down to
`fork`, the first node on the latter that is on the main chain. -/
structure Forks (bc : Blockchain) (best id fork : NodeId) (down up : List NodeId) : Prop where
  isBest : bc.bestChain = some best
  onBest : ∃ rest, bc.nodes.lineage (some best) = down ++ fork :: rest
  onSide : ∃ rest, bc.nodes.lineage (some id) = up ++ fork :: rest
  marked : (bc.nodes.get fork).inMainChain = true
  unmarked : ∀ other ∈ up, (bc.nodes.get other).inMainChain = false
  /-- The hashes tell the nodes of the best chain apart. -/
  distinct : ((bc.nodes.lineage (some best)).map fun id => (bc.nodes.get id).hash).Nodup

variable {env : Env} {known : Block → Prop} {bc : Blockchain} {chain : List Block}
  {best id fork : NodeId} {down up : List NodeId}

namespace Forks

variable (forks : Forks bc best id fork down up)
include forks

theorem down_linked : ∀ other ∈ down, ∃ parent, (bc.nodes.get other).parent = some parent := by
  obtain ⟨rest, onBest⟩ := forks.onBest
  exact exists_next_of_isChain (onBest ▸ bc.nodes.isChain_lineage (some best))

theorem up_linked : ∀ other ∈ up, ∃ parent, (bc.nodes.get other).parent = some parent := by
  obtain ⟨rest, onSide⟩ := forks.onSide
  exact exists_next_of_isChain (onSide ▸ bc.nodes.isChain_lineage (some id))

theorem hash_ne : ∀ other ∈ down, (bc.nodes.get other).hash ≠ (bc.nodes.get fork).hash := by
  obtain ⟨rest, onBest⟩ := forks.onBest
  have distinct := forks.distinct
  rw [onBest, List.map_append, List.map_cons, List.nodup_append] at distinct
  intro other member
  exact distinct.2.2 _ (List.mem_map_of_mem member) _ List.mem_cons_self

theorem getReorganizeNodes : bc.getReorganizeNodes id = (down, up.reverse) := by
  obtain ⟨rest, onBest⟩ := forks.onBest
  obtain ⟨rest', onSide⟩ := forks.onSide
  have off : ∀ other ∈ up, bc.offMainChain other = true := by
    intro other member
    obtain ⟨parent, link⟩ := forks.up_linked other member
    simp [offMainChain, link, forks.unmarked other member]
  have stop : bc.offMainChain fork = false := by simp [offMainChain, forks.marked]
  have found : (up ++ fork :: rest').find? (fun id => ¬ bc.offMainChain id) = some fork := by
    rw [List.find?_eq_some_iff_append]
    exact ⟨by simp [stop], up, rest', rfl, by simpa using off⟩
  have attach : (up ++ fork :: rest').takeWhile bc.offMainChain = up := by
    rw [List.takeWhile_append_of_pos off, List.takeWhile_cons_of_neg (Bool.eq_false_iff.mp stop),
      List.append_nil]
  have detach : (down ++ fork :: rest).takeWhile (fun id =>
      (bc.nodes.get id).parent.isSome ∧ some (bc.nodes.get id).hash ≠
        some (bc.nodes.get fork).hash) = down := by
    rw [List.takeWhile_append_of_pos, List.takeWhile_cons_of_neg, List.append_nil]
    · simp
    · intro other member
      obtain ⟨parent, link⟩ := forks.down_linked other member
      simp [link, forks.hash_ne other member]
  rw [Blockchain.getReorganizeNodes, forks.isBest, onSide, onBest, found, attach, Option.map_some,
    detach]

end Forks

/-! ## Where a reorganisation ends -/

/-- `DisconnectBlock` on a node whose parent is in memory. -/
theorem disconnectBlock_best {parent : NodeId} (link : (bc.nodes.get id).parent = some parent)
    (block : Block) :
    (disconnectBlock env id block).Ensures bc
      (fun _ after => after.bestChain = some parent ∧ SameLinks bc after) (fun _ => True) := by
  refine (disconnectBlock_linked link block).mono (fun _ after effect => ?_) (fun _ _ => trivial)
  obtain ⟨store, blockHeight, median, rfl⟩ := effect
  exact ⟨rfl, rfl, rfl, by simp, by simp, by simp⟩

/-- Detaching nodes, each the parent of the one before, ends at the parent of the last. -/
theorem detachNodes_best {ids : List NodeId}
    (links : (ids ++ [fork]).IsChain fun id parent => (bc.nodes.get id).parent = some parent)
    (start : bc.bestChain = (ids ++ [fork]).head?) :
    (detachNodes env ids).Ensures bc (fun _ after => after.bestChain = some fork)
      (fun _ => True) := by
  induction ids generalizing bc with
  | nil => exact start
  | cons id ids ih =>
    rw [List.cons_append, List.isChain_cons] at links
    obtain ⟨first, links⟩ := links
    obtain ⟨next, isNext⟩ : ∃ next, (ids ++ [fork]).head? = some next := by
      cases ids with
      | nil => exact ⟨fork, rfl⟩
      | cons next ids => exact ⟨next, rfl⟩
    simp only [detachNodes, checked, ensures_bind, ensures_get, ensures_check, mapError_eq_ok]
    refine ⟨fun block _ => ?_, fun _ _ => trivial⟩
    refine (disconnectBlock_best (first next isNext) block).mono (fun _ middle moved => ?_)
      (fun _ _ => trivial)
    obtain ⟨isBest, same⟩ := moved
    apply ih
    · simpa only [same.parent] using links
    · rw [isBest, isNext]

/-- Attaching nodes ends at the last of them. -/
theorem attachNodes_best {ids : List NodeId} (start : bc.bestChain = some fork) :
    (attachNodes env ids).Ensures bc (fun _ after => after.bestChain = (fork :: ids).getLast?)
      (fun _ => True) := by
  induction ids generalizing bc fork with
  | nil => exact start
  | cons id ids ih =>
    simp only [attachNodes, ensures_bind, ensures_get]
    split
    · exact ensures_crash
    · next block entry =>
      rw [ensures_bind]
      refine (connectBlock_connects bc id block).mono (fun _ middle connects => ?_)
        (fun _ _ => trivial)
      rw [ensures_bind, ensures_modify, List.getLast?_cons_cons]
      obtain ⟨store, blockHeight, median, -, rfl⟩ := connects.effect
      exact ih rfl

/-- A node is the first of its ancestors. -/
theorem head?_of_lineage {before after : List NodeId}
    (lineage : bc.nodes.lineage (some id) = before ++ fork :: after) :
    (before ++ [fork]).head? = some id := by
  rw [Nodes.lineage] at lineage
  cases count : bc.nodes.count with
  | zero => simp [count, Nodes.follow] at lineage
  | succ fuel =>
    rw [count, Nodes.follow] at lineage
    cases before with
    | nil => exact congrArg some (List.cons.inj lineage).1.symm
    | cons first before => exact congrArg some (List.cons.inj lineage).1.symm

/-- On the lists of a fork, `ReorganizeChain` ends at the given node. -/
theorem Forks.reorganizeChain_best (forks : Forks bc best id fork down up) :
    (reorganizeChain env down up.reverse).Ensures bc (fun _ after => after.bestChain = some id)
      (fun _ => True) := by
  obtain ⟨rest, onBest⟩ := forks.onBest
  obtain ⟨rest', onSide⟩ := forks.onSide
  have links := bc.nodes.isChain_lineage (some best)
  rw [onBest, List.append_cons] at links
  have last : (fork :: up.reverse).getLast? = some id := by
    rw [← List.reverse_concat, List.getLast?_reverse]
    exact head?_of_lineage onSide
  simp only [reorganizeChain, ensures_bind, ensures_get, ensures_ite, ensures_throw]
  refine ⟨fun _ => trivial, fun _ => ?_⟩
  refine (detachNodes_best links.left_of_append ?_).mono (fun _ middle detached => ?_)
    (fun _ _ => trivial)
  · rw [forks.isBest, head?_of_lineage onBest]
  · rw [← last]
    exact attachNodes_best detached

/-- `GetReorganizeNodes` returns the nodes from the end of the best chain down to the
fork and those from the fork up to the given node. If `ReorganizeChain` returns
without an error on these lists, that node is the end of the best chain and the store
holds the blocks of its branch. -/
theorem reorganisation_exact (bc : Blockchain) (best id fork : NodeId) (down up : List NodeId)
    (forks : Forks bc best id fork down up) :
    bc.getReorganizeNodes id = (down, up.reverse) ∧
      ∀ (env : Env) (known : Block → Prop) (chain : List Block), Admissible env known →
        Invariant env known chain bc → id < bc.nodes.count →
        (reorganizeChain env down up.reverse).Ensures bc
          (fun _ after => after.bestChain = some id ∧ ∃ path,
            (blockLinks env).Branch known path ∧
            (bc.nodes.lineage (some id)).map (fun id => (bc.nodes.get id).hash) <+:
              path.map (Block.hash env.crypto) ∧
            Represents env path after.store)
          (fun _ => True) := by
  refine ⟨forks.getReorganizeNodes, ?_⟩
  intro env known chain admissible invariant allocated
  have bounds := invariant.getReorganizeNodes_lt allocated
  rw [forks.getReorganizeNodes] at bounds
  refine (forks.reorganizeChain_best.and (reorganizeChain_sound admissible
    ⟨⟨chain, invariant⟩, .any bc⟩ bounds.1 bounds.2)).mono (fun _ after ends => ?_)
    (fun _ _ => trivial)
  obtain ⟨isBest, ⟨⟨path, invariant'⟩, grown⟩, -⟩ := ends
  refine ⟨isBest, path, invariant'.mainChain.branch admissible, ?_,
    invariant'.mainChain.represents admissible⟩
  -- the last block of the new main chain has the hash of the node
  obtain ⟨best', tip, isBest', head, -, hash⟩ := invariant'.best
  obtain rfl := Option.some.inj (isBest'.symm.trans isBest)
  obtain ⟨below, rfl⟩ := List.head?_eq_some_iff.mp head
  rw [BlockNode.hash_of_fixed (grown.fixed _ allocated)] at hash
  exact invariant.tree.lineage_prefix admissible allocated (invariant'.mainChain.branch admissible)
    hash

/-- A second block on the genesis block. -/
def rivalBlock : Block := Sample.block (genesisBlock .sample) [Sample.coinbase 2 1 5000]

/-- The second of two blocks on the genesis block is on a side chain. -/
theorem reorganisation_rivalBlock :
    ∃ bc, run .sample (Sample.deliveries [firstBlock, rivalBlock]) = some bc ∧
      bc.getReorganizeNodes 2 = ([1], [2]) ∧
      ∃ known, (reorganizeChain .sample [1] [2]).Ensures bc
        (fun _ after => after.bestChain = some 2 ∧ ∃ path,
          (blockLinks .sample).Branch known path ∧
          (bc.nodes.lineage (some 2)).map (fun id => (bc.nodes.get id).hash) <+:
            path.map (Block.hash Env.sample.crypto) ∧
          Represents .sample path after.store)
        (fun _ => True) := by
  have ends : (run .sample (Sample.deliveries [firstBlock, rivalBlock])).map (fun bc =>
      decide (bc.bestChain = some 1 ∧ bc.nodes.lineage (some 1) = [1, 0] ∧
        bc.nodes.lineage (some 2) = [2, 0] ∧ (bc.nodes.get 0).inMainChain = true ∧
        (bc.nodes.get 2).inMainChain = false ∧ 2 < bc.nodes.count ∧
        (bc.nodes.get 1).hash ≠ (bc.nodes.get 0).hash)) = some true := by
    decide +kernel
  obtain ⟨bc, ran, facts⟩ := Option.map_eq_some_iff.mp ends
  obtain ⟨isBest, onBest, onSide, marked, unmarked, allocated, differs⟩ := of_decide_eq_true facts
  have forks : Forks bc 1 2 0 [1] [2] :=
    ⟨isBest, ⟨[], onBest⟩, ⟨[], onSide⟩, marked, by simpa using unmarked, by simp [onBest, differs]⟩
  have apart : HashesApart .sample (Sample.deliveries [firstBlock, rivalBlock]) := by
    constructor <;> decide +kernel
  obtain ⟨chain, invariant⟩ := run_sound apart (by decide) ran
  obtain ⟨lists, ends⟩ := reorganisation_exact bc 1 2 0 [1] [2] forks
  exact ⟨bc, ran, lists, _, ends _ _ _ (admissible_delivered apart (by decide)) invariant allocated⟩

end Blockchain

end DnaPow.Ledger
