import DnaPow.Ledger.Orphans
import DnaPow.Ledger.Constants

/-!
# The size of the orphan pool

`AddOrphanBlock` makes room for a new orphan by removing the one that `OldestOrphan`
points to. `ProcessOrphans` takes orphans out of the pool and does not look at that
pointer, so the pointer can be left behind, and the removal then frees no room.
-/

namespace DnaPow.Ledger

open DnaPow.Std Common Core Action

namespace Blockchain

/-- The oldest orphan, if there is one, is in the pool. -/
def Anchored (bc : Blockchain) : Prop := ∀ oldest ∈ bc.oldestOrphan, oldest ∈ bc.orphans

/-- The two maps of the pool agree, and keep no orphan twice. -/
structure Orderly (env : Env) (known : Block → Prop) (bc : Blockchain) : Prop
    extends Pooled known bc where
  distinct : (bc.orphans.map (·.block.hash env.crypto)).Nodup
  once : ∀ hash, (bc.prevOrphans hash).Nodup

variable {env : Env} {known : Block → Prop} {start bc after : Blockchain} {block : Block}
  {orphan other : OrphanBlock}

theorem Orderly.eq_of_hash (orderly : Orderly env known bc) (member : orphan ∈ bc.orphans)
    (member' : other ∈ bc.orphans)
    (same : orphan.block.hash env.crypto = other.block.hash env.crypto) : orphan = other :=
  List.inj_on_of_nodup_map orderly.distinct member member' same

/-- The order of the pool depends on the pool alone. -/
theorem Orderly.of_pool (orderly : Orderly env known bc) (same : after.pool = bc.pool) :
    Orderly env known after := by
  obtain ⟨orphans, prevOrphans, oldestOrphan⟩ := Pool.mk.inj same
  obtain ⟨⟨listed, linked, isKnown, oldest⟩, distinct, once⟩ := orderly
  constructor
  · constructor
    · rwa [orphans, prevOrphans]
    · rwa [orphans, prevOrphans]
    · rwa [orphans]
    · rwa [oldestOrphan]
  · rwa [orphans]
  · rwa [prevOrphans]

/-! ## Taking orphans out -/

theorem orphans_withoutOrphan_sublist :
    (bc.withoutOrphan env orphan).orphans.Sublist bc.orphans := List.filter_sublist

theorem Orderly.withoutOrphan (orderly : Orderly env known bc) (samePrev : SamePrev env known)
    (isKnown : known orphan.block) : Orderly env known (bc.withoutOrphan env orphan) where
  toPooled := orderly.toPooled.withoutOrphan samePrev isKnown
  distinct := orderly.distinct.sublist (orphans_withoutOrphan_sublist.map _)
  once hash := by
    simp only [Blockchain.withoutOrphan, removeOrphanBlock, run_modify, Function.update_apply]
    split
    · exact (orderly.once _).filter _
    · exact orderly.once hash

/-- A pool out of which orphans may have been taken, the oldest one not without being
forgotten. -/
structure Thinned (env : Env) (known : Block → Prop) (start bc : Blockchain) : Prop where
  orderly : Orderly env known bc
  fewer : bc.orphans.Sublist start.orphans
  anchored : start.Anchored → bc.Anchored

theorem Thinned.refl (orderly : Orderly env known bc) : Thinned env known bc bc :=
  ⟨orderly, .refl _, id⟩

theorem Thinned.withOldest (thinned : Thinned env known start bc) {oldest : Option OrphanBlock}
    (among : ∀ orphan ∈ oldest, orphan ∈ bc.orphans ∨ orphan ∈ bc.oldestOrphan) :
    Thinned env known start { bc with oldestOrphan := oldest } where
  orderly := {
    thinned.orderly with
    oldest := fun orphan member => (among orphan member).elim
      (thinned.orderly.isKnown orphan) (thinned.orderly.oldest orphan) }
  fewer := thinned.fewer
  anchored anchored orphan member :=
    (among orphan member).elim id (thinned.anchored anchored orphan)

/-- An orphan may be taken out unless it is the oldest one and stays so. -/
theorem Thinned.drop (thinned : Thinned env known start bc) (samePrev : SamePrev env known)
    (isKnown : known orphan.block) {oldest : Option OrphanBlock}
    (among : ∀ other ∈ oldest, other ∈ bc.oldestOrphan ∧
      (start.Anchored → other.block.hash env.crypto ≠ orphan.block.hash env.crypto)) :
    Thinned env known start { bc.withoutOrphan env orphan with oldestOrphan := oldest } where
  orderly := {
    thinned.orderly.withoutOrphan samePrev isKnown with
    oldest := fun other member => thinned.orderly.oldest other (among other member).1 }
  fewer := orphans_withoutOrphan_sublist.trans thinned.fewer
  anchored anchored other member :=
    mem_orphans_withoutOrphan.mpr ⟨thinned.anchored anchored other (among other member).1,
      (among other member).2 anchored⟩

/-! ## Adding an orphan -/

theorem insertOrphan_orderly (orderly : Orderly env known bc) {now : Int} (isKnown : known block)
    (isNew : ∀ orphan ∈ bc.orphans, orphan.block.hash env.crypto ≠ block.hash env.crypto) :
    (insertOrphan env now block).Ensures bc
      (fun _ after => Orderly env known after ∧ (bc.Anchored → after.Anchored) ∧
        after.orphans.length = bc.orphans.length + 1)
      (fun _ => False) := by
  have pooled := @insertOrphan_pooled env known bc block orderly.toPooled now isKnown isNew
  simp only [insertOrphan, ensures_modify] at pooled ⊢
  have unchanged : bc.orphans.filter (·.block.hash env.crypto ≠ block.hash env.crypto) =
      bc.orphans := List.filter_eq_self.mpr fun orphan member => by simpa using isNew orphan member
  rw [unchanged] at pooled ⊢
  refine ⟨⟨pooled.1, ?_, ?_⟩, fun anchored oldest isOldest => ?_, List.length_append⟩
  · rw [List.map_append]
    apply List.nodup_append.mpr ⟨orderly.distinct, List.nodup_singleton _, _⟩
    intro hash old hash' new same
    obtain ⟨orphan, member, rfl⟩ := List.mem_map.mp old
    exact isNew orphan member (same.trans (List.mem_singleton.mp new))
  · intro hash
    simp only [Function.update_apply]
    split
    · apply List.nodup_append.mpr ⟨orderly.once _, List.nodup_singleton _, _⟩
      intro orphan old other new same
      have member := (orderly.listed _ orphan old).1
      apply isNew orphan member
      rw [same, List.mem_singleton.mp new]
    · exact orderly.once hash
  · exact List.mem_append_left _ (anchored oldest isOldest)

/-- Adding an orphan keeps the pool in order, and within its bound if the oldest orphan
is in the pool. -/
theorem addOrphanBlock_orderly (samePrev : SamePrev env known) (orderly : Orderly env known bc)
    {now : Int} (isKnown : known block)
    (isNew : ∀ orphan ∈ bc.orphans, orphan.block.hash env.crypto ≠ block.hash env.crypto) :
    (addOrphanBlock env now block).Ensures bc
      (fun _ after => Orderly env known after ∧
        (bc.Anchored → bc.orphans.length ≤ env.chainParam.maxOrphanBlocks →
          after.Anchored ∧ after.orphans.length ≤ env.chainParam.maxOrphanBlocks))
      (fun _ => False) := by
  refine addOrphanBlock_rule (Thinned env known bc) (fun after => Thinned env known bc after ∧
      (bc.Anchored → bc.orphans.length ≤ env.chainParam.maxOrphanBlocks →
        after.orphans.length + 1 ≤ env.chainParam.maxOrphanBlocks)) (.refl orderly) ?_
    (fun thinned => thinned.withOldest mem_of_findOldest) (fun thinned fits => ⟨thinned, fun _ _ => fits⟩)
    ?_ ?_
  · intro after orphan member thinned
    apply thinned.drop samePrev (orderly.isKnown orphan member)
    intro other isOldest
    obtain ⟨isOldest, differs⟩ := Option.mem_filter_iff.mp isOldest
    refine ⟨isOldest, fun anchored same => ?_⟩
    -- two orphans of the pool with one hash are one orphan
    have otherMember := thinned.fewer.subset (thinned.anchored anchored other isOldest)
    exact of_decide_eq_true differs (orderly.eq_of_hash otherMember member same)
  · intro after oldest isOldest thinned
    refine ⟨thinned.drop samePrev (thinned.orderly.oldest oldest isOldest) (by rintro _ ⟨⟩), ?_⟩
    intro anchored fits
    have member : oldest ∈ after.orphans := thinned.anchored anchored oldest isOldest
    have shorter := @length_withoutOrphan_lt env after oldest member
    exact (Nat.succ_le_of_lt shorter).trans (thinned.fewer.length_le.trans fits)
  · rintro room ⟨thinned, fits⟩
    apply (insertOrphan_orderly thinned.orderly isKnown fun orphan member =>
      isNew orphan (thinned.fewer.subset member)).mono _ fun _ => id
    rintro _ after ⟨inserted, anchored, length⟩
    refine ⟨inserted, fun isAnchored bound => ⟨anchored (thinned.anchored isAnchored), ?_⟩⟩
    rw [length]
    exact fits isAnchored bound

/-! ## Runs -/

theorem maybeAcceptBlock_pool (block : Block) (bc : Blockchain) :
    (maybeAcceptBlock env block).Ensures bc (fun _ after => after.pool = bc.pool)
      (fun after => after.pool = bc.pool) :=
  ((maybeAcceptBlock_keeps block).map Prod.snd).ensures bc

/-- What a run keeps of its orphan pool, when the blocks meet the terms. -/
structure PoolRule (env : Env) (known : Block → Prop) (terms : Terms)
    (holds : Blockchain → Prop) : Prop where
  orderly : ∀ {bc}, holds bc → Orderly env known bc
  of_pool : ∀ {bc after}, holds bc → after.pool = bc.pool → holds after
  remove : ∀ {pending bc orphan}, holds bc → known orphan.block →
    terms.accepting pending (bc.withoutOrphan env orphan) orphan.block →
      holds (bc.withoutOrphan env orphan)
  add : ∀ {bc now block}, holds bc → known block →
    (∀ orphan ∈ bc.orphans, orphan.block.hash env.crypto ≠ block.hash env.crypto) →
      (addOrphanBlock env now block).Ensures bc (fun _ => holds) (fun _ => False)

theorem PoolRule.run {terms : Terms} {holds : Blockchain → Prop} {deliveries : List Delivery}
    (rule : PoolRule env (Delivered env deliveries) terms holds) (start : holds (fresh env))
    (meets : RunMeets env terms (fresh env) deliveries) (ran : run env deliveries = some bc) :
    holds bc := by
  refine @run_rule _ _ _ _ (fun _ _ => True) _ ?_ ?_ ?_ start meets ran
  · intro _ bc hash orphan others start found onTerms
    have orderly := rule.orderly start
    have member := (orderly.listed hash orphan (found ▸ List.mem_cons_self)).1
    exact ⟨rule.remove start (orderly.isKnown orphan member) onTerms, trivial⟩
  · intro _ bc block start _ _
    exact (maybeAcceptBlock_pool block bc).mono (fun _ _ same => rule.of_pool start same)
      (fun _ same => rule.of_pool start same)
  · intro delivery member bc start sane _ absent
    exact ⟨trivial, fun _ => rule.add start (.inr ⟨⟨delivery, member, rfl⟩, sane⟩) absent⟩

/-- The pool is in order in every run, without terms. -/
theorem orderly_rule (samePrev : SamePrev env known) :
    PoolRule env known ⟨fun _ _ _ => True, fun _ _ => True⟩ (Orderly env known) where
  orderly := id
  of_pool := Orderly.of_pool
  remove orderly isKnown _ := orderly.withoutOrphan samePrev isKnown
  add orderly isKnown absent := (addOrphanBlock_orderly samePrev orderly isKnown absent).mono
    (fun _ _ added => added.1) fun _ => id

/-- No block is accepted while the oldest orphan is one with its hash: `ProcessOrphans`
does not take the oldest orphan. -/
def poolTerms (env : Env) : Terms where
  accepting _ bc block :=
    ∀ oldest ∈ bc.oldestOrphan, oldest.block.hash env.crypto ≠ block.hash env.crypto
  shelving _ _ := True

instance (pending : List Uint256) (bc : Blockchain) (block : Block) :
    Decidable ((poolTerms env).accepting pending bc block) :=
  inferInstanceAs (Decidable (∀ oldest ∈ bc.oldestOrphan, _))

instance (bc : Blockchain) (block : Block) : Decidable ((poolTerms env).shelving bc block) :=
  inferInstanceAs (Decidable True)

/-- A pool in order and within its bound. -/
structure Bounded (env : Env) (known : Block → Prop) (bc : Blockchain) : Prop where
  orderly : Orderly env known bc
  anchored : bc.Anchored
  fits : bc.orphans.length ≤ env.chainParam.maxOrphanBlocks

theorem Bounded.of_pool (bounded : Bounded env known bc) (same : after.pool = bc.pool) :
    Bounded env known after := by
  obtain ⟨orphans, -, oldestOrphan⟩ := Pool.mk.inj same
  refine ⟨bounded.orderly.of_pool same, ?_, ?_⟩
  · rw [Anchored, orphans, oldestOrphan]
    exact bounded.anchored
  · rw [orphans]
    exact bounded.fits

theorem Bounded.withoutOrphan (bounded : Bounded env known bc) (samePrev : SamePrev env known)
    (isKnown : known orphan.block)
    (notOldest : ∀ oldest ∈ bc.oldestOrphan,
      oldest.block.hash env.crypto ≠ orphan.block.hash env.crypto) :
    Bounded env known (bc.withoutOrphan env orphan) := by
  have thinned : Thinned env known bc (bc.withoutOrphan env orphan) :=
    (Thinned.refl bounded.orderly).drop samePrev isKnown fun oldest isOldest =>
      ⟨isOldest, fun _ => notOldest oldest isOldest⟩
  exact ⟨thinned.orderly, thinned.anchored bounded.anchored,
    thinned.fewer.length_le.trans bounded.fits⟩

theorem fresh_pool (env : Env) : (fresh env).pool = ⟨[], fun _ => [], none⟩ := by
  rw [fresh, newBlockchainWithGenesisBlock_genesis]
  rfl

theorem fresh_orderly (env : Env) (known : Block → Prop) : Orderly env known (fresh env) := by
  obtain ⟨orphans, prevOrphans, -⟩ := Pool.mk.inj (fresh_pool env)
  constructor
  · exact (fresh_settled env known).pooled
  · simp [orphans]
  · simp [prevOrphans]

theorem fresh_bounded (env : Env) (known : Block → Prop) : Bounded env known (fresh env) := by
  obtain ⟨orphans, -, oldest⟩ := Pool.mk.inj (fresh_pool env)
  constructor
  · exact fresh_orderly env known
  · simp [Anchored, oldest]
  · simp [orphans]

theorem bounded_rule (samePrev : SamePrev env known) :
    PoolRule env known (poolTerms env) (Bounded env known) where
  orderly := Bounded.orderly
  of_pool := Bounded.of_pool
  remove bounded isKnown notOldest := bounded.withoutOrphan samePrev isKnown notOldest
  add bounded isKnown absent := by
    apply (addOrphanBlock_orderly samePrev bounded.orderly isKnown absent).mono _ fun _ => id
    rintro _ after ⟨orderly, kept⟩
    obtain ⟨anchored, fits⟩ := kept bounded.anchored bounded.fits
    exact ⟨orderly, anchored, fits⟩

theorem samePrev_delivered {deliveries : List Delivery} (apart : HashesApart env deliveries) :
    SamePrev env (Delivered env deliveries) := by
  intro block other delivered delivered' same
  have headers := apart.headers _ (Delivered.mem delivered) _ (Delivered.mem delivered') same
  have sameField := congrArg Blockdata.prevBlockHash (Blockdata.serializeUnsigned_inj headers)
  exact sameField

/-- In a run in which `ProcessOrphans` never takes the oldest orphan, the oldest orphan is
in the pool and the pool keeps to its bound. -/
theorem orphanPool_bounded (env : Env) (deliveries : List Delivery) (bc : Blockchain)
    (apart : HashesApart env deliveries)
    (meets : RunMeets env (poolTerms env) (fresh env) deliveries)
    (ran : run env deliveries = some bc) :
    bc.Anchored ∧ bc.orphans.length ≤ env.chainParam.maxOrphanBlocks := by
  suffices bounded : Bounded env (Delivered env deliveries) bc from
    ⟨bounded.anchored, bounded.fits⟩
  exact (bounded_rule (samePrev_delivered apart)).run (fresh_bounded env _) meets ran

/-- The sample configuration with room for two orphans. -/
def roomForTwo : Env :=
  { Env.sample with chainParam := { Env.sample.chainParam with maxOrphanBlocks := 2 } }

/-- Blocks that wait for a block that never arrives. -/
def strayBlock (tag : UInt8) : Block :=
  Sample.block { firstBlock with transactions := [], blockdata :=
    { firstBlock.blockdata with version := 99 } } [Sample.coinbase tag 0 5000]

/-- Of three orphans the first one makes room for the last. -/
theorem orphanPool_twoOfThree :
    ∃ bc, run roomForTwo (Sample.deliveries [orphanBlock, strayBlock 4, strayBlock 5]) = some bc ∧
      bc.orphans.map OrphanBlock.block = [strayBlock 4, strayBlock 5] ∧
      bc.Anchored ∧ bc.orphans.length ≤ roomForTwo.chainParam.maxOrphanBlocks := by
  have ends : (run roomForTwo (Sample.deliveries
      [orphanBlock, strayBlock 4, strayBlock 5])).map (·.orphans.map OrphanBlock.block) =
        some [strayBlock 4, strayBlock 5] := by decide +kernel
  obtain ⟨bc, ran, exist⟩ := Option.map_eq_some_iff.mp ends
  refine ⟨bc, ran, exist, orphanPool_bounded roomForTwo _ bc ⟨?_, ?_, ?_⟩ ?_ ran⟩ <;>
    decide +kernel

/-- The first orphan is the oldest one when its parent arrives and it is accepted. It is
then no longer in the pool, and removing it again makes no room. -/
theorem orphanPool_overfull :
    ∃ early late, run roomForTwo (Sample.deliveries [orphanBlock, strayBlock 4, firstBlock]) =
        some early ∧
      run roomForTwo (Sample.deliveries
        [orphanBlock, strayBlock 4, firstBlock, strayBlock 5, strayBlock 6]) = some late ∧
      ¬ early.Anchored ∧ roomForTwo.chainParam.maxOrphanBlocks < late.orphans.length := by
  have ends : ((run roomForTwo (Sample.deliveries [orphanBlock, strayBlock 4, firstBlock])).bind
      fun early => ((Sample.deliveries [strayBlock 5, strayBlock 6]).foldlM (deliver roomForTwo)
        early).map fun late => ((early.oldestOrphan.map OrphanBlock.block,
          early.orphans.map OrphanBlock.block), late.orphans.length)) =
        some ((some orphanBlock, [strayBlock 4]), 3) := by decide +kernel
  obtain ⟨early, ran, ends⟩ := Option.bind_eq_some_iff.mp ends
  obtain ⟨late, rest, ends⟩ := Option.map_eq_some_iff.mp ends
  obtain ⟨dangles, three⟩ := Prod.mk.inj ends
  obtain ⟨oldest, orphans⟩ := Prod.mk.inj dangles
  have ranOn : (Sample.deliveries [orphanBlock, strayBlock 4, firstBlock] ++
      Sample.deliveries [strayBlock 5, strayBlock 6]).foldlM (deliver roomForTwo)
        (fresh roomForTwo) = some late := by
    rw [List.foldlM_append]
    exact Option.bind_eq_some_iff.mpr ⟨early, ran, rest⟩
  refine ⟨early, late, ran, ranOn, fun anchored => ?_, ?_⟩
  · obtain ⟨orphan, isOldest, isBlock⟩ := Option.map_eq_some_iff.mp oldest
    have member := @List.mem_map_of_mem _ _ _ _ OrphanBlock.block (anchored orphan isOldest)
    rw [orphans, isBlock] at member
    revert member
    decide +kernel
  · rw [three]
    decide

end Blockchain

end DnaPow.Ledger
