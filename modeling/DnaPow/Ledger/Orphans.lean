import DnaPow.Ledger.Refinement

/-!
# Stranded orphans

Between two calls of `ProcessBlock` no orphan should wait for a block that the node
has. `ProcessOrphans` stops at the first orphan that is rejected, and leaves the
others where they are. In a run in which nothing waits when a block is rejected, no
orphan is ever stranded.
-/

namespace DnaPow.Ledger

open DnaPow.Std Common Core Action

namespace Blockchain

/-- No block of the orphan pool has its parent in the tree or in the store. -/
def NoStranded (bc : Blockchain) : Prop :=
  ∀ orphan ∈ bc.orphans, bc.blockExists orphan.block.blockdata.prevBlockHash = false

/-- The two maps of the orphan pool agree. -/
structure Pooled (known : Block → Prop) (bc : Blockchain) : Prop where
  listed : ∀ hash, ∀ orphan ∈ bc.prevOrphans hash,
    orphan ∈ bc.orphans ∧ orphan.block.blockdata.prevBlockHash = hash
  linked : ∀ orphan ∈ bc.orphans, orphan ∈ bc.prevOrphans orphan.block.blockdata.prevBlockHash
  isKnown : ∀ orphan ∈ bc.orphans, known orphan.block
  oldest : ∀ orphan ∈ bc.oldestOrphan, known orphan.block

variable {env : Env} {known : Block → Prop} {start bc after : Blockchain} {chain : List Block}
  {block : Block} {orphan : OrphanBlock} {orphans : List OrphanBlock}

/-! ## Taking orphans out -/

theorem mem_orphans_withoutOrphan {other : OrphanBlock} :
    other ∈ (bc.withoutOrphan env orphan).orphans ↔
      other ∈ bc.orphans ∧ other.block.hash env.crypto ≠ orphan.block.hash env.crypto := by
  simp [withoutOrphan, removeOrphanBlock]

theorem mem_prevOrphans_withoutOrphan {hash : Uint256} {other : OrphanBlock} :
    other ∈ (bc.withoutOrphan env orphan).prevOrphans hash ↔
      other ∈ bc.prevOrphans hash ∧ (hash = orphan.block.blockdata.prevBlockHash →
        other.block.hash env.crypto ≠ orphan.block.hash env.crypto) := by
  simp only [withoutOrphan, removeOrphanBlock, run_modify, Function.update_apply]
  split
  · next same =>
    subst same
    simp
  · next differs => simp [differs]

theorem length_withoutOrphan_lt (member : orphan ∈ bc.orphans) :
    (bc.withoutOrphan env orphan).orphans.length < bc.orphans.length :=
  List.length_filter_lt_length_iff_exists.mpr ⟨orphan, member, by simp⟩

/-- Blocks with the same hash have the same parent. -/
def SamePrev (env : Env) (known : Block → Prop) : Prop :=
  ∀ block other, known block → known other → block.hash env.crypto = other.hash env.crypto →
    block.blockdata.prevBlockHash = other.blockdata.prevBlockHash

theorem samePrev_of_admissible (admissible : Admissible env known) : SamePrev env known :=
  fun _ _ => admissible.faithful.prev_eq _ _

theorem Pooled.withoutOrphan (pooled : Pooled known bc) (samePrev : SamePrev env known)
    (isKnown : known orphan.block) : Pooled known (bc.withoutOrphan env orphan) where
  listed hash other member := by
    obtain ⟨member, differs⟩ := mem_prevOrphans_withoutOrphan.mp member
    obtain ⟨listed, prev⟩ := pooled.listed hash other member
    refine ⟨mem_orphans_withoutOrphan.mpr ⟨listed, fun same => ?_⟩, prev⟩
    -- blocks of one hash have one parent, so both are in the list of that parent
    have prevEq : other.block.blockdata.prevBlockHash = orphan.block.blockdata.prevBlockHash :=
      samePrev _ _ (pooled.isKnown other listed) isKnown same
    exact differs (prev.symm.trans prevEq) same
  linked other member := by
    obtain ⟨member, differs⟩ := mem_orphans_withoutOrphan.mp member
    exact mem_prevOrphans_withoutOrphan.mpr ⟨pooled.linked other member, fun _ => differs⟩
  isKnown other member := pooled.isKnown other (mem_orphans_withoutOrphan.mp member).1
  oldest := pooled.oldest

/-! ## Adding an orphan -/

/-- A pool out of which orphans may have been taken. -/
structure Trimmed (known : Block → Prop) (start bc : Blockchain) : Prop where
  pooled : Pooled known bc
  fewer : ∀ orphan ∈ bc.orphans, orphan ∈ start.orphans

/-- The oldest orphan is not part of what the pool consists of. -/
theorem Trimmed.withOldest (trimmed : Trimmed known start bc) {oldest : Option OrphanBlock}
    (isKnown : ∀ orphan ∈ oldest, known orphan.block) :
    Trimmed known start { bc with oldestOrphan := oldest } :=
  ⟨{ trimmed.pooled with oldest := isKnown }, trimmed.fewer⟩

theorem Trimmed.withoutOrphan (trimmed : Trimmed known start bc)
    (samePrev : SamePrev env known) (isKnown : known orphan.block) :
    Trimmed known start (bc.withoutOrphan env orphan) where
  pooled := trimmed.pooled.withoutOrphan samePrev isKnown
  fewer other member := trimmed.fewer other (mem_orphans_withoutOrphan.mp member).1

/-- The oldest orphan is in the pool or is the one remembered. -/
theorem mem_of_findOldest {oldest : Option OrphanBlock} :
    ∀ orphan ∈ findOldest orphans oldest, orphan ∈ orphans ∨ orphan ∈ oldest := by
  unfold findOldest
  induction orphans generalizing oldest with
  | nil => exact fun _ => .inr
  | cons first orphans ih =>
    intro orphan member
    rcases ih orphan member with later | earlier
    · exact .inl (List.mem_cons_of_mem _ later)
    · cases oldest with
      | none =>
        obtain rfl := Option.some.inj earlier
        exact .inl List.mem_cons_self
      | some other =>
        simp only [Option.mem_def] at earlier
        split at earlier
        · obtain rfl := Option.some.inj earlier
          exact .inl List.mem_cons_self
        · exact .inr earlier

theorem insertOrphan_pooled (pooled : Pooled known bc) {now : Int} (isKnown : known block)
    (isNew : ∀ orphan ∈ bc.orphans, orphan.block.hash env.crypto ≠ block.hash env.crypto) :
    (insertOrphan env now block).Ensures bc
      (fun _ after => Pooled known after ∧
        ∀ orphan ∈ after.orphans, orphan ∈ bc.orphans ∨ orphan.block = block)
      (fun _ => False) := by
  simp only [insertOrphan, ensures_modify]
  have unchanged : bc.orphans.filter (·.block.hash env.crypto ≠ block.hash env.crypto) =
      bc.orphans := List.filter_eq_self.mpr fun orphan member => by simpa using isNew orphan member
  rw [unchanged]
  refine ⟨⟨fun hash other member => ?_, fun other member => ?_, fun other member => ?_,
    pooled.oldest⟩, fun other member => ?_⟩
  · simp only [Function.update_apply] at member
    split at member
    · next same =>
      rcases List.mem_append.mp member with old | new
      · rw [same]
        exact ⟨List.mem_append_left _ (pooled.listed _ other old).1,
          (pooled.listed _ other old).2⟩
      · obtain rfl := List.mem_singleton.mp new
        exact ⟨List.mem_append_right _ new, same.symm⟩
    · exact ⟨List.mem_append_left _ (pooled.listed hash other member).1,
        (pooled.listed hash other member).2⟩
  · simp only [Function.update_apply]
    rcases List.mem_append.mp member with old | new
    · split
      · next same => exact List.mem_append_left _ (same ▸ pooled.linked other old)
      · exact pooled.linked other old
    · obtain rfl := List.mem_singleton.mp new
      rw [if_pos rfl]
      exact List.mem_append_right _ new
  · rcases List.mem_append.mp member with old | new
    · exact pooled.isKnown other old
    · obtain rfl := List.mem_singleton.mp new
      exact isKnown
  · rcases List.mem_append.mp member with old | new
    · exact .inl old
    · exact .inr (by rw [List.mem_singleton.mp new])

theorem addOrphanBlock_pooled (samePrev : SamePrev env known) (pooled : Pooled known bc)
    {now : Int} (isKnown : known block)
    (isNew : ∀ orphan ∈ bc.orphans, orphan.block.hash env.crypto ≠ block.hash env.crypto) :
    (addOrphanBlock env now block).Ensures bc
      (fun _ after => Pooled known after ∧
        ∀ orphan ∈ after.orphans, orphan ∈ bc.orphans ∨ orphan.block = block)
      (fun _ => False) := by
  refine addOrphanBlock_rule (Trimmed known bc) (Trimmed known bc) ⟨pooled, fun _ => id⟩ ?_ ?_
    (fun trimmed _ => trimmed) ?_ fun trimmed => ?_
  · intro after orphan member trimmed
    exact (trimmed.withoutOrphan samePrev (pooled.isKnown orphan member)).withOldest
      fun other isOldest => trimmed.pooled.oldest other (Option.mem_filter_iff.mp isOldest).1
  · intro after trimmed
    exact trimmed.withOldest fun orphan member => (mem_of_findOldest orphan member).elim
      (trimmed.pooled.isKnown orphan) (trimmed.pooled.oldest orphan)
  · intro after oldest isOldest trimmed
    exact (trimmed.withoutOrphan samePrev
      (trimmed.pooled.oldest oldest isOldest)).withOldest (by rintro _ ⟨⟩)
  · refine (insertOrphan_pooled trimmed.pooled isKnown fun orphan member =>
      isNew orphan (trimmed.fewer orphan member)).mono (fun _ after inserted => ?_) (fun _ => id)
    exact ⟨inserted.1, fun orphan member => (inserted.2 orphan member).imp_left
      (trimmed.fewer orphan)⟩

/-! ## Accepting and processing -/

/-- Orphans wait at most for the blocks with the given hashes, of all those that the
state keeps. -/
structure Settled (env : Env) (known : Block → Prop) (hashes : List Uint256) (bc : Blockchain) :
    Prop where
  sound : Sound env known bc
  pooled : Pooled known bc
  waiting : ∀ orphan ∈ bc.orphans, bc.Keeps orphan.block.blockdata.prevBlockHash →
    orphan.block.blockdata.prevBlockHash ∈ hashes

/-- Nothing waits when a block is rejected, and the parents of orphans are not
in the cache of side-chain blocks. -/
def orphanTerms (env : Env) : Terms where
  accepting pending bc block := ((maybeAcceptBlock env block).run bc).1.isOk = true ∨
    ∀ orphan ∈ bc.orphans, orphan.block.blockdata.prevBlockHash ∉ pending
  shelving bc block := bc.blockCache block.blockdata.prevBlockHash = none

instance (pending : List Uint256) (bc : Blockchain) (block : Block) :
    Decidable ((orphanTerms env).accepting pending bc block) :=
  inferInstanceAs (Decidable (_ ∨ _))

instance (bc : Blockchain) (block : Block) : Decidable ((orphanTerms env).shelving bc block) :=
  inferInstanceAs (Decidable (_ = none))

/-- If no orphan waits for the given hashes, none waits at all. -/
theorem Settled.finish {hashes : List Uint256} (settled : Settled env known hashes bc)
    (nobody : ∀ orphan ∈ bc.orphans, orphan.block.blockdata.prevBlockHash ∉ hashes) :
    Settled env known [] bc where
  sound := settled.sound
  pooled := settled.pooled
  waiting orphan member keeps := absurd (settled.waiting orphan member keeps) (nobody orphan member)

theorem Settled.withoutOrphan {hashes : List Uint256} (settled : Settled env known hashes bc)
    (admissible : Admissible env known) (isKnown : known orphan.block) :
    Settled env known hashes (bc.withoutOrphan env orphan) := by
  refine ⟨settled.sound.withoutOrphan orphan,
    settled.pooled.withoutOrphan (samePrev_of_admissible admissible) isKnown, ?_⟩
  intro other member keeps
  exact settled.waiting other (mem_orphans_withoutOrphan.mp member).1 keeps

theorem blockExists_keeps {hash : Uint256} (exist : bc.blockExists hash = true) :
    bc.Keeps hash := by
  rcases of_decide_eq_true exist with indexed | stored
  · exact .inl indexed
  · simp only [ChainStore.isBlockInStore] at stored
    split at stored
    · cases stored
    · next found => exact .inr (.inl (by simp [found]))

theorem Settled.noStranded (settled : Settled env known [] bc) : NoStranded bc := by
  intro orphan member
  rw [Bool.eq_false_iff]
  intro exist
  exact List.not_mem_nil (settled.waiting orphan member (blockExists_keeps exist))

/-- Calls that do not touch the pool keep it in order. -/
theorem Confined.pooled {allowed : Uint256 → Prop} (confined : Confined allowed bc after)
    (pooled : Pooled known bc) : Pooled known after := by
  obtain ⟨listed, linked, isKnown, oldest⟩ := pooled
  constructor
  · rw [confined.orphans, confined.prevOrphans]
    exact listed
  · rw [confined.orphans, confined.prevOrphans]
    exact linked
  · rw [confined.orphans]
    exact isKnown
  · rw [confined.oldestOrphan]
    exact oldest

/-- A state is confined to what it keeps. -/
theorem Confined.self (bc : Blockchain) (hash : Uint256) :
    Confined (fun other => bc.Keeps other ∨ other = hash) bc bc :=
  ⟨fun _ entry => .inl (.inl entry), fun _ entry => .inl (.inr (.inl entry)),
    fun _ entry => .inl (.inr (.inr entry)), rfl, rfl, rfl⟩

section Process

variable (admissible : Admissible env known)
include admissible

/-- A stored block is found by `BlockExists`. -/
theorem Invariant.isBlockInStore (invariant : Invariant env known chain bc) {hash : Uint256}
    (stored : (bc.store.header hash).isSome) : bc.store.isBlockInStore hash = true := by
  have branch := invariant.mainChain.branch admissible
  have represents := invariant.mainChain.represents admissible
  obtain ⟨best, tip, -, head, -⟩ := invariant.best
  obtain ⟨rest, rfl⟩ := List.head?_eq_some_iff.mp head
  obtain ⟨trimmed, found⟩ := Option.isSome_iff_exists.mp stored
  have entry := (represents.header _ _).mp found
  obtain ⟨block, member, same⟩ := List.mem_map.mp entry
  obtain ⟨rfl, rfl⟩ := Prod.mk.inj same
  have sane := admissible.sane _ (branch.known_of_mem admissible.genesis _ member)
  have height : block.blockdata.height ≤ tip.blockdata.height := by
    rcases List.mem_cons.mp member with rfl | later
    · exact UInt32.le_refl _
    · exact UInt32.le_of_lt (UInt32.lt_iff_toNat_lt.mpr
        (List.rel_of_pairwise_cons branch.height_lt later))
  simp only [ChainStore.isBlockInStore, found, represents.currentBlockHeight tip rfl,
    decide_eq_true_eq]
  refine ⟨fun none => ?_, height⟩
  have root := sane.root
  rw [none] at root
  cases root

/-- After a block was accepted or rejected, orphans may wait for it too. -/
theorem maybeAcceptBlock_settled {hashes pending : List Uint256}
    (settled : Settled env known hashes bc) (isKnown : known block)
    (among : ∀ hash, hash ∈ hashes ∨ hash = block.hash env.crypto → hash ∈ pending) :
    (maybeAcceptBlock env block).Ensures bc
      (fun _ after => Settled env known pending after ∧ after.orphans = bc.orphans)
      (fun after => Settled env known pending after ∧ after.orphans = bc.orphans) := by
  obtain ⟨chain, invariant⟩ := settled.sound
  have accepted {after : Blockchain} (sound : Sound env known after)
      (confined : Confined (fun hash => bc.Keeps hash ∨ hash = block.hash env.crypto) bc after) :
      Settled env known pending after ∧ after.orphans = bc.orphans := by
    refine ⟨⟨sound, confined.pooled settled.pooled, fun orphan member keeps => ?_⟩,
      confined.orphans⟩
    rw [confined.orphans] at member
    exact among _ ((confined.keeps keeps).imp_left (settled.waiting orphan member))
  exact (maybeAcceptBlock_confined admissible invariant isKnown (.self bc _) (.inr rfl)).mono
    (fun _ _ ends => accepted ends.sound ends.confined)
    (fun _ ends => accepted ends.sound ends.confined)

/-- A block that is accepted on the terms: if it is rejected, nothing waits. -/
theorem accept_onTerms {hashes pending : List Uint256}
    (settled : Settled env known hashes bc) (isKnown : known block)
    (among : ∀ hash, hash ∈ hashes ∨ hash = block.hash env.crypto → hash ∈ pending)
    (onTerms : (orphanTerms env).accepting pending bc block) :
    (maybeAcceptBlock env block).Ensures bc
      (fun _ after => Settled env known pending after ∧ after.orphans = bc.orphans)
      (Settled env known []) := by
  have accepted := maybeAcceptBlock_settled admissible settled isKnown among
  rcases onTerms with returned | nobody
  · exact accepted.of_isOk returned
  · refine accepted.mono (fun _ _ settled => settled) (fun after failed => ?_)
    obtain ⟨settled, same⟩ := failed
    exact settled.finish (same ▸ nobody)

/-- The loop drops a hash or takes an orphan out of the pool in every round, so it
ends with no hash left. -/
theorem processOrphansLoop_settled {fuel : Nat} {hashes : List Uint256}
    (settled : Settled env known hashes bc)
    (enough : hashes.length + 2 * bc.orphans.length ≤ fuel)
    (meets : LoopMeets env (orphanTerms env) fuel hashes bc) :
    (processOrphansLoop env fuel hashes).Ensures bc (fun _ => Settled env known [])
      (Settled env known []) := by
  induction fuel generalizing bc hashes with
  | zero =>
    obtain rfl : hashes = [] := List.length_eq_zero_iff.mp (by omega)
    exact settled
  | succ fuel ih =>
    cases hashes with
    | nil => exact settled
    | cons hash hashes =>
      simp only [processOrphansLoop, ensures_bind, ensures_get]
      rw [LoopMeets] at meets
      split
      · next nobody =>
        simp only [nobody] at meets
        refine ih ⟨settled.sound, settled.pooled, fun orphan member keeps => ?_⟩ ?_ meets
        · have linked := settled.pooled.linked orphan member
          rcases List.mem_cons.mp (settled.waiting orphan member keeps) with same | later
          · rw [same, nobody] at linked
            cases linked
          · exact later
        · rw [List.length_cons] at enough
          omega
      · next orphan others found =>
        simp only [found] at meets
        obtain ⟨onTerms, rest⟩ := meets
        have member : orphan ∈ bc.orphans :=
          (settled.pooled.listed hash orphan (found ▸ List.mem_cons_self)).1
        have isKnown := settled.pooled.isKnown orphan member
        have shorter : (bc.withoutOrphan env orphan).orphans.length < bc.orphans.length :=
          length_withoutOrphan_lt member
        rw [ensures_bind, ensures_removeOrphanBlock, ensures_bind]
        refine ((accept_onTerms admissible (settled.withoutOrphan admissible isKnown) isKnown
          (fun other => ?_) onTerms).and rest).mono (fun _ after accepted => ?_)
          (fun _ failed => failed.1)
        · simp [pendingAfter, or_assoc]
        · obtain ⟨⟨settled, same⟩, meets⟩ := accepted
          refine ih settled ?_ meets
          simp only [same, List.length_append, List.length_cons, List.length_nil] at enough ⊢
          omega

theorem addOrphanBlock_settled (settled : Settled env known [] bc) (isKnown : known block)
    (absent : ∀ orphan ∈ bc.orphans, orphan.block.hash env.crypto ≠ block.hash env.crypto)
    (isOrphan : bc.isOrphan block = true) (onTerms : (orphanTerms env).shelving bc block)
    {now : Int} :
    (addOrphanBlock env now block).Ensures bc (fun _ => Settled env known []) (fun _ => False) := by
  obtain ⟨chain, invariant⟩ := settled.sound
  refine ((addOrphanBlock_pool invariant.orphans fun orphan same => same ▸ isKnown).and
    (addOrphanBlock_pooled (samePrev_of_admissible admissible) settled.pooled isKnown absent)).mono
    (fun _ after added => ?_) (fun _ failed => failed.1)
  obtain ⟨pool, pooled, fewer⟩ := added
  refine ⟨⟨chain, invariant.pool pool⟩, pooled, fun orphan member keeps => ?_⟩
  have keeps : bc.Keeps orphan.block.blockdata.prevBlockHash := by
    rw [pool.same] at keeps
    exact keeps
  rcases fewer orphan member with old | rfl
  · exact settled.waiting orphan old keeps
  · -- the parent of the new orphan is nowhere
    obtain ⟨-, missing⟩ := of_decide_eq_true isOrphan
    obtain ⟨noIndex, noStore⟩ := not_or.mp (of_decide_eq_false missing)
    rcases keeps with indexed | stored | cached
    · exact absurd indexed noIndex
    · exact absurd (invariant.isBlockInStore admissible stored) noStore
    · rw [show bc.blockCache _ = none from onTerms] at cached
      cases cached

theorem processBlock_settled (settled : Settled env known [] bc) {delivery : Delivery}
    (isKnown : Sane env delivery.block → known delivery.block)
    (meets : StepMeets env (orphanTerms env) bc delivery) :
    (processBlock env delivery).Ensures bc (fun _ => Settled env known [])
      (Settled env known []) := by
  simp only [processBlock, ensures_bind, ensures_rejecting, ensures_get, ensures_ite, ensures_pure]
  refine Ends.ensures (((checkArrival_absent bc delivery).and meets.ends).mono
    (fun _ checked passed => ?_) (fun _ _ failed => failed.1.2 ▸ settled) fun _ => id)
  obtain ⟨⟨rfl, sane, -, absent⟩, branches⟩ := passed
  have isKnown := isKnown sane
  refine ⟨fun isOrphan => ?_, fun notOrphan => ?_⟩
  · rw [if_pos isOrphan] at branches
    exact (addOrphanBlock_settled admissible settled isKnown absent isOrphan branches).mono
      (fun _ _ settled => settled) (fun _ => False.elim)
  · rw [if_neg notOrphan] at branches
    obtain ⟨onTerms, rest⟩ := branches
    refine ((accept_onTerms admissible settled isKnown (by simp) onTerms).and rest).mono
      (fun _ accepted passed => ?_) (fun _ failed => failed.1)
    obtain ⟨⟨settled, -⟩, meets⟩ := passed
    simp only [processOrphans, ensures_bind, ensures_get]
    exact processOrphansLoop_settled admissible settled (by simp; omega) meets

end Process

theorem fresh_settled (env : Env) (known : Block → Prop) : Settled env known [] (fresh env) := by
  have invariant := fresh_invariant env known
  have empty : (fresh env).orphans = [] ∧ (fresh env).prevOrphans = (fun _ => []) ∧
      (fresh env).oldestOrphan = none := by
    rw [fresh, newBlockchainWithGenesisBlock_genesis]
    exact ⟨rfl, rfl, rfl⟩
  obtain ⟨orphans, prevOrphans, oldest⟩ := empty
  refine ⟨⟨_, invariant⟩, ⟨?_, ?_, ?_, ?_⟩, ?_⟩
  · simp [prevOrphans]
  · simp [orphans]
  · simp [orphans]
  · simp [oldest]
  · simp [orphans]

/-- In a run in which no orphan waits when a block is rejected, none is stranded. -/
theorem noStranded_of_run (env : Env) (deliveries : List Delivery) (bc : Blockchain)
    (apart : HashesApart env deliveries) (few : deliveries.length + 1 < 2 ^ 32)
    (meets : RunMeets env (orphanTerms env) (fresh env) deliveries)
    (ran : run env deliveries = some bc) : NoStranded bc := by
  have admissible := admissible_delivered apart few
  suffices settled : Settled env (Delivered env deliveries) [] bc from settled.noStranded
  refine run_induction_of_meets (fresh_settled env _) ?_ meets ran
  intro delivery member before after settled stepMeets delivered
  refine of_deliver (processBlock_settled admissible settled (fun sane => ?_) stepMeets) delivered
  exact .inr ⟨⟨delivery, member, rfl⟩, sane⟩

/-- A block on top of the first one. -/
def orphanBlock : Block := Sample.block firstBlock [Sample.coinbase 2 0 5000]

/-- An orphan is accepted after its parent has arrived. -/
theorem noStranded_orphanBlock :
    ∃ bc, run .sample (Sample.deliveries [orphanBlock, firstBlock]) = some bc ∧
      bc.blockExists (orphanBlock.hash Env.sample.crypto) = true ∧ NoStranded bc := by
  have ends : (run .sample (Sample.deliveries [orphanBlock, firstBlock])).map
      (·.blockExists (orphanBlock.hash Env.sample.crypto)) = some true := by decide +kernel
  obtain ⟨bc, ran, exist⟩ := Option.map_eq_some_iff.mp ends
  refine ⟨bc, ran, exist, noStranded_of_run .sample _ bc ⟨?_, ?_, ?_⟩ ?_ ?_ ran⟩ <;>
    decide +kernel

/-- A block on top of the first one with a height that does not fit. -/
def misplacedBlock : Block :=
  { orphanBlock with blockdata := { orphanBlock.blockdata with height := 7 } }

/-- Both orphans wait for the first block. The first of them is rejected, and the
other one is left behind. -/
theorem orphanBlock_stranded :
    ∃ bc, run .sample (Sample.deliveries [misplacedBlock, orphanBlock, firstBlock]) = some bc ∧
      ¬ NoStranded bc := by
  have stranded : (run .sample (Sample.deliveries [misplacedBlock, orphanBlock, firstBlock])).map
      (fun bc => (bc.orphans.map OrphanBlock.block,
        bc.blockExists (firstBlock.hash Env.sample.crypto))) = some ([orphanBlock], true) := by
    decide +kernel
  obtain ⟨bc, ran, stranded⟩ := Option.map_eq_some_iff.mp stranded
  obtain ⟨orphans, exist⟩ := Prod.mk.inj stranded
  refine ⟨bc, ran, fun noStranded => ?_⟩
  obtain ⟨orphan, member, same⟩ := List.mem_map.mp (orphans ▸ List.mem_singleton_self orphanBlock)
  have missing := noStranded orphan member
  rw [same] at missing
  exact Bool.noConfusion (missing.symm.trans exist)

end Blockchain

end DnaPow.Ledger
