import DnaPow.Ledger.OrphanPool
import DnaPow.Std.Machine

/-!
# The slices of the orphan pool

`PrevOrphans` is a map from a hash to a slice of pointers. `RemoveOrphanBlock` shifts
such a slice while it scans it, and `ProcessOrphans` walks over a slice out of which it
takes the entries. This is the level of slices, indices and nil pointers, with the
loop of `ProcessOrphans` as a machine. It does what the lists of `Blockchain` do, so the
slices of every run are in order, and the machine always stops.
-/

namespace DnaPow.Ledger

open DnaPow.Std Common Core Action

/-- A slice of pointers to orphans. -/
abbrev OrphanSlice := List (Option OrphanBlock)

/-- A node with the map `PrevOrphans`. The lists of `bc` are carried along and not read
at this level. -/
structure SliceNode where
  bc : Blockchain
  slices : Uint256 → Option OrphanSlice

abbrev SliceCall (α : Type) := Action LedgerError SliceNode α

namespace SliceNode

/-- A call that does not touch `PrevOrphans`. -/
def onNode {ε α : Type} (call : Action ε Blockchain α) : Action ε SliceNode α where
  run node := ((call.run node.bc).1, { node with bc := (call.run node.bc).2 })

/-! ## The code -/

/-- `copy(orphans[i:], orphans[i+1:])`, with the last entry then set to nil and cut off. -/
def cutAt (i : Nat) (slice : OrphanSlice) : OrphanSlice :=
  let copied := slice.take i ++ slice.drop (i + 1) ++ slice.drop (slice.length - 1)
  (copied.set (slice.length - 1) none).take (slice.length - 1)

theorem cutAt_eq {slice : OrphanSlice} {i : Nat} (bound : i < slice.length) :
    cutAt i slice = slice.take i ++ slice.drop (i + 1) := by
  have length : (slice.take i ++ slice.drop (i + 1)).length = slice.length - 1 := by
    rw [List.length_append, List.length_take, List.length_drop]
    omega
  unfold cutAt
  dsimp only
  rw [List.take_set_of_le (Nat.le_refl _), List.take_left' length]

theorem length_cutAt {slice : OrphanSlice} {i : Nat} (bound : i < slice.length) :
    (cutAt i slice).length = slice.length - 1 := by
  rw [cutAt_eq bound, List.length_append, List.length_take, List.length_drop]
  omega

variable (env : Env)

/-- The loop of `RemoveOrphanBlock` from an index on, or nothing when it meets nil. -/
def removeFrom (hash : Uint256) (i : Nat) (slice : OrphanSlice) : Option OrphanSlice :=
  if bound : i < slice.length then
    match slice[i] with
    | none => none
    | some orphan =>
        if orphan.block.hash env.crypto = hash then removeFrom hash i (cutAt i slice)
        else removeFrom hash (i + 1) slice
  else some slice
termination_by slice.length - i
decreasing_by
  · rw [length_cutAt bound]
    omega
  · omega

/-- `RemoveOrphanBlock`. A slice that becomes empty is deleted from the map. -/
def removeOrphanBlock (orphan : OrphanBlock) : SliceCall Unit := do
  onNode (Blockchain.removeOrphanBlock env orphan)
  let prevHash := orphan.block.blockdata.prevBlockHash
  match removeFrom env (orphan.block.hash env.crypto) 0
      (((← Action.get).slices prevHash).getD []) with
  | none => Action.crash
  | some slice => Action.modify fun node => { node with
      slices := Function.update node.slices prevHash
        (if slice.length = 0 then none else some slice) }

/-- The part of `AddOrphanBlock` that removes orphans whose time has come. -/
def removeExpired : List OrphanBlock → SliceCall Unit
  | [] => pure ()
  | orphan :: orphans => do
      removeOrphanBlock env orphan
      onNode (Action.modify fun bc =>
        { bc with oldestOrphan := bc.oldestOrphan.filter (· ≠ orphan) })
      removeExpired orphans

/-- The part of `AddOrphanBlock` that removes the oldest orphan from a full pool. -/
def makeRoom : SliceCall Unit := do
  let node ← Action.get
  if node.bc.orphans.length + 1 > env.chainParam.maxOrphanBlocks then
    match node.bc.oldestOrphan with
    | none => Action.crash
    | some oldest => do
        removeOrphanBlock env oldest
        onNode (Action.modify fun bc => { bc with oldestOrphan := none })
  else pure ()

/-- The part of `AddOrphanBlock` that puts the block into the pool. -/
def insertOrphan (now : Int) (block : Block) : SliceCall Unit := do
  let orphan := ⟨(← Action.get).bc.orphanCount, block, now + Blockchain.orphanLifetime⟩
  let prevHash := block.blockdata.prevBlockHash
  onNode (Blockchain.insertOrphan env now block)
  Action.modify fun node => { node with
    slices := Function.update node.slices prevHash
      (some ((node.slices prevHash).getD [] ++ [some orphan])) }

/-- `AddOrphanBlock`, at the given time. -/
def addOrphanBlock (now : Int) (block : Block) : SliceCall Unit := do
  let node ← Action.get
  removeExpired env (node.bc.orphans.filter fun orphan => orphan.expiration < now)
  onNode (Action.modify fun bc =>
    { bc with oldestOrphan := Blockchain.findOldest bc.orphans bc.oldestOrphan })
  makeRoom env
  insertOrphan env now block

end SliceNode

/-- Where `ProcessOrphans` is. -/
inductive OrphanPoint where
  /-- At an index of the slice of the first hash, with the other hashes still to come. -/
  | going (processHashes : List Uint256) (i : Nat) (node : SliceNode)
  | stopped (result : Outcome LedgerError Unit) (node : SliceNode)

namespace SliceNode

variable (env : Env)

/-- Take an orphan out of the pool and hand it to `maybeAcceptBlock`. -/
def acceptOrphan (orphan : OrphanBlock) : SliceCall Unit := do
  removeOrphanBlock env orphan
  let _ ← onNode (Blockchain.maybeAcceptBlock env orphan.block)

/-- Where `ProcessOrphans` goes on after it has handed over an orphan. -/
def goOn (processHashes : List Uint256) (i : Nat) :
    Outcome LedgerError Unit × SliceNode → OrphanPoint
  | (.ok _, node) => .going processHashes i node
  | (.error reason, node) => .stopped (.error reason) node
  | (.panic, node) => .stopped .panic node

/-- One turn of the loops of `ProcessOrphans`, with the orphan that it hands to
`maybeAcceptBlock`. -/
def orphanTurn : Machine OrphanPoint (Option OrphanBlock)
  | .stopped _ _ => none
  | .going [] _ node => some (none, .stopped (.ok ()) node)
  | .going (processHash :: processHashes) i node =>
      match ((node.slices processHash).getD [])[i]? with
      | none => some (none, .going processHashes 0 node)
      | some none => some (none, .going (processHash :: processHashes) (i + 1) node)
      | some (some orphan) =>
          -- the index goes down by one and up again
          some (some orphan, goOn (processHash :: processHashes ++ [orphan.block.hash env.crypto]) i
            ((acceptOrphan env orphan).run node))

/-- What a call has done when it is at a point. -/
def reached : OrphanPoint → Outcome LedgerError Unit × SliceNode
  | .going _ _ node => (.ok (), node)
  | .stopped result node => (result, node)

/-- `ProcessOrphans`. The number of turns is enough, see `processOrphans_stops`. -/
def processOrphans (hash : Uint256) : SliceCall Unit where
  run node :=
    reached ((orphanTurn env).advance (2 * node.bc.orphans.length + 2) (.going [hash] 0 node))

/-- Return the given flags with an error. -/
def rejecting {α : Type} (inMainChain isOrphan : Bool) (call : SliceCall α) :
    Action Rejection SliceNode α where
  run node :=
    match call.run node with
    | (.ok value, after) => (.ok value, after)
    | (.error reason, after) => (.error ⟨inMainChain, isOrphan, reason⟩, after)
    | (.panic, after) => (.panic, after)

/-- `ProcessBlock`. -/
def processBlock (delivery : Delivery) : Action Rejection SliceNode (Bool × Bool) := do
  let block := delivery.block
  rejecting false false (onNode (Blockchain.checkArrival env delivery))
  if (← Action.get).bc.isOrphan block then do
    rejecting false false (addOrphanBlock env delivery.now block)
    return (false, true)
  else do
    let inMainChain ← rejecting false true (onNode (Blockchain.maybeAcceptBlock env block))
    rejecting false false (processOrphans env (block.hash env.crypto))
    return (inMainChain, false)

/-- The node after a delivery, if it does not panic. -/
def deliver (node : SliceNode) (delivery : Delivery) : Option SliceNode :=
  match (processBlock env delivery).run node with
  | (.panic, _) => none
  | (_, after) => some after

/-- Deliver blocks one after the other, starting from a fresh node. -/
def run (deliveries : List Delivery) : Option SliceNode :=
  deliveries.foldlM (deliver env) ⟨Blockchain.fresh env, fun _ => none⟩

/-! ## The lists that the slices stand for -/

/-- The entry of the map for a list: none for the empty list, and no nil. -/
def slice : List OrphanBlock → Option OrphanSlice
  | [] => none
  | orphans => some (orphans.map some)

/-- The node whose slices stand for the lists of the given one. -/
def ofLists (bc : Blockchain) : SliceNode := ⟨bc, fun hash => slice (bc.prevOrphans hash)⟩

theorem slice_getD (orphans : List OrphanBlock) : (slice orphans).getD [] = orphans.map some := by
  cases orphans <;> rfl

theorem slice_eq (orphans : List OrphanBlock) :
    slice orphans = if (orphans.map some).length = 0 then none else some (orphans.map some) := by
  cases orphans <;> rfl

/-- What a call on slices ends with when the call on lists ends as given. -/
def lifted {ε α : Type} (ending : Outcome ε α × Blockchain) : Outcome ε α × SliceNode :=
  (ending.1, ofLists ending.2)

/-- A call on slices does what a call on lists does. -/
def Mirrors {ε α : Type} (sliceCall : Action ε SliceNode α) (call : Action ε Blockchain α) : Prop :=
  ∀ bc, sliceCall.run (ofLists bc) = lifted (call.run bc)

section Mirrors

variable {env : Env} {ε α β : Type}

theorem Mirrors.pure (value : α) :
    Mirrors (Pure.pure value : Action ε SliceNode α) (Pure.pure value) := fun _ => rfl

theorem Mirrors.bind {sliceCall : Action ε SliceNode α} {call : Action ε Blockchain α}
    {sliceNext : α → Action ε SliceNode β} {next : α → Action ε Blockchain β}
    (first : Mirrors sliceCall call) (rest : ∀ value, Mirrors (sliceNext value) (next value)) :
    Mirrors (sliceCall >>= sliceNext) (call >>= next) := by
  intro bc
  rw [run_bind, run_bind, first bc]
  generalize call.run bc = ending
  obtain ⟨result, after⟩ := ending
  cases result with
  | ok value => exact rest value after
  | error reason => rfl
  | panic => rfl

/-- A read on both levels. -/
theorem Mirrors.read {sliceNext : SliceNode → Action ε SliceNode β}
    {next : Blockchain → Action ε Blockchain β}
    (rest : ∀ bc, Mirrors (sliceNext (ofLists bc)) (next bc)) :
    Mirrors (Action.get >>= sliceNext) (Action.get >>= next) := fun bc => rest bc bc

theorem Mirrors.crash : Mirrors (Action.crash : Action ε SliceNode α) Action.crash := fun _ => rfl

theorem Mirrors.ite {condition : Prop} [Decidable condition]
    {sliceThen sliceElse : Action ε SliceNode α} {thenCall elseCall : Action ε Blockchain α}
    (ifTrue : Mirrors sliceThen thenCall) (ifFalse : Mirrors sliceElse elseCall) :
    Mirrors (if condition then sliceThen else sliceElse)
      (if condition then thenCall else elseCall) := by
  split
  · exact ifTrue
  · exact ifFalse

/-- A call that leaves the lists alone leaves the slices alone. -/
theorem Mirrors.onNode {call : Action ε Blockchain α} (keeps : call.Keeps Blockchain.prevOrphans) :
    Mirrors (onNode call) call := by
  intro bc
  have kept := keeps bc
  simp only [SliceNode.onNode, lifted, ofLists]
  rw [kept]

theorem Mirrors.rejecting {inMainChain isOrphan : Bool} {sliceCall : SliceCall α}
    {call : Action LedgerError Blockchain α} (mirrors : Mirrors sliceCall call) :
    Mirrors (rejecting inMainChain isOrphan sliceCall)
      (Blockchain.rejecting inMainChain isOrphan call) := by
  intro bc
  simp only [SliceNode.rejecting, Blockchain.rejecting, mirrors bc]
  generalize call.run bc = ending
  obtain ⟨result, after⟩ := ending
  cases result <;> rfl

/-- Scanning a slice without nil drops the entries with the given hash. -/
theorem removeFrom_eq (hash : Uint256) (kept orphans : List OrphanBlock) :
    removeFrom env hash kept.length ((kept ++ orphans).map some) =
      some ((kept ++ orphans.filter (·.block.hash env.crypto ≠ hash)).map some) := by
  induction orphans generalizing kept with
  | nil =>
    rw [removeFrom, dif_neg (by simp)]
    rfl
  | cons orphan orphans ih =>
    have bound : kept.length < ((kept ++ orphan :: orphans).map some).length := by simp
    have entry : ((kept ++ orphan :: orphans).map some)[kept.length] = some orphan := by simp
    rw [removeFrom, dif_pos bound, entry]
    dsimp only
    split
    · next same =>
      have cut : cutAt kept.length ((kept ++ orphan :: orphans).map some) =
          (kept ++ orphans).map some := by
        rw [cutAt_eq bound]
        simp [List.drop_append]
      rw [cut, ih, List.filter_cons_of_neg (by simp [same])]
    · next differs =>
      have next := ih (kept ++ [orphan])
      rw [List.append_assoc, List.singleton_append, List.length_append] at next
      rw [List.filter_cons_of_pos (by simp [differs])]
      rw [List.append_assoc] at next
      exact next

theorem update_slice (lists : Uint256 → List OrphanBlock) (hash : Uint256)
    (orphans : List OrphanBlock) :
    Function.update (fun hash => slice (lists hash)) hash (slice orphans) =
      fun other => slice (Function.update lists hash orphans other) := by
  funext other
  simp only [Function.update_apply]
  split <;> rfl

theorem removeOrphanBlock_mirrors (orphan : OrphanBlock) :
    Mirrors (removeOrphanBlock env orphan) (Blockchain.removeOrphanBlock env orphan) := by
  intro bc
  have scanned := @removeFrom_eq env (orphan.block.hash env.crypto) []
    (bc.prevOrphans orphan.block.blockdata.prevBlockHash)
  rw [List.nil_append, List.length_nil, List.nil_append] at scanned
  have read : (slice (bc.prevOrphans orphan.block.blockdata.prevBlockHash)).getD [] = _ :=
    slice_getD _
  simp only [removeOrphanBlock, run_bind, SliceNode.onNode, ofLists, run_get,
    Blockchain.removeOrphanBlock, run_modify, read, scanned]
  rw [← slice_eq, update_slice]
  rfl

theorem removeExpired_mirrors (orphans : List OrphanBlock) :
    Mirrors (removeExpired env orphans) (Blockchain.removeExpired env orphans) := by
  induction orphans with
  | nil => exact .pure ()
  | cons orphan orphans ih =>
    apply (removeOrphanBlock_mirrors orphan).bind
    intro _
    exact Mirrors.bind (.onNode (keeps_modify fun _ => rfl)) fun _ => ih

theorem makeRoom_mirrors : Mirrors (makeRoom env) (Blockchain.makeRoom env) := by
  apply Mirrors.read
  intro bc
  apply Mirrors.ite _ (.pure ())
  dsimp only [ofLists]
  cases bc.oldestOrphan with
  | none => exact .crash
  | some oldest =>
    apply (removeOrphanBlock_mirrors oldest).bind
    intro _
    exact .onNode (keeps_modify fun _ => rfl)

theorem insertOrphan_mirrors (now : Int) (block : Block) :
    Mirrors (insertOrphan env now block) (Blockchain.insertOrphan env now block) := by
  intro bc
  have appended (orphan : OrphanBlock) (orphans : List OrphanBlock) :
      some (orphans.map some ++ [some orphan]) = slice (orphans ++ [orphan]) := by
    rw [slice_eq, if_neg (by simp), List.map_append]
    rfl
  have read : (slice (bc.prevOrphans block.blockdata.prevBlockHash)).getD [] = _ := slice_getD _
  simp only [insertOrphan, run_bind, SliceNode.onNode, ofLists, run_get, Blockchain.insertOrphan,
    run_modify, read, appended]
  rw [update_slice]
  rfl

theorem addOrphanBlock_mirrors (now : Int) (block : Block) :
    Mirrors (addOrphanBlock env now block) (Blockchain.addOrphanBlock env now block) := by
  apply Mirrors.read
  intro bc
  apply (removeExpired_mirrors _).bind
  intro _
  refine Mirrors.bind (.onNode (keeps_modify fun _ => rfl)) fun _ => ?_
  exact makeRoom_mirrors.bind fun _ => insertOrphan_mirrors now block

theorem maybeAcceptBlock_mirrors (block : Block) :
    Mirrors (onNode (Blockchain.maybeAcceptBlock env block))
      (Blockchain.maybeAcceptBlock env block) :=
  .onNode ((Blockchain.maybeAcceptBlock_keeps block).map fun kept => kept.2.prevOrphans)

end Mirrors

/-! ## The turns of `ProcessOrphans` -/

section Turns

variable {env : Env} {bc : Blockchain} {hash : Uint256} {hashes : List Uint256}
  {orphan : OrphanBlock} {others : List OrphanBlock}

theorem orphanTurn_going_ne_none (hashes : List Uint256) (i : Nat) (node : SliceNode) :
    orphanTurn env (.going hashes i node) ≠ none := by
  cases hashes with
  | nil => exact Option.some_ne_none _
  | cons hash hashes =>
    rw [orphanTurn]
    split <;> exact Option.some_ne_none _

/-- At a hash that no orphan waits for. -/
theorem orphanTurn_next (nobody : bc.prevOrphans hash = []) :
    orphanTurn env (.going (hash :: hashes) 0 (ofLists bc)) =
      some (none, .going hashes 0 (ofLists bc)) := by
  simp only [orphanTurn, ofLists, nobody]
  rfl

/-- The call on lists that `acceptOrphan` mirrors. -/
def acceptListed (env : Env) (orphan : OrphanBlock) : Action LedgerError Blockchain Unit := do
  Blockchain.removeOrphanBlock env orphan
  let _ ← Blockchain.maybeAcceptBlock env orphan.block

/-- At a hash that an orphan waits for. -/
theorem orphanTurn_accept (found : bc.prevOrphans hash = orphan :: others) :
    orphanTurn env (.going (hash :: hashes) 0 (ofLists bc)) = some (some orphan,
      goOn (hash :: hashes ++ [orphan.block.hash env.crypto]) 0
        (lifted ((acceptListed env orphan).run bc))) := by
  have entry : (((ofLists bc).slices hash).getD [])[0]? = some (some orphan) := by
    simp only [ofLists, found]
    rfl
  have accepted : Mirrors (acceptOrphan env orphan) (acceptListed env orphan) := by
    apply (removeOrphanBlock_mirrors orphan).bind
    intro _
    exact (maybeAcceptBlock_mirrors orphan.block).bind fun _ => .pure ()
  simp only [orphanTurn, entry, accepted bc]

theorem acceptListed_bind {β : Type} (next : Action LedgerError Blockchain β) :
    (acceptListed env orphan >>= fun _ => next).run bc = (do
      Blockchain.removeOrphanBlock env orphan
      let _ ← Blockchain.maybeAcceptBlock env orphan.block
      next).run bc := by
  simp only [acceptListed, run_bind, Blockchain.removeOrphanBlock, run_modify]
  generalize (Blockchain.maybeAcceptBlock env orphan.block).run _ = ending
  obtain ⟨result, after⟩ := ending
  cases result <;> rfl

/-- The machine does what the loop over lists does, turn by turn. -/
theorem advance_eq (fuel : Nat) :
    reached ((orphanTurn env).advance fuel (.going hashes 0 (ofLists bc))) =
      lifted ((Blockchain.processOrphansLoop env fuel hashes).run bc) := by
  induction fuel generalizing bc hashes with
  | zero => rfl
  | succ fuel ih =>
    cases hashes with
    | nil =>
      rw [Machine.advance, orphanTurn]
      dsimp only
      rw [Machine.advance_of_stopped rfl]
      rfl
    | cons hash hashes =>
      rw [Blockchain.processOrphansLoop, run_bind, run_get, Machine.advance]
      dsimp only
      cases found : bc.prevOrphans hash with
      | nil =>
        rw [orphanTurn_next found]
        exact ih
      | cons orphan others =>
        rw [orphanTurn_accept found]
        dsimp only
        rw [← acceptListed_bind, run_bind]
        generalize (acceptListed env orphan).run bc = ending
        obtain ⟨result, after⟩ := ending
        cases result with
        | ok value => exact ih
        | error reason =>
          rw [Machine.advance_of_stopped rfl]
          rfl
        | panic =>
          rw [Machine.advance_of_stopped rfl]
          rfl

theorem processOrphans_mirrors (hash : Uint256) :
    Mirrors (processOrphans env hash) (Blockchain.processOrphans env hash) :=
  fun _ => advance_eq _

theorem processBlock_mirrors (delivery : Delivery) :
    Mirrors (processBlock env delivery) (Blockchain.processBlock env delivery) := by
  have arrival : (Blockchain.checkArrival env delivery).Keeps Blockchain.prevOrphans :=
    .read fun _ => .ite keeps_throw (.ite keeps_throw keeps_check)
  apply Mirrors.bind (.rejecting (.onNode arrival))
  intro _
  apply Mirrors.read
  intro bc
  apply Mirrors.ite
  · exact Mirrors.bind (.rejecting (addOrphanBlock_mirrors _ _)) fun _ => .pure _
  · apply Mirrors.bind (.rejecting (maybeAcceptBlock_mirrors _))
    intro _
    exact Mirrors.bind (.rejecting (processOrphans_mirrors _)) fun _ => .pure _

/-- A run on slices is a run on lists, and its slices stand for the lists. -/
theorem run_eq (env : Env) (deliveries : List Delivery) :
    run env deliveries = (Blockchain.run env deliveries).map ofLists := by
  have start : (⟨Blockchain.fresh env, fun _ => none⟩ : SliceNode) =
      ofLists (Blockchain.fresh env) := by
    obtain ⟨-, prevOrphans, -⟩ := Blockchain.Pool.mk.inj (Blockchain.fresh_pool env)
    simp only [ofLists, prevOrphans]
    rfl
  rw [run, Blockchain.run, start]
  generalize Blockchain.fresh env = bc
  induction deliveries generalizing bc with
  | nil => rfl
  | cons delivery deliveries ih =>
    have step : deliver env (ofLists bc) delivery =
        (Blockchain.deliver env bc delivery).map ofLists := by
      rw [deliver, Blockchain.deliver, processBlock_mirrors delivery bc]
      generalize (Blockchain.processBlock env delivery).run bc = ending
      obtain ⟨result, after⟩ := ending
      cases result <;> rfl
    rw [List.foldlM_cons, List.foldlM_cons, step]
    cases Blockchain.deliver env bc delivery with
    | none => rfl
    | some after => exact ih after

/-- The orphans among the events of turns. -/
def handed (events : List (Option OrphanBlock)) : List OrphanBlock := events.filterMap id

variable {known : Block → Prop} {point next : OrphanPoint} {event : Option OrphanBlock}

/-- `ProcessOrphans` at the start of a slice of a pool in order, or at its end. -/
def Regular (env : Env) (known : Block → Prop) : OrphanPoint → Prop
  | .going _ i node => i = 0 ∧ ∃ bc, node = ofLists bc ∧ Blockchain.Orderly env known bc
  | .stopped _ _ => True

/-- The orphans that are in the pool. -/
def waiting : OrphanPoint → List OrphanBlock
  | .going _ _ node => node.bc.orphans
  | .stopped _ node => node.bc.orphans

/-- A bound for the number of turns that are left. -/
def turnsLeft : OrphanPoint → Nat
  | .going hashes _ node => hashes.length + 2 * node.bc.orphans.length + 1
  | .stopped _ _ => 0

/-- What a turn does: it ends the call, drops a hash, or takes one orphan out of the
pool. -/
inductive TurnsTo (env : Env) (known : Block → Prop) :
    OrphanPoint → Option OrphanBlock → OrphanPoint → Prop
  | done {i : Nat} {node : SliceNode} :
      TurnsTo env known (.going [] i node) none (.stopped (.ok ()) node)
  | next {hash : Uint256} {hashes : List Uint256} {bc : Blockchain}
      (orderly : Blockchain.Orderly env known bc) :
      TurnsTo env known (.going (hash :: hashes) 0 (ofLists bc)) none (.going hashes 0 (ofLists bc))
  | accept {hash : Uint256} {hashes : List Uint256} {bc after : Blockchain} {orphan : OrphanBlock}
      {result : Outcome LedgerError Unit} (member : orphan ∈ bc.orphans)
      (pool : after.pool = (bc.withoutOrphan env orphan).pool)
      (orderly : Blockchain.Orderly env known after) :
      TurnsTo env known (.going (hash :: hashes) 0 (ofLists bc)) (some orphan)
        (goOn (hash :: hashes ++ [orphan.block.hash env.crypto]) 0 (result, ofLists after))

theorem acceptListed_pool (orphan : OrphanBlock) (bc : Blockchain) :
    ((acceptListed env orphan).run bc).2.pool = (bc.withoutOrphan env orphan).pool := by
  have kept := (@Blockchain.maybeAcceptBlock_keeps env orphan.block).map Prod.snd
  exact kept.bind (fun _ => keeps_pure) (bc.withoutOrphan env orphan)

theorem turnsTo_of_orphanTurn (samePrev : Blockchain.SamePrev env known)
    (regular : Regular env known point)
    (turn : orphanTurn env point = some (event, next)) : TurnsTo env known point event next := by
  cases point with
  | stopped result node => cases turn
  | going hashes i node =>
    obtain ⟨rfl, bc, rfl, orderly⟩ := regular
    cases hashes with
    | nil =>
      obtain ⟨rfl, rfl⟩ := Prod.mk.inj (Option.some.inj turn)
      exact .done
    | cons hash hashes =>
      cases found : bc.prevOrphans hash with
      | nil =>
        rw [orphanTurn_next found] at turn
        obtain ⟨rfl, rfl⟩ := Prod.mk.inj (Option.some.inj turn)
        exact .next orderly
      | cons orphan others =>
        rw [orphanTurn_accept found] at turn
        obtain ⟨rfl, rfl⟩ := Prod.mk.inj (Option.some.inj turn)
        have member := (orderly.listed hash orphan (found ▸ List.mem_cons_self)).1
        have pool := @acceptListed_pool env orphan bc
        have removed := orderly.withoutOrphan samePrev (orderly.isKnown orphan member)
        exact .accept member pool (removed.of_pool pool)

theorem TurnsTo.regular (turn : TurnsTo env known point event next) : Regular env known next := by
  cases turn with
  | done => exact True.intro
  | next orderly => exact ⟨rfl, _, rfl, orderly⟩
  | @accept _ _ _ after _ result _ _ orderly =>
    cases result with
    | ok value => exact ⟨rfl, after, rfl, orderly⟩
    | error reason => exact True.intro
    | panic => exact True.intro

theorem TurnsTo.turnsLeft_lt (turn : TurnsTo env known point event next)
    : turnsLeft next < turnsLeft point := by
  cases turn with
  | done => exact Nat.succ_pos _
  | next => simp only [turnsLeft, List.length_cons]; omega
  | @accept hash hashes bc after orphan result member pool =>
    have shorter := @Blockchain.length_withoutOrphan_lt env bc orphan member
    have same : after.orphans = (bc.withoutOrphan env orphan).orphans :=
      congrArg Blockchain.Pool.orphans pool
    cases result with
    | ok value =>
      simp only [goOn, turnsLeft, ofLists, List.length_append, List.length_cons,
        List.length_nil, same]
      omega
    | error reason => exact Nat.succ_pos _
    | panic => exact Nat.succ_pos _

/-- A turn keeps in the pool what it does not hand over. -/
theorem TurnsTo.waiting_sub (turn : TurnsTo env known point event next) :
    (∀ orphan ∈ waiting next, orphan ∈ waiting point ∧
      ∀ other ∈ event, orphan.block.hash env.crypto ≠ other.block.hash env.crypto) ∧
      ∀ other ∈ event, other ∈ waiting point := by
  cases turn with
  | done => exact ⟨fun orphan member => ⟨member, nofun⟩, nofun⟩
  | next => exact ⟨fun orphan member => ⟨member, nofun⟩, nofun⟩
  | @accept hash hashes bc after orphan result member pool =>
    have same : after.orphans = (bc.withoutOrphan env orphan).orphans :=
      congrArg Blockchain.Pool.orphans pool
    have left : waiting (goOn (hash :: hashes ++ [orphan.block.hash env.crypto]) 0
        (result, ofLists after)) = (bc.withoutOrphan env orphan).orphans := by
      rw [← same]
      cases result <;> rfl
    rw [left]
    constructor
    · intro other otherMember
      obtain ⟨before, differs⟩ := Blockchain.mem_orphans_withoutOrphan.mp otherMember
      refine ⟨before, fun taken isTaken => ?_⟩
      obtain rfl := Option.some.inj isTaken
      exact differs
    · intro taken isTaken
      obtain rfl := Option.some.inj isTaken
      exact member

section Steps

variable (samePrev : Blockchain.SamePrev env known)
include samePrev

/-- The orphans handed over were waiting, and none is handed over twice. -/
theorem handed_nodup {point final : OrphanPoint} {events : List (Option OrphanBlock)}
    (steps : (orphanTurn env).Steps point events final) (regular : Regular env known point) :
    ((handed events).map (·.block.hash env.crypto)).Nodup ∧
      ∀ orphan ∈ handed events, orphan ∈ waiting point := by
  induction steps with
  | refl => exact ⟨List.nodup_nil, nofun⟩
  | @step point next final event events first rest ih =>
    have turn := turnsTo_of_orphanTurn samePrev regular first
    obtain ⟨later, now⟩ := turn.waiting_sub
    obtain ⟨nodup, among⟩ := ih turn.regular
    have earlier (orphan : OrphanBlock) (member : orphan ∈ handed events) :=
      later orphan (among orphan member)
    cases event with
    | none => exact ⟨nodup, fun orphan member => (earlier orphan member).1⟩
    | some taken =>
      constructor
      · refine List.nodup_cons.mpr ⟨fun again => ?_, nodup⟩
        obtain ⟨orphan, member, same⟩ := List.mem_map.mp again
        exact (earlier orphan member).2 taken rfl same
      · intro orphan member
        rcases List.mem_cons.mp member with rfl | member
        · exact now orphan rfl
        · exact (earlier orphan member).1

/-- `ProcessOrphans` ends, after no more turns than `processOrphans` makes. -/
theorem processOrphans_stops {bc : Blockchain} (orderly : Blockchain.Orderly env known bc)
    (hash : Uint256) :
    ∃ events result after,
      (orphanTurn env).Steps (.going [hash] 0 (ofLists bc)) events (.stopped result after) ∧
      (processOrphans env hash).run (ofLists bc) = (result, after) := by
  have start : Regular env known (.going [hash] 0 (ofLists bc)) := ⟨rfl, bc, rfl, orderly⟩
  have decreases {point next : OrphanPoint} {event : Option OrphanBlock}
      (regular : Regular env known point) (turn : orphanTurn env point = some (event, next)) :
      Regular env known next ∧ turnsLeft next < turnsLeft point := by
    have turns := turnsTo_of_orphanTurn samePrev regular turn
    exact ⟨turns.regular, turns.turnsLeft_lt⟩
  obtain ⟨events, final, steps, stopped⟩ :=
    Machine.exists_stop_of_decreasing turnsLeft decreases start
  have enough : events.length ≤ 2 * bc.orphans.length + 2 := by
    have few := steps.length_le turnsLeft decreases start
    simp only [turnsLeft, ofLists, List.length_singleton] at few
    omega
  cases final with
  | going hashes i node => exact absurd stopped (orphanTurn_going_ne_none hashes i node)
  | stopped result after =>
    refine ⟨events, result, after, steps, ?_⟩
    have atEnd := steps.advance_eq stopped enough
    exact congrArg reached atEnd

end Steps

end Turns

/-! ## Runs -/

/-- `Orphans` and the slices of `PrevOrphans` hold the same orphans: each one once, in the
slice of its parent. No slice is empty or holds nil. -/
structure IndexesAgree (env : Env) (node : SliceNode) : Prop where
  listed : ∀ hash slice, node.slices hash = some slice → ∀ entry ∈ slice,
    ∃ orphan ∈ node.bc.orphans, entry = some orphan ∧ orphan.block.blockdata.prevBlockHash = hash
  linked : ∀ orphan ∈ node.bc.orphans,
    ∃ slice, node.slices orphan.block.blockdata.prevBlockHash = some slice ∧ some orphan ∈ slice
  distinct : (node.bc.orphans.map (·.block.hash env.crypto)).Nodup
  once : ∀ hash slice, node.slices hash = some slice → slice.Nodup
  nonempty : ∀ hash slice, node.slices hash = some slice → slice ≠ []

theorem slice_eq_some {orphans : List OrphanBlock} {entries : OrphanSlice}
    (found : slice orphans = some entries) : entries = orphans.map some ∧ orphans ≠ [] := by
  cases orphans with
  | nil => cases found
  | cons orphan orphans => exact ⟨(Option.some.inj found).symm, List.cons_ne_nil _ _⟩

theorem indexesAgree_of_orderly {env : Env} {known : Block → Prop} {bc : Blockchain}
    (orderly : Blockchain.Orderly env known bc) : IndexesAgree env (ofLists bc) where
  listed hash entries found entry member := by
    obtain ⟨rfl, -⟩ := slice_eq_some found
    obtain ⟨orphan, listed, rfl⟩ := List.mem_map.mp member
    obtain ⟨inPool, prev⟩ := orderly.listed hash orphan listed
    exact ⟨orphan, inPool, rfl, prev⟩
  linked orphan member := by
    have linked := orderly.linked orphan member
    refine ⟨_, ?_, List.mem_map_of_mem linked⟩
    simp only [ofLists]
    rw [slice_eq, if_neg]
    rw [List.length_map]
    exact List.length_pos_of_mem linked |>.ne'
  distinct := orderly.distinct
  once hash entries found := by
    obtain ⟨rfl, -⟩ := slice_eq_some found
    exact (orderly.once hash).map (Option.some_injective _)
  nonempty hash entries found := by
    obtain ⟨rfl, nonempty⟩ := slice_eq_some found
    exact fun empty => nonempty (List.map_eq_nil_iff.mp empty)

/-- The indexes of the orphan pool agree in every state that a run reaches, and from there
`ProcessOrphans` ends for every hash and hands over no orphan twice. -/
theorem orphanIndexes_agree (env : Env) (deliveries : List Delivery) (node : SliceNode)
    (apart : HashesApart env deliveries) (ran : run env deliveries = some node) :
    IndexesAgree env node ∧ ∀ hash, ∃ events result after,
      (orphanTurn env).Steps (.going [hash] 0 node) events (.stopped result after) ∧
      (processOrphans env hash).run node = (result, after) ∧
      ((handed events).map (·.block.hash env.crypto)).Nodup := by
  rw [run_eq] at ran
  obtain ⟨bc, ranLists, rfl⟩ := Option.map_eq_some_iff.mp ran
  have samePrev := Blockchain.samePrev_delivered apart
  have orderly : Blockchain.Orderly env (Delivered env deliveries) bc :=
    (Blockchain.orderly_rule samePrev).run (Blockchain.fresh_orderly env _)
      (Blockchain.runMeets_of_forall (fun _ _ _ => True.intro) fun _ _ => True.intro) ranLists
  refine ⟨indexesAgree_of_orderly orderly, fun hash => ?_⟩
  obtain ⟨events, result, after, steps, returned⟩ := processOrphans_stops samePrev orderly hash
  exact ⟨events, result, after, steps, returned,
    (handed_nodup samePrev steps ⟨rfl, bc, rfl, orderly⟩).1⟩

/-- Two orphans that wait for one block. -/
theorem orphanIndexes_twoWaiting :
    ∃ node, run .sample (Sample.deliveries [Blockchain.misplacedBlock, Blockchain.orphanBlock]) =
        some node ∧
      node.bc.orphans.map OrphanBlock.block = [Blockchain.misplacedBlock, Blockchain.orphanBlock] ∧
      IndexesAgree .sample node ∧ ∀ hash, ∃ events result after,
        (orphanTurn .sample).Steps (.going [hash] 0 node) events (.stopped result after) ∧
        (processOrphans .sample hash).run node = (result, after) ∧
        ((handed events).map (·.block.hash Env.sample.crypto)).Nodup := by
  have ends : (Blockchain.run .sample (Sample.deliveries
      [Blockchain.misplacedBlock, Blockchain.orphanBlock])).map (·.orphans.map OrphanBlock.block) =
        some [Blockchain.misplacedBlock, Blockchain.orphanBlock] := by decide +kernel
  obtain ⟨bc, ran, orphans⟩ := Option.map_eq_some_iff.mp ends
  have ranSlices : run .sample (Sample.deliveries
      [Blockchain.misplacedBlock, Blockchain.orphanBlock]) = some (ofLists bc) := by
    rw [run_eq, ran]
    rfl
  refine ⟨ofLists bc, ranSlices, orphans, orphanIndexes_agree .sample _ _ ⟨?_, ?_, ?_⟩ ranSlices⟩
    <;> decide +kernel

end SliceNode

end DnaPow.Ledger
