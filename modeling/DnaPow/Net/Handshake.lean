import Mathlib.Logic.Function.Basic

/-!
# The handshake and the neighbour table

Each message is handled in a goroutine of its own, so any number of
`version.Handle` and `verACK.Handle` calls run at the same time. A schedule
interleaves their atomic steps: reading a state, setting a state, `DelNbrNode`,
`UpdateInfo` and `AddNbrNode`.

A connection is live from the end of its `version` handler on. Live connections
are registered under their id as long as no two handlers work on one connection
or for one peer at the same time, except in the moment in which a reconnecting
peer has been taken out of the table and the old connection is not yet
invalidated.
-/

namespace DnaPow.Net

/-- The states of a connection. -/
inductive NodeState where
  | init
  | hand
  | handshake
  | handshaked
  | establish
  | inactivity
  deriving DecidableEq

/-- The handshake has got a `version` message and the connection is in use. -/
def NodeState.Live (state : NodeState) : Prop :=
  state = .handshake ∨ state = .handshaked ∨ state = .establish

/-- The states in which a `version` message is expected. -/
def NodeState.Waiting (state : NodeState) : Prop := state = .init ∨ state = .hand

instance (state : NodeState) : Decidable state.Live :=
  inferInstanceAs (Decidable (_ ∨ _))

theorem NodeState.Waiting.not_live {state : NodeState} (waiting : state.Waiting) :
    ¬ state.Live := by
  rcases waiting with rfl | rfl <;> decide

/-- A connection object; the source shares pointers to it. -/
abbrev NodeRef := Nat

/-- The fields of a connection that the handshake sets. -/
structure NodeInfo where
  state : NodeState
  id : UInt64
  deriving DecidableEq

/-- The connections and `nbrNodes.List`. -/
structure NbrNodes where
  nodes : NodeRef → NodeInfo
  list : UInt64 → Option NodeRef

namespace NbrNodes

def setState (table : NbrNodes) (n : NodeRef) (state : NodeState) : NbrNodes :=
  { table with nodes := Function.update table.nodes n { table.nodes n with state } }

def updateInfo (table : NbrNodes) (n : NodeRef) (nonce : UInt64) : NbrNodes :=
  { table with nodes := Function.update table.nodes n { table.nodes n with id := nonce } }

def nodeExisted (table : NbrNodes) (id : UInt64) : Bool := (table.list id).isSome

/-- An id that is in use keeps its connection. -/
def addNbrNode (table : NbrNodes) (n : NodeRef) : NbrNodes :=
  if table.nodeExisted (table.nodes n).id then table
  else { table with list := Function.update table.list (table.nodes n).id (some n) }

def delNbrNode (table : NbrNodes) (id : UInt64) : Option NodeRef × NbrNodes :=
  match table.list id with
  | none => (none, table)
  | some n => (some n, { table with list := Function.update table.list id none })

/-- A connection is in use. -/
def Live (table : NbrNodes) (n : NodeRef) : Prop := (table.nodes n).state.Live

/-- Every connection in use is the one registered under its id. -/
def Consistent (table : NbrNodes) : Prop :=
  ∀ n, table.Live n → table.list (table.nodes n).id = some n

end NbrNodes

/-- Where a handler stands between two atomic steps. The state is the one read
at the start of the call. -/
inductive HandlerPhase where
  | version (nonce : UInt64)
  | deleting (nonce : UInt64) (s : NodeState)
  | invalidating (nonce : UInt64) (s : NodeState) (n : NodeRef)
  | updating (nonce : UInt64) (s : NodeState)
  | adding (nonce : UInt64) (s : NodeState)
  | setting (nonce : UInt64) (s : NodeState)
  | verACK
  | acking
  | returned
  deriving DecidableEq

/-- A call of `version.Handle` or `verACK.Handle` on a connection. -/
structure Handler where
  node : NodeRef
  phase : HandlerPhase
  deriving DecidableEq

namespace Handler

/-- The same call in another phase. -/
def moveTo (handler : Handler) (phase : HandlerPhase) : Handler := { handler with phase }

/-- One atomic step of a handler; `none` when it has returned. -/
def step (localID : UInt64) (table : NbrNodes) (handler : Handler) :
    Option (NbrNodes × Handler) :=
  match handler.phase with
  | .version nonce =>
      if nonce = localID then some (table, handler.moveTo .returned)
      else
        let s := (table.nodes handler.node).state
        if s ≠ .init ∧ s ≠ .hand then some (table, handler.moveTo .returned)
        else some (table, handler.moveTo (.deleting nonce s))
  | .deleting nonce s =>
      match table.delNbrNode nonce with
      | (some n, after) => some (after, handler.moveTo (.invalidating nonce s n))
      | (none, after) => some (after, handler.moveTo (.updating nonce s))
  | .invalidating nonce s n =>
      some (table.setState n .inactivity, handler.moveTo (.updating nonce s))
  | .updating nonce s =>
      some (table.updateInfo handler.node nonce, handler.moveTo (.adding nonce s))
  | .adding nonce s => some (table.addNbrNode handler.node, handler.moveTo (.setting nonce s))
  | .setting _ s =>
      if s = .init then some (table.setState handler.node .handshake, handler.moveTo .returned)
      else if s = .hand then
        some (table.setState handler.node .handshaked, handler.moveTo .returned)
      else some (table, handler.moveTo .returned)
  | .verACK =>
      let s := (table.nodes handler.node).state
      if s ≠ .handshake ∧ s ≠ .handshaked then some (table, handler.moveTo .returned)
      else some (table, handler.moveTo .acking)
  | .acking => some (table.setState handler.node .establish, handler.moveTo .returned)
  | .returned => none

/-- The call has started and not returned. -/
def Running (handler : Handler) : Prop :=
  match handler.phase with
  | .version _ | .verACK | .returned => False
  | _ => True

/-- The call has not started. -/
def Received (handler : Handler) : Prop :=
  match handler.phase with
  | .version _ | .verACK => True
  | _ => False

theorem Received.not_running {handler : Handler} (received : handler.Received) :
    ¬ handler.Running := by
  unfold Received at received
  unfold Running
  cases phase : handler.phase <;> rw [phase] at received <;> first | exact id | cases received

/-- The call has taken a connection out of the table and has yet to invalidate it. -/
def Replacing (handler : Handler) : Prop :=
  match handler.phase with
  | .invalidating _ _ _ => True
  | _ => False

/-- The id of the peer a handler works for: the nonce of the message, or the id
of its connection. -/
def peer (table : NbrNodes) (handler : Handler) : UInt64 :=
  match handler.phase with
  | .version nonce | .deleting nonce _ | .invalidating nonce _ _ | .updating nonce _
  | .adding nonce _ | .setting nonce _ => nonce
  | .verACK | .acking | .returned => (table.nodes handler.node).id

instance (handler : Handler) : Decidable handler.Running :=
  match handler with
  | ⟨_, .version _⟩ | ⟨_, .verACK⟩ | ⟨_, .returned⟩ => inferInstanceAs (Decidable False)
  | ⟨_, .deleting _ _⟩ | ⟨_, .invalidating _ _ _⟩ | ⟨_, .updating _ _⟩ | ⟨_, .adding _ _⟩
  | ⟨_, .setting _ _⟩ | ⟨_, .acking⟩ => inferInstanceAs (Decidable True)

instance (handler : Handler) : Decidable handler.Received :=
  match handler with
  | ⟨_, .version _⟩ | ⟨_, .verACK⟩ => inferInstanceAs (Decidable True)
  | ⟨_, .deleting _ _⟩ | ⟨_, .invalidating _ _ _⟩ | ⟨_, .updating _ _⟩ | ⟨_, .adding _ _⟩
  | ⟨_, .setting _ _⟩ | ⟨_, .acking⟩ | ⟨_, .returned⟩ => inferInstanceAs (Decidable False)

instance (handler : Handler) : Decidable handler.Replacing :=
  match handler with
  | ⟨_, .invalidating _ _ _⟩ => inferInstanceAs (Decidable True)
  | ⟨_, .version _⟩ | ⟨_, .deleting _ _⟩ | ⟨_, .updating _ _⟩ | ⟨_, .adding _ _⟩
  | ⟨_, .setting _ _⟩ | ⟨_, .verACK⟩ | ⟨_, .acking⟩ | ⟨_, .returned⟩ =>
      inferInstanceAs (Decidable False)

end Handler

/-- The table and the handlers that run on it. -/
structure HandshakeSystem where
  table : NbrNodes
  handlers : List Handler

namespace HandshakeSystem

/-- One step of the handler at a position. -/
def step (localID : UInt64) (system : HandshakeSystem) (position : Nat) :
    Option HandshakeSystem := do
  let handler ← system.handlers[position]?
  let (table, next) ← handler.step localID system.table
  return ⟨table, system.handlers.set position next⟩

/-- A run: the positions of the handlers that take the steps. -/
def run (localID : UInt64) (system : HandshakeSystem) (schedule : List Nat) :
    Option HandshakeSystem :=
  schedule.foldlM (step localID) system

/-- Before the first message: nobody is registered, and every connection waits
for its `version` message. -/
structure Fresh (system : HandshakeSystem) : Prop where
  list : ∀ id, system.table.list id = none
  waiting : ∀ n, (system.table.nodes n).state.Waiting
  received : ∀ handler ∈ system.handlers, handler.Received

/-- The handler at a position may take a step: when it starts, no other handler
works on its connection or for its peer. -/
def Permitted (system : HandshakeSystem) (position : Nat) : Prop :=
  ∀ handler ∈ system.handlers[position]?, ¬ handler.Running →
    ∀ other ∈ system.handlers, other.Running → handler.node ≠ other.node ∧
      handler.peer system.table ≠ other.peer system.table

instance (system : HandshakeSystem) (position : Nat) : Decidable (system.Permitted position) :=
  inferInstanceAs (Decidable (∀ handler ∈ system.handlers[position]?, ¬ handler.Running →
    ∀ other ∈ system.handlers, other.Running → handler.node ≠ other.node ∧
      handler.peer system.table ≠ other.peer system.table))

/-- Every step of a run is permitted in the state in which it is taken. -/
def RunPermitted (localID : UInt64) (system : HandshakeSystem) : List Nat → Prop
  | [] => True
  | position :: schedule => system.Permitted position ∧
      match system.step localID position with
      | some next => RunPermitted localID next schedule
      | none => True

instance RunPermitted.decidable (localID : UInt64) :
    ∀ (system : HandshakeSystem) (schedule : List Nat),
      Decidable (system.RunPermitted localID schedule)
  | _, [] => .isTrue trivial
  | system, position :: schedule =>
      match found : system.step localID position with
      | some next =>
          let _ := RunPermitted.decidable localID next schedule
          decidable_of_iff (system.Permitted position ∧ next.RunPermitted localID schedule)
            (by simp [RunPermitted, found])
      | none => decidable_of_iff (system.Permitted position) (by simp [RunPermitted, found])

end HandshakeSystem

/-! ## What each handler relies on -/

namespace Handler

/-- What holds in the phases of a handler that no other handler disturbs. -/
def Holds (table : NbrNodes) (handler : Handler) : Prop :=
  let waits (s : NodeState) := (table.nodes handler.node).state = s ∧ s.Waiting
  match handler.phase with
  | .version _ | .verACK | .returned => True
  | .deleting _ s => waits s
  | .invalidating nonce s n =>
      waits s ∧ table.list nonce = none ∧ table.Live n ∧ (table.nodes n).id = nonce
  | .updating nonce s => waits s ∧ table.list nonce = none
  | .adding nonce s =>
      waits s ∧ table.list nonce = none ∧ (table.nodes handler.node).id = nonce
  | .setting nonce s =>
      waits s ∧ table.list nonce = some handler.node ∧ (table.nodes handler.node).id = nonce
  | .acking =>
      table.list (table.nodes handler.node).id = some handler.node ∧ table.Live handler.node

/-- A step of another handler leaves alone what the handler relies on: its
connection, the entry of its peer and the connections with the id of its peer. -/
structure Untouched (table after : NbrNodes) (handler : Handler) : Prop where
  node : after.nodes handler.node = table.nodes handler.node
  list : after.list (handler.peer table) = table.list (handler.peer table)
  live : ∀ n, table.Live n → (table.nodes n).id = handler.peer table →
    after.Live n ∧ (after.nodes n).id = (table.nodes n).id

variable {table after : NbrNodes} {handler : Handler}

theorem Untouched.refl : Untouched table table handler :=
  ⟨rfl, rfl, fun _ live _ => ⟨live, rfl⟩⟩

theorem Untouched.peer (untouched : Untouched table after handler) :
    handler.peer after = handler.peer table := by
  simp only [Handler.peer, untouched.node]

theorem Untouched.holds (untouched : Untouched table after handler)
    (holds : handler.Holds table) : handler.Holds after := by
  obtain ⟨node, phase⟩ := handler
  obtain ⟨sameNode, sameList, sameLive⟩ := untouched
  cases phase <;>
    simp only [Holds, NbrNodes.Live, Handler.peer, sameNode] at holds sameList sameLive ⊢ <;>
    grind

theorem holds_of_not_running (rests : ¬ handler.Running) : handler.Holds table := by
  revert rests
  cases phase : handler.phase <;> simp [Holds, Running, phase]

theorem Holds.not_live_of_waiting {s : NodeState}
    (waits : (table.nodes handler.node).state = s ∧ s.Waiting) : ¬ table.Live handler.node := by
  rw [NbrNodes.Live, waits.1]
  exact waits.2.not_live

/-- A running handler waits for the end of its `version` call or works for the
id of its connection. -/
theorem waiting_or_peer (running : handler.Running) (holds : handler.Holds table) :
    ¬ table.Live handler.node ∨ handler.peer table = (table.nodes handler.node).id := by
  revert running holds
  cases phase : handler.phase <;>
    simp only [Running, Holds, peer, phase, false_implies, true_implies]
  case acking => exact fun _ => .inr trivial
  case deleting => exact fun waits => .inl (Holds.not_live_of_waiting waits)
  all_goals exact fun held => .inl (Holds.not_live_of_waiting held.1)

end Handler

namespace HandshakeSystem

/-- The invariant of runs in which handlers are kept apart. -/
structure Orderly (system : HandshakeSystem) : Prop where
  apart : ∀ (i j : Nat) (handler other : Handler), i ≠ j → system.handlers[i]? = some handler →
    system.handlers[j]? = some other → handler.Running → other.Running →
    handler.node ≠ other.node ∧ handler.peer system.table ≠ other.peer system.table
  holds : ∀ (i : Nat) (handler : Handler), system.handlers[i]? = some handler →
    handler.Holds system.table
  registered : ∀ n, system.table.Live n → system.table.list (system.table.nodes n).id = some n ∨
    ∃ (i : Nat) (handler : Handler) (nonce : UInt64) (s : NodeState),
      system.handlers[i]? = some handler ∧
      handler.phase = .invalidating nonce s n
  listed : ∀ id n, system.table.list id = some n → (system.table.nodes n).id = id ∧
    (system.table.Live n ∨ ∃ (i : Nat) (handler : Handler) (s : NodeState),
      system.handlers[i]? = some handler ∧ handler.node = n ∧ handler.phase = .setting id s)

theorem Fresh.orderly {system : HandshakeSystem} (fresh : system.Fresh) : system.Orderly where
  apart := by
    intro i _ handler _ _ found _ running
    have received := fresh.received handler (List.mem_of_getElem? found)
    exact absurd running received.not_running
  holds := by
    intro i handler found
    have received := fresh.received handler (List.mem_of_getElem? found)
    revert received
    cases phase : handler.phase <;> simp [Handler.Holds, Handler.Received, phase]
  registered := by
    intro n live
    exact absurd live (fresh.waiting n).not_live
  listed := by
    intro id n found
    simp [fresh.list] at found

section Step

variable {system : HandshakeSystem} {position : Nat} {handler next : Handler} {after : NbrNodes}

/-- What has to be shown for a step of the handler at a position. -/
structure Advance (system : HandshakeSystem) (position : Nat) (handler next : Handler)
    (after : NbrNodes) : Prop where
  node : next.node = handler.node
  peer : next.Running → next.peer after = handler.peer system.table
  others : ∀ (j : Nat) (other : Handler), j ≠ position → system.handlers[j]? = some other →
    other.Running → other.Untouched system.table after
  holds : next.Holds after
  registered : ∀ n, after.Live n → after.list (after.nodes n).id = some n ∨
    (∃ nonce s, next.phase = .invalidating nonce s n) ∨
    ∃ j other nonce s, j ≠ position ∧ system.handlers[j]? = some other ∧
      other.phase = .invalidating nonce s n
  listed : ∀ id n, after.list id = some n → (after.nodes n).id = id ∧
    (after.Live n ∨ (∃ s, next.node = n ∧ next.phase = .setting id s) ∨
      ∃ j other s, j ≠ position ∧ system.handlers[j]? = some other ∧ other.node = n ∧
        other.phase = .setting id s)

/-- The invariant survives such a step. A handler that starts is kept apart from
the others by assumption. -/
theorem Orderly.advance (orderly : system.Orderly)
    (found : system.handlers[position]? = some handler)
    (alone : next.Running → ∀ j other, j ≠ position → system.handlers[j]? = some other →
      other.Running → handler.node ≠ other.node ∧
        handler.peer system.table ≠ other.peer system.table)
    (advance : Advance system position handler next after) :
    Orderly ⟨after, system.handlers.set position next⟩ := by
  have inside : position < system.handlers.length := by
    obtain ⟨inside, _⟩ := List.getElem?_eq_some_iff.mp found
    exact inside
  have here : (system.handlers.set position next)[position]? = some next := by
    simp [inside]
  have there : ∀ j, j ≠ position →
      (system.handlers.set position next)[j]? = system.handlers[j]? := by
    intro j differs
    exact List.getElem?_set_ne (Ne.symm differs)
  constructor
  · intro i j first second differs foundFirst foundSecond runsFirst runsSecond
    dsimp only at foundFirst foundSecond ⊢
    by_cases atFirst : i = position
    · subst atFirst
      rw [here, Option.some.injEq] at foundFirst
      subst foundFirst
      rw [there j (Ne.symm differs)] at foundSecond
      have untouched := advance.others j second (Ne.symm differs) foundSecond runsSecond
      rw [advance.node, advance.peer runsFirst, untouched.peer]
      exact alone runsFirst j second (Ne.symm differs) foundSecond runsSecond
    · rw [there i atFirst] at foundFirst
      have untouched := advance.others i first atFirst foundFirst runsFirst
      rw [untouched.peer]
      by_cases atSecond : j = position
      · subst atSecond
        rw [here, Option.some.injEq] at foundSecond
        subst foundSecond
        rw [advance.node, advance.peer runsSecond]
        have apart := alone runsSecond i first atFirst foundFirst runsFirst
        exact ⟨Ne.symm apart.1, Ne.symm apart.2⟩
      · rw [there j atSecond] at foundSecond
        rw [(advance.others j second atSecond foundSecond runsSecond).peer]
        exact orderly.apart i j first second differs foundFirst foundSecond runsFirst runsSecond
  · intro i other foundOther
    dsimp only at foundOther ⊢
    by_cases atOther : i = position
    · subst atOther
      rw [here, Option.some.injEq] at foundOther
      subst foundOther
      exact advance.holds
    · rw [there i atOther] at foundOther
      by_cases runs : other.Running
      · exact (advance.others i other atOther foundOther runs).holds
          (orderly.holds i other foundOther)
      · exact Handler.holds_of_not_running runs
  · intro n live
    rcases advance.registered n live with registered | ⟨nonce, s, phase⟩ |
      ⟨j, other, nonce, s, differs, foundOther, phase⟩
    · exact .inl registered
    · exact .inr ⟨position, next, nonce, s, here, phase⟩
    · exact .inr ⟨j, other, nonce, s, (there j differs).trans foundOther, phase⟩
  · intro id n entry
    obtain ⟨same, live | ⟨s, node, phase⟩ | ⟨j, other, s, differs, foundOther, node, phase⟩⟩ :=
      advance.listed id n entry
    · exact ⟨same, .inl live⟩
    · exact ⟨same, .inr ⟨position, next, s, here, node, phase⟩⟩
    · exact ⟨same, .inr ⟨j, other, s, (there j differs).trans foundOther, node, phase⟩⟩

/-! ### The steps -/

variable (orderly : system.Orderly) (found : system.handlers[position]? = some handler)

include orderly found

variable {n : NodeRef} {nonce : UInt64} {s : NodeState}

/-- A connection in use is registered unless another handler replaces it. -/
theorem Orderly.registered_elsewhere (live : system.table.Live n)
    (replacing : ∀ nonce s, handler.phase ≠ .invalidating nonce s n) :
    system.table.list (system.table.nodes n).id = some n ∨
      ∃ (j : Nat) (other : Handler) (nonce : UInt64) (s : NodeState), j ≠ position ∧
        system.handlers[j]? = some other ∧ other.phase = .invalidating nonce s n := by
  rcases orderly.registered n live with registered | ⟨j, other, nonce, s, foundOther, phase⟩
  · exact .inl registered
  · refine .inr ⟨j, other, nonce, s, ?_, foundOther, phase⟩
    rintro rfl
    rw [found, Option.some.injEq] at foundOther
    exact replacing nonce s (foundOther ▸ phase)

/-- A registered connection is in use unless another handler is about to say so. -/
theorem Orderly.listed_elsewhere {id : UInt64} (entry : system.table.list id = some n)
    (setting : handler.node = n → ∀ s, handler.phase ≠ .setting id s) :
    (system.table.nodes n).id = id ∧ (system.table.Live n ∨
      ∃ (j : Nat) (other : Handler) (s : NodeState), j ≠ position ∧
        system.handlers[j]? = some other ∧ other.node = n ∧ other.phase = .setting id s) := by
  obtain ⟨same, live | ⟨j, other, s, foundOther, node, phase⟩⟩ := orderly.listed id n entry
  · exact ⟨same, .inl live⟩
  · refine ⟨same, .inr ⟨j, other, s, ?_, foundOther, node, phase⟩⟩
    rintro rfl
    rw [found, Option.some.injEq] at foundOther
    subst foundOther
    exact setting node s phase

/-- A step that only moves the handler to another phase. -/
theorem Orderly.idle_advance (node : next.node = handler.node)
    (peer : next.Running → next.peer system.table = handler.peer system.table)
    (holds : next.Holds system.table)
    (replacing : ∀ nonce s n, handler.phase ≠ .invalidating nonce s n)
    (setting : ∀ nonce s, handler.phase ≠ .setting nonce s) :
    Advance system position handler next system.table where
  node := node
  peer := peer
  others := fun _ _ _ _ _ => .refl
  holds := holds
  registered := by
    intro n live
    exact (orderly.registered_elsewhere found live fun nonce s =>
      replacing nonce s n).imp_right .inr
  listed := by
    intro id n entry
    exact (orderly.listed_elsewhere found entry fun _ => setting id).imp_right (.imp_right .inr)

/-- The connection that `DelNbrNode` returns is in use. -/
theorem Orderly.live_of_deleting (phase : handler.phase = .deleting nonce s)
    (entry : system.table.list nonce = some n) :
    system.table.Live n := by
  obtain ⟨_, live | ⟨j, other, s', differs, foundOther, _, sets⟩⟩ :=
    orderly.listed_elsewhere found entry (by simp [phase])
  · exact live
  · have apart := orderly.apart position j handler other (Ne.symm differs) found foundOther
      (by simp [Handler.Running, phase]) (by simp [Handler.Running, sets])
    simp [Handler.peer, phase, sets] at apart

theorem Orderly.deleting_advance
    (phase : handler.phase = .deleting nonce s) (entry : system.table.list nonce = some n) :
    Advance system position handler (handler.moveTo (.invalidating nonce s n))
      ⟨system.table.nodes, Function.update system.table.list nonce none⟩ where
  node := rfl
  peer := by simp [Handler.peer, Handler.moveTo, phase]
  others := by
    intro j other differs foundOther running
    have apart := (orderly.apart position j handler other (Ne.symm differs) found foundOther
      (by simp [Handler.Running, phase]) running).2
    refine ⟨rfl, Function.update_of_ne ?_ _ _, fun _ live _ => ⟨live, rfl⟩⟩
    simpa [Handler.peer, phase] using Ne.symm apart
  holds := by
    have waits := orderly.holds position handler found
    simp only [Handler.Holds, phase] at waits
    exact ⟨waits, Function.update_self .., orderly.live_of_deleting found phase entry,
      (orderly.listed nonce n entry).1⟩
  registered := by
    intro m live
    rcases orderly.registered_elsewhere found live (by simp [phase]) with registered | replaced
    · by_cases same : (system.table.nodes m).id = nonce
      · rw [same, entry, Option.some.injEq] at registered
        subst registered
        exact .inr (.inl ⟨nonce, s, rfl⟩)
      · exact .inl ((Function.update_of_ne same _ _).trans registered)
    · exact .inr (.inr replaced)
  listed := by
    intro id m registered
    dsimp only at registered
    by_cases same : id = nonce
    · rw [same, Function.update_self] at registered
      cases registered
    · rw [Function.update_of_ne same] at registered
      exact (orderly.listed_elsewhere found registered
        (by simp [phase])).imp_right (.imp_right .inr)

/-- A step that changes one connection and no entry of the table. -/
theorem Orderly.changed_advance {changed : NodeRef} {info : NodeInfo}
    (node : next.node = handler.node)
    (peer : next.Running → next.peer ⟨Function.update system.table.nodes changed info,
      system.table.list⟩ = handler.peer system.table)
    (free : ∀ (j : Nat) (other : Handler), j ≠ position → system.handlers[j]? = some other →
      other.Running → other.node ≠ changed ∧ (system.table.Live changed →
        (system.table.nodes changed).id = other.peer system.table →
          info.state.Live ∧ info.id = (system.table.nodes changed).id))
    (holds : next.Holds ⟨Function.update system.table.nodes changed info, system.table.list⟩)
    (registered : info.state.Live → system.table.list info.id = some changed)
    (listed : ∀ id, system.table.list id = some changed → info.id = id ∧ info.state.Live)
    (replacing : ∀ nonce s n, n ≠ changed → handler.phase ≠ .invalidating nonce s n)
    (setting : ∀ n id s, n ≠ changed → handler.node = n → handler.phase ≠ .setting id s) :
    Advance system position handler next
      ⟨Function.update system.table.nodes changed info, system.table.list⟩ := by
  refine ⟨node, peer, fun j other differs foundOther running => ?_, holds, fun m live => ?_,
    fun id m entry => ?_⟩
  · obtain ⟨apart, lives⟩ := free j other differs foundOther running
    refine ⟨Function.update_of_ne apart _ _, rfl, fun m live works => ?_⟩
    by_cases same : m = changed
    · subst same
      simpa [NbrNodes.Live] using lives live works
    · simpa [NbrNodes.Live, same] using live
  · by_cases same : m = changed
    · subst same
      simp only [NbrNodes.Live, Function.update_self] at live ⊢
      exact .inl (registered live)
    · simp only [NbrNodes.Live, Function.update_of_ne same] at live ⊢
      exact (orderly.registered_elsewhere found live fun nonce s =>
        replacing nonce s m same).imp_right .inr
  · by_cases same : m = changed
    · subst same
      simpa [NbrNodes.Live] using (listed id entry).imp_right .inl
    · simp only [NbrNodes.Live, Function.update_of_ne same]
      exact (orderly.listed_elsewhere found entry fun node s =>
        setting m id s same node).imp_right (.imp_right .inr)

theorem Orderly.invalidating_advance (phase : handler.phase = .invalidating nonce s n) :
    Advance system position handler (handler.moveTo (.updating nonce s))
      (system.table.setState n .inactivity) := by
  have holds := orderly.holds position handler found
  simp only [Handler.Holds, phase] at holds
  obtain ⟨waits, gone, live, id⟩ := holds
  have elsewhere : handler.node ≠ n := by
    rintro rfl
    exact Handler.Holds.not_live_of_waiting waits live
  refine orderly.changed_advance found rfl (by simp [Handler.peer, Handler.moveTo, phase]) ?_ ?_
    (by simp [NodeState.Live]) ?_ (by simp +contextual [phase, eq_comm]) (by simp [phase])
  · intro j other differs foundOther running
    have apart := (orderly.apart position j handler other (Ne.symm differs) found foundOther
      (by simp [Handler.Running, phase]) running).2
    rw [show handler.peer system.table = nonce by simp [Handler.peer, phase]] at apart
    refine ⟨?_, fun _ works => absurd (id.symm.trans works) apart⟩
    -- A handler on this connection would wait for its version or work for its id.
    rintro rfl
    rcases Handler.waiting_or_peer running (orderly.holds j other foundOther) with waiting | works
    · exact waiting live
    · exact apart (by rw [works, id])
  · simpa [Handler.Holds, Handler.moveTo, elsewhere] using ⟨waits, gone⟩
  · intro id' entry
    rw [← (orderly.listed id' n entry).1, id, gone] at entry
    cases entry

theorem Orderly.updating_advance (phase : handler.phase = .updating nonce s) :
    Advance system position handler (handler.moveTo (.adding nonce s))
      (system.table.updateInfo handler.node nonce) := by
  have holds := orderly.holds position handler found
  simp only [Handler.Holds, phase] at holds
  obtain ⟨waits, gone⟩ := holds
  have notLive := Handler.Holds.not_live_of_waiting waits
  refine orderly.changed_advance found rfl (by simp [Handler.peer, Handler.moveTo, phase]) ?_ ?_
    (fun live => absurd live notLive) ?_ (by simp [phase]) (by simp [phase])
  · intro j other differs foundOther running
    have apart := (orderly.apart position j handler other (Ne.symm differs) found foundOther
      (by simp [Handler.Running, phase]) running).1
    exact ⟨Ne.symm apart, fun live => absurd live notLive⟩
  · simpa [Handler.Holds, Handler.moveTo] using ⟨waits, gone⟩
  · intro id entry
    obtain ⟨-, live | ⟨j, other, s', differs, foundOther, node, sets⟩⟩ :=
      orderly.listed_elsewhere found entry (by simp [phase])
    · exact absurd live notLive
    · exact absurd node.symm (orderly.apart position j handler other (Ne.symm differs) found
        foundOther (by simp [Handler.Running, phase]) (by simp [Handler.Running, sets])).1

theorem Orderly.adding_advance (phase : handler.phase = .adding nonce s) :
    Advance system position handler (handler.moveTo (.setting nonce s))
      (system.table.addNbrNode handler.node) := by
  have holds := orderly.holds position handler found
  simp only [Handler.Holds, phase] at holds
  obtain ⟨waits, gone, id⟩ := holds
  have added : system.table.addNbrNode handler.node =
      ⟨system.table.nodes, Function.update system.table.list nonce (some handler.node)⟩ := by
    simp [NbrNodes.addNbrNode, NbrNodes.nodeExisted, id, gone]
  rw [added]
  refine ⟨rfl, by simp [Handler.peer, Handler.moveTo, phase], ?_, ?_, ?_, ?_⟩
  · intro j other differs foundOther running
    have apart := (orderly.apart position j handler other (Ne.symm differs) found foundOther
      (by simp [Handler.Running, phase]) running).2
    refine ⟨rfl, Function.update_of_ne ?_ _ _, fun _ live _ => ⟨live, rfl⟩⟩
    simpa [Handler.peer, phase] using Ne.symm apart
  · exact ⟨waits, Function.update_self .., id⟩
  · intro m live
    rcases orderly.registered_elsewhere found live (by simp [phase]) with registered | replaced
    · have differs : (system.table.nodes m).id ≠ nonce := by
        intro same
        rw [same, gone] at registered
        cases registered
      exact .inl ((Function.update_of_ne differs _ _).trans registered)
    · exact .inr (.inr replaced)
  · intro id' m registered
    dsimp only at registered
    by_cases same : id' = nonce
    · rw [same, Function.update_self, Option.some.injEq] at registered
      subst registered
      exact ⟨id.trans same.symm, .inr (.inl ⟨s, rfl, by rw [same]; rfl⟩)⟩
    · rw [Function.update_of_ne same] at registered
      exact (orderly.listed_elsewhere found registered
        (by simp [phase])).imp_right (.imp_right .inr)

/-- Setting a live state of a connection that is registered. -/
theorem Orderly.setState_advance {state : NodeState} (running : handler.Running)
    (live : state.Live)
    (registered : system.table.list (system.table.nodes handler.node).id = some handler.node)
    (replacing : ∀ nonce s n, handler.phase ≠ .invalidating nonce s n) :
    Advance system position handler (handler.moveTo .returned)
      (system.table.setState handler.node state) := by
  refine orderly.changed_advance found rfl (by simp [Handler.Running, Handler.moveTo]) ?_ trivial
    (fun _ => registered) (fun id entry => ⟨(orderly.listed id _ entry).1, live⟩)
    (fun nonce s n _ => replacing nonce s n) (fun n id s differs same => absurd same.symm differs)
  intro j other differs foundOther runningOther
  have apart := (orderly.apart position j handler other (Ne.symm differs) found foundOther running
    runningOther).1
  exact ⟨Ne.symm apart, fun _ _ => ⟨live, rfl⟩⟩

/-- A handler that takes a permitted step is kept apart from all others. -/
theorem Orderly.alone (permitted : system.Permitted position) (j : Nat) (other : Handler)
    (differs : j ≠ position) (foundOther : system.handlers[j]? = some other)
    (running : other.Running) :
    handler.node ≠ other.node ∧ handler.peer system.table ≠ other.peer system.table := by
  by_cases started : handler.Running
  · exact orderly.apart position j handler other (Ne.symm differs) found foundOther started running
  · exact permitted handler found started other (List.mem_of_getElem? foundOther) running

/-- What a step of each phase does to the table keeps the handlers in order. -/
theorem Orderly.step_advance {localID : UInt64} (permitted : system.Permitted position)
    (stepped : handler.step localID system.table = some (after, next)) :
    Advance system position handler next after := by
  have holds := orderly.holds position handler found
  cases phase : handler.phase with
  | version nonce =>
    simp only [Handler.step, phase] at stepped
    split at stepped
    · cases stepped
      exact orderly.idle_advance found rfl (by simp [Handler.Running, Handler.moveTo]) trivial
        (by simp [phase]) (by simp [phase])
    · split at stepped
      · cases stepped
        exact orderly.idle_advance found rfl (by simp [Handler.Running, Handler.moveTo]) trivial
          (by simp [phase]) (by simp [phase])
      · next waits =>
        cases stepped
        refine orderly.idle_advance found rfl (by simp [Handler.peer, Handler.moveTo, phase])
          ⟨rfl, ?_⟩ (by simp [phase]) (by simp [phase])
        rw [NodeState.Waiting]
        by_cases atInit : (system.table.nodes handler.node).state = .init
        · exact .inl atInit
        · exact .inr (Decidable.not_not.mp fun atHand => waits ⟨atInit, atHand⟩)
  | deleting nonce s =>
    simp only [Handler.step, phase, NbrNodes.delNbrNode] at stepped
    cases entry : system.table.list nonce with
    | none =>
      simp only [entry] at stepped
      cases stepped
      simp only [Handler.Holds, phase] at holds
      exact orderly.idle_advance found rfl (by simp [Handler.peer, Handler.moveTo, phase])
        ⟨holds, entry⟩ (by simp [phase]) (by simp [phase])
    | some n =>
      simp only [entry] at stepped
      cases stepped
      exact orderly.deleting_advance found phase entry
  | invalidating nonce s n =>
    simp only [Handler.step, phase] at stepped
    cases stepped
    exact orderly.invalidating_advance found phase
  | updating nonce s =>
    simp only [Handler.step, phase] at stepped
    cases stepped
    exact orderly.updating_advance found phase
  | adding nonce s =>
    simp only [Handler.step, phase] at stepped
    cases stepped
    exact orderly.adding_advance found phase
  | setting nonce s =>
    simp only [Handler.Holds, phase] at holds
    obtain ⟨⟨_, waiting⟩, entry, same⟩ := holds
    rw [← same] at entry
    simp only [Handler.step, phase] at stepped
    rcases waiting with rfl | rfl
    · cases stepped
      exact orderly.setState_advance found (by simp [Handler.Running, phase]) (by decide) entry
        (by simp [phase])
    · cases stepped
      exact orderly.setState_advance found (by simp [Handler.Running, phase]) (by decide) entry
        (by simp [phase])
  | verACK =>
    simp only [Handler.step, phase] at stepped
    split at stepped
    · cases stepped
      exact orderly.idle_advance found rfl (by simp [Handler.Running, Handler.moveTo]) trivial
        (by simp [phase]) (by simp [phase])
    · next shaken =>
      cases stepped
      have live : system.table.Live handler.node := by
        by_cases shaking : (system.table.nodes handler.node).state = .handshake
        · exact .inl shaking
        · exact .inr (.inl (Decidable.not_not.mp fun other => shaken ⟨shaking, other⟩))
      refine orderly.idle_advance found rfl (by simp [Handler.peer, Handler.moveTo, phase]) ?_
        (by simp [phase]) (by simp [phase])
      refine ⟨?_, live⟩
      rcases orderly.registered_elsewhere found live (by simp [phase]) with
        registered | ⟨j, other, nonce, s, differs, foundOther, replaces⟩
      · exact registered
      · have apart := (orderly.alone found permitted j other differs foundOther
          (by simp [Handler.Running, replaces])).2
        have holdsOther := orderly.holds j other foundOther
        simp only [Handler.Holds, replaces] at holdsOther
        simp [Handler.peer, phase, replaces, holdsOther.2.2.2] at apart
  | acking =>
    simp only [Handler.Holds, phase] at holds
    simp only [Handler.step, phase] at stepped
    cases stepped
    exact orderly.setState_advance found (by simp [Handler.Running, phase]) (by decide) holds.1
      (by simp [phase])
  | returned =>
    simp [Handler.step, phase] at stepped

omit found in
theorem Orderly.step {localID : UInt64} {result : HandshakeSystem}
    (permitted : system.Permitted position)
    (stepped : system.step localID position = some result) : result.Orderly := by
  simp only [HandshakeSystem.step, Option.bind_eq_bind, Option.bind_eq_some_iff, Option.pure_def,
    Option.some.injEq, Prod.exists] at stepped
  obtain ⟨handler, found, after, next, stepped, rfl⟩ := stepped
  exact orderly.advance found (fun _ => orderly.alone found permitted)
    (orderly.step_advance found permitted stepped)

end Step

theorem Orderly.run {localID : UInt64} {system final : HandshakeSystem} {schedule : List Nat}
    (orderly : system.Orderly) (permitted : system.RunPermitted localID schedule)
    (ran : system.run localID schedule = some final) : final.Orderly := by
  induction schedule generalizing system with
  | nil =>
    cases ran
    exact orderly
  | cons position schedule ih =>
    simp only [HandshakeSystem.run, List.foldlM_cons, Option.bind_eq_bind,
      Option.bind_eq_some_iff] at ran
    obtain ⟨next, stepped, ran⟩ := ran
    simp only [RunPermitted, stepped] at permitted
    exact ih (orderly.step permitted.1 stepped) permitted.2 ran

/-- A handler that replaces a connection has left it in use and unregistered. -/
theorem Orderly.consistent_iff {system : HandshakeSystem} (orderly : system.Orderly) :
    system.table.Consistent ↔ ∀ handler ∈ system.handlers, ¬ handler.Replacing := by
  constructor
  · intro consistent handler member replacing
    obtain ⟨i, found⟩ := List.getElem?_of_mem member
    have holds := orderly.holds i handler found
    revert replacing
    cases phase : handler.phase <;> simp only [Handler.Replacing, phase, false_implies]
    case invalidating nonce s n =>
      simp only [Handler.Holds, phase] at holds
      obtain ⟨_, gone, live, id⟩ := holds
      have registered := consistent n live
      rw [id, gone] at registered
      cases registered
  · intro settled n live
    rcases orderly.registered n live with registered | ⟨i, handler, nonce, s, found, phase⟩
    · exact registered
    · exact absurd (by simp [Handler.Replacing, phase])
        (settled handler (List.mem_of_getElem? found))

/-- When handlers on one connection or for one peer never overlap, the table is
consistent in every state reached, except between the two steps that replace the
connection of a peer. -/
theorem neighbours_consistent_iff {localID : UInt64} {system final : HandshakeSystem}
    {schedule : List Nat} (fresh : system.Fresh)
    (permitted : system.RunPermitted localID schedule)
    (ran : system.run localID schedule = some final) :
    final.table.Consistent ↔ ∀ handler ∈ final.handlers, ¬ handler.Replacing :=
  (fresh.orderly.run permitted ran).consistent_iff

/-- Connections that wait for messages, and no neighbours. -/
def waitingFor (handlers : List Handler) : HandshakeSystem :=
  ⟨⟨fun _ => ⟨.init, 0⟩, fun _ => none⟩, handlers⟩

/-- A peer connects, completes the handshake and connects once more. -/
theorem neighbours_reconnect : ∃ final,
    (waitingFor [⟨0, .version 7⟩, ⟨0, .verACK⟩, ⟨1, .version 7⟩]).run 1
      [0, 0, 0, 0, 0, 1, 1, 2, 2, 2, 2, 2, 2] = some final ∧ final.table.Consistent ∧
    final.table.list 7 = some 1 := by
  have fresh : (waitingFor [⟨0, .version 7⟩, ⟨0, .verACK⟩, ⟨1, .version 7⟩]).Fresh :=
    ⟨fun _ => rfl, fun _ => .inl rfl, by decide⟩
  have permitted : (waitingFor [⟨0, .version 7⟩, ⟨0, .verACK⟩, ⟨1, .version 7⟩]).RunPermitted 1
      [0, 0, 0, 0, 0, 1, 1, 2, 2, 2, 2, 2, 2] := by decide
  exact ⟨_, rfl, (neighbours_consistent_iff fresh permitted rfl).mpr (by decide), rfl⟩

/-- Two connections of one peer at the same time: both handlers look for an old
connection before one of them registers its own. -/
theorem neighbours_rivals : ∃ final,
    (waitingFor [⟨0, .version 7⟩, ⟨1, .version 7⟩]).run 1
      [0, 1, 0, 1, 0, 1, 0, 1, 0, 1] = some final ∧
    (∀ handler ∈ final.handlers, handler.phase = .returned) ∧
    (final.table.nodes 0).id = (final.table.nodes 1).id ∧ ¬ final.table.Consistent := by
  refine ⟨_, rfl, by decide, rfl, fun consistent => ?_⟩
  have registered := consistent 1 (.inl rfl)
  revert registered
  decide

end HandshakeSystem

end DnaPow.Net
