import DnaPow.Net.TransactionMessage

/-!
# The duplicate filter

Sequences of `ExistedID` calls. The ring, the map and the shortcut for the last
identifier stay in step: the filter knows the last `MAXIDCACHED` identifiers that were
inserted, whatever was evicted and inserted again in between.
-/

namespace DnaPow.Net.TxNode

open DnaPow.Std Common Ledger

variable {env : Env} {ε : Type}

/-- Calls of `ExistedID`, one after the other, and what they return. -/
def existedIDs : List Uint256 → Action ε (TxNode env) (List Bool)
  | [] => pure []
  | id :: ids => do
      let existed ← existedID id
      return existed :: (← existedIDs ids)

/-- The identifiers of the calls that returned false. -/
def inserted (ids : List Uint256) (replies : List Bool) : List Uint256 :=
  ((ids.zip replies).filter fun call => !call.2).map Prod.fst

@[simp] theorem inserted_nil (replies : List Bool) : inserted [] replies = [] := rfl

theorem inserted_cons (id : Uint256) (ids : List Uint256) (existed : Bool) (replies : List Bool) :
    inserted (id :: ids) (existed :: replies) =
      (if existed then [] else [id]) ++ inserted ids replies := by
  cases existed <;> simp [inserted]

/-- The map of the filter does not outgrow the ring. -/
def FilterBounded (node : TxNode env) : Prop :=
  {id | (node.idCache.position id).isSome}.encard ≤ maxIdCached

/-- What a sequence of calls returned, after the given insertions. -/
def RepliesExact (seen ids : List Uint256) (replies : List Bool) : Prop :=
  replies.length = ids.length ∧
    ∀ i id existed, ids[i]? = some id → replies[i]? = some existed → (existed = true ↔
      id ∈ RecentItems.recent maxIdCached (seen ++ inserted (ids.take i) (replies.take i)))

variable {seen : List Uint256} {node : TxNode env}

/-- One call: it recognises the last insertions, and inserts an identifier that is none
of them. -/
theorem run_existedID (remembers : RecentItems.Remembers maxIdCached 0 seen node.idCache)
    {id : Uint256} (nonzero : id ≠ 0) : ∃ existed after,
    (existedID id : Action ε (TxNode env) Bool).run node = (.ok existed, after) ∧
      (existed = true ↔ id ∈ RecentItems.recent maxIdCached seen) ∧
      RecentItems.Remembers maxIdCached 0 (seen ++ if existed then [] else [id]) after.idCache := by
  have room : 0 < maxIdCached := by decide
  have known := (remembers.holds room).knows_iff room nonzero
  cases found : node.idCache.knows id with
  | true =>
    refine ⟨true, node, by simp [existedID, Action.run_bind, found], ?_, by simpa using remembers⟩
    rwa [found] at known
  | false =>
    refine ⟨false, { node with idCache := node.idCache.add maxIdCached id },
      by simp [existedID, Action.run_bind, found], ?_, remembers.add nonzero found⟩
    rwa [found] at known

/-- A sequence of calls, by induction on it: the insertions accumulate. -/
theorem run_existedIDs (ids : List Uint256) (nonzero : ∀ id ∈ ids, id ≠ 0)
    (remembers : RecentItems.Remembers maxIdCached 0 seen node.idCache) : ∃ replies after,
    (existedIDs ids : Action ε (TxNode env) (List Bool)).run node = (.ok replies, after) ∧
      RepliesExact seen ids replies ∧
      RecentItems.Remembers maxIdCached 0 (seen ++ inserted ids replies) after.idCache := by
  induction ids generalizing node seen with
  | nil => exact ⟨[], node, rfl, ⟨rfl, by simp⟩, by simpa using remembers⟩
  | cons id ids ih =>
    obtain ⟨notZero, nonzero⟩ := List.forall_mem_cons.mp nonzero
    obtain ⟨existed, middle, called, exact, noted⟩ := run_existedID (ε := ε) remembers notZero
    obtain ⟨replies, after, ran, ⟨lengths, exacts⟩, remembered⟩ := ih nonzero noted
    refine ⟨existed :: replies, after, ?_, ⟨by simp [lengths], ?_⟩, ?_⟩
    · rw [existedIDs, Action.run_bind_of_ok called, Action.run_bind_of_ok ran]
      rfl
    · intro i other reply found replied
      cases i with
      | zero =>
        obtain rfl : id = other := by simpa using found
        obtain rfl : existed = reply := by simpa using replied
        simpa using exact
      | succ i =>
        have later := exacts i other reply (by simpa using found) (by simpa using replied)
        rwa [List.append_assoc, ← inserted_cons] at later
    · rwa [inserted_cons, ← List.append_assoc]

/-- A call returns true exactly if its identifier is among the last `MAXIDCACHED` ones
that were inserted by the calls before it, and the map keeps its bound. -/
theorem existedIDs_exact (env : Env) (node : TxNode env) (started : node.idCache = .init 0)
    (ids : List Uint256) (nonzero : ∀ id ∈ ids, id ≠ 0) : ∃ replies after,
    (existedIDs ids : Action Empty (TxNode env) (List Bool)).run node = (.ok replies, after) ∧
      RepliesExact [] ids replies ∧ after.FilterBounded := by
  have remembers : RecentItems.Remembers maxIdCached 0 [] node.idCache := by
    rw [started]
    exact .init
  obtain ⟨replies, after, ran, exact, remembered⟩ := run_existedIDs ids nonzero remembers
  exact ⟨replies, after, ran, exact, (remembered.holds (by decide)).encard_position_le⟩

/-- An identifier is inserted, recognised at once and recognised after another one. -/
theorem existedIDs_repeated : ∃ replies after,
    (existedIDs [5, 5, 7, 5] : Action Empty (TxNode .sample) (List Bool)).run (idle .sample) =
        (.ok replies, after) ∧
      RepliesExact [] [5, 5, 7, 5] replies ∧ after.FilterBounded :=
  existedIDs_exact .sample (idle .sample) rfl [5, 5, 7, 5] (by simp)

end DnaPow.Net.TxNode
