import DnaPow.Std.Action
import DnaPow.Std.Bytes

/-!
# Reading values from a byte buffer

A reader is an action on the bytes that are still unread. An error does not put
bytes back, and a caller that ignores the error goes on reading where the
failing reader stopped, with whatever had been stored by then: a `Failure`
carries the error together with that value.

`Action.Decodes` says that a reader takes exactly one encoding off the front of
the buffer and returns its value. It has one rule for each way of building a
reader, so that the round trip of a format follows its definition.
-/

namespace DnaPow.Std

/-- A value that fits the width is read back. -/
theorem ofLittleEndian_littleEndian_of_lt {width value : Nat} (fits : value < 256 ^ width) :
    ofLittleEndian (littleEndian width value) = value := by
  rw [ofLittleEndian_littleEndian, Nat.mod_eq_of_lt fits]

/-- An error together with the value stored when it occurred. -/
structure Failure (ε α : Type) where
  reason : ε
  left : α
  deriving DecidableEq, Repr

namespace Action

variable {ε ε' σ α β : Type} {call : Action ε Bytes α} {value : α} {encoding : Bytes}

/-- The same call with its error replaced. -/
def mapError (change : ε → ε') (call : Action ε σ α) : Action ε' σ α where
  run state :=
    match call.run state with
    | (.ok value, after) => (.ok value, after)
    | (.error reason, after) => (.error (change reason), after)
    | (.panic, after) => (.panic, after)

/-- The same call with its error ignored: the caller goes on with another value. -/
def recover (other : ε → α) (call : Action ε σ α) : Action ε' σ α where
  run state :=
    match call.run state with
    | (.ok value, after) => (.ok value, after)
    | (.error reason, after) => (.ok (other reason), after)
    | (.panic, after) => (.panic, after)

/-- A call that leaves the given value behind when it fails. -/
def leaving (left : α) (call : Action ε σ β) : Action (Failure ε α) σ β :=
  call.mapError fun reason => ⟨reason, left⟩

/-- A call whose own leftover becomes part of what is left behind when it fails. -/
def leavingWith (wrap : β → α) (call : Action (Failure ε β) σ β) : Action (Failure ε α) σ β :=
  call.mapError fun failure => ⟨failure.reason, wrap failure.left⟩

/-- The same call with its error wrapped and its leftover kept. -/
def wrapError (change : ε → ε') (call : Action (Failure ε β) σ α) : Action (Failure ε' β) σ α :=
  call.mapError fun failure => ⟨change failure.reason, failure.left⟩

/-- A call whose error is ignored and whose leftover is used in place of its value. -/
def ignoringError (call : Action (Failure ε α) σ α) : Action ε' σ α :=
  call.recover Failure.left

/-- Only the error is changed. -/
theorem ensures_mapError {call : Action ε σ α} {change : ε → ε'} {state : σ}
    {post : α → σ → Prop} {fail : σ → Prop} :
    (call.mapError change).Ensures state post fail ↔ call.Ensures state post fail := by
  simp only [Ensures, mapError]
  generalize call.run state = ending
  obtain ⟨result, after⟩ := ending
  cases result <;> rfl

/-- Run a call a number of times and collect the values. -/
def times (call : Action ε σ α) : Nat → Action ε σ (List α)
  | 0 => pure []
  | count + 1 => do
      let first ← call
      let others ← times call count
      return first :: others

/-- Run a call a number of times, appending each value to a list that is left
behind when the call fails. -/
def appendTimes (call : Action ε σ α) : Nat → List α → Action (Failure ε (List α)) σ (List α)
  | 0, list => pure list
  | count + 1, list => do
      let item ← call.leaving list
      appendTimes call count (list ++ [item])

/-! ## Reading from a buffer -/

/-- `Read` into a slice of the given length: as many bytes as there are. It
fails only when there are none and some are asked for. -/
def readSome (eof : ε) (count : Nat) : Action ε Bytes Bytes where
  run unread :=
    if unread = [] ∧ 0 < count then (.error eof, [])
    else (.ok (unread.take count), unread.drop count)

/-- `ReadFull`: exactly so many bytes. A short buffer is used up. -/
def readFull (eof unexpectedEOF : ε) (count : Nat) : Action ε Bytes Bytes where
  run unread :=
    if count ≤ unread.length then (.ok (unread.take count), unread.drop count)
    else (.error (if unread = [] then eof else unexpectedEOF), [])

/-! ## Decoding -/

/-- The reader takes exactly `encoding` off the front of the buffer, whatever
follows it, and returns `value`. -/
def Decodes (call : Action ε Bytes α) (encoding : Bytes) (value : α) : Prop :=
  ∀ rest, call.run (encoding ++ rest) = (.ok value, rest)

theorem decodes_pure (value : α) : (pure value : Action ε Bytes α).Decodes [] value := by
  intro rest
  rfl

/-- Readers in sequence read encodings one after the other. -/
theorem Decodes.bind {next : α → Action ε Bytes β}
    {first second : Bytes} {result : β} (head : call.Decodes first value)
    (tail : (next value).Decodes second result) :
    (call >>= next).Decodes (first ++ second) result := by
  intro rest
  rw [List.append_assoc, run_bind_of_ok (head (second ++ rest))]
  exact tail rest

/-- A reader followed by a computation without input. -/
theorem Decodes.map (result : α → β) (decodes : call.Decodes encoding value) :
    (call >>= fun value => pure (result value)).Decodes encoding (result value) := by
  intro rest
  rw [run_bind_of_ok (decodes rest)]
  rfl

/-- A reader after which nothing more is read. -/
theorem Decodes.bind_pure {next : α → Action ε Bytes β}
    {result : β} (decodes : call.Decodes encoding value)
    (done : next value = pure result) : (call >>= next).Decodes encoding result := by
  intro rest
  rw [run_bind_of_ok (decodes rest), done]
  rfl

/-- Errors do not matter to a reader that returns. -/
theorem Decodes.mapError (decodes : call.Decodes encoding value) (change : ε → ε') :
    (call.mapError change).Decodes encoding value := by
  intro rest
  simp only [Action.mapError, decodes rest]

theorem Decodes.leaving {call : Action ε Bytes β} {value : β}
    (decodes : call.Decodes encoding value) (left : α) :
    (call.leaving left).Decodes encoding value :=
  decodes.mapError _

theorem Decodes.leavingWith {call : Action (Failure ε β) Bytes β} {value : β}
    (decodes : call.Decodes encoding value) (wrap : β → α) :
    (call.leavingWith wrap).Decodes encoding value :=
  decodes.mapError _

theorem Decodes.wrapError {call : Action (Failure ε β) Bytes α}
    (decodes : call.Decodes encoding value) (change : ε → ε') :
    (call.wrapError change).Decodes encoding value :=
  decodes.mapError _

theorem Decodes.recover (decodes : call.Decodes encoding value) (other : ε → α) :
    (call.recover other : Action ε' Bytes α).Decodes encoding value := by
  intro rest
  simp only [Action.recover, decodes rest]

theorem Decodes.ignoringError {call : Action (Failure ε α) Bytes α}
    (decodes : call.Decodes encoding value) :
    (call.ignoringError : Action ε' Bytes α).Decodes encoding value :=
  decodes.recover _

/-- As many values are collected as were asked for, each with what the call ensures. -/
theorem Ensures.times {call : Action ε σ α} {holds : α → Prop}
    (each : ∀ state, call.Ensures state (fun value _ => holds value) fun _ => True) (count : Nat)
    (state : σ) :
    (call.times count).Ensures state
      (fun values _ => values.length = count ∧ ∀ value ∈ values, holds value) fun _ => True := by
  induction count generalizing state with
  | zero => exact ⟨rfl, fun _ member => absurd member List.not_mem_nil⟩
  | succ count ih =>
    apply ensures_bind.mpr
    apply (each state).mono _ fun _ _ => True.intro
    intro first after holdsFirst
    apply ensures_bind.mpr
    apply (ih after).mono _ fun _ _ => True.intro
    rintro others _ ⟨length, holdsOthers⟩
    exact ⟨congrArg (· + 1) length, List.forall_mem_cons.mpr ⟨holdsFirst, holdsOthers⟩⟩

/-- Reading a list item by item, each as the value it stands for. -/
theorem Decodes.times_map {encode : β → Bytes} {value : β → α}
    {items : List β} (each : ∀ item ∈ items, call.Decodes (encode item) (value item)) :
    (call.times items.length).Decodes (items.flatMap encode) (items.map value) := by
  induction items with
  | nil => exact decodes_pure []
  | cons first others ih =>
    have head : call.Decodes (encode first) (value first) := each first (by simp)
    have tail := ih fun item member => each item (by simp [member])
    rw [List.flatMap_cons]
    exact head.bind (tail.map (value first :: ·))

/-- Reading a list item by item. -/
theorem Decodes.times {encode : α → Bytes} {items : List α}
    (each : ∀ item ∈ items, call.Decodes (encode item) item) :
    (call.times items.length).Decodes (items.flatMap encode) items := by
  have read := Decodes.times_map each
  rwa [List.map_id'] at read

/-- Appending a list item by item. -/
theorem Decodes.appendTimes {encode : α → Bytes} {items : List α}
    (each : ∀ item ∈ items, call.Decodes (encode item) item) (list : List α) :
    (call.appendTimes items.length list).Decodes (items.flatMap encode) (list ++ items) := by
  induction items generalizing list with
  | nil =>
    rw [List.append_nil]
    exact decodes_pure list
  | cons first others ih =>
    have head : call.Decodes (encode first) first := each first (by simp)
    have tail := ih (fun item member => each item (by simp [member])) (list ++ [first])
    rw [List.append_assoc] at tail
    rw [List.flatMap_cons]
    exact (head.leaving list).bind tail

/-- A call that returned from a buffer with an encoding in front has read that encoding. -/
theorem Decodes.of_returned {encoding unread rest : Bytes}
    {value value' : α} (decodes : call.Decodes encoding value) (starts : encoding <+: unread)
    (returned : call.run unread = (.ok value', rest)) :
    value' = value ∧ unread = encoding ++ rest := by
  obtain ⟨after, rfl⟩ := starts
  rw [decodes after, Prod.mk.injEq, Outcome.ok.injEq] at returned
  exact ⟨returned.1.symm, by rw [returned.2]⟩

theorem readSome_decodes {eof : ε} (bytes : Bytes) :
    (readSome eof bytes.length).Decodes bytes bytes := by
  intro rest
  have enough : ¬ (bytes ++ rest = [] ∧ 0 < bytes.length) := by
    rintro ⟨empty, pos⟩
    rw [(List.append_eq_nil_iff.mp empty).1] at pos
    simp at pos
  simp only [readSome, if_neg enough, List.take_left, List.drop_left]

theorem readFull_decodes {eof unexpectedEOF : ε} (bytes : Bytes) :
    (readFull eof unexpectedEOF bytes.length).Decodes bytes bytes := by
  intro rest
  simp [readFull]

end Action

end DnaPow.Std
