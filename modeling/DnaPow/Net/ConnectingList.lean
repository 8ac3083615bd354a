import DnaPow.Std.Bytes
import Mathlib.Data.List.Induction
import Mathlib.Data.List.Nodup

/-!
# The list of addresses that a node is connecting to

`RemoveAddrInConnectingList` collects its result in a variable that starts out empty and is
only set when the address is found. Removing an address that is not in the list, as the
handshake of an inbound peer does, drops all the others.
-/

namespace DnaPow.Net

open DnaPow.Std

/-- `ConnectingAddrs`. -/
abbrev ConnectingAddrs := List Bytes

/-- `SetAddrInConnectingList`, with whether the address was added. -/
def setAddrInConnectingList (addrs : ConnectingAddrs) (addr : Bytes) : Bool × ConnectingAddrs :=
  if addr ∈ addrs then (false, addrs) else (true, addrs ++ [addr])

/-- The loop of `RemoveAddrInConnectingList` from the given index on, for so many more rounds.
`append` moves the elements behind the index within the array that the loop reads, and leaves
the last one also in its old place. -/
def removeLoop (addr : Bytes) : Nat → Nat → ConnectingAddrs → ConnectingAddrs → ConnectingAddrs
  | 0, _, _, addrs => addrs
  | rounds + 1, i, array, addrs =>
      if array[i]? = some addr then
        let kept := array.take i ++ array.drop (i + 1)
        removeLoop addr rounds (i + 1) (kept ++ array.drop (array.length - 1)) kept
      else removeLoop addr rounds (i + 1) array addrs

/-- `RemoveAddrInConnectingList`. -/
def removeAddrInConnectingList (addrs : ConnectingAddrs) (addr : Bytes) : ConnectingAddrs :=
  removeLoop addr addrs.length 0 addrs []

/-- A call of one of the two functions. -/
inductive ConnectingCall where
  | set (addr : Bytes)
  | remove (addr : Bytes)
  deriving DecidableEq, Repr

namespace ConnectingCall

def addr : ConnectingCall → Bytes
  | set addr => addr
  | remove addr => addr

@[simp]
theorem addr_set (addr : Bytes) : (set addr).addr = addr := rfl

@[simp]
theorem addr_remove (addr : Bytes) : (remove addr).addr = addr := rfl

def run (addrs : ConnectingAddrs) : ConnectingCall → ConnectingAddrs
  | set addr => (setAddrInConnectingList addrs addr).2
  | remove addr => removeAddrInConnectingList addrs addr

/-- The list of a new node after the given calls. -/
def runAll (calls : List ConnectingCall) : ConnectingAddrs := calls.foldl run []

/-- The last call with the address was a `Set`: the attempt to connect is in progress. -/
def InProgress (calls : List ConnectingCall) (addr : Bytes) : Prop :=
  (calls.filter fun call => call.addr = addr).getLast? = some (.set addr)

instance (calls : List ConnectingCall) (addr : Bytes) : Decidable (InProgress calls addr) :=
  inferInstanceAs (Decidable (_ = _))

/-- The list holds exactly the addresses in progress, without repetition. -/
def Exact (calls : List ConnectingCall) (addrs : ConnectingAddrs) : Prop :=
  addrs.Nodup ∧ ∀ addr, addr ∈ addrs ↔ InProgress calls addr

/-- What is removed is in progress, or nothing is. -/
def Removable (calls : List ConnectingCall) : ConnectingCall → Prop
  | set _ => True
  | remove addr => InProgress calls addr ∨ ∀ other, ¬ InProgress calls other

end ConnectingCall

/-! ## Removing -/

section Remove

variable {addr : Bytes}

/-- Once the address does not occur any more, the result stays. -/
theorem removeLoop_of_not_mem {rounds i : Nat} {array addrs : ConnectingAddrs}
    (absent : addr ∉ array.drop i) : removeLoop addr rounds i array addrs = addrs := by
  induction rounds generalizing i with
  | zero => rfl
  | succ rounds ih =>
    have other : array[i]? ≠ some addr := by
      intro found
      apply absent
      rw [List.mem_iff_getElem?]
      exact ⟨0, by simpa using found⟩
    rw [removeLoop, if_neg other]
    apply ih
    intro later
    apply absent
    rw [← List.drop_drop] at later
    exact List.mem_of_mem_drop later

/-- The round that finds the address cuts it out. -/
theorem removeLoop_found {before after addrs : ConnectingAddrs} {rounds : Nat}
    (distinct : addr ∉ before ++ after) :
    removeLoop addr (rounds + 1) before.length (before ++ addr :: after) addrs = before ++ after := by
  have found : (before ++ addr :: after)[before.length]? = some addr := by simp
  rw [removeLoop, if_pos found]
  have kept : (before ++ addr :: after).take before.length ++
      (before ++ addr :: after).drop (before.length + 1) = before ++ after := by simp
  simp only [kept]
  apply removeLoop_of_not_mem
  -- What `append` leaves in the last place is the address only when that place has been read.
  rcases after.eq_nil_or_concat' with rfl | ⟨init, last, rfl⟩
  · simp
  · intro later
    apply distinct
    have split : (before ++ addr :: (init ++ [last])).drop
        ((before ++ addr :: (init ++ [last])).length - 1) = [last] := by
      have length : (before ++ addr :: (init ++ [last])).length - 1 =
          (before ++ addr :: init).length := by simp
      rw [length, show before ++ addr :: (init ++ [last]) = (before ++ addr :: init) ++ [last] by
        simp, List.drop_left]
    rw [split] at later
    have member := List.mem_of_mem_drop later
    simp only [List.mem_append, List.mem_singleton] at member ⊢
    tauto

theorem removeLoop_of_mem {after addrs : ConnectingAddrs} (read unread : ConnectingAddrs)
    (distinct : addr ∉ read ++ unread ++ after) :
    removeLoop addr (unread.length + after.length + 1) read.length
      (read ++ unread ++ addr :: after) addrs = read ++ unread ++ after := by
  induction unread generalizing read with
  | nil =>
    rw [List.append_nil] at distinct ⊢
    exact removeLoop_found distinct
  | cons first unread ih =>
    have other : (read ++ first :: unread ++ addr :: after)[read.length]? ≠ some addr := by
      intro same
      apply distinct
      have equal : first = addr := by simpa using same
      simp [equal]
    have shifted := ih (read ++ [first]) (by simpa using distinct)
    rw [List.length_cons, show unread.length + 1 + after.length + 1 =
      unread.length + after.length + 1 + 1 by omega, removeLoop, if_neg other]
    simpa using shifted

/-- All that `RemoveAddrInConnectingList` does to a list without repetition. -/
theorem removeAddrInConnectingList_eq {addrs : ConnectingAddrs} (distinct : addrs.Nodup)
    (addr : Bytes) :
    removeAddrInConnectingList addrs addr = if addr ∈ addrs then addrs.erase addr else [] := by
  rw [removeAddrInConnectingList]
  split
  case isTrue member =>
    obtain ⟨before, after, rfl⟩ := List.append_of_mem member
    have absent : addr ∉ before ++ after :=
      (List.nodup_cons.mp (List.nodup_middle.mp distinct)).1
    have found : removeLoop addr (before.length + after.length + 1) 0 (before ++ addr :: after) [] =
        before ++ after := removeLoop_of_mem [] before absent
    rw [List.erase_append_right _ fun early => absent (List.mem_append_left _ early),
      List.erase_cons_head]
    simpa [Nat.add_assoc] using found
  case isFalse absent =>
    exact removeLoop_of_not_mem (by simpa using absent)

end Remove

namespace ConnectingCall

/-! ## Runs -/

section Runs

variable {calls : List ConnectingCall} {call : ConnectingCall} {addrs : ConnectingAddrs}

/-- A call decides about its own address and about no other. -/
theorem inProgress_append (addr : Bytes) : InProgress (calls ++ [call]) addr ↔
    if call.addr = addr then call = .set addr else InProgress calls addr := by
  rw [InProgress, List.filter_append]
  by_cases same : call.addr = addr
  · simp [same]
  · simp [same, InProgress]

theorem runAll_append : runAll (calls ++ [call]) = run (runAll calls) call := by
  simp [runAll]

/-- A `Set` keeps the list exact. -/
theorem exact_set (exact : Exact calls addrs) (addr : Bytes) :
    Exact (calls ++ [.set addr]) (run addrs (.set addr)) := by
  obtain ⟨distinct, holds⟩ := exact
  have members : ∀ other, other ∈ run addrs (.set addr) ↔ other = addr ∨ other ∈ addrs := by
    intro other
    by_cases member : addr ∈ addrs
    · have stays : run addrs (.set addr) = addrs := by
        simp [run, setAddrInConnectingList, member]
      rw [stays]
      constructor
      · exact .inr
      · rintro (rfl | held)
        exacts [member, held]
    · simp [run, setAddrInConnectingList, member, or_comm]
  constructor
  · by_cases member : addr ∈ addrs
    · simpa [run, setAddrInConnectingList, member] using distinct
    · simpa [run, setAddrInConnectingList, member, List.nodup_append] using
        ⟨distinct, fun other held => (ne_of_mem_of_not_mem held member)⟩
  · intro other
    rw [members, inProgress_append, holds]
    by_cases same : addr = other
    · simp [same]
    · simp [same, Ne.symm same]

/-- A `Remove` keeps the list exact only where it finds its address or an empty list. -/
theorem exact_remove (exact : Exact calls addrs) (addr : Bytes) :
    Exact (calls ++ [.remove addr]) (run addrs (.remove addr)) ↔
      Removable calls (.remove addr) := by
  obtain ⟨distinct, holds⟩ := exact
  have wanted : ∀ other,
      InProgress (calls ++ [.remove addr]) other ↔ other ≠ addr ∧ other ∈ addrs := by
    intro other
    rw [inProgress_append, holds]
    by_cases same : addr = other
    · simp [same]
    · simp [same, Ne.symm same]
  simp only [Exact, wanted, run, removeAddrInConnectingList_eq distinct, Removable, ← holds]
  by_cases member : addr ∈ addrs
  · simp only [member, if_true, true_or, iff_true]
    exact ⟨distinct.erase addr, fun other => distinct.mem_erase_iff⟩
  · simp only [member, if_false, false_or, List.nodup_nil, true_and]
    constructor
    · intro holdsNone other held
      exact List.not_mem_nil ((holdsNone other).mpr ⟨ne_of_mem_of_not_mem held member, held⟩)
    · intro none other
      simp [none other]

theorem exact_step (exact : Exact calls (runAll calls)) :
    Exact (calls ++ [call]) (runAll (calls ++ [call])) ↔ Removable calls call := by
  rw [runAll_append]
  cases call with
  | set addr => exact iff_of_true (exact_set exact addr) True.intro
  | remove addr => exact exact_remove exact addr

/-- The list is exact after every call as long as no call removes an address that is not in
progress while another one is. -/
theorem exact_along_iff (calls : List ConnectingCall) :
    (∀ done, done <+: calls → Exact done (runAll done)) ↔
      ∀ done call, done ++ [call] <+: calls → Removable done call := by
  constructor
  · intro exact done call starts
    exact (exact_step (exact done ((List.prefix_append done [call]).trans starts))).mp
      (exact _ starts)
  · intro removable done starts
    induction done using List.reverseRecOn with
    | nil => exact ⟨List.nodup_nil, fun addr => by simp [runAll, InProgress]⟩
    | append_singleton done call ih =>
        exact (exact_step (ih ((List.prefix_append done [call]).trans starts))).mpr
          (removable done call starts)

/-- An outbound attempt is forgotten when a peer that was never in the list is removed. -/
theorem exact_not_after_foreign_remove :
    ¬ Exact [.set [1], .remove [2]] (runAll [.set [1], .remove [2]]) := by
  rintro ⟨-, holds⟩
  have dropped : [1] ∉ runAll [.set [1], .remove [2]] := by decide
  exact dropped ((holds [1]).mpr (by decide))

end Runs

end ConnectingCall

end DnaPow.Net
