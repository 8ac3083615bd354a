import DnaPow.Std.Bytes
import Mathlib.Data.List.Nodup
import Mathlib.Data.List.Perm.Basic

/-!
# The addresses a node knows

`RandGetAddresses` picks the addresses to connect to. When there are more eligible ones than
free connections, it takes in every round the first key whose place a random permutation leaves
fixed. A permutation with no fixed place picks nothing, and one whose first fixed place is far
behind picks too few.
-/

namespace DnaPow.Net

open DnaPow.Std

def maxOutboundCnt : Nat := 8

def numMissingDays : Int64 := 30

def numRetries : Nat := 10

/-- An hour in the unit of `UnixNano`. -/
def hour : Int64 := 3600 * 1000000000

structure NodeAddr where
  time : Int64
  services : UInt64
  ipAddr : Bytes
  port : UInt16
  id : UInt64
  deriving DecidableEq

structure KnownAddress where
  srcAddr : NodeAddr
  attempts : Nat
  deriving DecidableEq

namespace KnownAddress

def getID (ka : KnownAddress) : UInt64 := ka.srcAddr.id

def increaseAttempts (ka : KnownAddress) : KnownAddress := { ka with attempts := ka.attempts + 1 }

/-- `isBad` at the given time. -/
def isBad (now : Int64) (ka : KnownAddress) : Bool :=
  if ka.srcAddr.time < now - numMissingDays * hour * 24 then true
  else decide (ka.attempts ≥ numRetries)

@[simp]
theorem getID_increaseAttempts (ka : KnownAddress) : ka.increaseAttempts.getID = ka.getID := rfl

end KnownAddress

/-- `KnownAddressList`: a map whose keys are the identifiers of its addresses, in the order in
which a loop visits it. -/
structure KnownAddressList where
  list : List KnownAddress
  distinct : (list.map KnownAddress.getID).Nodup

namespace KnownAddressList

def lookup (al : KnownAddressList) (id : UInt64) : Option KnownAddress :=
  al.list.find? fun ka => ka.getID = id

/-- Change the entry with the given key in place. -/
def modify (al : KnownAddressList) (id : UInt64) (change : KnownAddress → KnownAddress)
    (keeps : ∀ ka, ka.getID = id → (change ka).getID = id) : KnownAddressList where
  list := al.list.map fun ka => if ka.getID = id then change ka else ka
  distinct := by
    have same : (al.list.map fun ka => if ka.getID = id then change ka else ka).map
        KnownAddress.getID = al.list.map KnownAddress.getID := by
      rw [List.map_map]
      apply List.map_congr_left
      intro ka _
      by_cases found : ka.getID = id
      · simp [found, keeps ka found]
      · simp [found]
    rw [same]
    exact al.distinct

/-- `increaseAttempts` of the entry with the given key. -/
def increaseAttempts (al : KnownAddressList) (id : UInt64) : KnownAddressList :=
  al.modify id KnownAddress.increaseAttempts fun _ same => same

/-- `UpdateAddress`. -/
def updateAddress (al : KnownAddressList) (na : NodeAddr) : KnownAddressList :=
  al.modify na.id
    (fun ka =>
      if na.time > ka.srcAddr.time ∨ ka.srcAddr.services &&& na.services ≠ na.services then
        { ka with srcAddr := na }
      else ka)
    (by
      intro ka same
      split
      exacts [rfl, same])

/-- `AddAddressToKnownAddress`. -/
def addAddressToKnownAddress (al : KnownAddressList) (na : NodeAddr) : KnownAddressList :=
  if known : na.id ∈ al.list.map KnownAddress.getID then al.updateAddress na
  else
    { list := al.list ++ [⟨na, 0⟩]
      distinct := by
        rw [List.map_append, List.nodup_append_comm]
        exact List.nodup_cons.mpr ⟨known, al.distinct⟩ }

/-- `DelAddressFromList`. -/
def delAddressFromList (al : KnownAddressList) (id : UInt64) : KnownAddressList where
  list := al.list.filter fun ka => ka.getID ≠ id
  distinct := al.distinct.sublist (List.filter_sublist.map _)

end KnownAddressList

def isInNbrList (id : UInt64) (nbrAddrs : List NodeAddr) : Bool :=
  nbrAddrs.any fun na => id = na.id

/-- An address to connect to: not a neighbour and not bad. `clock` is the time at which the entry
with the identifier is looked at. -/
def eligible (clock : UInt64 → Int64) (nbrAddrs : List NodeAddr) (ka : KnownAddress) : Bool :=
  isInNbrList ka.getID nbrAddrs = false ∧ ka.isBad (clock ka.getID) = false

namespace KnownAddressList

/-- The keys that `RandGetAddresses` chooses from. -/
def keys (clock : UInt64 → Int64) (nbrAddrs : List NodeAddr) (al : KnownAddressList) :
    List UInt64 :=
  (al.list.filter (eligible clock nbrAddrs)).map KnownAddress.getID

/-- The loop of `RandGetAddresses` that takes all the keys. -/
def takeAll : List UInt64 → KnownAddressList × List NodeAddr → KnownAddressList × List NodeAddr
  | [], taken => taken
  | v :: keys, (al, addrs) =>
      match al.lookup v with
      | none => takeAll keys (al, addrs)
      | some ka => takeAll keys (al.increaseAttempts v, addrs ++ [ka.srcAddr])

/-- The inner loop of `RandGetAddresses` from index `j` on: the first index that is in its place
and whose key is known. -/
def firstInPlace (al : KnownAddressList) (order : List Nat) : Nat → List UInt64 →
    Option (Nat × KnownAddress)
  | _, [] => none
  | j, v :: keys =>
      if order[j]? = some j then
        match al.lookup v with
        | none => firstInPlace al order (j + 1) keys
        | some ka => some (j, ka)
      else firstInPlace al order (j + 1) keys

/-- The outer loop of `RandGetAddresses`, for so many rounds. -/
def takeInPlace (order : List Nat) : Nat → List UInt64 →
    KnownAddressList × List NodeAddr → KnownAddressList × List NodeAddr
  | 0, _, taken => taken
  | count + 1, keys, (al, addrs) =>
      match al.firstInPlace order 0 keys with
      | none => takeInPlace order count keys (al, addrs)
      | some (j, ka) =>
          takeInPlace order count (keys.take j ++ keys.drop (j + 1))
            (al.increaseAttempts ka.getID, addrs ++ [ka.srcAddr])

/-- `RandGetAddresses`, where `order` is what `rand.Perm` returns. -/
def randGetAddresses (clock : UInt64 → Int64) (order : List Nat) (nbrAddrs : List NodeAddr)
    (al : KnownAddressList) : KnownAddressList × List NodeAddr :=
  let keys := al.keys clock nbrAddrs
  if maxOutboundCnt - nbrAddrs.length > keys.length then takeAll keys (al, [])
  else takeInPlace order (maxOutboundCnt - nbrAddrs.length) keys (al, [])

/-- What a selection for so many free connections has to do. -/
structure Selects (free : Nat) (suitable : KnownAddress → Bool) (al : KnownAddressList)
    (taken : KnownAddressList × List NodeAddr) : Prop where
  length : taken.2.length = min free (al.list.filter suitable).length
  distinct : taken.2.Nodup
  suitable : ∀ addr ∈ taken.2, ∃ ka ∈ al.list, suitable ka ∧ ka.srcAddr = addr
  attempts : taken.1.list = al.list.map fun ka =>
    if ka.srcAddr ∈ taken.2 then ka.increaseAttempts else ka

/-! ## Entries -/

section Entries

variable {al : KnownAddressList} {id : UInt64} {ka : KnownAddress}

theorem lookup_eq_some_iff : al.lookup id = some ka ↔ ka ∈ al.list ∧ ka.getID = id := by
  constructor
  · intro found
    exact ⟨List.mem_of_find?_eq_some found, by simpa using List.find?_some found⟩
  · rintro ⟨member, rfl⟩
    rw [lookup]
    cases found : al.list.find? fun other => other.getID = ka.getID with
    | none => exact absurd (List.find?_eq_none.mp found ka member) (by simp)
    | some other =>
      have same : other.getID = ka.getID := by simpa using List.find?_some found
      rw [List.inj_on_of_nodup_map al.distinct (List.mem_of_find?_eq_some found) member same]

theorem mem_increaseAttempts (id : UInt64) (member : ka ∈ al.list) :
    ∃ after ∈ (al.increaseAttempts id).list, after.srcAddr = ka.srcAddr := by
  refine ⟨if ka.getID = id then ka.increaseAttempts else ka, List.mem_map_of_mem member, ?_⟩
  split <;> rfl

end Entries

/-! ## The keys that are taken -/

/-- The addresses of the entries are in the list. -/
def Known (al : KnownAddressList) (entries : List KnownAddress) : Prop :=
  ∀ ka ∈ entries, ∃ held ∈ al.list, held.srcAddr = ka.srcAddr

section Taking

variable {al : KnownAddressList} {entries : List KnownAddress} {ka : KnownAddress}
variable {addrs : List NodeAddr} {order : List Nat}

theorem Known.increaseAttempts (known : al.Known entries) (id : UInt64) :
    (al.increaseAttempts id).Known entries := by
  intro ka member
  obtain ⟨held, there, address⟩ := known ka member
  obtain ⟨after, stays, same⟩ := mem_increaseAttempts id there
  exact ⟨after, stays, same.trans address⟩

theorem Known.mono {fewer : List KnownAddress} (known : al.Known entries)
    (subset : fewer ⊆ entries) : al.Known fewer :=
  fun ka member => known ka (subset member)

theorem Known.lookup (known : al.Known entries) (member : ka ∈ entries) :
    ∃ held, al.lookup ka.getID = some held ∧ held.srcAddr = ka.srcAddr := by
  obtain ⟨held, there, address⟩ := known ka member
  have same : held.getID = ka.getID := congrArg NodeAddr.id address
  exact ⟨held, lookup_eq_some_iff.mpr ⟨there, same⟩, address⟩

/-- One round of the loop over the keys. -/
theorem takeAll_cons (known : al.Known (ka :: entries)) :
    takeAll ((ka :: entries).map KnownAddress.getID) (al, addrs) =
      takeAll (entries.map KnownAddress.getID)
        (al.increaseAttempts ka.getID, addrs ++ [ka.srcAddr]) := by
  obtain ⟨held, found, address⟩ := known.lookup List.mem_cons_self
  simp only [List.map_cons, takeAll, found, address]

theorem takeAll_addrs (known : al.Known entries) :
    (takeAll (entries.map KnownAddress.getID) (al, addrs)).2 =
      addrs ++ entries.map KnownAddress.srcAddr := by
  induction entries generalizing al addrs with
  | nil => simp [takeAll]
  | cons ka entries ih =>
    rw [takeAll_cons known, ih ((known.mono (List.subset_cons_self ka entries)).increaseAttempts _)]
    simp

/-- An entry counts how often its key is taken. -/
theorem takeAll_list (known : al.Known entries) :
    (takeAll (entries.map KnownAddress.getID) (al, addrs)).1.list = al.list.map fun ka =>
      { ka with attempts := ka.attempts + (entries.map KnownAddress.getID).count ka.getID } := by
  induction entries generalizing al addrs with
  | nil => simp [takeAll]
  | cons ka entries ih =>
    rw [takeAll_cons known, ih ((known.mono (List.subset_cons_self ka entries)).increaseAttempts _)]
    simp only [increaseAttempts, modify, List.map_map]
    apply List.map_congr_left
    intro entry _
    by_cases same : entry.getID = ka.getID
    · simp only [Function.comp, same, if_true, KnownAddress.getID_increaseAttempts,
        List.map_cons, List.count_cons_self]
      rw [KnownAddress.increaseAttempts, Nat.add_right_comm, Nat.add_assoc]
    · simp [same, Ne.symm same]

/-- Keys whose index is not in its place are passed over. -/
theorem firstInPlace_append {read : Nat} {before after : List UInt64}
    (moved : ∀ i, read ≤ i → i < read + before.length → order[i]? ≠ some i) :
    al.firstInPlace order read (before ++ after) =
      al.firstInPlace order (read + before.length) after := by
  induction before generalizing read with
  | nil => simp
  | cons v before ih =>
    have first : order[read]? ≠ some read := moved read (le_refl _) (by simp)
    have shifted := @ih (read + 1) fun i above below =>
      moved i (by omega) (by simp only [List.length_cons]; omega)
    rw [List.cons_append, firstInPlace, if_neg first, shifted, List.length_cons]
    congr 1
    omega

/-- With `first` the first index in its place, the rounds take the keys from there on. -/
theorem takeInPlace_eq {first : Nat} (known : al.Known entries)
    (moved : ∀ i < first, order[i]? ≠ some i)
    (fixed : first < entries.length → order[first]? = some first) (count : Nat) :
    takeInPlace order count (entries.map KnownAddress.getID) (al, addrs) =
      takeAll (((entries.drop first).take count).map KnownAddress.getID) (al, addrs) := by
  induction count generalizing al entries addrs with
  | zero => simp [takeInPlace, takeAll]
  | succ count ih =>
    rcases Nat.lt_or_ge first entries.length with inside | outside
    · -- The key at `first` is taken, and the next one moves into its place.
      obtain ⟨before, ka, after, rfl, rfl⟩ :
          ∃ before ka after, entries = before ++ ka :: after ∧ first = before.length :=
        ⟨entries.take first, entries[first], entries.drop (first + 1), by simp, by
          rw [List.length_take]; omega⟩
      obtain ⟨held, found, address⟩ := known.lookup (List.mem_append_right before List.mem_cons_self)
      have picked : al.firstInPlace order 0 ((before ++ ka :: after).map KnownAddress.getID) =
          some (before.length, held) := by
        rw [List.map_append, List.map_cons, firstInPlace_append (by simpa using moved)]
        simp [firstInPlace, fixed inside, found]
      have fewer : before ++ after ⊆ before ++ ka :: after := by
        intro other member
        simp only [List.mem_append, List.mem_cons] at member ⊢
        tauto
      have same : held.getID = ka.getID := congrArg NodeAddr.id address
      have cut : ((before ++ ka :: after).map KnownAddress.getID).take before.length ++
          ((before ++ ka :: after).map KnownAddress.getID).drop (before.length + 1) =
          (before ++ after).map KnownAddress.getID := by
        simp [← List.drop_drop]
      rw [takeInPlace, picked]
      dsimp only
      rw [cut, same, address, ih ((known.mono fewer).increaseAttempts ka.getID)
        fun _ => fixed inside, List.drop_left, List.drop_left, List.take_succ_cons]
      refine (takeAll_cons (known.mono fun other member => ?_)).symm
      exact List.mem_append_right before
        (List.cons_subset_cons ka (List.take_subset count after) member)
    · have none : al.firstInPlace order 0 (entries.map KnownAddress.getID) = none := by
        rw [← List.append_nil (entries.map _), firstInPlace_append, firstInPlace]
        intro i _ below
        rw [List.length_map] at below
        exact moved i (by omega)
      rw [takeInPlace, none]
      dsimp only
      rw [ih known fixed, List.drop_eq_nil_of_le outside]
      simp

/-- What is taken meets every part of the specification but, perhaps, the number. -/
theorem selects_takeAll_iff {free : Nat} {suitable : KnownAddress → Bool}
    (picked : entries.Sublist (al.list.filter suitable)) :
    Selects free suitable al (takeAll (entries.map KnownAddress.getID) (al, [])) ↔
      entries.length = min free (al.list.filter suitable).length := by
  have known : al.Known entries := fun ka member =>
    ⟨ka, List.mem_of_mem_filter (picked.subset member), rfl⟩
  have addresses : (takeAll (entries.map KnownAddress.getID) (al, [])).2 =
      entries.map KnownAddress.srcAddr := takeAll_addrs known
  have ids : (entries.map KnownAddress.getID).Nodup :=
    al.distinct.sublist ((picked.trans List.filter_sublist).map _)
  constructor
  · intro selects
    rw [← selects.length, addresses, List.length_map]
  · intro length
    refine ⟨by rw [addresses, List.length_map, length], ?_, ?_, ?_⟩
    · rw [addresses]
      apply List.Nodup.of_map NodeAddr.id
      rw [List.map_map]
      exact ids
    · intro addr member
      rw [addresses] at member
      obtain ⟨ka, held, rfl⟩ := List.mem_map.mp member
      obtain ⟨there, fits⟩ := List.mem_filter.mp (picked.subset held)
      exact ⟨ka, there, fits, rfl⟩
    · rw [takeAll_list known]
      apply List.map_congr_left
      intro ka member
      rw [addresses]
      -- Two entries of the list have the same address only if they are the same.
      have same : ka.srcAddr ∈ entries.map KnownAddress.srcAddr ↔
          ka.getID ∈ entries.map KnownAddress.getID := by
        constructor
        · intro held
          obtain ⟨other, there, address⟩ := List.mem_map.mp held
          exact List.mem_map.mpr ⟨other, there, congrArg NodeAddr.id address⟩
        · intro held
          obtain ⟨other, there, id⟩ := List.mem_map.mp held
          have equal := List.inj_on_of_nodup_map al.distinct
            (List.mem_of_mem_filter (picked.subset there)) member id
          exact List.mem_map.mpr ⟨other, there, by rw [equal]⟩
      by_cases held : ka.getID ∈ entries.map KnownAddress.getID
      · rw [if_pos (same.mpr held), List.count_eq_one_of_mem ids held, KnownAddress.increaseAttempts]
      · rw [if_neg (mt same.mp held), List.count_eq_zero_of_not_mem held]
        rfl

end Taking

/-! ## The selection -/

/-- The first index in its place, or the length if there is none below it. -/
theorem exists_first_inPlace (order : List Nat) (length : Nat) :
    ∃ first, (∀ i < first, order[i]? ≠ some i) ∧
      (first < length → order[first]? = some first) := by
  by_cases fixed : ∃ i : Nat, order[i]? = some i
  · exact ⟨Nat.find fixed, fun i below => Nat.find_min fixed below, fun _ => Nat.find_spec fixed⟩
  · push Not at fixed
    exact ⟨length, fun i _ => fixed i, fun below => absurd below (lt_irrefl _)⟩

theorem selects_takeInPlace_iff {count : Nat} {suitable : KnownAddress → Bool}
    (al : KnownAddressList) (order : List Nat) (positive : 0 < count)
    (enough : count ≤ (al.list.filter suitable).length) :
    Selects count suitable al
        (takeInPlace order count ((al.list.filter suitable).map KnownAddress.getID) (al, [])) ↔
      ∃ i, order[i]? = some i ∧ i + count ≤ (al.list.filter suitable).length := by
  obtain ⟨first, moved, fixed⟩ := exists_first_inPlace order (al.list.filter suitable).length
  have known : al.Known (al.list.filter suitable) := fun ka member =>
    ⟨ka, List.mem_of_mem_filter member, rfl⟩
  rw [takeInPlace_eq known moved fixed,
    selects_takeAll_iff ((List.take_sublist _ _).trans (List.drop_sublist _ _)),
    List.length_take, List.length_drop]
  constructor
  · intro length
    exact ⟨first, fixed (by omega), by omega⟩
  · rintro ⟨i, inPlace, fits⟩
    have least : first ≤ i := Nat.le_of_not_lt fun below => moved i below inPlace
    omega

/-- The selection is as it should be exactly if there are fewer eligible addresses than free
connections, or the permutation has a fixed place with enough keys from there on. -/
theorem randGetAddresses_selects_iff (clock : UInt64 → Int64) (order : List Nat)
    (nbrAddrs : List NodeAddr) (al : KnownAddressList)
    (room : nbrAddrs.length < maxOutboundCnt) :
    Selects (maxOutboundCnt - nbrAddrs.length) (eligible clock nbrAddrs) al
        (al.randGetAddresses clock order nbrAddrs) ↔
      (al.list.filter (eligible clock nbrAddrs)).length < maxOutboundCnt - nbrAddrs.length ∨
        ∃ i, order[i]? = some i ∧ i + (maxOutboundCnt - nbrAddrs.length) ≤
          (al.list.filter (eligible clock nbrAddrs)).length := by
  have positive : 0 < maxOutboundCnt - nbrAddrs.length := Nat.sub_pos_of_lt room
  rw [randGetAddresses, keys, List.length_map]
  rcases Nat.lt_or_ge (al.list.filter (eligible clock nbrAddrs)).length
    (maxOutboundCnt - nbrAddrs.length) with few | many
  · rw [if_pos few, selects_takeAll_iff (List.Sublist.refl _)]
    exact iff_of_true (Nat.min_eq_right (Nat.le_of_lt few)).symm (.inl few)
  · rw [if_neg (Nat.not_lt.mpr many), selects_takeInPlace_iff al order positive many]
    exact (or_iff_right (Nat.not_lt.mpr many)).symm

/-- Two eligible addresses and room for one more connection. -/
def sampleList : KnownAddressList := ⟨[⟨⟨0, 1, [], 1, 1⟩, 0⟩, ⟨⟨0, 1, [], 1, 2⟩, 0⟩], by decide⟩

/-- Seven neighbours. -/
def sampleNeighbours : List NodeAddr := List.replicate 7 ⟨0, 1, [], 1, 3⟩

theorem randGetAddresses_selects_identity :
    sampleNeighbours.length < maxOutboundCnt ∧
      Selects (maxOutboundCnt - sampleNeighbours.length) (eligible (fun _ => 0) sampleNeighbours)
        sampleList (sampleList.randGetAddresses (fun _ => 0) [0, 1] sampleNeighbours) :=
  ⟨by decide, (randGetAddresses_selects_iff _ _ _ _ (by decide)).mpr
    (.inr ⟨0, rfl, by decide⟩)⟩

/-- A permutation that leaves nothing in its place picks nothing. -/
theorem randGetAddresses_swapped :
    [1, 0].Perm (List.range 2) ∧
      ¬ Selects (maxOutboundCnt - sampleNeighbours.length)
        (eligible (fun _ => 0) sampleNeighbours) sampleList
        (sampleList.randGetAddresses (fun _ => 0) [1, 0] sampleNeighbours) := by
  refine ⟨by decide, fun selects => ?_⟩
  exact absurd selects.length (by decide)

end KnownAddressList

end DnaPow.Net
