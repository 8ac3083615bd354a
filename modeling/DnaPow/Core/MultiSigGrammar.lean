import DnaPow.Core.ContractKind

/-!
# The grammar of multi-signature contracts

`IsMultiSigContract` scans a code for the required number of signatures, the keys,
their count and the opcode. It is compared with the grammar of such codes. It reads
on where the code ends after the count, it takes any byte above `PUSH1` for a count,
and it counts the keys in 16 bits.
-/

namespace DnaPow.Core

open DnaPow.Std Common Vm

/-! ## The grammar -/

/-- The pushes of a number: `PUSH1` to `PUSH16`, or its bytes, highest first. -/
inductive NumberPush : Nat → Bytes → Prop where
  | small {number : Nat} (positive : 1 ≤ number) (few : number ≤ 16) :
      NumberPush number [UInt8.ofNat (0x50 + number)]
  | oneByte (byte : UInt8) : NumberPush byte.toNat [1, byte]
  | twoBytes (high low : UInt8) : NumberPush (256 * high.toNat + low.toNat) [2, high, low]

/-- Keys as they stand in a code: each behind its length. -/
def keyBlocks (keys : List Bytes) : Bytes := keys.flatMap (33 :: ·)

/-- The codes of multi-signature contracts. -/
def IsMultiSigCode (code : Bytes) : Prop :=
  ∃ m n pushM pushN keys, NumberPush m pushM ∧ NumberPush n pushN ∧ keys.length = n ∧
    (∀ key ∈ keys, key.length = 33) ∧ 1 ≤ m ∧ m ≤ n ∧ n ≤ 1024 ∧
    code = pushM ++ (keyBlocks keys ++ (pushN ++ [0xae]))

/-! ## What the scanner reads -/

/-- What the scanner takes for a count: the bytes of a number, or a single byte, less
80, whatever the byte is. -/
inductive CountRead : Int → Bytes → Prop where
  | single {byte : UInt8} (notOne : byte ≠ 1) (notTwo : byte ≠ 2) :
      CountRead ((byte.toNat : Int) - 80) [byte]
  | oneByte (byte : UInt8) : CountRead byte.toNat [1, byte]
  | twoBytes (high low : UInt8) :
      CountRead (Int16.ofNat (256 * high.toNat + low.toNat)).toInt [2, high, low]

/-- A code that the scanner passes up to the count: what is left of it after the keys,
whose number it takes modulo 2^16. -/
structure Scans (code : Bytes) (m : Nat) (keys : List Bytes) (rest : Bytes) : Prop where
  split : ∃ pushM, NumberPush m pushM ∧ code = pushM ++ (keyBlocks keys ++ rest)
  sizes : ∀ key ∈ keys, key.length = 33
  next : ∃ byte tail, rest = byte :: tail ∧ byte ≠ 33
  positive : 1 ≤ m
  enough : m ≤ keys.length % 65536
  few : keys.length % 65536 ≤ 1024
  long : 37 ≤ code.length

/-- The codes that the scanner misreads: they end after the count or in it, or the count
is a byte above `PUSH16`, or there are 2^16 keys or more. -/
def Misread (code : Bytes) : Prop :=
  ∃ m keys rest, Scans code m keys rest ∧
    (rest = [1] ∨ CountRead (keys.length % 65536 : Nat) rest ∨
      ∃ push, CountRead (keys.length % 65536 : Nat) push ∧ rest = push ++ [0xae] ∧
        (1024 < keys.length ∨ ∃ byte, push = [byte] ∧ 0x60 < byte))

section Scan

variable {ε : Type} {code before rest : Bytes} {keys : List Bytes} {m : Nat}
  {push : Bytes} {n : Int16}

/-- The first byte of a push of a number tells its kind. -/
theorem NumberPush.first (isPush : NumberPush m push) :
    ∃ byte tail, push = byte :: tail ∧ byte ≠ 33 ∧
      ¬ (0x60 < byte ∨ byte < 0x51 ∧ byte ≠ 1 ∧ byte ≠ 2) := by
  cases isPush with
  | small positive few =>
    have values : ∀ number : Fin 17, 1 ≤ number.val →
        UInt8.ofNat (0x50 + number.val) ≠ 33 ∧ ¬ (0x60 < UInt8.ofNat (0x50 + number.val) ∨
          UInt8.ofNat (0x50 + number.val) < 0x51 ∧ UInt8.ofNat (0x50 + number.val) ≠ 1 ∧
          UInt8.ofNat (0x50 + number.val) ≠ 2) := by
      decide
    exact ⟨_, [], rfl, values ⟨m, by omega⟩ positive⟩
  | oneByte byte => exact ⟨1, _, rfl, by decide, by decide⟩
  | twoBytes high low => exact ⟨2, _, rfl, by decide, by decide⟩

/-- A small number is neither of the lengths of the other pushes. -/
theorem ofNat_small_ne {number : Nat} (positive : 1 ≤ number) (few : number ≤ 16) :
    UInt8.ofNat (0x50 + number) ≠ 1 ∧ UInt8.ofNat (0x50 + number) ≠ 2 ∧
      (UInt8.ofNat (0x50 + number)).toNat = 0x50 + number := by
  have values : ∀ number : Fin 17, 1 ≤ number.val → UInt8.ofNat (0x50 + number.val) ≠ 1 ∧
      UInt8.ofNat (0x50 + number.val) ≠ 2 ∧
      (UInt8.ofNat (0x50 + number.val)).toNat = 0x50 + number.val := by decide
  exact values ⟨number, by omega⟩ positive

/-- The push at the start of a code is determined by the code. -/
theorem NumberPush.append_inj {m' : Nat} {push push' tail tail' : Bytes}
    (isPush : NumberPush m push) (isPush' : NumberPush m' push')
    (same : push ++ tail = push' ++ tail') : m = m' ∧ push = push' ∧ tail = tail' := by
  cases isPush with
  | small positive few =>
    obtain ⟨notOne, notTwo, value⟩ := ofNat_small_ne positive few
    cases isPush' with
    | small positive' few' =>
      obtain ⟨-, -, value'⟩ := ofNat_small_ne positive' few'
      obtain ⟨sameByte, rfl⟩ := List.cons.inj same
      have sameNumber : m = m' := by
        have := congrArg UInt8.toNat sameByte
        omega
      exact ⟨sameNumber, by rw [sameNumber], rfl⟩
    | oneByte byte => exact absurd (List.cons.inj same).1 notOne
    | twoBytes high low => exact absurd (List.cons.inj same).1 notTwo
  | oneByte byte =>
    cases isPush' with
    | small positive' few' =>
      exact absurd (List.cons.inj same).1.symm (ofNat_small_ne positive' few').1
    | oneByte byte' =>
      obtain ⟨-, same⟩ := List.cons.inj same
      obtain ⟨rfl, rfl⟩ := List.cons.inj same
      exact ⟨rfl, rfl, rfl⟩
    | twoBytes high low => exact absurd (List.cons.inj same).1 (by decide)
  | twoBytes high low =>
    cases isPush' with
    | small positive' few' =>
      exact absurd (List.cons.inj same).1.symm (ofNat_small_ne positive' few').2.1
    | oneByte byte' => exact absurd (List.cons.inj same).1 (by decide)
    | twoBytes high' low' =>
      simp only [List.cons_append, List.nil_append, List.cons.injEq, true_and] at same
      obtain ⟨rfl, rfl, rfl⟩ := same
      exact ⟨rfl, rfl, rfl⟩

theorem keyBlocks_inj {keys' : List Bytes} {rest' : Bytes} (sizes : ∀ key ∈ keys, key.length = 33)
    (sizes' : ∀ key ∈ keys', key.length = 33) (next : ∃ byte tail, rest = byte :: tail ∧ byte ≠ 33)
    (next' : ∃ byte tail, rest' = byte :: tail ∧ byte ≠ 33)
    (same : keyBlocks keys ++ rest = keyBlocks keys' ++ rest') : keys = keys' ∧ rest = rest' := by
  induction keys generalizing keys' with
  | nil =>
    cases keys' with
    | nil => exact ⟨rfl, same⟩
    | cons key keys' =>
      obtain ⟨byte, tail, rfl, other⟩ := next
      exact absurd (List.cons.inj same).1 other
  | cons key keys ih =>
    cases keys' with
    | nil =>
      obtain ⟨byte, tail, rfl, other⟩ := next'
      exact absurd (List.cons.inj same).1.symm other
    | cons key' keys' =>
      obtain ⟨size, restSizes⟩ := List.forall_mem_cons.mp sizes
      obtain ⟨size', restSizes'⟩ := List.forall_mem_cons.mp sizes'
      simp only [keyBlocks, List.flatMap_cons, List.cons_append, List.append_assoc,
        List.cons.injEq, true_and] at same
      obtain ⟨rfl, later⟩ := List.append_inj same (size.trans size'.symm)
      obtain ⟨rfl, rfl⟩ := ih restSizes restSizes' later
      exact ⟨rfl, rfl⟩

/-- A code is scanned in one way. -/
theorem Scans.unique {m' : Nat} {keys' : List Bytes} {rest' : Bytes}
    (scans : Scans code m keys rest) (scans' : Scans code m' keys' rest') :
    m = m' ∧ keys = keys' ∧ rest = rest' := by
  obtain ⟨push, isPush, split⟩ := scans.split
  obtain ⟨push', isPush', split'⟩ := scans'.split
  obtain ⟨rfl, -, later⟩ := isPush.append_inj isPush' (split.symm.trans split')
  obtain ⟨rfl, rfl⟩ := keyBlocks_inj scans.sizes scans'.sizes scans.next scans'.next later
  exact ⟨rfl, rfl, rfl⟩

/-! ## Reading -/

theorem codeAt_append (before after : Bytes) (byte : UInt8) :
    codeAt (ε := ε) (before ++ byte :: after) before.length = .ok byte := by
  simp [codeAt]

theorem codeAt_shift (before rest : Bytes) (i : Nat) :
    codeAt (ε := ε) (before ++ rest) (before.length + i) = codeAt rest i := by
  unfold codeAt
  rw [List.getElem?_append_right (Nat.le_add_right _ _), Nat.add_sub_cancel_left]

theorem readNumber_shift (before rest : Bytes) :
    readNumber (ε := ε) (before ++ rest) before.length =
      (readNumber rest 0 >>= fun read => .ok (read.1, before.length + read.2)) := by
  have first := @codeAt_shift ε before rest 0
  rw [Nat.add_zero] at first
  have dropped : (before ++ rest).drop (before.length + 1) = rest.drop 1 := by
    rw [List.drop_append, Nat.add_sub_cancel_left, List.drop_eq_nil_of_le (Nat.le_succ _)]
    rfl
  simp only [readNumber, first, codeAt_shift, dropped, Nat.zero_add]
  cases codeAt (ε := ε) rest 0 with
  | error reason => rfl
  | panic => rfl
  | ok byte =>
    simp only [Outcome.bind_ok]
    split_ifs with isOne isTwo
    · cases codeAt (ε := ε) rest 1 <;> rfl
    · rfl
    · rfl

/-- The number at the start of a code. -/
theorem readNumber_push (isPush : NumberPush m push) (rest : Bytes) :
    readNumber (ε := ε) (push ++ rest) 0 = .ok (Int16.ofNat m, push.length) := by
  cases isPush with
  | small positive few =>
    obtain ⟨notOne, notTwo, value⟩ := ofNat_small_ne positive few
    have number : Int16.ofNat (UInt8.ofNat (0x50 + m)).toNat - 80 = Int16.ofNat m := by
      rw [value]
      have values : ∀ number : Fin 17,
          Int16.ofNat (0x50 + number.val) - 80 = Int16.ofNat number.val := by decide
      exact values ⟨m, by omega⟩
    have first : codeAt (ε := ε) ([UInt8.ofNat (0x50 + m)] ++ rest) 0 =
        .ok (UInt8.ofNat (0x50 + m)) := rfl
    simp only [readNumber, first, Outcome.bind_ok, if_neg notOne, if_neg notTwo, number,
      Outcome.pure_eq]
    rfl
  | oneByte byte => simp [readNumber, codeAt]
  | twoBytes high low => simp [readNumber, codeAt, bytesToInt16]

/-- The end of the scan: the count, which has to be the given one, and the opcode. -/
def scanEnd (n : Int16) (rest : Bytes) : Outcome ε Bool := do
  let (number, i) ← readNumber rest 0
  if n ≠ number then return false
  let last ← codeAt rest i
  return last = 0xae ∧ rest.length = i + 1

theorem length_keyBlocks (sizes : ∀ key ∈ keys, key.length = 33) :
    (keyBlocks keys).length = 34 * keys.length :=
  length_flatMap_of_forall fun key member => congrArg (· + 1) (sizes key member)

/-- One round of the loop passes one key. -/
theorem skipKeys_key {key : Bytes} (size : key.length = 33) (more : rest ≠ []) (fuel : Nat)
    (count : Int16) :
    skipKeys (ε := ε) (before ++ 33 :: key ++ rest) (fuel + 1) before.length count =
      skipKeys (before ++ 33 :: key ++ rest) fuel (before ++ 33 :: key).length (count + 1) := by
  have first : codeAt (ε := ε) (before ++ 33 :: key ++ rest) before.length = .ok 33 := by
    rw [List.append_assoc, List.cons_append]
    exact codeAt_append _ _ _
  have position : (before ++ 33 :: key).length = before.length + 34 := by
    rw [List.length_append, List.length_cons, size]
  have longer : ¬ (before ++ 33 :: key ++ rest).length ≤ before.length + 34 := by
    have := List.length_pos_iff.mpr more
    rw [List.length_append, position]
    omega
  rw [skipKeys, first]
  simp only [Outcome.bind_ok, if_true, if_neg longer, position]

/-- The scan passes all keys but a last one. -/
theorem skipKeys_keys (sizes : ∀ key ∈ keys, key.length = 33) (more : rest ≠ []) (fuel : Nat)
    (count : Int16) :
    skipKeys (ε := ε) (before ++ (keyBlocks keys ++ rest)) (keys.length + fuel) before.length count =
      skipKeys (before ++ keyBlocks keys ++ rest) fuel (before ++ keyBlocks keys).length
        (count + Int16.ofNat keys.length) := by
  induction keys generalizing before count with
  | nil => simp [keyBlocks]
  | cons key keys ih =>
    obtain ⟨size, restSizes⟩ := List.forall_mem_cons.mp sizes
    have code (later : Bytes) : before ++ (keyBlocks (key :: keys) ++ later) =
        before ++ 33 :: key ++ (keyBlocks keys ++ later) := by simp [keyBlocks]
    have total : count + 1 + Int16.ofNat keys.length =
        count + Int16.ofNat (keys.length + 1) := by
      rw [Int16.ofNat_add, Int16.add_assoc, Int16.add_comm 1]
      rfl
    have ends := code []
    rw [List.append_nil, List.append_nil] at ends
    rw [code, List.length_cons, Nat.add_right_comm,
      skipKeys_key size (List.append_ne_nil_of_right_ne_nil _ more), ih restSizes, total, ends]

/-- The scan of keys that something else follows. -/
theorem skipKeys_blocks (sizes : ∀ key ∈ keys, key.length = 33)
    (next : ∃ byte tail, rest = byte :: tail ∧ byte ≠ 33) {fuel : Nat} (enough : keys.length < fuel)
    (count : Int16) :
    skipKeys (ε := ε) (before ++ (keyBlocks keys ++ rest)) fuel before.length count =
      .ok (some (count + Int16.ofNat keys.length, (before ++ keyBlocks keys).length)) := by
  obtain ⟨fuel, rfl⟩ := Nat.exists_eq_add_of_lt enough
  obtain ⟨byte, tail, rfl, other⟩ := next
  rw [Nat.add_assoc, skipKeys_keys sizes (List.cons_ne_nil _ _), skipKeys, codeAt_append,
    Outcome.bind_ok, if_neg other]
  rfl

/-- A scan that ends in a key finds nothing. -/
theorem skipKeys_cut (sizes : ∀ key ∈ keys, key.length = 33) {cut : Bytes}
    (short : cut.length ≤ 33) {fuel : Nat} (enough : keys.length < fuel) (count : Int16) :
    skipKeys (ε := ε) (before ++ (keyBlocks keys ++ 33 :: cut)) fuel before.length count =
      .ok none := by
  obtain ⟨fuel, rfl⟩ := Nat.exists_eq_add_of_lt enough
  rw [Nat.add_assoc, skipKeys_keys sizes (List.cons_ne_nil _ _), skipKeys, codeAt_append,
    Outcome.bind_ok, if_pos rfl, if_pos]
  · rfl
  · simp only [List.length_append, List.length_cons]
    omega

/-- What follows the first number: keys, and then something else or a key that is the end. -/
theorem exists_keyBlocks (more : rest ≠ []) :
    (∃ keys later, rest = keyBlocks keys ++ later ∧ (∀ key ∈ keys, key.length = 33) ∧
      ∃ byte tail, later = byte :: tail ∧ byte ≠ 33) ∨
    ∃ keys cut, rest = keyBlocks keys ++ 33 :: cut ∧ (∀ key ∈ keys, key.length = 33) ∧
      cut.length ≤ 33 := by
  induction length : rest.length using Nat.strongRecOn generalizing rest with
  | _ size ih =>
    obtain ⟨byte, tail, rfl⟩ := List.exists_cons_of_ne_nil more
    by_cases isKey : byte = 33
    · subst isKey
      by_cases short : tail.length ≤ 33
      · exact .inr ⟨[], tail, rfl, List.forall_mem_nil _, short⟩
      · have size33 : (tail.take 33).length = 33 := by
          rw [List.length_take]
          omega
        have shorter : (tail.drop 33).length < size := by
          rw [← length, List.length_drop, List.length_cons]
          omega
        have left : tail.drop 33 ≠ [] := List.ne_nil_of_length_pos (by
          rw [List.length_drop]
          omega)
        have blocks (keys : List Bytes) (later : Bytes) (dropped : tail.drop 33 =
            keyBlocks keys ++ later) : 33 :: tail = keyBlocks (tail.take 33 :: keys) ++ later := by
          rw [keyBlocks, List.flatMap_cons, List.append_assoc, ← keyBlocks, ← dropped,
            List.cons_append, List.take_append_drop]
        rcases ih _ shorter left rfl with ⟨keys, later, dropped, sizes, next⟩ |
          ⟨keys, cut, dropped, sizes, short⟩
        · exact .inl ⟨_, later, blocks _ _ dropped, List.forall_mem_cons.mpr ⟨size33, sizes⟩, next⟩
        · exact .inr ⟨_, cut, blocks _ _ dropped, List.forall_mem_cons.mpr ⟨size33, sizes⟩, short⟩
    · exact .inl ⟨[], byte :: tail, rfl, List.forall_mem_nil _, byte, tail, rfl, isKey⟩

/-! ## The ranges of the numbers -/

theorem NumberPush.lt (isPush : NumberPush m push) : m < 65536 := by
  cases isPush with
  | small => omega
  | oneByte byte =>
    have := byte.toNat_lt
    omega
  | twoBytes high low =>
    have := high.toNat_lt
    have := low.toNat_lt
    omega

theorem toInt_ofNat_bmod (number : Nat) : (Int16.ofNat number).toInt = (number : Int).bmod 65536 :=
  Int16.toInt_ofNat

theorem required_inside (small : m < 65536) :
    ¬ (Int16.ofNat m < 1 ∨ 1024 < Int16.ofNat m) ↔ 1 ≤ m ∧ m ≤ 1024 := by
  rw [Int16.lt_iff_toInt_lt, Int16.lt_iff_toInt_lt, toInt_ofNat_bmod, Int.bmod_def]
  simp only [Int16.reduceToInt]
  split <;> omega

theorem count_inside {n : Nat} (positive : 1 ≤ m) (few : m ≤ 1024) :
    ¬ (Int16.ofNat n < Int16.ofNat m ∨ 1024 < Int16.ofNat n) ↔
      m ≤ n % 65536 ∧ n % 65536 ≤ 1024 := by
  rw [Int16.lt_iff_toInt_lt, Int16.lt_iff_toInt_lt, toInt_ofNat_bmod, toInt_ofNat_bmod,
    Int.bmod_def, Int.bmod_def]
  simp only [Int16.reduceToInt]
  split <;> split <;> omega

/-! ## The whole scan -/

/-- A code that is scanned up to the count: the rest decides. -/
theorem isMultiSigContract_scan (scans : Scans code m keys rest) :
    isMultiSigContract (ε := ε) code = scanEnd (Int16.ofNat keys.length) rest := by
  obtain ⟨push, isPush, split⟩ := scans.split
  obtain ⟨byte, tail, isFirst, -, allowed⟩ := isPush.first
  have few : m ≤ 1024 := scans.enough.trans scans.few
  have first : codeAt (ε := ε) code 0 = .ok byte := by
    rw [split, isFirst]
    rfl
  have number : readNumber (ε := ε) code 0 = .ok (Int16.ofNat m, push.length) := by
    rw [split]
    exact readNumber_push isPush _
  have enough : keys.length < code.length := by
    rw [split, isFirst]
    simp only [List.length_append, List.length_cons, length_keyBlocks scans.sizes]
    omega
  have skipped : skipKeys (ε := ε) code code.length push.length 0 =
      .ok (some (Int16.ofNat keys.length, (push ++ keyBlocks keys).length)) := by
    have blocks := @skipKeys_blocks ε push rest keys scans.sizes scans.next _ enough 0
    rw [Int16.zero_add, ← split] at blocks
    exact blocks
  rw [isMultiSigContract, if_neg (Nat.not_lt.mpr scans.long), first, Outcome.bind_ok,
    if_neg allowed, number, Outcome.bind_ok]
  dsimp only
  rw [if_neg ((required_inside isPush.lt).mpr ⟨scans.positive, few⟩), skipped, Outcome.bind_ok]
  dsimp only
  rw [if_neg ((count_inside scans.positive few).mpr ⟨scans.enough, scans.few⟩)]
  have whole : code = push ++ keyBlocks keys ++ rest := by rw [split, List.append_assoc]
  rw [whole, readNumber_shift, scanEnd]
  cases readNumber (ε := ε) rest 0 with
  | error reason => rfl
  | panic => rfl
  | ok read =>
    simp only [Outcome.bind_ok, codeAt_shift]
    split_ifs with other
    · rfl
    · cases codeAt (ε := ε) rest read.2 with
      | error reason => rfl
      | panic => rfl
      | ok last =>
        have ends : (push ++ keyBlocks keys ++ rest).length =
            (push ++ keyBlocks keys).length + read.2 + 1 ↔ rest.length = read.2 + 1 := by
          rw [List.length_append]
          omega
        simp only [Outcome.bind_ok, ends]

theorem NumberPush.length_le (isPush : NumberPush m push) : push.length ≤ 3 := by
  cases isPush <;> simp

/-- A code that may begin a contract begins with the push of a number. -/
theorem exists_numberPush {byte : UInt8} {tail : Bytes}
    (allowed : ¬ (0x60 < byte ∨ byte < 0x51 ∧ byte ≠ 1 ∧ byte ≠ 2))
    (long : 37 ≤ (byte :: tail).length) :
    ∃ m push later, NumberPush m push ∧ byte :: tail = push ++ later := by
  rw [List.length_cons] at long
  obtain ⟨second, tail, rfl⟩ := List.exists_cons_of_ne_nil
    (List.ne_nil_of_length_pos (by omega : 0 < tail.length))
  rw [List.length_cons] at long
  obtain ⟨third, tail, rfl⟩ := List.exists_cons_of_ne_nil
    (List.ne_nil_of_length_pos (by omega : 0 < tail.length))
  by_cases isOne : byte = 1
  · subst isOne
    exact ⟨_, _, third :: tail, .oneByte second, rfl⟩
  by_cases isTwo : byte = 2
  · subst isTwo
    exact ⟨_, _, tail, .twoBytes second third, rfl⟩
  -- what is left of the bytes is PUSH1 to PUSH16
  have range : 0x51 ≤ byte.toNat ∧ byte.toNat ≤ 0x60 := by
    simp only [UInt8.lt_iff_toNat_lt, ne_eq, isOne, isTwo, not_false_eq_true, and_true] at allowed
    change ¬ (96 < byte.toNat ∨ byte.toNat < 81) at allowed
    omega
  have isByte : UInt8.ofNat (0x50 + (byte.toNat - 0x50)) = byte := by
    rw [Nat.add_sub_cancel' (by omega)]
    exact UInt8.ofNat_toNat
  refine ⟨byte.toNat - 0x50, [byte], second :: third :: tail, ?_, rfl⟩
  have push := NumberPush.small (by omega : 1 ≤ byte.toNat - 0x50) (by omega)
  rwa [isByte] at push

/-- A code that is not rejected is scanned up to the count. -/
theorem exists_scan (kept : isMultiSigContract (ε := ε) code ≠ .ok false) :
    ∃ m keys rest, Scans code m keys rest := by
  unfold isMultiSigContract at kept
  by_cases long : code.length < 37
  · exact absurd (if_pos long) kept
  rw [if_neg long] at kept
  obtain ⟨byte, tail, rfl⟩ := List.exists_cons_of_ne_nil
    (List.ne_nil_of_length_pos (by omega : 0 < code.length))
  have first : codeAt (ε := ε) (byte :: tail) 0 = .ok byte := rfl
  rw [first, Outcome.bind_ok] at kept
  by_cases refused : 0x60 < byte ∨ byte < 0x51 ∧ byte ≠ 1 ∧ byte ≠ 2
  · exact absurd (if_pos refused) kept
  rw [if_neg refused] at kept
  obtain ⟨m, push, later, isPush, split⟩ := exists_numberPush refused (by simpa using long)
  have size : push.length ≤ 3 := isPush.length_le
  have more : later ≠ [] := by
    rintro rfl
    rw [split, List.append_nil] at long
    omega
  rw [split, readNumber_push isPush, Outcome.bind_ok] at kept
  dsimp only at kept
  by_cases outside : Int16.ofNat m < 1 ∨ 1024 < Int16.ofNat m
  · exact absurd (if_pos outside) kept
  rw [if_neg outside] at kept
  obtain ⟨positive, few⟩ := (required_inside isPush.lt).mp outside
  rcases exists_keyBlocks more with ⟨keys, rest, rfl, sizes, next⟩ | ⟨keys, cut, rfl, sizes, short⟩
  · have enough : keys.length < (push ++ (keyBlocks keys ++ rest)).length := by
      obtain ⟨next, tail, rfl, -⟩ := next
      simp only [List.length_append, List.length_cons, length_keyBlocks sizes]
      omega
    rw [skipKeys_blocks sizes next enough, Outcome.bind_ok, Int16.zero_add] at kept
    dsimp only at kept
    by_cases outside : Int16.ofNat keys.length < Int16.ofNat m ∨ 1024 < Int16.ofNat keys.length
    · exact absurd (if_pos outside) kept
    · obtain ⟨enough, few⟩ := (count_inside positive few).mp outside
      exact ⟨m, keys, rest, ⟨push, isPush, split⟩, sizes, next, positive, enough, few, by omega⟩
  · have enough : keys.length < (push ++ (keyBlocks keys ++ 33 :: cut)).length := by
      simp only [List.length_append, List.length_cons, length_keyBlocks sizes]
      omega
    rw [skipKeys_cut sizes short enough] at kept
    exact absurd rfl kept

/-! ## The count and the opcode -/

theorem readNumber_count {count : Int} (read : CountRead count push) (later : Bytes) :
    ∃ value : Int16, value.toInt = count ∧
      readNumber (ε := ε) (push ++ later) 0 = .ok (value, push.length) := by
  cases read with
  | @single byte notOne notTwo =>
    refine ⟨Int16.ofNat byte.toNat - 80, ?_, ?_⟩
    · have small := byte.toNat_lt
      have eighty : (80 : Int16).toInt = 80 := by decide
      rw [Int16.toInt_sub, toInt_ofNat_bmod, eighty, Int.bmod_def, Int.bmod_def]
      split <;> split <;> omega
    · have first : codeAt (ε := ε) ([byte] ++ later) 0 = .ok byte := rfl
      simp only [readNumber, first, Outcome.bind_ok, if_neg notOne, if_neg notTwo,
        Outcome.pure_eq]
      rfl
  | oneByte byte =>
    have small := byte.toNat_lt
    refine ⟨Int16.ofNat byte.toNat, Int16.toInt_ofNat_of_lt (by omega), ?_⟩
    simp [readNumber, codeAt]
  | twoBytes high low =>
    refine ⟨Int16.ofNat (256 * high.toNat + low.toNat), rfl, ?_⟩
    simp [readNumber, codeAt, bytesToInt16]

/-- The count is followed by nothing, or by one more byte that decides. -/
theorem scanEnd_count (read : CountRead n.toInt push) :
    (scanEnd n push : Outcome ε Bool) = .panic ∧ ∀ last tail,
      (scanEnd n (push ++ last :: tail) : Outcome ε Bool) =
        .ok (decide (last = 0xae ∧ tail = [])) := by
  constructor
  · obtain ⟨value, same, isRead⟩ := @readNumber_count ε _ _ read []
    obtain rfl := Int16.toInt_inj.mp same
    rw [List.append_nil] at isRead
    rw [scanEnd, isRead, Outcome.bind_ok]
    dsimp only
    rw [if_neg (not_not.mpr rfl), codeAt, List.getElem?_eq_none le_rfl]
    rfl
  · intro last tail
    obtain ⟨value, same, isRead⟩ := @readNumber_count ε _ _ read (last :: tail)
    obtain rfl := Int16.toInt_inj.mp same
    rw [scanEnd, isRead, Outcome.bind_ok]
    dsimp only
    rw [if_neg (not_not.mpr rfl), codeAt_append, Outcome.bind_ok]
    simp

/-- A rest that is not rejected has the count in front, or is the start of one. -/
theorem exists_count (positive : 1 ≤ n.toInt) (next : ∃ byte tail, rest = byte :: tail ∧ byte ≠ 33)
    (kept : (scanEnd n rest : Outcome ε Bool) ≠ .ok false) :
    rest = [1] ∨ ∃ push later, CountRead n.toInt push ∧ rest = push ++ later := by
  obtain ⟨byte, tail, rfl, -⟩ := next
  have first : codeAt (ε := ε) (byte :: tail) 0 = .ok byte := rfl
  have same (value : Int16) (i : Nat)
      (isRead : readNumber (ε := ε) (byte :: tail) 0 = .ok (value, i)) : n = value := by
    by_contra other
    rw [scanEnd, isRead, Outcome.bind_ok] at kept
    exact kept (if_pos other)
  by_cases isOne : byte = 1
  · subst isOne
    cases tail with
    | nil => exact .inl rfl
    | cons second later =>
      have read := same (Int16.ofNat second.toNat) 2 (by simp [readNumber, codeAt])
      refine .inr ⟨[1, second], later, ?_, rfl⟩
      rw [read, Int16.toInt_ofNat_of_lt (by have := second.toNat_lt; omega)]
      exact .oneByte second
  by_cases isTwo : byte = 2
  · subst isTwo
    have read := same (bytesToInt16 tail) 3 (by simp [readNumber, codeAt])
    cases tail with
    | nil =>
      subst read
      cases positive
    | cons high later =>
      cases later with
      | nil =>
        subst read
        cases positive
      | cons low later =>
        refine .inr ⟨[2, high, low], later, ?_, rfl⟩
        rw [read]
        exact .twoBytes high low
  · obtain ⟨value, isValue, isRead⟩ := @readNumber_count ε _ _ (.single isOne isTwo) tail
    refine .inr ⟨[byte], tail, ?_, rfl⟩
    rw [same value _ isRead, isValue]
    exact .single isOne isTwo

theorem toInt_count {n : Nat} (few : n % 65536 ≤ 1024) :
    (Int16.ofNat n).toInt = (n % 65536 : Nat) := by
  rw [toInt_ofNat_bmod, Int.bmod_def]
  split <;> omega

theorem scanEnd_panic_iff (positive : 1 ≤ n.toInt)
    (next : ∃ byte tail, rest = byte :: tail ∧ byte ≠ 33) :
    (scanEnd n rest : Outcome ε Bool) = .panic ↔ rest = [1] ∨ CountRead n.toInt rest := by
  constructor
  · intro panics
    have kept : (scanEnd n rest : Outcome ε Bool) ≠ .ok false := by
      rw [panics]
      simp
    rcases exists_count positive next kept with cut | ⟨push, later, read, rfl⟩
    · exact .inl cut
    · cases later with
      | nil => exact .inr (by rwa [List.append_nil])
      | cons last tail => cases ((scanEnd_count read).2 last tail).symm.trans panics
  · rintro (rfl | read)
    · rfl
    · exact (scanEnd_count read).1

theorem scanEnd_true_iff (positive : 1 ≤ n.toInt)
    (next : ∃ byte tail, rest = byte :: tail ∧ byte ≠ 33) :
    (scanEnd n rest : Outcome ε Bool) = .ok true ↔
      ∃ push, CountRead n.toInt push ∧ rest = push ++ [0xae] := by
  constructor
  · intro accepts
    have kept : (scanEnd n rest : Outcome ε Bool) ≠ .ok false := by
      rw [accepts]
      simp
    rcases exists_count positive next kept with rfl | ⟨push, later, read, rfl⟩
    · cases accepts
    · cases later with
      | nil =>
        rw [List.append_nil] at accepts
        cases (scanEnd_count read).1.symm.trans accepts
      | cons last tail =>
        have decided := Outcome.ok.inj (((scanEnd_count read).2 last tail).symm.trans accepts)
        obtain ⟨rfl, rfl⟩ := of_decide_eq_true decided
        exact ⟨push, read, rfl⟩
  · rintro ⟨push, read, rfl⟩
    rw [(scanEnd_count read).2 0xae []]
    rfl

end Scan

/-! ## What the test decides -/

/-- The test returns, and it accepts the codes of the grammar only. -/
def TestsGrammar (code : Bytes) : Prop :=
  isMultiSigContract (ε := Unit) code ≠ .panic ∧
    (isMultiSigContract (ε := Unit) code = .ok true ↔ IsMultiSigCode code)

section Decides

variable {code : Bytes}

/-- The codes of the grammar are scanned up to a count in one of the two forms. -/
theorem IsMultiSigCode.scans (isCode : IsMultiSigCode code) :
    ∃ m keys push, Scans code m keys (push ++ [0xae]) ∧ keys.length ≤ 1024 ∧
      NumberPush keys.length push := by
  obtain ⟨m, n, pushM, pushN, keys, isPush, isCount, rfl, sizes, positive, enough, few, rfl⟩ :=
    isCode
  obtain ⟨byte, tail, isFirst, notKey, -⟩ := isCount.first
  have inside : keys.length % 65536 = keys.length := Nat.mod_eq_of_lt (by omega)
  refine ⟨m, keys, pushN, ⟨⟨pushM, isPush, rfl⟩, sizes, ?_, positive, ?_, ?_, ?_⟩, few, isCount⟩
  · exact ⟨byte, tail ++ [0xae], by rw [isFirst, List.cons_append], notKey⟩
  · rwa [inside]
  · rwa [inside]
  · obtain ⟨first, rest, isStart, -⟩ := isPush.first
    rw [isStart, isFirst]
    simp only [List.length_append, List.length_cons, length_keyBlocks sizes]
    omega

/-- The pushes of numbers are counts. -/
theorem NumberPush.countRead {n : Nat} {push : Bytes} (isPush : NumberPush n push)
    (few : n ≤ 1024) : CountRead n push := by
  cases isPush with
  | small positive small =>
    obtain ⟨notOne, notTwo, value⟩ := ofNat_small_ne positive small
    have read := CountRead.single notOne notTwo
    rwa [value, Nat.cast_add, Nat.cast_ofNat, add_sub_cancel_left] at read
  | oneByte byte => exact .oneByte byte
  | twoBytes high low =>
    have read := CountRead.twoBytes high low
    rwa [Int16.toInt_ofNat_of_lt (by omega)] at read

/-- A count is the push of a number unless it is a byte above `PUSH16`. -/
theorem CountRead.numberPush {n : Nat} {push : Bytes} (read : CountRead n push)
    (positive : 1 ≤ n) (few : n ≤ 1024) (usual : ¬ ∃ byte, push = [byte] ∧ 0x60 < byte) :
    NumberPush n push := by
  generalize isCount : (n : Int) = count at read
  cases read with
  | @single byte notOne notTwo =>
    have low : ¬ 0x60 < byte := fun high => usual ⟨byte, rfl, high⟩
    rw [UInt8.lt_iff_toNat_lt] at low
    change ¬ 96 < byte.toNat at low
    have push := NumberPush.small (by omega : 1 ≤ byte.toNat - 0x50) (by omega)
    rw [Nat.add_sub_cancel' (by omega), UInt8.ofNat_toNat] at push
    rwa [show n = byte.toNat - 0x50 by omega]
  | oneByte byte =>
    rw [Nat.cast_inj.mp isCount]
    exact .oneByte byte
  | twoBytes high low =>
    have small := high.toNat_lt
    have small' := low.toNat_lt
    rw [toInt_ofNat_bmod, Int.bmod_def] at isCount
    have same : n = 256 * high.toNat + low.toNat := by split at isCount <;> omega
    rw [same]
    exact .twoBytes high low

/-- The counter of the keys holds their number without its upper bits, and no less than one. -/
theorem Scans.count {code rest : Bytes} {m : Nat} {keys : List Bytes}
    (scans : Scans code m keys rest) :
    (Int16.ofNat keys.length).toInt = (keys.length % 65536 : Nat) ∧
      1 ≤ (Int16.ofNat keys.length).toInt := by
  have value := toInt_count scans.few
  have positive := scans.positive
  have enough := scans.enough
  exact ⟨value, by omega⟩

/-- The codes of the grammar are taken. -/
theorem IsMultiSigCode.accepted {ε : Type} (isCode : IsMultiSigCode code) :
    isMultiSigContract (ε := ε) code = .ok true := by
  obtain ⟨m, keys, push, scans, few, isPush⟩ := isCode.scans
  obtain ⟨value, positive⟩ := scans.count
  rw [isMultiSigContract_scan scans, scanEnd_true_iff positive scans.next, value,
    Nat.mod_eq_of_lt (by omega : keys.length < 65536)]
  exact ⟨push, isPush.countRead few, rfl⟩

/-- A misread code ends the scan with a panic, or is taken without being of the grammar. -/
theorem Misread.not_testsGrammar {code : Bytes} (misread : Misread code) :
    ¬ TestsGrammar code := by
  obtain ⟨m, keys, rest, scans, misread⟩ := misread
  rintro ⟨returns, decides⟩
  obtain ⟨value, positive⟩ := scans.count
  rw [isMultiSigContract_scan scans] at returns decides
  rw [← value] at misread
  rcases misread with cut | ended | ⟨push, read, rfl, odd⟩
  · exact returns ((scanEnd_panic_iff positive scans.next).mpr (.inl cut))
  · exact returns ((scanEnd_panic_iff positive scans.next).mpr (.inr ended))
  · have accepts := (scanEnd_true_iff (ε := Unit) positive scans.next).mpr ⟨push, read, rfl⟩
    obtain ⟨m', keys', push', scans', few, isPush⟩ := (decides.mp accepts).scans
    obtain ⟨-, rfl, same⟩ := scans.unique scans'
    obtain ⟨rfl, -⟩ := List.append_inj' same rfl
    rcases odd with many | ⟨byte, rfl, high⟩
    · omega
    · obtain ⟨first, tail, isFirst, -, allowed⟩ := isPush.first
      obtain ⟨rfl, -⟩ := List.cons.inj isFirst
      exact allowed (.inl high)

/-- The test decides the grammar of the codes that it does not misread, and of no other. -/
theorem testsGrammar_iff (code : Bytes) : TestsGrammar code ↔ ¬ Misread code := by
  constructor
  · exact fun decides misread => misread.not_testsGrammar decides
  · intro usual
    constructor
    · intro panics
      have kept : isMultiSigContract (ε := Unit) code ≠ .ok false := by
        rw [panics]
        simp
      obtain ⟨m, keys, rest, scans⟩ := exists_scan kept
      obtain ⟨value, positive⟩ := scans.count
      rw [isMultiSigContract_scan scans, scanEnd_panic_iff positive scans.next, value] at panics
      exact usual ⟨m, keys, rest, scans, panics.imp_right .inl⟩
    · constructor
      · intro accepts
        have kept : isMultiSigContract (ε := Unit) code ≠ .ok false := by
          rw [accepts]
          simp
        obtain ⟨m, keys, rest, scans⟩ := exists_scan kept
        obtain ⟨value, positive⟩ := scans.count
        rw [isMultiSigContract_scan scans, scanEnd_true_iff positive scans.next, value] at accepts
        obtain ⟨push, read, rfl⟩ := accepts
        have enough := scans.enough
        have inRange := scans.few
        have atLeast := scans.positive
        have regular : ¬ (1024 < keys.length ∨ ∃ byte, push = [byte] ∧ 0x60 < byte) := fun odd =>
          usual ⟨m, keys, _, scans, .inr (.inr ⟨push, read, rfl, odd⟩)⟩
        obtain ⟨notMany, notHigh⟩ := not_or.mp regular
        have inside : keys.length % 65536 = keys.length := Nat.mod_eq_of_lt (by omega)
        rw [inside] at read enough
        obtain ⟨pushM, isPush, split⟩ := scans.split
        exact ⟨m, keys.length, pushM, push, keys, isPush,
          read.numberPush (by omega) (by omega) notHigh, rfl, scans.sizes, scans.positive, enough,
          by omega, split⟩
      · exact fun isCode => isCode.accepted

/-- A code of one key that ends after the count, and a code whose count of 17 keys is a
byte above `PUSH16`. -/
theorem testsGrammar_fails :
    ¬ TestsGrammar ([0x51] ++ (keyBlocks [List.replicate 33 0, List.replicate 33 0] ++ [0x52])) ∧
      ¬ TestsGrammar
        ([0x51] ++ (keyBlocks (List.replicate 17 (List.replicate 33 0)) ++ [0x61, 0xae])) := by
  have two : CountRead 2 [0x52] := .single (by decide : (0x52 : UInt8) ≠ 1) (by decide)
  have seventeen : CountRead 17 [0x61] := .single (by decide : (0x61 : UInt8) ≠ 1) (by decide)
  constructor
  · apply Misread.not_testsGrammar
    refine ⟨1, [List.replicate 33 0, List.replicate 33 0], [0x52],
      ⟨⟨_, .small le_rfl (by decide), rfl⟩, by decide, ⟨_, _, rfl, by decide⟩, ?_, ?_, ?_, ?_⟩,
      .inr (.inl two)⟩ <;> decide
  · apply Misread.not_testsGrammar
    refine ⟨1, List.replicate 17 (List.replicate 33 0), [0x61, 0xae],
      ⟨⟨_, .small le_rfl (by decide), rfl⟩, by decide, ⟨_, _, rfl, by decide⟩, ?_, ?_, ?_, ?_⟩,
      .inr (.inr ⟨_, seventeen, rfl, .inr ⟨_, rfl, by decide⟩⟩)⟩ <;>
        decide +kernel

end Decides

end DnaPow.Core
