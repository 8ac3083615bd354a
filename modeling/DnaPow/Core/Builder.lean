import DnaPow.Core.Contract
import DnaPow.Vm.PushScript
import Mathlib.Tactic.IntervalCases

/-!
# The script builder and the engine

What the engine reads off the bytes that `PushData` and `PushNumber` emit. A
string of 1 to 65535 bytes comes back as itself (`nextPush_pushData`), and a
number from 1 on as a value that reads as that number (`nextPush_pushNumber`).
The empty string comes back as one zero byte.
-/

namespace DnaPow.Core

open DnaPow.Std Common Vm Handler

/-- The bytes are one push opcode with its operand, pushing the given value. -/
def PushesOne (emitted : Bytes) (pushed : Pushed) : Prop :=
  ∀ rest, ∃ op script, emitted ++ rest = op :: script ∧ op ≤ 0x60 ∧
    nextPush op script = some (pushed, rest)

theorem PushesOne.length_pos {emitted : Bytes} {pushed : Pushed} (one : PushesOne emitted pushed) :
    0 < emitted.length := by
  obtain ⟨op, script, split, _⟩ := one []
  rw [List.append_nil] at split
  simp [split]

/-- Every push takes at least one byte. -/
theorem length_le_flatten {emitted : List Bytes} {pushed : List Pushed}
    (each : List.Forall₂ PushesOne emitted pushed) : pushed.length ≤ emitted.flatten.length := by
  induction each with
  | nil => simp
  | cons one _ ih =>
    have := one.length_pos
    simp only [List.length_cons, List.flatten_cons, List.length_append]
    omega

/-- A script of pushes pushes its values. -/
theorem pushes_flatten {maxSteps opCount : Int} {fuel : Nat} {emitted : List Bytes}
    {pushed : List Pushed} (each : List.Forall₂ PushesOne emitted pushed)
    (enough : pushed.length ≤ fuel) (start : wrap64 opCount = opCount) :
    pushes maxSteps fuel opCount emitted.flatten =
      some (pushed, wrap64 (opCount + pushed.length)) := by
  induction each generalizing fuel opCount with
  | nil => cases fuel <;> simp [pushes, start]
  | @cons _ first rest others one _ ih =>
    obtain ⟨fuel, rfl⟩ : ∃ more, fuel = more + 1 := Nat.exists_eq_add_one.mpr (by
      rw [List.length_cons] at enough
      omega)
    obtain ⟨op, script, split, low, next⟩ := one rest.flatten
    rw [List.flatten_cons, split, pushes, if_pos low, next]
    simp only [Option.bind_eq_bind, Option.bind_some]
    rw [ih (by simpa using enough) (wrap64_wrap64 _)]
    simp [add_assoc, add_comm (1 : Int)]

theorem takePadded_append (data rest : Bytes) :
    takePadded (data ++ rest) data.length = data := by
  simp [takePadded]

theorem readPush_append (data rest : Bytes) :
    readPush data.length (data ++ rest) = (.bytes data, rest) := by
  simp [readPush, takePadded_append]

theorem pushesOne_pushData {data : Bytes} (nonempty : data ≠ []) (short : data.length < 0x10000) :
    PushesOne (pushData data) (.bytes data) := by
  intro rest
  have positive : 0 < data.length := List.length_pos_iff.mpr nonempty
  unfold pushData
  split_ifs with tiny small
  · have size : (UInt8.ofNat data.length).toNat = data.length :=
      UInt8.toNat_ofNat_of_lt (show data.length < 256 by omega)
    refine ⟨_, data ++ rest, rfl, ?_, ?_⟩
    · rw [UInt8.le_iff_toNat_le, size]
      exact tiny.trans (by decide)
    · have notZero : UInt8.ofNat data.length ≠ 0 := by
        rw [Ne, ← UInt8.toNat_inj, size]
        exact positive.ne'
      have low : UInt8.ofNat data.length ≤ 0x4b := by
        rw [UInt8.le_iff_toNat_le, size]
        exact tiny
      rw [nextPush, if_neg notZero, if_pos low, size, readPush_append]
  · have size : (UInt8.ofNat data.length).toNat = data.length :=
      UInt8.toNat_ofNat_of_lt (show data.length < 256 by omega)
    refine ⟨0x4c, UInt8.ofNat data.length :: (data ++ rest), rfl, by decide, ?_⟩
    change some (readPush (UInt8.ofNat data.length).toNat (data ++ rest)) = _
    rw [size, readPush_append]
  · refine ⟨0x4d, littleEndian 2 data.length ++ (data ++ rest), by simp, by decide, ?_⟩
    change some (readPush (ofLittleEndian (takePadded (littleEndian 2 data.length ++ _) 2))
      (List.drop 2 (littleEndian 2 data.length ++ _))) = _
    have header := takePadded_append (littleEndian 2 data.length) (data ++ rest)
    rw [littleEndian_length] at header
    rw [header, ofLittleEndian_littleEndian, Nat.mod_eq_of_lt (by omega),
      List.drop_left' (littleEndian_length 2 _), readPush_append]

/-- `PushData` of the empty string emits `PUSH0`, which pushes a zero byte. -/
theorem pushesOne_pushData_nil : PushesOne (pushData []) (.bytes [0]) :=
  fun rest => ⟨0x00, rest, rfl, by decide, rfl⟩

theorem ofNatBytes_natBytes (value : Nat) : ofNatBytes (natBytes value) = value := by
  rw [ofNatBytes, natBytes, List.reverse_reverse, ofLittleEndian_littleEndian]
  split_ifs with zero
  · simp [zero]
  · refine Nat.mod_eq_of_lt ?_
    have bound : value < 2 ^ (value.log2 + 1) := Nat.lt_log2_self
    refine bound.trans_le ?_
    rw [show (256 : Nat) = 2 ^ 8 by rfl, ← pow_mul]
    exact Nat.pow_le_pow_right (by decide) (by omega)

/-- The value that `PushNumber` of a positive number leaves on the stack. -/
def numberPushed (number : Nat) : Pushed :=
  if number ≤ 16 then .number number else .bytes (natBytes number)

theorem numberPushed_toInt (number : Nat) : (numberPushed number).toInt = number := by
  unfold numberPushed
  split_ifs
  · rfl
  · simp [Pushed.toInt, ofNatBytes_natBytes]

theorem pushesOne_pushNumber {number : Nat} (positive : 0 < number) (small : number < 256) :
    PushesOne (pushNumber number) (numberPushed number) := by
  by_cases tiny : number ≤ 16
  · intro rest
    have emitted : pushNumber number = [UInt8.ofNat (0x50 + number)] := by
      unfold pushNumber
      rw [if_neg (by omega), if_neg (by omega), if_pos (by omega)]
      simp
    rw [emitted, numberPushed, if_pos tiny]
    refine ⟨_, rest, rfl, ?_, ?_⟩
    · interval_cases number <;> decide
    · interval_cases number <;> rfl
  · have emitted : pushNumber number = pushData (natBytes number) := by
      unfold pushNumber
      rw [if_neg (by omega), if_neg (by omega), if_neg (by omega)]
      simp
    have oneByte : natBytes number = [UInt8.ofNat number] := by
      have bits : number.log2 < 8 := (Nat.log2_lt positive.ne').mpr small
      have width : number.log2 / 8 = 0 := by omega
      simp [natBytes, positive.ne', width, littleEndian, Nat.mod_eq_of_lt small]
    rw [emitted, numberPushed, if_neg tiny, oneByte]
    exact pushesOne_pushData (by simp) (by simp)

end DnaPow.Core
