import Mathlib.Data.List.Infix
import DnaPow.Std.Bytes

/-!
# Hexadecimal text

Byte strings as hexadecimal digits, and the search for a part of a text. A part that is
found in the digits of a byte string may begin in the middle of a byte; if it does not,
it is found in the bytes (`encodeToString_isPrefix_iff`).
-/

namespace DnaPow.Std

/-- The hexadecimal digits of a byte string. -/
def encodeToString (data : Bytes) : List Nat :=
  data.flatMap fun byte => [byte.toNat / 16, byte.toNat % 16]

/-- The first place where a text has the given part. -/
def indexOf {α : Type} [BEq α] (text part : List α) : Option Nat :=
  text.tails.findIdx? fun tail => part.isPrefixOf tail

/-! ## Searching -/

section Search

variable {α : Type} [BEq α] [LawfulBEq α] {text part : List α} {place : Nat}

/-- The part is found where it is first. -/
theorem indexOf_eq_some_iff (nonempty : part ≠ []) :
    indexOf text part = some place ↔
      part <+: text.drop place ∧ ∀ other < place, ¬ part <+: text.drop other := by
  rw [indexOf, List.findIdx?_eq_some_iff_getElem]
  simp only [List.length_tails, List.getElem_tails, List.isPrefixOf_iff_prefix]
  constructor
  · rintro ⟨inside, found, first⟩
    exact ⟨found, first⟩
  · rintro ⟨found, first⟩
    have inside : place < text.length + 1 := by
      by_contra outside
      rw [List.drop_eq_nil_of_le (by omega), List.prefix_nil] at found
      exact nonempty found
    exact ⟨inside, found, first⟩

theorem indexOf_eq_none_iff (nonempty : part ≠ []) :
    indexOf text part = none ↔ ∀ place, ¬ part <+: text.drop place := by
  constructor
  · intro none place found
    classical
    have least := Nat.find_spec (⟨place, found⟩ : ∃ place, part <+: text.drop place)
    have first := (indexOf_eq_some_iff nonempty).mpr
      ⟨least, fun other before => Nat.find_min ⟨place, found⟩ before⟩
    rw [none] at first
    cases first
  · intro absent
    cases found : indexOf text part with
    | none => rfl
    | some place => exact absurd ((indexOf_eq_some_iff nonempty).mp found).1 (absent place)

end Search

/-! ## Digits -/

section Digits

variable {data other : Bytes}

@[simp] theorem encodeToString_nil : encodeToString [] = [] := rfl

@[simp] theorem encodeToString_cons (byte : UInt8) (data : Bytes) :
    encodeToString (byte :: data) =
      byte.toNat / 16 :: byte.toNat % 16 :: encodeToString data := rfl

@[simp] theorem length_encodeToString (data : Bytes) :
    (encodeToString data).length = 2 * data.length := by
  induction data with
  | nil => rfl
  | cons byte data ih =>
    rw [encodeToString_cons, List.length_cons, List.length_cons, List.length_cons, ih]
    omega

theorem drop_encodeToString (data : Bytes) (place : Nat) :
    (encodeToString data).drop (2 * place) = encodeToString (data.drop place) := by
  induction place generalizing data with
  | zero => rfl
  | succ place ih =>
    cases data with
    | nil => simp
    | cons byte data =>
      rw [Nat.mul_succ, encodeToString_cons, List.drop_succ_cons, List.drop_succ_cons,
        List.drop_succ_cons, ih]

/-- The digits of a byte string begin with those of another one if the bytes do. -/
theorem encodeToString_isPrefix_iff :
    encodeToString data <+: encodeToString other ↔ data <+: other := by
  induction data generalizing other with
  | nil => simp
  | cons byte data ih =>
    cases other with
    | nil => simp
    | cons first other =>
      have same : byte.toNat / 16 = first.toNat / 16 ∧ byte.toNat % 16 = first.toNat % 16 ↔
          byte = first := by
        rw [← UInt8.toNat_inj]
        omega
      rw [encodeToString_cons, encodeToString_cons, List.cons_prefix_cons,
        List.cons_prefix_cons, List.cons_prefix_cons, ih, ← and_assoc, same]

end Digits

end DnaPow.Std
