import Mathlib.Data.List.Basic

/-!
# Blocks of a list

A list is consumed in blocks of a fixed size, and what does not fill a block is left over.
`overBlocks_append` says that whole blocks may be consumed apart from what follows them. Copying
fills the place behind an offset with as many items as fit.
-/

namespace DnaPow.Std

variable {State Item : Type}

/-- Consume so many blocks. -/
def foldBlocks (size : Nat) (step : State → List Item → State) : Nat → State → List Item → State
  | 0, state, _ => state
  | count + 1, state, items =>
      foldBlocks size step count (step state (items.take size)) (items.drop size)

/-- Consume all the blocks of a list. -/
def overBlocks (size : Nat) (step : State → List Item → State) (state : State)
    (items : List Item) : State :=
  foldBlocks size step (items.length / size) state items

variable {size : Nat} {step : State → List Item → State} {items : List Item}

theorem overBlocks_of_lt (state : State) (short : items.length < size) :
    overBlocks size step state items = state := by
  rw [overBlocks, Nat.div_eq_of_lt short, foldBlocks]

theorem overBlocks_block (state : State) (positive : 0 < size) (block : List Item)
    (full : block.length = size) :
    overBlocks size step state (block ++ items) = overBlocks size step (step state block) items := by
  have count : (block ++ items).length / size = items.length / size + 1 := by
    rw [List.length_append, full, Nat.add_div_left _ positive]
  rw [overBlocks, count, foldBlocks, ← full, List.take_left, List.drop_left, full, overBlocks]

theorem overBlocks_append (state : State) (positive : 0 < size) {whole : List Item}
    (aligned : size ∣ whole.length) :
    overBlocks size step state (whole ++ items) =
      overBlocks size step (overBlocks size step state whole) items := by
  obtain ⟨count, length⟩ := aligned
  induction count generalizing state whole with
  | zero =>
    obtain rfl : whole = [] := List.eq_nil_of_length_eq_zero length
    have none : overBlocks size step state [] = state := overBlocks_of_lt state positive
    rw [List.nil_append, none]
  | succ count ih =>
    have full : (whole.take size).length = size := by
      rw [List.length_take, length, Nat.mul_succ]
      omega
    have rest : (whole.drop size).length = size * count := by
      rw [List.length_drop, length, Nat.mul_succ]
      omega
    rw [← List.take_append_drop size whole, List.append_assoc,
      overBlocks_block state positive _ full, ih _ rest, overBlocks_block state positive _ full]

/-! ## Copying -/

/-- Go's `copy(dst[offset:], src)`: the array and the number of items copied. -/
def copyAt (dst : List Item) (offset : Nat) (src : List Item) : List Item × Nat :=
  let n := min (dst.length - offset) src.length
  (dst.take offset ++ src.take n ++ dst.drop (offset + n), n)

variable {dst : List Item} {offset : Nat}

theorem copyAt_length (inside : offset ≤ dst.length) (src : List Item) :
    (copyAt dst offset src).1.length = dst.length := by
  simp only [copyAt, List.length_append, List.length_take, List.length_drop]
  omega

theorem copyAt_take (inside : offset ≤ dst.length) (src : List Item) :
    (copyAt dst offset src).1.take (offset + (copyAt dst offset src).2) =
      dst.take offset ++ src.take (copyAt dst offset src).2 := by
  have length : (dst.take offset ++ src.take (copyAt dst offset src).2).length =
      offset + (copyAt dst offset src).2 := by
    simp only [copyAt, List.length_append, List.length_take]
    omega
  rw [← length]
  exact List.take_left

/-- A source that fits is copied whole. -/
theorem copyAt_of_fits {src : List Item} (fits : offset + src.length ≤ dst.length) :
    (copyAt dst offset src).1 = dst.take offset ++ src ++ dst.drop (offset + src.length) := by
  have all : min (dst.length - offset) src.length = src.length := by omega
  simp only [copyAt, all, List.take_length]

end DnaPow.Std
