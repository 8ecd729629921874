import PackedBits.Fault

/-!
# Offsets and sizes

An offset is a whole number from `-offsetLimit` up to, but not including, `offsetLimit`, and a size
a natural number below `countLimit`.  Both are kept in 64 bits.  Where a size is taken for an
offset, or an offset for a size, the bits stay and the number may change: sizes from `offsetLimit`
on become negative offsets, and negative offsets become large sizes.

A negation or a sum that is no offset is a fault.
-/

namespace PackedBits.Offset

/-- The number, if it is an offset. -/
def ofInt? (i : Int) : Option Int :=
  if -offsetLimit ≤ i ∧ i < offsetLimit then some i else none

/-- The offset with the bits of a size. -/
def ofSize (n : Nat) : Int :=
  Int.bmod n countLimit

/-- The size with the bits of an offset. -/
def toSize (i : Int) : Nat :=
  (i % countLimit).toNat

/-- The negation of an offset. -/
def neg (i : Int) : Except Fault Int :=
  match ofInt? (-i) with
  | some j => .ok j
  | none => .error (.overflow .negate)

/-- The sum of two offsets. -/
def add (i j : Int) : Except Fault Int :=
  match ofInt? (i + j) with
  | some k => .ok k
  | none => .error (.overflow .add)

/-! ### Where nothing is lost -/

theorem ofInt?_of_le {i : Int} (h : -offsetLimit ≤ i ∧ i < offsetLimit) : ofInt? i = some i :=
  if_pos h

theorem ofInt?_of_not_le {i : Int} (h : ¬(-offsetLimit ≤ i ∧ i < offsetLimit)) : ofInt? i = none :=
  if_neg h

theorem neg_bind_of_le {α : Type} {i : Int} (h : -offsetLimit ≤ -i ∧ -i < offsetLimit)
    (f : Int → Except Fault α) : neg i >>= f = f (-i) := by
  rw [neg, ofInt?_of_le h]
  rfl

theorem add_bind_of_le {α : Type} {i j : Int} (h : -offsetLimit ≤ i + j ∧ i + j < offsetLimit)
    (f : Int → Except Fault α) : add i j >>= f = f (i + j) := by
  rw [add, ofInt?_of_le h]
  rfl

/-- A size below `offsetLimit` is the same number as an offset. -/
theorem ofSize_of_lt {n : Nat} (h : n < offsetLimit) : ofSize n = n := by
  have hlimit : countLimit = 2 * offsetLimit := by decide
  apply Int.bmod_eq_of_le
  · omega
  · omega

/-- An offset that is not negative is the same number as a size. -/
theorem toSize_natCast {n : Nat} (h : n < countLimit) : toSize n = n := by
  rw [toSize, Int.emod_eq_of_lt (Int.natCast_nonneg n) (Int.ofNat_lt.mpr h), Int.toNat_natCast]

end PackedBits.Offset
