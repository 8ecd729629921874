/-!
# Word widths

A bit stream is carried by words of one fixed width: 8, 16, 32, 64 or 128 bits.  A width is a value
of the type `Width`, so that one definition of a stream serves all of them, and the facts that the
coding rests on (a word is a whole number of bytes, at least one) are proved once, by cases.

Counts, positions and addresses are 64-bit numbers.  They are natural numbers here; the two limits
below say where an operation that has to stay within 64 bits refuses.
-/

namespace PackedBits

/-- The width of a word. -/
inductive Width where
  | w8
  | w16
  | w32
  | w64
  | w128
  deriving DecidableEq, Repr

namespace Width

/-- The number of bytes in a word. -/
def bytes : Width → Nat
  | w8 => 1
  | w16 => 2
  | w32 => 4
  | w64 => 8
  | w128 => 16

/-- The number of bits in a word. -/
def bits : Width → Nat
  | w8 => 8
  | w16 => 16
  | w32 => 32
  | w64 => 64
  | w128 => 128

/-- The width of the words that streams are made of when no other is asked for, and of sizes and
addresses. -/
def native : Width := w64

theorem bits_eq_mul_bytes (w : Width) : w.bits = 8 * w.bytes := by cases w <;> rfl

theorem bytes_pos (w : Width) : 0 < w.bytes := by cases w <;> decide

theorem bits_pos (w : Width) : 0 < w.bits := by cases w <;> decide

end Width

/-- Counts and positions are below this number. -/
def countLimit : Nat := 1 <<< 64

/-- File offsets, and the sizes that can be allocated, are below this number. -/
def offsetLimit : Nat := 1 <<< 63

end PackedBits
