import PackedBits.StreamError
import PackedBits.Fault
import PackedBits.Word

/-!
# Streams of bits

Bits are read and written one at a time, or up to a word of them at once; the first of several bits
is the lowest.  A reader knows how many bits of its current word it has given out, and whether there
are more bits; a writer knows how many bits of its current word are used, and how many bits it was
given.

`copyBits` moves bits from a reader to a writer, a word's worth at a time and the rest at last.
Each portion is read before it is written, so when the writer fails, the portion it failed on has
left the reader, and when the reader fails, nothing of the portion has reached the writer.
-/

namespace PackedBits

/-- A stream that bits are read from. -/
class BitReader (ρ : Type) (w : outParam Width) where
  /-- Reads one bit. -/
  readBit : ρ → Outcome StreamError Bool × ρ
  /-- Reads from 1 to `w.bits` bits, the first of which is the lowest of the result. -/
  readBits : ρ → Nat → Outcome StreamError (Word w) × ρ
  /-- The position of the next bit in the current word. -/
  posInWord : ρ → Nat
  /-- Whether all bits have been read. -/
  atEnd : ρ → Bool

/-- A stream that bits are written to. -/
class BitWriter (ω : Type) (w : outParam Width) where
  /-- Writes one bit. -/
  writeBit : ω → Bool → Outcome StreamError Unit × ω
  /-- Writes the lowest 1 to `w.bits` bits of a word, and answers how many. -/
  writeBits : ω → Word w → Nat → Outcome StreamError Nat × ω
  /-- Fills up the current word with zeros, if it is begun. -/
  flush : ω → Outcome StreamError Unit × ω
  /-- The position of the next bit in the current word. -/
  posInWord : ω → Nat
  /-- The number of bits written, without what fills up words or ends the stream. -/
  bitsWritten : ω → Nat

variable {w : Width} {ρ ω : Type} [BitReader ρ w] [BitWriter ω w]

/-! ### Reading to the end -/

/-- Why reading bits one by one has stopped. -/
inductive Stop where
  /-- The end was reached. -/
  | atEnd
  /-- As many bits as asked for were read. -/
  | enough
  /-- A read failed. -/
  | failed (failure : Failure StreamError)
  deriving DecidableEq, Repr

namespace BitReader

/-- Whether there is one more bit to read. -/
def good (r : ρ) : Bool :=
  !atEnd r

/-- Reads bits one by one up to the end, but not more than `max`. -/
def readUpTo (r : ρ) : Nat → (List Bool × Stop) × ρ
  | 0 => (([], .enough), r)
  | max + 1 =>
    if atEnd r then
      (([], .atEnd), r)
    else
      match readBit r with
      | (.error failure, r) => (([], .failed failure), r)
      | (.ok bit, r) =>
        let rest := readUpTo r max
        ((bit :: rest.1.1, rest.1.2), rest.2)

end BitReader

/-! ### Copying -/

/-- Moves `n` bits from a reader to a writer. -/
def copyBits (r : ρ) (s : ω) (n : Nat) : Outcome CopyError Unit × ρ × ω :=
  if n = 0 then
    (.ok (), r, s)
  else
    let portion := min n w.bits
    match BitReader.readBits r portion with
    | (.error failure, r) => (.error (failure.map .reading), r, s)
    | (.ok bits, r) =>
      match BitWriter.writeBits s bits portion with
      | (.error failure, s) => (.error (failure.map .writing), r, s)
      | (.ok _, s) => copyBits r s (n - portion)
  termination_by n
  decreasing_by
    have := w.bits_pos
    omega

namespace BitReader

/-- Reads `n` bits and writes them. -/
def sendTo (r : ρ) (s : ω) (n : Nat) : Outcome CopyError Unit × ρ × ω :=
  copyBits r s n

end BitReader

namespace BitWriter

/-- Writes `n` bits that are read. -/
def takeFrom (s : ω) (r : ρ) (n : Nat) : Outcome CopyError Unit × ω × ρ :=
  let copied := copyBits r s n
  (copied.1, copied.2.2, copied.2.1)

end BitWriter

end PackedBits
