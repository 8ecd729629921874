import PackedBits.BitStream

/-!
# Counting the bits that pass

A `Counted` stream of bits counts the bits of the calls that succeed, each by its width, and can
take down notes of these calls.  It changes nothing of what the stream beneath answers.  A stream
that is written also has a count of its own, which the wrapper leaves alone; the two differ by the
bits of the calls that failed.

A flush is noted before it is made, every other call after it has succeeded.

The count is a natural number, an idealisation of a 64-bit counter, which would overflow only after
`countLimit` bits.
-/

namespace PackedBits

/-- A call on a counted stream, with the total after it. -/
inductive Note where
  | wroteBit (bit : Bool) (total : Nat)
  | wroteBits (value n written total : Nat)
  | flushing (total : Nat)
  | gaveBit (bit : Bool) (total : Nat)
  | gaveBits (n value total : Nat)
  deriving DecidableEq, Repr

namespace Note

/-- The text of a note. Values are in hexadecimal. -/
def text : Note → String
  | wroteBit bit total => s!"write_bit({bit}) (total = {total})"
  | wroteBits value n written total =>
    s!"write_bits(0x{Text.hex value}, {n}) = {written} (total = {total})"
  | flushing total => s!"flush() (total = {total})"
  | gaveBit bit total => s!"read_bit() = {bit} (total = {total})"
  | gaveBits n value total => s!"read_bits({n}) = 0x{Text.hex value} (total = {total})"

end Note

/-- A stream of bits and the number of bits that have passed. -/
structure Counted (α : Type) where
  inner : α
  /-- The number of bits that have passed, without a limit. -/
  count : Nat := 0
  /-- Whether notes are taken. -/
  noting : Bool := false
  notes : Array Note := #[]

namespace Counted

variable {w : Width} {ρ ω : Type} [BitReader ρ w] [BitWriter ω w]

/-- Takes down a note. -/
def note {α : Type} (c : Counted α) (n : Note) : Counted α :=
  if c.noting then { c with notes := c.notes.push n } else c

/-! ### Writing -/

/-- Writes one bit and counts it. -/
def writeBit (c : Counted ω) (bit : Bool) : Outcome StreamError Unit × Counted ω :=
  match BitWriter.writeBit c.inner bit with
  | (.error failure, inner) => (.error failure, { c with inner })
  | (.ok _, inner) =>
    let count := c.count + 1
    (.ok (), { c with inner, count }.note (.wroteBit bit count))

/-- Writes a group of bits and counts them. -/
def writeBits (c : Counted ω) (value : Word w) (n : Nat) :
    Outcome StreamError Nat × Counted ω :=
  match BitWriter.writeBits c.inner value n with
  | (.error failure, inner) => (.error failure, { c with inner })
  | (.ok written, inner) =>
    let count := c.count + written
    (.ok written, { c with inner, count }.note (.wroteBits value.toNat n written count))

/-- Flushes. -/
def flush (c : Counted ω) : Outcome StreamError Unit × Counted ω :=
  let c := c.note (.flushing c.count)
  let answer := BitWriter.flush c.inner
  (answer.1, { c with inner := answer.2 })

instance : BitWriter (Counted ω) w where
  writeBit := writeBit
  writeBits := writeBits
  flush := flush
  posInWord c := BitWriter.posInWord c.inner
  bitsWritten c := BitWriter.bitsWritten c.inner

/-! ### Reading -/

/-- Reads one bit and counts it. -/
def readBit (c : Counted ρ) : Outcome StreamError Bool × Counted ρ :=
  match BitReader.readBit c.inner with
  | (.error failure, inner) => (.error failure, { c with inner })
  | (.ok bit, inner) =>
    let count := c.count + 1
    (.ok bit, { c with inner, count }.note (.gaveBit bit count))

/-- Reads a group of bits and counts them. -/
def readBits (c : Counted ρ) (n : Nat) : Outcome StreamError (Word w) × Counted ρ :=
  match BitReader.readBits c.inner n with
  | (.error failure, inner) => (.error failure, { c with inner })
  | (.ok value, inner) =>
    let count := c.count + n
    (.ok value, { c with inner, count }.note (.gaveBits n value.toNat count))

instance : BitReader (Counted ρ) w where
  readBit := readBit
  readBits := readBits
  posInWord c := BitReader.posInWord c.inner
  atEnd c := BitReader.atEnd c.inner

end Counted

/-- The notes of a reader and of a writer during a copy, as they were taken: a portion is read
before it is written, so the two alternate, the reader's first. -/
def interleaveNotes : List Note → List Note → List Note
  | [], written => written
  | given :: rest, written => given :: interleaveNotes written rest
  termination_by given written => given.length + written.length

end PackedBits
