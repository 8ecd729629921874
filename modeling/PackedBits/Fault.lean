import PackedBits.Width

/-!
# Faults

A stream can be at fault in two ways.  It may refuse an operation, because its words or bytes have
run out or because the device beneath it fails: the refusal belongs to the stream and is described
by an error type of its own.  Or the caller may break the contract of an operation, by a width out
of range, by a write to a closed stream, by arithmetic that leaves the range of a machine number:
that is a `Fault`.

A `Failure` is either of the two, and the `Outcome` of an operation is a value or a failure.  Every
operation gives back the state it leaves together with its outcome, also when it fails, so that what
a failed operation has changed can be seen and stated.
-/

namespace PackedBits

/-- The arithmetic operations that can leave the range of their numbers. -/
inductive Arithmetic where
  | add
  | subtract
  | multiply
  | shiftLeft
  | negate
  deriving DecidableEq, Repr

namespace Arithmetic

/-- The operation in words. -/
def phrase : Arithmetic → String
  | add => "add"
  | subtract => "subtract"
  | multiply => "multiply"
  | shiftLeft => "shift left"
  | negate => "negate"

end Arithmetic

/-- A breach of an operation's contract. -/
inductive Fault where
  /-- A mask of no bits, or of more bits than a word has. -/
  | maskWidth
  /-- An end mark for `n` valid bits in a word of `bits` bits. -/
  | validBits (bits n : Nat)
  /-- A write of `n` bits at once, with words of `bits` bits. -/
  | writeWidth (bits n : Nat)
  /-- A read of `n` bits at once, with words of `bits` bits. -/
  | readWidth (bits n : Nat)
  /-- A checked write of a value that has bits above the `n` to be written. -/
  | excessBits (value n : Nat)
  /-- A write to a packer that has been closed. -/
  | closed
  /-- A read of bits behind the last one. -/
  | pastEnd
  /-- Blocks of no bytes. -/
  | emptyBlocks
  /-- An access at `index` with `overlap` bytes in front of a block of `len` bytes. -/
  | blockIndex (index : Int) (overlap len : Nat)
  /-- An access at `place` in a buffer of `len` bytes. -/
  | bufferIndex (place len : Nat)
  /-- Arithmetic that leaves the range of its numbers. -/
  | overflow (op : Arithmetic)
  /-- More bytes than can be allocated. -/
  | capacity
  deriving DecidableEq, Repr

namespace Fault

/-- The text of a fault. -/
def message : Fault → String
  | maskWidth => "assertion failed: n > 0 && n <= W::BITS"
  | validBits bits n => s!"The number of valid bits has to be in [1, {bits}] and {n} is not"
  | writeWidth bits n => s!"The number of bits to write has to be in [1, {bits}] and {n} is not"
  | readWidth bits n => s!"The number of bits to read has to be in [1, {bits}] and {n} is not"
  | excessBits value n => s!"Error: value {value} does not fit in {n} bits"
  | closed => "Write on a closed BitPacker"
  | pastEnd => "Read past the end of a finalized bit stream"
  | emptyBlocks => "The block size must be positive"
  | blockIndex index overlap len => s!"Index {index} out of range [-{overlap}, {len})"
  | bufferIndex place len => s!"index out of bounds: the len is {len} but the index is {place}"
  | overflow op => s!"attempt to {op.phrase} with overflow"
  | capacity => "capacity overflow"

end Fault

/-- Why an operation on a stream with errors of type `ε` gave no value. -/
inductive Failure (ε : Type) where
  /-- The stream refused. -/
  | refused (error : ε)
  /-- The caller broke the contract. -/
  | fault (fault : Fault)
  deriving DecidableEq, Repr

namespace Failure

/-- The same failure, with the error seen as one of another type. -/
def map {ε ε' : Type} (f : ε → ε') : Failure ε → Failure ε'
  | refused e => refused (f e)
  | fault x => fault x

end Failure

/-- What an operation answers. -/
abbrev Outcome (ε α : Type) : Type := Except (Failure ε) α

end PackedBits
