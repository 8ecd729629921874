import PackedBits.ByteStream
import PackedBits.Offset

/-!
# Overlapping blocks

A `Blocks` cuts the bytes of a reader into blocks of the same size, the last of which may be
shorter, and keeps the `overlap` bytes in front of the current block in reach.  Before the first
block there are zeros.

After every block one byte more is read.  If there is none the current block is the last one;
otherwise this byte begins the next block, so that no block is empty.

When the reader fails while a block is loaded, its length and the byte ahead stay what they were,
while the bytes that did arrive have already replaced those at the front of the block.  The bytes
behind them are still the old ones: `area` holds everything that stands in the place of the block,
and the block is the front of it.
-/

namespace PackedBits

/-- The size of a block and the number of bytes kept in front of it. -/
structure BlockShape where
  size : Nat
  overlap : Nat
  deriving DecidableEq, Repr

namespace BlockShape

/-- Blocks of 64 KiB, with nothing kept in front. -/
def standard : BlockShape :=
  { size := 1 <<< 16, overlap := 0 }

end BlockShape

/-- A reader and the current block of its bytes. -/
structure Blocks (σ : Type) where
  reader : σ
  shape : BlockShape
  /-- The bytes in front of the block, at most `overlap` of them. -/
  past : List UInt8 := []
  /-- The bytes that stand in the place of the block. -/
  area : List UInt8 := []
  /-- The length of the block. -/
  len : Nat := 0
  /-- The number of bytes in front of the block in the stream. -/
  offset : Nat := 0
  /-- The first byte of the next block, if there is one. -/
  ahead : Option UInt8 := none

/-- The last `n` elements of a list. -/
def lastElements {α : Type} (n : Nat) (l : List α) : List α :=
  l.drop (l.length - n)

namespace Blocks

variable {σ : Type}

/-! ### The current block -/

/-- The bytes of the current block. -/
def block (b : Blocks σ) : List UInt8 :=
  b.area.take b.len

/-- The `overlap` bytes in front of the current block. -/
def lookback (b : Blocks σ) : List UInt8 :=
  List.replicate (b.shape.overlap - b.past.length) 0 ++ b.past

/-- Whether no bytes are in front of the current block in the stream. -/
def isFirst (b : Blocks σ) : Bool :=
  b.offset = 0

/-- Whether no bytes are behind the current block in the stream. -/
def isLast (b : Blocks σ) : Bool :=
  b.ahead.isNone

/-- Whether the current block has no bytes. -/
def isEmpty (b : Blocks σ) : Bool :=
  b.len = 0

/-- The bytes in front of the block and those that stand in its place. -/
def buffer (b : Blocks σ) : List UInt8 :=
  b.lookback ++ b.area

/-- The byte at a place of the buffer, which has room for a whole block. Where nothing has stood so
far there are zeros. -/
def byteAt? (b : Blocks σ) (place : Nat) : Option UInt8 :=
  if place < b.shape.overlap + b.shape.size then some (b.buffer.getD place 0) else none

/-- The byte at an index, if it is in range. Indices count from the front of the block; negative
ones reach the bytes in front of it. -/
def get? (b : Blocks σ) (index : Int) : Option UInt8 :=
  match Offset.ofInt? (index + b.shape.overlap) with
  | none => none
  | some place =>
    if place < 0 ∨ b.shape.overlap + b.len ≤ Offset.toSize place then none
    else b.byteAt? (Offset.toSize place)

/-- The byte at an index that has to be in range. The bounds of the range and the place in the
buffer are worked out with offsets. -/
def get (b : Blocks σ) (index : Int) : Except Fault UInt8 := do
  let front ← Offset.neg (Offset.ofSize b.shape.overlap)
  if front ≤ index ∧ index < Offset.ofSize b.len then
    let place ← Offset.add index (Offset.ofSize b.shape.overlap)
    match b.byteAt? (Offset.toSize place) with
    | some byte => .ok byte
    | none => .error (.bufferIndex (Offset.toSize place) (b.shape.overlap + b.shape.size))
  else
    .error (.blockIndex index b.shape.overlap b.len)

/-! ### Loading -/

variable [ByteReader σ]

/-- Collects `n` bytes of the reader, or fewer if it has no more, at the front of the area but
behind the bytes of `start`. -/
def fillArea (b : Blocks σ) (start : List UInt8) (n : Nat) : Except IoError Unit × Blocks σ :=
  let gathered := ByteReader.gather b.reader n
  let fresh := start ++ gathered.1.1
  let b := { b with reader := gathered.2, area := fresh ++ b.area.drop fresh.length }
  match gathered.1.2 with
  | .failed e => (.error e, b)
  | _ => (.ok (), { b with len := fresh.length })

/-- Reads the first byte of the next block. -/
def readAhead (b : Blocks σ) : Except IoError Unit × Blocks σ :=
  let gathered := ByteReader.gather b.reader 1
  let b := { b with reader := gathered.2 }
  match gathered.1.2 with
  | .failed e => (.error e, b)
  | _ => (.ok (), { b with ahead := gathered.1.1.head? })

/-- Loads a block that begins with the byte ahead, if there is one, and the byte behind it. -/
def load (b : Blocks σ) : Except IoError Unit × Blocks σ :=
  match b.fillArea b.ahead.toList (b.shape.size - b.ahead.toList.length) with
  | (.error e, b) => (.error e, b)
  | (.ok _, b) => b.readAhead

/-- Begins to cut the bytes of a reader, and loads the first block. -/
def ofReader (reader : σ) (shape : BlockShape) : Outcome IoError (Blocks σ) × σ :=
  if shape.size = 0 then
    (.error (.fault .emptyBlocks), reader)
  else if countLimit ≤ shape.overlap + shape.size then
    (.error (.fault (.overflow .add)), reader)
  else if offsetLimit ≤ shape.overlap + shape.size then
    (.error (.fault .capacity), reader)
  else
    match ({ reader, shape } : Blocks σ).load with
    | (.error e, b) => (.error (.refused e), b.reader)
    | (.ok _, b) => (.ok b, b.reader)

/-- Moves to the next block; the answer is whether there is one. The last block is left alone. -/
def advance (b : Blocks σ) : Outcome IoError Bool × Blocks σ :=
  if b.isLast then
    (.ok false, b)
  else
    let b := { b with past := lastElements b.shape.overlap (b.past ++ b.block) }
    if countLimit ≤ b.offset + b.len then
      (.error (.fault (.overflow .add)), b)
    else
      match { b with offset := b.offset + b.len }.load with
      | (.error e, b) => (.error (.refused e), b)
      | (.ok _, b) => (.ok (!b.isEmpty), b)

end Blocks

end PackedBits
