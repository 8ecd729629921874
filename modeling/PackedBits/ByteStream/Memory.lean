import PackedBits.ByteStream
import PackedBits.Width

/-!
# Bytes in memory

A `ByteQueue` is what is left to read of a list of bytes: reading takes from its front.  A
`ByteBuffer` is the opposite, bytes to which more are added without limit.

A `ByteCursor` is a list of bytes and a position, which may lie anywhere, also behind the last byte.
Writing at the position overwrites the bytes there.  Whether it can go on behind the last byte is
the cursor's `Extent`: a growing list is extended, with zeros where the position has left a gap, and
a fixed one takes only what fits.
-/

namespace PackedBits

/-! ### A list of bytes to be read -/

/-- The bytes that are left to read. -/
structure ByteQueue where
  bytes : List UInt8

namespace ByteQueue

/-- Takes at most `n` bytes from the front. -/
def read (s : ByteQueue) (n : Nat) : Except IoError (List UInt8) × ByteQueue :=
  (.ok (s.bytes.take n), { bytes := s.bytes.drop n })

/-- Takes exactly `n` bytes from the front; if there are fewer, they are gone. -/
def readExact (s : ByteQueue) (n : Nat) : Except IoError (List UInt8) × ByteQueue :=
  if n ≤ s.bytes.length then s.read n else (.error .shortRead, { bytes := [] })

instance : ByteReader ByteQueue where
  read := read
  interruptions _ := 0
  length_le h := by
    cases h
    exact List.length_take_le ..
  interruptions_lt h := by cases h

instance : ByteSource ByteQueue where
  readExact := readExact
  atEnd s := (.ok s.bytes.isEmpty, s)

end ByteQueue

/-! ### Bytes to which bytes are added -/

/-- Bytes that grow at their end. -/
structure ByteBuffer where
  bytes : Array UInt8 := #[]

namespace ByteBuffer

/-- Adds bytes. -/
def append (b : ByteBuffer) (piece : List UInt8) : ByteBuffer :=
  { bytes := b.bytes ++ piece }

instance : ByteSink ByteBuffer where
  writeAll b piece := (.ok (), b.append piece)
  flush b := (.ok (), b)

end ByteBuffer

/-! ### A position in a list of bytes -/

/-- Whether a list of bytes can be extended by writing behind its end. -/
inductive Extent where
  | growing
  | fixed
  deriving DecidableEq, Repr

/-- A list of bytes and a position. -/
structure ByteCursor (extent : Extent) where
  bytes : List UInt8
  pos : Nat := 0

namespace ByteCursor

variable {extent : Extent}

/-- The number of bytes. -/
def length (c : ByteCursor extent) : Nat :=
  c.bytes.length

/-- Reads exactly `n` bytes from the position; if there are fewer, moves to the end. -/
def readExact (c : ByteCursor extent) (n : Nat) : Except IoError (List UInt8) × ByteCursor extent :=
  if c.pos + n ≤ c.length then
    (.ok ((c.bytes.drop c.pos).take n), { c with pos := c.pos + n })
  else
    (.error .shortRead, { c with pos := c.length })

/-- Whether the position is at the end or behind it. -/
def atEnd (c : ByteCursor extent) : Bool :=
  c.length ≤ c.pos

/-- The list `bytes` with those from `pos` on replaced by `piece`. A gap between the end and `pos`
is filled with zeros. -/
def splice (bytes : List UInt8) (pos : Nat) (piece : List UInt8) : List UInt8 :=
  bytes.take pos ++ List.replicate (pos - bytes.length) 0 ++ piece ++
    bytes.drop (pos + piece.length)

/-- Replaces the bytes from the position on by `piece`, and moves behind it. -/
def put (c : ByteCursor extent) (piece : List UInt8) : ByteCursor extent :=
  { bytes := splice c.bytes c.pos piece, pos := c.pos + piece.length }

/-- Writes at the position. Bytes that cannot be allocated are a fault; a list that cannot be
extended takes what fits and refuses the rest. -/
def writeAll (c : ByteCursor extent) (piece : List UInt8) :
    Outcome IoError Unit × ByteCursor extent :=
  match extent with
  | .growing =>
    if c.pos + piece.length < offsetLimit then
      (.ok (), c.put piece)
    else
      (.error (.fault .capacity), c)
  | .fixed =>
    let fitting := piece.take (c.length - c.pos)
    let written := if fitting.isEmpty then c else c.put fitting
    if fitting.length = piece.length then
      (.ok (), written)
    else
      (.error (.refused .shortWrite), written)

instance : ByteSource (ByteCursor extent) where
  readExact := readExact
  atEnd c := (.ok c.atEnd, c)

instance : ByteSink (ByteCursor extent) where
  writeAll := writeAll
  flush c := (.ok (), c)

instance : ByteSeek (ByteCursor extent) where
  position := pos
  seek c n := (.ok (), { c with pos := n })

end ByteCursor

end PackedBits
