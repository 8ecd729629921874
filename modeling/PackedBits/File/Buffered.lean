import PackedBits.IoError
import PackedBits.Width

/-!
# Buffered files

A file that is read through a buffer.  The file has an offset, which is where its next bytes are
read from; the buffer holds the bytes just in front of the offset, and an index in it says how many
of them have been given out.

The buffer is filled only when it is used up, with at most `capacity` bytes.  A read that finds it
used up and asks for at least its capacity goes past it, straight to the file.  Moving by a distance
that stays inside the buffer only moves the index; any other move sets the offset of the file and
empties the buffer.  The system refuses offsets below zero and from a limit on, which is at most
`offsetLimit`, and a refused move changes nothing.

The index is a 64-bit number.  It is limited to the length of the buffer after bytes are given out,
but the sum that is limited wraps around, so giving out nearly `countLimit` bytes moves the index
back.
-/

namespace PackedBits

/-- A file and the buffer it is read through. -/
structure BufferedFile where
  content : List UInt8
  capacity : Nat
  offset : Nat := 0
  buffer : List UInt8 := []
  index : Nat := 0
  /-- The first offset that the system refuses. -/
  limit : Nat := offsetLimit

namespace BufferedFile

/-- The bytes of the buffer that have not been given out. -/
def unread (f : BufferedFile) : List UInt8 :=
  f.buffer.drop f.index

/-- Reads at most `n` bytes from the file itself, with an empty buffer. -/
def readDirect (f : BufferedFile) (n : Nat) : List UInt8 × BufferedFile :=
  let bytes := (f.content.drop f.offset).take n
  (bytes, { f with offset := f.offset + bytes.length, buffer := [], index := 0 })

/-- The bytes at hand; if the buffer is used up, it is filled first. -/
def fill (f : BufferedFile) : List UInt8 × BufferedFile :=
  if f.index < f.buffer.length then
    (f.unread, f)
  else
    let filled := f.readDirect f.capacity
    (filled.1, { filled.2 with buffer := filled.1 })

/-- Gives out the next `n` bytes of the buffer, or all of them if there are fewer. -/
def consume (f : BufferedFile) (n : Nat) : BufferedFile :=
  { f with index := min ((f.index + n) % countLimit) f.buffer.length }

/-- Reads at most `n` bytes. -/
def read (f : BufferedFile) (n : Nat) : List UInt8 × BufferedFile :=
  if f.buffer.length ≤ f.index ∧ f.capacity ≤ n then
    f.readDirect n
  else
    let atHand := f.fill
    (atHand.1.take n, atHand.2.consume (min n atHand.1.length))

/-- Sets the offset of the file. -/
def moveTo (f : BufferedFile) (offset : Int) : Except IoError Unit × BufferedFile :=
  if 0 ≤ offset ∧ offset < f.limit then
    (.ok (), { f with offset := offset.toNat, buffer := [], index := 0 })
  else
    (.error .badOffset, f)

/-- Forgets the buffer: the offset goes back to the first byte that was not given out. -/
def rewind (f : BufferedFile) : BufferedFile :=
  { f with offset := f.offset - f.unread.length, buffer := [], index := 0 }

/-- Moves by a distance, inside the buffer if the target is there. From the offset of the file the
distance is larger by the bytes not given out; if that is too large to be counted, the buffer is
forgotten first. -/
def moveBy (f : BufferedFile) (distance : Int) : Except IoError Unit × BufferedFile :=
  let target := f.index + distance
  if 0 ≤ target ∧ target ≤ f.buffer.length then
    (.ok (), { f with index := target.toNat })
  else
    let f := if distance - f.unread.length < -offsetLimit then f.rewind else f
    f.moveTo (f.offset - f.unread.length + distance)

theorem length_readDirect_le (f : BufferedFile) (n : Nat) : (f.readDirect n).1.length ≤ n :=
  List.length_take_le ..

theorem length_read_le (f : BufferedFile) (n : Nat) : (f.read n).1.length ≤ n := by
  unfold read
  split
  · exact f.length_readDirect_le n
  · exact List.length_take_le ..

end BufferedFile

end PackedBits
