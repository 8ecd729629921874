import PackedBits.ByteStream
import PackedBits.File.Buffered
import PackedBits.File.Span

/-!
# Reading a range of a file

A `FileRange` reads the bytes of a span of a file, through a buffer, as if they were a file of their
own: positions count from the start of the span, and reading stops at its end.  The span is clamped
to the file when it is opened.

The buffer underneath knows nothing of the span and may hold bytes behind its end, so every answer
is cut to the bytes that remain.  The position may be moved behind the end; nothing remains there.

Everything that remains is read by requests that begin small and grow.  While position and buffer
keep step, the sizes of the requests do not show in the bytes; they do once the position was moved
over more bytes than were at hand, because they decide what the buffer holds afterwards.
-/

namespace PackedBits

/-- A file as it is stored: its bytes, or none if it does not exist. -/
abbrev StoredFile : Type := Option (List UInt8)

/-- A span of a file being read. -/
structure FileRange where
  file : BufferedFile
  /-- The offset in the file at which the span starts. -/
  start : Nat
  /-- The number of bytes of the span. -/
  len : Nat
  /-- The position, counted from the start of the span. -/
  pos : Nat := 0

/-- Where to seek to: a position, or a distance from the end of the span or from the position. -/
inductive SeekTarget where
  | position (n : Nat)
  | fromEnd (distance : Int)
  | fromHere (distance : Int)
  deriving DecidableEq, Repr

namespace FileRange

/-! ### Opening -/

/-- The number of bytes the buffer holds if nothing else is asked for. -/
def defaultCapacity : Nat :=
  16 * 1024

/-- The number of bytes that are asked for to see whether there are any. -/
def probeSize : Nat :=
  32

/-- The span of a file with the given bytes, read from its start. -/
def ofContent (content : List UInt8) (span : Span) (capacity : Nat) : FileRange :=
  let span := span.clamp content.length
  { file := { content, capacity, offset := span.start }, start := span.start, len := span.length }

/-- Opens a span of a file, with a buffer of the given capacity. A buffer that cannot be allocated
is a fault. -/
def openWith (stored : StoredFile) (span : Span) (capacity : Nat) : Outcome IoError FileRange :=
  match stored with
  | none => .error (.refused .noFile)
  | some content =>
    if capacity < offsetLimit then
      .ok (ofContent content span capacity)
    else
      .error (.fault .capacity)

/-- Opens a span of a file. -/
def openSpan (stored : StoredFile) (span : Span) : Except IoError FileRange :=
  match stored with
  | none => .error .noFile
  | some content => .ok (ofContent content span defaultCapacity)

/-- Opens a whole file. -/
def openWhole (stored : StoredFile) : Except IoError FileRange :=
  openSpan stored {}

/-! ### Reading -/

/-- Whether the span has no bytes. -/
def isEmpty (r : FileRange) : Bool :=
  r.len = 0

/-- The number of bytes of the span behind the position. -/
def remaining (r : FileRange) : Nat :=
  r.len - r.pos

/-- Reads at most `n` bytes. -/
def read (r : FileRange) (n : Nat) : List UInt8 × FileRange :=
  let n := min r.remaining n
  if n = 0 then
    ([], r)
  else
    let portion := r.file.read n
    (portion.1, { r with file := portion.2, pos := r.pos + portion.1.length })

/-- The bytes at hand; none at the end of the span. -/
def fill (r : FileRange) : List UInt8 × FileRange :=
  if r.remaining = 0 then
    ([], r)
  else
    let atHand := r.file.fill
    (atHand.1.take r.remaining, { r with file := atHand.2 })

/-- Moves over `n` of the bytes at hand. The buffer gives out no more than it has, while the
position moves by all of `n`. -/
def consume (r : FileRange) (n : Nat) : Outcome IoError Unit × FileRange :=
  let r := { r with file := r.file.consume n }
  if r.pos + n < countLimit then
    (.ok (), { r with pos := r.pos + n })
  else
    (.error (.fault (.overflow .add)), r)

theorem length_read_le (r : FileRange) (n : Nat) : (r.read n).1.length ≤ min r.remaining n := by
  unfold read
  dsimp only
  split
  · exact Nat.zero_le _
  · exact r.file.length_read_le _

theorem remaining_read (r : FileRange) (n : Nat) :
    (r.read n).2.remaining = r.remaining - (r.read n).1.length := by
  unfold read
  dsimp only
  split
  · rfl
  · simp only [remaining]
    omega

/-- Reads everything that remains into a store that holds `held` bytes and has room for `room`, at
most `limit` at once. A store that is nearly full at least doubles its room; a limit that was met in
full doubles. -/
def readInto (r : FileRange) (held room limit : Nat) : List UInt8 × FileRange :=
  let room := if room < held + probeSize then max (2 * room) (held + probeSize) else room
  let wanted := min (room - held) limit
  let portion := r.read wanted
  if portion.1.isEmpty then
    portion
  else
    let limit := if wanted = limit ∧ portion.1.length = wanted then 2 * limit else limit
    let rest := portion.2.readInto (held + portion.1.length) room limit
    (portion.1 ++ rest.1, rest.2)
  termination_by r.remaining
  decreasing_by
    have hlen := r.length_read_le wanted
    have hrem := r.remaining_read wanted
    have hpos : 0 < (r.read wanted).1.length :=
      List.length_pos_iff.2 (by simpa [portion] using ‹¬portion.1.isEmpty = true›)
    rw [hrem]
    omega

/-- Reads everything that remains. Only if a first small request is answered with bytes, a store is
made for them and the rest. -/
def readToEnd (r : FileRange) : List UInt8 × FileRange :=
  let first := r.read probeSize
  if first.1.isEmpty then
    first
  else
    let held := first.1.length
    let rest := first.2.readInto held (max held 8) (8 * 1024)
    (first.1 ++ rest.1, rest.2)

/-! ### Seeking -/

/-- The position a target stands for, if it is one. -/
def resolve (r : FileRange) (target : SeekTarget) : Option Nat :=
  let position : Int := match target with
    | .position n => n
    | .fromEnd distance => r.len + distance
    | .fromHere distance => r.pos + distance
  if 0 ≤ position ∧ position < countLimit then some position.toNat else none

/-- Moves to a target, and gives its position. The buffer is kept if the target is in it. A distance
that is too large to be counted is travelled by way of the file's own offset. -/
def seek (r : FileRange) (target : SeekTarget) : Except IoError Nat × FileRange :=
  match r.resolve target with
  | none => (.error .seekRange, r)
  | some position =>
    let distance : Int := position - r.pos
    let moved :=
      if -offsetLimit ≤ distance ∧ distance < offsetLimit then
        r.file.moveBy distance
      else if r.start + position < countLimit then
        r.file.moveTo (r.start + position)
      else
        (.error .seekOverflow, r.file)
    match moved with
    | (.ok _, file) => (.ok position, { r with file, pos := position })
    | (.error e, file) => (.error e, { r with file })

/-! ### As a stream of bytes -/

instance : ByteReader FileRange where
  read r n :=
    let portion := r.read n
    (.ok portion.1, portion.2)
  interruptions _ := 0
  length_le {r _ n _} h := by
    simp only [Prod.mk.injEq, Except.ok.injEq] at h
    rw [← h.1]
    exact Nat.le_trans (r.length_read_le n) (Nat.min_le_right ..)
  interruptions_lt h := by simp at h

instance : ByteSource FileRange where
  readExact := ByteReader.readExact
  atEnd r :=
    let atHand := r.fill
    (.ok atHand.1.isEmpty, atHand.2)

instance : ByteSeek FileRange where
  position := pos
  seek r n :=
    let moved := r.seek (.position n)
    (moved.1.map fun _ => (), moved.2)

end FileRange

/-- All the bytes of a file. -/
def readWhole (stored : StoredFile) : Except IoError (List UInt8) :=
  (FileRange.openWhole stored).map fun r => r.readToEnd.1

end PackedBits
