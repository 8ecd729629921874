import PackedBits.BitStream
import PackedBits.EndMark
import PackedBits.WordStream

/-!
# Packing bits into words

A `Packer` fills a word from its lowest bit upwards, and emits it to a sink of words when it is
full.  When the packer is closed it ends the stream: with an end mark, which records how many bits
of the last word are valid, or by emitting what is left of the last word, filled up with zeros.  It
is closed once, whether the closing succeeds or not.

As long as the sink takes every word, the position stays below the width of a word, and the bits of
the current word from the position on are clear.  An emission that fails leaves the full word in
place.  A single bit may then be added behind it, and the position goes beyond the width: the next
set bit has nowhere to go, and neither has a group of bits.  These are faults, as are an end mark
for so many bits and the writes that the contract rules out.

The number of bits written is a natural number, an idealisation of a 64-bit counter: it would take
`countLimit` bits to make that one overflow, which no stream comes to, and no fault stands for it.
-/

namespace PackedBits

/-- A sink of words and the word that is being filled. -/
structure Packer (w : Width) (κ : Type) where
  sink : κ
  /-- The word that is being filled. -/
  word : Word w := 0
  /-- The number of bits of the word in use. -/
  pos : Nat := 0
  /-- The number of bits written, without a limit. -/
  written : Nat := 0
  /-- Whether the stream ends with a mark. -/
  marked : Bool := true
  /-- Whether a value with bits above those to be written is a fault. -/
  strict : Bool := false
  /-- Whether the sink has taken a word. -/
  emitted : Bool := false
  /-- Whether the stream has been ended. -/
  closed : Bool := false

namespace Packer

variable {w : Width} {κ : Type} [WordSink κ w]

/-- Passes the current word to the sink and begins a new one. If the sink refuses, the word
stays. -/
def emit (p : Packer w κ) : Outcome StreamError Unit × Packer w κ :=
  match WordSink.write p.sink p.word with
  | (.ok _, sink) => (.ok (), { p with sink, word := 0, pos := 0, emitted := true })
  | (.error failure, sink) => (.error failure, { p with sink })

/-! ### Writing -/

/-- Writes one bit. -/
def writeBit (p : Packer w κ) (bit : Bool) : Outcome StreamError Unit × Packer w κ :=
  if p.closed then
    (.error (.fault .closed), p)
  else if bit ∧ w.bits ≤ p.pos then
    (.error (.fault (.overflow .shiftLeft)), p)
  else
    let word := if bit then p.word ||| BitVec.twoPow w.bits p.pos else p.word
    let p := { p with word, pos := p.pos + 1, written := p.written + 1 }
    if p.pos = w.bits then p.emit else (.ok (), p)

/-- Writes the lowest `n` bits of a word. A group that does not fit into the current word is split:
its low bits fill up the word, which is emitted, and its high bits begin the next one. -/
def writeBits (p : Packer w κ) (value : Word w) (n : Nat) : Outcome StreamError Nat × Packer w κ :=
  if ¬(0 < n ∧ n ≤ w.bits) then
    (.error (.fault (.writeWidth w.bits n)), p)
  else if p.closed then
    (.error (.fault .closed), p)
  else if p.strict ∧ value &&& ~~~Word.lowOnes n ≠ 0 then
    (.error (.fault (.excessBits value.toNat n)), p)
  else if w.bits < p.pos then
    (.error (.fault (.overflow .subtract)), p)
  else if p.pos = w.bits then
    (.error (.fault (.overflow .shiftLeft)), p)
  else
    let value := value &&& Word.lowOnes n
    let space := w.bits - p.pos
    let p := { p with word := p.word ||| value <<< p.pos, written := p.written + n }
    if n < space then
      (.ok n, { p with pos := p.pos + n })
    else
      match p.emit with
      | (.error failure, p) => (.error failure, p)
      | (.ok _, p) =>
        (.ok n, if space < n then { p with word := value >>> space, pos := n - space } else p)

/-- Emits the current word if it is begun. -/
def flush (p : Packer w κ) : Outcome StreamError Unit × Packer w κ :=
  if 0 < p.pos then p.emit else (.ok (), p)

/-! ### Closing -/

/-- Writes the end mark: beside the payload of the last word if that leaves room for it, else in a
word of its own. A stream without any bits has no words and no mark. -/
def mark (p : Packer w κ) : Outcome StreamError Unit × Packer w κ :=
  if 0 < p.pos ∨ p.emitted then
    let valid := if 0 < p.pos then p.pos else w.bits
    match if EndMark.payloadBits w ≤ p.pos then p.emit else (.ok (), p) with
    | (.error failure, p) => (.error failure, p)
    | (.ok _, p) =>
      match EndMark.encode? w valid with
      | .error fault => (.error (.fault fault), p)
      | .ok mark => { p with word := p.word ||| mark }.emit
  else
    (.ok (), p)

/-- Flushes the sink. -/
def flushSink (p : Packer w κ) : Outcome StreamError Unit × Packer w κ :=
  let answer := WordSink.flush p.sink
  (answer.1, { p with sink := answer.2 })

/-- Ends the stream and flushes the sink. A stream that was ended before, even if that failed, is
left alone. -/
def close (p : Packer w κ) : Outcome StreamError Unit × Packer w κ :=
  if p.closed then
    (.ok (), p)
  else
    let p := { p with closed := true }
    match if p.marked then p.mark else p.flush with
    | (.error failure, p) => (.error failure, p)
    | (.ok _, p) => p.flushSink

/-- Ends the stream and gives back the sink. -/
def intoSink (p : Packer w κ) : Outcome StreamError Unit × κ :=
  let answer := p.close
  (answer.1, answer.2.sink)

/-- Ends the stream and gives back the sink, passing over its refusals. -/
def discard (p : Packer w κ) : Outcome StreamError Unit × κ :=
  match p.close with
  | (.error (.refused _), p) => (.ok (), p.sink)
  | (answer, p) => (answer, p.sink)

instance : BitWriter (Packer w κ) w where
  writeBit := writeBit
  writeBits := writeBits
  flush := flush
  posInWord := pos
  bitsWritten := written

end Packer

end PackedBits
