import PackedBits.BitStream
import PackedBits.EndMark
import PackedBits.WordStream

/-!
# Unpacking bits from words

An `Unpacker` gives out the bits of the words of a source, each word from its lowest bit upwards.

A marked stream carries in its last word how many of its bits are valid, and the last word is known
only when no other follows.  So the unpacker reads one word ahead.  When it moves on to the next
word and finds none behind it, that word carries the mark.  If there is one more, and that is the
last and counts at least `payloadBits` valid bits, it is a word with nothing but a mark, and the
count is about the word before it.  The count is held in `lastBits?` as soon as the current word is
known to be the last; before the first word of an empty stream it is zero.

An unbounded stream has no mark: words are read when their bits are asked for, and the end of the
bits is the refusal of the source.
-/

namespace PackedBits

/-- How an unpacker finds the end of its stream. -/
inductive EndMode where
  /-- The stream ends with a mark. -/
  | marked
  /-- The stream goes on as long as there are words. -/
  | unbounded
  deriving DecidableEq, Repr

namespace EndMode

/-- Whether a word is read ahead. -/
def looksAhead : EndMode → Bool
  | marked => true
  | unbounded => false

/-- Whether a source has no more words, as far as the mode wants to know. -/
def atEnd {w : Width} {σ : Type} [WordSource σ w] (mode : EndMode) (s : σ) :
    Outcome StreamError Bool × σ :=
  match mode with
  | marked => WordSource.atEnd s
  | unbounded => (.ok false, s)

end EndMode

/-- A source of words and the word whose bits are given out. -/
structure Unpacker (mode : EndMode) (w : Width) (σ : Type) where
  source : σ
  /-- The current word. -/
  word : Word w := 0
  /-- The word read ahead, if the mode reads ahead. -/
  next : Word w := 0
  /-- The number of bits of the current word given out; at first there is no current word, which is
  the same as one that is used up. -/
  pos : Nat := w.bits
  /-- The number of valid bits of the current word, if it is the last. -/
  lastBits? : Option Nat := none

namespace Unpacker

variable {mode : EndMode} {w : Width} {σ : Type} [WordSource σ w]

/-! ### Opening -/

/-- Begins to read a marked stream. The first word, if there is one, is read at once. -/
def openMarked (s : σ) : Outcome StreamError (Unpacker .marked w σ) × σ :=
  match WordSource.atEnd s with
  | (.error failure, s) => (.error failure, s)
  | (.ok true, s) => (.ok { source := s, lastBits? := some 0 }, s)
  | (.ok false, s) =>
    match WordSource.read s with
    | (.error failure, s) => (.error failure, s)
    | (.ok x, s) => (.ok { source := s, next := x }, s)

/-- Begins to read an unbounded stream. -/
def openUnbounded (s : σ) : Unpacker .unbounded w σ :=
  { source := s }

/-! ### Moving to the next word -/

/-- Makes the next word of an unbounded stream the current one. -/
def fetch (u : Unpacker mode w σ) : Outcome StreamError Unit × Unpacker mode w σ :=
  match WordSource.read u.source with
  | (.error failure, source) => (.error failure, { u with source })
  | (.ok x, source) => (.ok (), { u with source, word := x, pos := 0 })

/-- Makes the word read ahead the current one, reads the word behind it, and finds out whether the
current one is the last. -/
def shift (u : Unpacker mode w σ) : Outcome StreamError Unit × Unpacker mode w σ :=
  if u.lastBits?.isSome then
    (.error (.fault .pastEnd), u)
  else
    let u : Unpacker mode w σ := { u with word := u.next, pos := 0 }
    match WordSource.atEnd u.source with
    | (.error failure, source) => (.error failure, { u with source })
    | (.ok true, source) =>
      (.ok (), { u with source, lastBits? := some (EndMark.decode u.word) })
    | (.ok false, source) =>
      match WordSource.read source with
      | (.error failure, source) => (.error failure, { u with source })
      | (.ok x, source) =>
        let u : Unpacker mode w σ := { u with next := x }
        match WordSource.atEnd source with
        | (.error failure, source) => (.error failure, { u with source })
        | (.ok false, source) => (.ok (), { u with source })
        | (.ok true, source) =>
          let valid := EndMark.decode x
          if EndMark.payloadBits w ≤ valid then
            (.ok (), { u with source, lastBits? := some valid })
          else
            (.ok (), { u with source })

/-- Moves to the next word. -/
def advance (u : Unpacker mode w σ) : Outcome StreamError Unit × Unpacker mode w σ :=
  if mode.looksAhead then u.shift else u.fetch

/-! ### Reading -/

/-- Whether all valid bits have been given out. -/
def atEnd (u : Unpacker mode w σ) : Bool :=
  u.lastBits?.any (· ≤ u.pos)

/-- Reads one bit. -/
def readBit (u : Unpacker mode w σ) : Outcome StreamError Bool × Unpacker mode w σ :=
  if u.atEnd then
    (.error (.fault .pastEnd), u)
  else
    match if w.bits ≤ u.pos then u.advance else (.ok (), u) with
    | (.error failure, u) => (.error failure, u)
    | (.ok _, u) => (.ok (u.word.getLsbD u.pos), { u with pos := u.pos + 1 })

/-- Reads `n` bits. If the current word has not so many left, what it has are the low bits of the
result, and the high ones begin the next word. -/
def readBits (u : Unpacker mode w σ) (n : Nat) :
    Outcome StreamError (Word w) × Unpacker mode w σ :=
  if ¬(0 < n ∧ n ≤ w.bits) then
    (.error (.fault (.readWidth w.bits n)), u)
  else if u.atEnd then
    (.error (.fault .pastEnd), u)
  else if w.bits < u.pos then
    (.error (.fault (.overflow .subtract)), u)
  else
    let left := w.bits - u.pos
    if n ≤ left then
      (.ok (u.word >>> u.pos &&& Word.lowOnes n), { u with pos := u.pos + n })
    else
      let low := u.word >>> u.pos
      match u.advance with
      | (.error failure, u) => (.error failure, u)
      | (.ok _, u) =>
        let high := u.word &&& Word.lowOnes (n - left)
        (.ok (low ||| high <<< left), { u with pos := n - left })

/-- The position of the next bit in the current word. -/
def posInWord (u : Unpacker mode w σ) : Nat :=
  u.pos % w.bits

instance : BitReader (Unpacker mode w σ) w where
  readBit := readBit
  readBits := readBits
  posInWord := posInWord
  atEnd := atEnd

end Unpacker

end PackedBits
