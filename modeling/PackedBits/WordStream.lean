import PackedBits.StreamError
import PackedBits.Fault
import PackedBits.Word

/-!
# Streams of words

Bits are packed into the words of a sink and unpacked from the words of a source.  Packing and
unpacking are the same for every sink and source, so they are defined over the classes of this
module, and hold for any stream that says how it is read, written or moved.

An operation takes the state of a stream and gives back its outcome and the state it leaves.
Nothing is asked of the state after a failure: a source may or may not have lost a word, a sink may
or may not accept the next one.
-/

namespace PackedBits

/-- A source of words that knows when there are no more. -/
class WordSource (σ : Type) (w : outParam Width) where
  /-- Reads the next word. -/
  read : σ → Outcome StreamError (Word w) × σ
  /-- Whether there is no next word. -/
  atEnd : σ → Outcome StreamError Bool × σ

/-- A sink of words. -/
class WordSink (κ : Type) (w : outParam Width) where
  /-- Writes a word behind those before. -/
  write : κ → Word w → Outcome StreamError Unit × κ
  /-- Passes on what the sink may hold back. -/
  flush : κ → Outcome StreamError Unit × κ

/-- A stream of words with a position that can be moved. -/
class WordSeek (σ : Type) where
  /-- The number of words in front of the position. -/
  position : σ → Nat
  /-- Moves the position. -/
  seek : σ → Nat → Outcome StreamError Unit × σ

end PackedBits
