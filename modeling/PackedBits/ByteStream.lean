import PackedBits.Fault
import PackedBits.IoError

/-!
# Streams of bytes

A `ByteReader` gives bytes in portions of its own choosing: asked for at most `n` bytes it answers
with some of them, with none if it has no more at the moment, or with an error.  An interruption is
an error after which the same call is to be made again.

`gather` collects exactly `n` bytes as far as the reader has them: it asks again after every portion
and after every interruption, and stops at an empty portion or at any other error.  What was
collected before is kept, and the ending says why the collecting stopped.  It terminates because
each portion brings the goal nearer, and because a reader comes with a bound on the interruptions
still to come, which every interruption lowers.

Words are read from a `ByteSource`, which gives exactly as many bytes as a word has, and are written
to a `ByteSink`, which takes all the bytes of a word.
-/

namespace PackedBits

/-! ### Readers -/

/-- A reader of bytes. -/
class ByteReader (σ : Type) where
  /-- Asks for at most `n` bytes. -/
  read : σ → Nat → Except IoError (List UInt8) × σ
  /-- A bound on the interruptions to come. -/
  interruptions : σ → Nat
  /-- A portion is never larger than what was asked for. -/
  length_le {s s' : σ} {n : Nat} {bytes : List UInt8} :
    read s n = (.ok bytes, s') → bytes.length ≤ n
  /-- An interruption uses up one of those to come. -/
  interruptions_lt {s s' : σ} {n : Nat} {e : IoError} :
    read s n = (.error e, s') → e.kind = .interrupted → interruptions s' < interruptions s

/-- Why collecting bytes has stopped. -/
inductive Ending where
  /-- All bytes asked for are there. -/
  | full
  /-- The reader gave no more bytes. -/
  | exhausted
  /-- The reader failed. -/
  | failed (error : IoError)
  deriving DecidableEq, Repr

namespace ByteReader

variable {σ : Type} [ByteReader σ]

/-- Collects `n` bytes as far as the reader has them. -/
def gather (s : σ) (n : Nat) : (List UInt8 × Ending) × σ :=
  if n = 0 then
    (([], .full), s)
  else
    match _h : read s n with
    | (.ok [], s') => (([], .exhausted), s')
    | (.ok (b :: bytes), s') =>
      let rest := gather s' (n - (b :: bytes).length)
      ((b :: bytes ++ rest.1.1, rest.1.2), rest.2)
    | (.error e, s') =>
      if _hi : e.kind = .interrupted then gather s' n else (([], .failed e), s')
  termination_by (n, interruptions s)
  decreasing_by
    · apply Prod.Lex.left
      simp only [List.length_cons]
      omega
    · exact Prod.Lex.right _ (interruptions_lt _h _hi)

/-- Reads exactly `n` bytes; if there are fewer, those are lost. -/
def readExact (s : σ) (n : Nat) : Except IoError (List UInt8) × σ :=
  let gathered := gather s n
  match gathered.1 with
  | (bytes, .full) => (.ok bytes, gathered.2)
  | (_, .exhausted) => (.error .shortRead, gathered.2)
  | (_, .failed e) => (.error e, gathered.2)

end ByteReader

/-! ### Sources and sinks of words -/

/-- A source of bytes from which words are read. -/
class ByteSource (σ : Type) where
  /-- Reads exactly `n` bytes. -/
  readExact : σ → Nat → Except IoError (List UInt8) × σ
  /-- Whether there are no more bytes, at the moment. -/
  atEnd : σ → Except IoError Bool × σ

/-- A sink of bytes to which words are written. -/
class ByteSink (κ : Type) where
  /-- Writes all of the bytes. -/
  writeAll : κ → List UInt8 → Outcome IoError Unit × κ
  /-- Passes on what the sink may hold back. -/
  flush : κ → Outcome IoError Unit × κ

/-- A stream of bytes with a position that can be moved. -/
class ByteSeek (σ : Type) where
  /-- The number of bytes in front of the position. -/
  position : σ → Nat
  /-- Moves the position. -/
  seek : σ → Nat → Except IoError Unit × σ

end PackedBits
