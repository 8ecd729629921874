import PackedBits.WordStream

/-!
# Words in memory

A `Tape` is a row of words of a fixed length with a position in it.  It is a source and a sink at
once: reading gives the word at the position, writing replaces it, and both move on.  The position
never leaves the row, of which the place behind the last word is part; what would go beyond is
refused and changes nothing.

A `WordBuffer` is a row that grows: words are written behind its last one, without limit.
-/

namespace PackedBits

variable {w : Width}

/-! ### A row of fixed length -/

/-- A row of words and a position in it. -/
structure Tape (w : Width) where
  words : List (Word w)
  pos : Nat := 0

namespace Tape

/-- The number of words. -/
def length (t : Tape w) : Nat :=
  t.words.length

/-- The word at the position. -/
def read (t : Tape w) : Outcome StreamError (Word w) × Tape w :=
  match t.words[t.pos]? with
  | some x => (.ok x, { t with pos := t.pos + 1 })
  | none => (.error (.refused (.endOfWords t.pos)), t)

/-- Replaces the word at the position. -/
def write (t : Tape w) (x : Word w) : Outcome StreamError Unit × Tape w :=
  if t.pos < t.length then
    (.ok (), { words := t.words.set t.pos x, pos := t.pos + 1 })
  else
    (.error (.refused (.endOfWords t.pos)), t)

/-- Whether the position is behind the last word. -/
def atEnd (t : Tape w) : Bool :=
  t.length ≤ t.pos

/-- Moves to a position in the row, or behind its last word. -/
def seek (t : Tape w) (n : Nat) : Outcome StreamError Unit × Tape w :=
  if n ≤ t.length then
    (.ok (), { t with pos := n })
  else
    (.error (.refused (.beyondEnd n t.length)), t)

instance : WordSource (Tape w) w where
  read := read
  atEnd t := (.ok t.atEnd, t)

instance : WordSink (Tape w) w where
  write := write
  flush t := (.ok (), t)

instance : WordSeek (Tape w) where
  position := pos
  seek := seek

end Tape

/-! ### A row that grows -/

/-- A row of words to which words are added. -/
structure WordBuffer (w : Width) where
  words : Array (Word w) := #[]

namespace WordBuffer

/-- The number of words. -/
def size (b : WordBuffer w) : Nat :=
  b.words.size

/-- Adds a word. -/
def push (b : WordBuffer w) (x : Word w) : WordBuffer w :=
  { words := b.words.push x }

instance : WordSink (WordBuffer w) w where
  write b x := (.ok (), b.push x)
  flush b := (.ok (), b)

end WordBuffer

end PackedBits
