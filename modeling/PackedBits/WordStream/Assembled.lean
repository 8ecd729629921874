import PackedBits.WordStream

/-!
# Words assembled from a list of bytes

`AssembledWords` makes words from a list of bytes, each from the bytes of its width, the most
significant first.  It works one word ahead: the bytes of the next word are taken while the word
before is handed out, so that it knows its end without asking.  Bytes at the end that do not make a
word are taken and dropped.

The number of words handed out is a natural number, an idealisation of a 64-bit counter; a list of
`countLimit` words does not fit in memory.
-/

namespace PackedBits

variable {w : Width}

/-- Words made from bytes, one word ahead. -/
structure AssembledWords (w : Width) where
  /-- The bytes that have not been taken. -/
  bytes : List UInt8
  /-- The next word, if there were enough bytes for one. -/
  next? : Option (Word w)
  /-- The number of words handed out, without a limit. -/
  count : Nat := 0

namespace AssembledWords

/-- The word made from the first bytes, if there are enough, and the bytes that are left. -/
def assemble (bytes : List UInt8) : Option (Word w) × List UInt8 :=
  if w.bytes ≤ bytes.length then
    (some (Word.ofBytes (bytes.take w.bytes)), bytes.drop w.bytes)
  else
    (none, [])

/-- The words made from `bytes`. -/
def ofBytes (bytes : List UInt8) : AssembledWords w :=
  let made := assemble bytes
  { bytes := made.2, next? := made.1 }

/-- Hands out the next word and makes the one after it. -/
def pop (a : AssembledWords w) : Option (Word w) × AssembledWords w :=
  match a.next? with
  | none => (none, a)
  | some x =>
    let made := assemble a.bytes
    (some x, { bytes := made.2, next? := made.1, count := a.count + 1 })

/-- The next word, or a refusal if there is none. -/
def read (a : AssembledWords w) : Outcome StreamError (Word w) × AssembledWords w :=
  match a.pop with
  | (some x, a) => (.ok x, a)
  | (none, a) => (.error (.refused (.endOfWords a.count)), a)

/-- Whether there is no next word. -/
def atEnd (a : AssembledWords w) : Bool :=
  a.next?.isNone

instance : WordSource (AssembledWords w) w where
  read := read
  atEnd a := (.ok a.atEnd, a)

end AssembledWords

end PackedBits
