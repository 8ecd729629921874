import PackedBits.Text.Quoted

/-!
# Errors of byte streams

An error of a byte stream is described by its cause.  Some causes arise here, as a read that finds
too few bytes; one wraps another, as a word that ends early; and a stream may raise errors of its
own, of a kind and with a text that it chooses.  The kind and the text of every cause are functions
of it, so the wording stands in one place.

Two kinds direct what happens next.  An interrupted call is made again, and only an early end of the
input is explained further when it strikes inside a word.
-/

namespace PackedBits

/-- The kinds of errors. The ones that arise here have a constructor, all others go by their
name. -/
inductive IoKind where
  | interrupted
  | unexpectedEnd
  | writeZero
  | invalidInput
  | notFound
  | named (name : String)
  deriving DecidableEq, Repr

namespace IoKind

/-- The name of a kind. -/
def name : IoKind → String
  | interrupted => "Interrupted"
  | unexpectedEnd => "UnexpectedEof"
  | writeZero => "WriteZero"
  | invalidInput => "InvalidInput"
  | notFound => "NotFound"
  | named name => name

/-- The kind of a given name. -/
def ofName : String → IoKind
  | "Interrupted" => interrupted
  | "UnexpectedEof" => unexpectedEnd
  | "WriteZero" => writeZero
  | "InvalidInput" => invalidInput
  | "NotFound" => notFound
  | name => named name

end IoKind

/-- What went wrong in a byte stream. -/
inductive IoError where
  /-- The stream's own error. -/
  | own (kind : IoKind) (text : String)
  /-- The bytes ran out before a read was complete. -/
  | shortRead
  /-- The sink stopped taking bytes before a write was complete. -/
  | shortWrite
  /-- The bytes ran out inside a word of so many bytes; `own?` is the text of the stream's own
  error, if it was the stream that called the end. -/
  | partialWord (bytes : Nat) (own? : Option String)
  /-- There is no such file. -/
  | noFile
  /-- The system does not move a file to such an offset. -/
  | badOffset
  /-- The target of a seek is negative or above the largest position. -/
  | seekRange
  /-- The target of a seek lies above the largest position of the file. -/
  | seekOverflow
  deriving DecidableEq, Repr

namespace IoError

/-- The kind of an error. -/
def kind : IoError → IoKind
  | own kind _ => kind
  | shortRead => .unexpectedEnd
  | shortWrite => .writeZero
  | partialWord _ _ => .unexpectedEnd
  | noFile => .notFound
  | badOffset => .invalidInput
  | seekRange => .invalidInput
  | seekOverflow => .invalidInput

/-- The text of a read that found too few bytes. -/
def shortReadText : String :=
  "failed to fill whole buffer"

/-- The text of a word that ended early: what it may mean, and the error that was met. -/
def partialWordText (bytes : Nat) (own? : Option String) : String :=
  let kind := IoKind.unexpectedEnd.name
  let inner := match own? with
    | none => s!"Error \x7b kind: {kind}, message: " ++ Text.quote shortReadText ++ " \x7d"
    | some text => s!"Custom \x7b kind: {kind}, error: " ++ Text.quote text ++ " \x7d"
  "Unexpected end of file. This might happen because the file length is not a multiple of the word "
    ++ s!"size used for reading ({bytes} bytes). The inner std::io::Error was " ++ inner

/-- The text of an error. The system's own errors have none here. -/
def text? : IoError → Option String
  | own _ text => some text
  | shortRead => some shortReadText
  | shortWrite => some "failed to write whole buffer"
  | partialWord bytes own? => some (partialWordText bytes own?)
  | noFile => none
  | badOffset => none
  | seekRange => some "invalid seek to a negative or overflowing position"
  | seekOverflow => some "seek position overflows"

/-- An error met while a word of so many bytes was read: an early end is explained, any other error
is passed on. -/
def insideWord (bytes : Nat) : IoError → IoError
  | shortRead => partialWord bytes none
  | own .unexpectedEnd text => partialWord bytes (some text)
  | e => e

end IoError

end PackedBits
