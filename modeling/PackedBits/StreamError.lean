import PackedBits.IoError

/-!
# Errors of word streams

A stream of words either lives in memory, and refuses only to go beyond its words, or is made of a
stream of bytes and hands on the errors of that.  Copying bits from one stream to another can fail
on either side; its error says on which.
-/

namespace PackedBits

/-- Why a stream of words refused. -/
inductive StreamError where
  /-- There is no word at the position. -/
  | endOfWords (pos : Nat)
  /-- The position to move to lies behind the end. -/
  | beyondEnd (pos len : Nat)
  /-- The stream of bytes underneath failed. -/
  | io (error : IoError)
  deriving DecidableEq, Repr

/-- The text of an error. -/
def StreamError.text? : StreamError → Option String
  | endOfWords pos => some s!"Unexpected end of data at word position {pos}"
  | beyondEnd pos len => some s!"Position beyond end of data: {pos} > {len}"
  | io error => error.text?

/-- Why copying stopped. -/
inductive CopyError where
  /-- The stream that is read refused. -/
  | reading (error : StreamError)
  /-- The stream that is written refused. -/
  | writing (error : StreamError)
  deriving DecidableEq, Repr

namespace CopyError

/-- The error of the stream that stopped the copying. -/
def inner : CopyError → StreamError
  | reading e => e
  | writing e => e

/-- The text of an error. -/
def text? : CopyError → Option String
  | reading e => e.text?.map ("Read error while copying: " ++ ·)
  | writing e => e.text?.map ("Write error while copying: " ++ ·)

end CopyError

end PackedBits
