import PackedBits.File.Range

/-!
# Mapping a range of a file

A `MappedRange` shows the bytes of a span of a file as a list.  The span is clamped to the file as
it is for reading, and an empty one maps nothing.

How a part of a file is mapped is a matter of the system.  It is a parameter, a `Mapper`; the one
that shows the bytes as they are stored is `Mapper.stored`.
-/

namespace PackedBits

/-- How a system maps a part of a file: from an offset on, so many bytes. -/
abbrev Mapper : Type :=
  List UInt8 → Nat → Nat → Except IoError (List UInt8)

/-- Maps the bytes as they are stored. -/
def Mapper.stored : Mapper := fun content offset len =>
  .ok ((content.drop offset).take len)

/-- A span of a file that is mapped. -/
structure MappedRange where
  /-- The offset in the file at which the span starts. -/
  start : Nat
  /-- What is mapped, if the span has any bytes. -/
  mapping : Option (List UInt8)
  deriving DecidableEq, Repr

namespace MappedRange

/-- Maps a span of a file in the way of a system. -/
def openWith (map : Mapper) (stored : StoredFile) (span : Span) : Except IoError MappedRange :=
  match stored with
  | none => .error .noFile
  | some content =>
    let span := span.clamp content.length
    if span.length = 0 then
      .ok { start := span.start, mapping := none }
    else
      (map content span.start span.length).map fun bytes =>
        { start := span.start, mapping := some bytes }

/-- Maps a span of a file. -/
def openSpan (stored : StoredFile) (span : Span) : Except IoError MappedRange :=
  openWith .stored stored span

/-- Maps a whole file. -/
def openWhole (stored : StoredFile) : Except IoError MappedRange :=
  openSpan stored {}

/-- The bytes mapped. -/
def bytes (m : MappedRange) : List UInt8 :=
  m.mapping.getD []

/-- The number of bytes mapped. -/
def length (m : MappedRange) : Nat :=
  m.bytes.length

/-- Whether nothing is mapped. -/
def isEmpty (m : MappedRange) : Bool :=
  m.mapping.isNone

end MappedRange

end PackedBits
