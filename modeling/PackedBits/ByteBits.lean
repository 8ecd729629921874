import PackedBits.BitStream.Packer
import PackedBits.BitStream.Unpacker
import PackedBits.WordStream.Wire

/-!
# Bits in streams of bytes

The common case of a bit stream: marked, in words of the native width, on the wire of a stream of
bytes.  Such a stream can stand between other bytes, since the writer adds whole words at the place
where it begins, and the reader needs nothing but to see the end of the bytes it is given.
-/

namespace PackedBits

/-- Begins to write a marked stream of bits to a sink of bytes. -/
def bitsTo {κ : Type} [ByteSink κ] (bytes : κ) : Packer .native (Wire .native κ) :=
  { sink := { bytes } }

/-- Begins to read a marked stream of bits from a source of bytes. -/
def bitsFrom {σ : Type} [ByteSource σ] (bytes : σ) :
    Outcome StreamError (Unpacker .marked .native (Wire .native σ)) × Wire .native σ :=
  Unpacker.openMarked { bytes }

end PackedBits
