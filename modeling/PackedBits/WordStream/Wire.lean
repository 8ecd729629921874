import PackedBits.ByteStream
import PackedBits.WordStream

/-!
# Words on the wire

A `Wire` is a stream of bytes seen as a stream of words, each word as its bytes, the most
significant first.  It reads, writes and moves if the bytes do; a position in words is the position
in bytes divided by the bytes of a word, and rounded up.  Bytes that end inside a word are an error,
and whether there is a next word is only asked of the bytes.
-/

namespace PackedBits

/-- A stream of bytes, as words of width `w`. -/
structure Wire (w : Width) (σ : Type) where
  bytes : σ

namespace Wire

variable {w : Width} {σ : Type}

/-- Reads the bytes of one word. -/
def read [ByteSource σ] (x : Wire w σ) : Outcome StreamError (Word w) × Wire w σ :=
  match ByteSource.readExact x.bytes w.bytes with
  | (.ok bytes, s) => (.ok (Word.ofBytes bytes), { bytes := s })
  | (.error e, s) => (.error (.refused (.io (e.insideWord w.bytes))), { bytes := s })

/-- Whether there are no more bytes. -/
def atEnd [ByteSource σ] (x : Wire w σ) : Outcome StreamError Bool × Wire w σ :=
  match ByteSource.atEnd x.bytes with
  | (.ok atEnd, s) => (.ok atEnd, { bytes := s })
  | (.error e, s) => (.error (.refused (.io e)), { bytes := s })

/-- Writes the bytes of one word. -/
def write [ByteSink σ] (x : Wire w σ) (word : Word w) : Outcome StreamError Unit × Wire w σ :=
  let answer := ByteSink.writeAll x.bytes word.toBytes
  (answer.1.mapError (.map .io), { bytes := answer.2 })

/-- Flushes the bytes. -/
def flush [ByteSink σ] (x : Wire w σ) : Outcome StreamError Unit × Wire w σ :=
  let answer := ByteSink.flush x.bytes
  (answer.1.mapError (.map .io), { bytes := answer.2 })

/-- The number of words in front of the position, one that is begun included. -/
def position [ByteSeek σ] (x : Wire w σ) : Nat :=
  (ByteSeek.position x.bytes + (w.bytes - 1)) / w.bytes

/-- Moves to the front of the word `n`. -/
def seek [ByteSeek σ] (x : Wire w σ) (n : Nat) : Outcome StreamError Unit × Wire w σ :=
  if n * w.bytes < countLimit then
    match ByteSeek.seek x.bytes (n * w.bytes) with
    | (.ok _, s) => (.ok (), { bytes := s })
    | (.error e, s) => (.error (.refused (.io e)), { bytes := s })
  else
    (.error (.fault (.overflow .multiply)), x)

instance [ByteSource σ] : WordSource (Wire w σ) w where
  read := read
  atEnd := atEnd

instance [ByteSink σ] : WordSink (Wire w σ) w where
  write := write
  flush := flush

instance [ByteSeek σ] : WordSeek (Wire w σ) where
  position := position
  seek := seek

end Wire

end PackedBits
