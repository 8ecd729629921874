import PackedBits.Proofs.WordStream.Aligned
import PackedBits.Proofs.WordStream.Assembled

/-!
# A cursor over growing bytes is a memory of words

A `WordMemory` is a row of words that grows, with a position that may be anywhere.  There are no
bytes in it: a word is read or stored at the position, and what a word is stored behind is filled
with zero.  What comes of bytes are its two limits, as words can only be stored where their bytes
can be allocated, and the position can only be moved to where the bytes in front of it can be
counted.

On the wire of a cursor that stands between words each call does what it does to the memory
(`WordMemory.make_cursor`).  The bytes that a cursor begins with are those of words if their number
is a multiple of that of a word, and so the two agree in any run (`WordMemory.cursor_is_memory`).
-/

namespace PackedBits

variable {w : Width}

/-- Words to which words are added, and a position. -/
structure WordMemory (w : Width) where
  words : List (Word w)
  pos : Nat := 0
  deriving DecidableEq

namespace WordMemory

/-- The word at the position. Where there is none the end is met inside a word, and the position is
set to it. -/
def read (m : WordMemory w) : Outcome StreamError (Word w) × WordMemory w :=
  match m.words[m.pos]? with
  | some x => (.ok x, { m with pos := m.pos + 1 })
  | none => (.error (.refused (.io (.partialWord w.bytes none))), { m with pos := m.words.length })

/-- Whether the position is at the end or behind it. -/
def atEnd (m : WordMemory w) : Bool :=
  m.words.length ≤ m.pos

/-- Stores a word at the position. Words that cannot be allocated are a fault. -/
def write (m : WordMemory w) (x : Word w) : Outcome StreamError Unit × WordMemory w :=
  if (m.pos + 1) * w.bytes < offsetLimit then
    (.ok (), { words := Word.store m.words m.pos x, pos := m.pos + 1 })
  else
    (.error (.fault .capacity), m)

/-- Moves to the word `n`, or to where it would be. -/
def seek (m : WordMemory w) (n : Nat) : Outcome StreamError Unit × WordMemory w :=
  if n * w.bytes < countLimit then
    (.ok (), { m with pos := n })
  else
    (.error (.fault (.overflow .multiply)), m)

instance : WordSource (WordMemory w) w where
  read := read
  atEnd m := (.ok m.atEnd, m)

instance : WordSink (WordMemory w) w where
  write := write
  flush m := (.ok (), m)

instance : WordSeek (WordMemory w) where
  position := pos
  seek := seek

/-- The cursor over the bytes of a memory, at its position. -/
def cursor (m : WordMemory w) : Wire w (ByteCursor .growing) :=
  Wire.onWords m.words m.pos

/-! ### One call -/

theorem read_cursor (m : WordMemory w) :
    WordSource.read m.cursor = (m.read.1, m.read.2.cursor) := by
  rcases Nat.lt_or_ge m.pos m.words.length with hlt | hle
  · rw [cursor, Wire.read_onWords_of_lt hlt, read, List.getElem?_eq_getElem hlt]
    rfl
  · rw [cursor, Wire.read_onWords_of_le hle, read, List.getElem?_eq_none hle]
    rfl

theorem seek_cursor (m : WordMemory w) (n : Nat) :
    WordSeek.seek m.cursor n = ((m.seek n).1, (m.seek n).2.cursor) := by
  rw [cursor, Wire.seek_onWords, seek]
  split
  · rfl
  · rfl

theorem write_cursor (m : WordMemory w) (x : Word w) :
    WordSink.write m.cursor x = ((m.write x).1, (m.write x).2.cursor) := by
  rw [cursor, Wire.write_growing, write]
  split
  · rfl
  · rfl

/-- Each call on the cursor is the call on the memory. -/
theorem make_cursor (m : WordMemory w) (c : WordCall w) :
    c.make m.cursor = ((c.make m).1, (c.make m).2.cursor) := by
  cases c with
  | read =>
    rw [WordCall.make, read_cursor]
    rfl
  | atEnd =>
    rw [WordCall.make, cursor, Wire.atEnd_onWords]
    rfl
  | position =>
    rw [WordCall.make, cursor, Wire.position_onWords]
    rfl
  | seek n =>
    rw [WordCall.make, seek_cursor]
    rfl
  | write x =>
    rw [WordCall.make, write_cursor]
    rfl
  | flush => rfl

/-! ### Any calls -/

/-- **A cursor is a memory of words.** Let the bytes under a growing cursor be as many as some words
have.  Whatever calls are made, each is answered as by a memory of these words, and after them all
the bytes are still those of words, namely of the words in the memory, and the position is that in
the memory. -/
theorem cursor_is_memory {data : List UInt8} (h : w.bytes ∣ data.length)
    (calls : List (WordCall w)) :
    let memory : WordMemory w := { words := AssembledWords.wordsOf data }
    let cursor : Wire w (ByteCursor .growing) := { bytes := { bytes := data } }
    let m := (runAll WordCall.make memory calls).2
    let x := (runAll WordCall.make cursor calls).2
    (runAll WordCall.make cursor calls).1 = (runAll WordCall.make memory calls).1 ∧
      w.bytes ∣ x.bytes.length ∧ x.bytes.bytes = m.words.flatMap Word.toBytes ∧
      x.bytes.pos = m.pos * w.bytes := by
  intro memory cursor m x
  have hdata : (AssembledWords.wordsOf data : List (Word w)).flatMap Word.toBytes = data := by
    rw [AssembledWords.flatMap_toBytes_wordsOf, Nat.div_mul_cancel h, List.take_length]
  have hstart : cursor = memory.cursor := by
    rw [WordMemory.cursor, Wire.onWords, hdata, Nat.zero_mul]
  have hrun :
      runAll WordCall.make cursor calls = ((runAll WordCall.make memory calls).1, m.cursor) := by
    rw [hstart]
    exact runAll_image make_cursor memory calls
  have hx : x = m.cursor := congrArg Prod.snd hrun
  refine ⟨congrArg Prod.fst hrun, ?_, ?_, ?_⟩
  · rw [hx, WordMemory.cursor, Wire.length_onWords]
    exact Nat.dvd_mul_left ..
  · rw [hx, WordMemory.cursor, Wire.bytes_onWords]
  · rw [hx, WordMemory.cursor, Wire.pos_onWords]

/-- A word that is written two words behind the only one there is, and read again, with a move that
cannot be counted at last. -/
theorem cursor_is_memory_over_gap :
    let data : List UInt8 := [0x12, 0x34]
    let calls : List (WordCall .w16) :=
      [.seek 3, .atEnd, .write 0xABCD, .position, .seek 2, .read, .read, .read, .seek 9, .read,
        .position, .seek (1 <<< 63)]
    let cursor : Wire .w16 (ByteCursor .growing) := { bytes := { bytes := data } }
    let done := WordAnswer.done (.ok ())
    let noMore := WordAnswer.word (.error (.refused (.io (.partialWord 2 none))))
    Width.w16.bytes ∣ data.length ∧
      (runAll WordCall.make cursor calls).1
        = [done, .atEnd (.ok true), done, .position 4, done, .word (.ok 0), .word (.ok 0xABCD),
          noMore, done, noMore, .position 4, .done (.error (.fault (.overflow .multiply)))] ∧
      (runAll WordCall.make cursor calls).2.bytes.bytes = [0x12, 0x34, 0, 0, 0, 0, 0xAB, 0xCD] := by
  intro data calls cursor done noMore
  have hwords : Width.w16.bytes ∣ data.length := by decide
  obtain ⟨hanswers, -, hbytes, -⟩ := cursor_is_memory hwords calls
  refine ⟨hwords, ?_, ?_⟩
  · rw [hanswers]
    decide
  · rw [hbytes]
    decide

end WordMemory

end PackedBits
