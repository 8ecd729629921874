import PackedBits.ByteStream.Memory
import PackedBits.Proofs.Runs
import PackedBits.Proofs.WordStream.Wire

/-!
# A cursor that stands between words

Words and a position among them, or behind them, determine a cursor: it is over the bytes of the
words, and as many whole words from the front (`Wire.onWords`).  Each call on the wire of such a
cursor leaves one of these again, and what it does to the bytes is said in words: `read_onWords`,
`atEnd_onWords`, `position_onWords`, `seek_onWords`, `write_growing` and `write_fixed`.  So a cursor
that once stands between words never leaves these places, and nothing below has to look at bytes
again.

A word that is written behind the last one leaves a gap, and the gap is filled with words that are
zero, like the bytes (`splice_flatMap_toBytes`).
-/

namespace PackedBits

variable {w : Width}

/-! ### Calls on words with a position -/

/-- A call on a stream of words that is read and written at a position. -/
inductive WordCall (w : Width) where
  | read
  | atEnd
  | position
  | seek (n : Nat)
  | write (x : Word w)
  | flush
  deriving DecidableEq

/-- What a call answers, with errors of type `ε`. -/
inductive WordAnswer (ε : Type) (w : Width) where
  | word (answer : Outcome ε (Word w))
  | atEnd (answer : Outcome ε Bool)
  | position (n : Nat)
  | done (answer : Outcome ε Unit)
  deriving DecidableEq

/-- Makes a call. -/
def WordCall.make {σ : Type} [WordSource σ w] [WordSink σ w] [WordSeek σ] (s : σ) :
    WordCall w → WordAnswer StreamError w × σ
  | read => let made := WordSource.read s; (.word made.1, made.2)
  | atEnd => let made := WordSource.atEnd s; (.atEnd made.1, made.2)
  | position => (.position (WordSeek.position s), s)
  | seek n => let made := WordSeek.seek s n; (.done made.1, made.2)
  | write x => let made := WordSink.write s x; (.done made.1, made.2)
  | flush => let made := WordSink.flush s; (.done made.1, made.2)

/-! ### A word stored at a position -/

namespace Word

variable {words : List (Word w)} {pos : Nat}

/-- The words with `x` at `pos`. Where there was no word in front of it, there is zero. -/
def store (words : List (Word w)) (pos : Nat) (x : Word w) : List (Word w) :=
  (List.range (max words.length (pos + 1))).map fun i => if i = pos then x else words[i]?.getD 0

/-- One word is stored, those that were there stay, and the gap is zero. -/
theorem getElem?_store (words : List (Word w)) (pos i : Nat) (x : Word w) :
    (store words pos x)[i]? =
      if i = pos then some x else if i < words.length then words[i]?
      else if i < pos then some 0 else none := by
  unfold store
  rw [List.getElem?_map]
  by_cases hin : i < max words.length (pos + 1)
  · rw [List.getElem?_range hin, Option.map_some]
    grind
  · rw [List.getElem?_eq_none (by simpa using hin)]
    grind

/-- The words in front of the position, the gap, the word, and the words behind it. -/
theorem store_eq (words : List (Word w)) (pos : Nat) (x : Word w) :
    store words pos x =
      words.take pos ++ List.replicate (pos - words.length) 0 ++ [x] ++ words.drop (pos + 1) := by
  apply List.ext_getElem?
  intro i
  rw [getElem?_store]
  have hfront : (words.take pos ++ List.replicate (pos - words.length) 0).length = pos := by
    rw [List.length_append, List.length_take, List.length_replicate]
    omega
  -- in front of `pos` there are old words and then the gap, behind it there are only old words
  rcases Nat.lt_trichotomy i pos with hlt | rfl | hgt
  · rw [List.append_assoc, List.getElem?_append_left (by omega), List.getElem?_append]
    grind
  · rw [List.append_assoc, List.getElem?_append_right (by omega), hfront, Nat.sub_self]
    simp
  · rw [List.getElem?_append_right (by simp; omega), List.getElem?_drop]
    grind

/-- Inside the words it is a replacement. -/
theorem store_of_lt (h : pos < words.length) (x : Word w) :
    store words pos x = words.set pos x := by
  have hgap : pos - words.length = 0 := Nat.sub_eq_zero_of_le (Nat.le_of_lt h)
  rw [store_eq, hgap, List.replicate_zero, List.append_nil, List.append_assoc,
    List.singleton_append, List.set_eq_take_append_cons_drop, if_pos h]

/-- In bytes a word is stored by overwriting, and its gap is filled with zeros. -/
theorem splice_flatMap_toBytes (words : List (Word w)) (pos : Nat) (x : Word w) :
    ByteCursor.splice (words.flatMap toBytes) (pos * w.bytes) x.toBytes
      = (store words pos x).flatMap toBytes := by
  have hgap : pos * w.bytes - w.bytes * words.length = (pos - words.length) * w.bytes := by
    rw [Nat.sub_mul, Nat.mul_comm w.bytes]
  rw [ByteCursor.splice, length_flatMap_toBytes, hgap, length_toBytes, ← Nat.succ_mul,
    take_flatMap_toBytes, drop_flatMap_toBytes, ← flatMap_replicate_zero, store_eq,
    List.flatMap_append, List.flatMap_append, List.flatMap_append, List.flatMap_singleton]

end Word

/-! ### The cursor -/

namespace Wire

variable {extent : Extent}

/-- A cursor over the bytes of words, with `pos` whole words in front of it. -/
def onWords (words : List (Word w)) (pos : Nat) : Wire w (ByteCursor extent) :=
  { bytes := { bytes := words.flatMap Word.toBytes, pos := pos * w.bytes } }

section Cursor

variable {words : List (Word w)} {pos : Nat}

theorem bytes_onWords :
    (onWords words pos : Wire w (ByteCursor extent)).bytes.bytes = words.flatMap Word.toBytes :=
  rfl

theorem pos_onWords : (onWords words pos : Wire w (ByteCursor extent)).bytes.pos = pos * w.bytes :=
  rfl

theorem length_onWords :
    (onWords words pos : Wire w (ByteCursor extent)).bytes.length = words.length * w.bytes := by
  rw [ByteCursor.length, bytes_onWords, Word.length_flatMap_toBytes, Nat.mul_comm]

/-- Inside the words the next one is read. -/
theorem read_onWords_of_lt (h : pos < words.length) :
    WordSource.read (onWords words pos : Wire w (ByteCursor extent))
      = (.ok words[pos], onWords words (pos + 1)) := by
  have hfit : (pos + 1) * w.bytes ≤ words.length * w.bytes := Nat.mul_le_mul_right _ h
  rw [Nat.succ_mul] at hfit
  apply read_of_readExact
  show ByteCursor.readExact _ _ = _
  rw [ByteCursor.readExact, length_onWords, pos_onWords, if_pos hfit, bytes_onWords,
    Word.drop_flatMap_toBytes, List.drop_eq_getElem_cons h, List.flatMap_cons,
    List.take_left' (Word.length_toBytes _), ← Nat.succ_mul]

/-- Behind the words there is none to be read, and the cursor is set to the end. -/
theorem read_onWords_of_le (h : words.length ≤ pos) :
    WordSource.read (onWords words pos : Wire w (ByteCursor extent))
      = (.error (.refused (.io (.partialWord w.bytes none))), onWords words words.length) := by
  have hbytes := w.bytes_pos
  have hbeyond : words.length * w.bytes ≤ pos * w.bytes := Nat.mul_le_mul_right _ h
  have hread : ByteSource.readExact (onWords words pos : Wire w (ByteCursor extent)).bytes w.bytes
      = (.error .shortRead, (onWords words words.length : Wire w (ByteCursor extent)).bytes) := by
    show ByteCursor.readExact _ _ = _
    rw [ByteCursor.readExact, length_onWords, pos_onWords, if_neg (by omega)]
    rfl
  show read _ = _
  rw [read, hread]
  rfl

theorem atEnd_onWords :
    WordSource.atEnd (onWords words pos : Wire w (ByteCursor extent))
      = (.ok (decide (words.length ≤ pos)), onWords words pos) := by
  have hend :
      (onWords words pos : Wire w (ByteCursor extent)).bytes.atEnd
        = decide (words.length ≤ pos) := by
    rw [ByteCursor.atEnd, length_onWords, pos_onWords, decide_eq_decide]
    exact Nat.mul_le_mul_right_iff w.bytes_pos
  rw [← hend]
  rfl

theorem position_onWords :
    WordSeek.position (onWords words pos : Wire w (ByteCursor extent)) = pos := by
  have hbytes := w.bytes_pos
  show (pos * w.bytes + (w.bytes - 1)) / w.bytes = pos
  rw [Nat.add_comm, Nat.add_mul_div_right _ _ hbytes, Nat.div_eq_of_lt (by omega), Nat.zero_add]

/-- Wherever the cursor is set, it stands between words. -/
theorem seek_onWords (n : Nat) :
    WordSeek.seek (onWords words pos : Wire w (ByteCursor extent)) n =
      if n * w.bytes < countLimit then (.ok (), onWords words n)
      else (.error (.fault (.overflow .multiply)), onWords words pos) :=
  rfl

/-- The bytes of a word are put over those at the position. -/
theorem put_onWords (x : Word w) :
    (onWords words pos : Wire w (ByteCursor extent)).bytes.put x.toBytes
      = (onWords (Word.store words pos x) (pos + 1) : Wire w (ByteCursor extent)).bytes := by
  rw [ByteCursor.put, bytes_onWords, pos_onWords, Word.splice_flatMap_toBytes, Word.length_toBytes,
    ← Nat.succ_mul]
  rfl

/-- Where the bytes can be allocated the word is stored. -/
theorem write_growing (x : Word w) :
    WordSink.write (onWords words pos : Wire w (ByteCursor .growing)) x =
      if (pos + 1) * w.bytes < offsetLimit then (.ok (), onWords (Word.store words pos x) (pos + 1))
      else (.error (.fault .capacity), onWords words pos) := by
  let c : ByteCursor .growing := (onWords words pos : Wire w (ByteCursor .growing)).bytes
  have hend : c.pos + x.toBytes.length = (pos + 1) * w.bytes := by
    rw [pos_onWords, Word.length_toBytes, Nat.succ_mul]
  split
  case isTrue hroom =>
    have hwrite : c.writeAll x.toBytes
        = (.ok (),
            (onWords (Word.store words pos x) (pos + 1) : Wire w (ByteCursor .growing)).bytes) := by
      rw [ByteCursor.writeAll, hend, if_pos hroom, put_onWords]
    exact write_of_writeAll hwrite
  case isFalse hfull =>
    have hwrite : c.writeAll x.toBytes = (.error (.fault .capacity), c) :=
      ByteCursor.writeAll_of_le (by rwa [hend, ← Nat.not_lt])
    exact write_of_writeAll_error (x := onWords words pos) (y := x) hwrite

/-- Inside the words a word is replaced, and behind them there is no room for even a part of one. -/
theorem write_fixed (x : Word w) :
    WordSink.write (onWords words pos : Wire w (ByteCursor .fixed)) x =
      if pos < words.length then (.ok (), onWords (words.set pos x) (pos + 1))
      else (.error (.refused (.io .shortWrite)), onWords words pos) := by
  let c : ByteCursor .fixed := (onWords words pos : Wire w (ByteCursor .fixed)).bytes
  have hbytes := w.bytes_pos
  have hroom : c.length - c.pos = (words.length - pos) * w.bytes := by
    rw [length_onWords, pos_onWords, Nat.sub_mul]
  split
  case isTrue h =>
    -- where there is room for a part of a word there is room for all of it
    have hfit : w.bytes ≤ (words.length - pos) * w.bytes :=
      Nat.le_mul_of_pos_left _ (Nat.sub_pos_of_lt h)
    have hall : x.toBytes.take ((words.length - pos) * w.bytes) = x.toBytes :=
      List.take_of_length_le (by rwa [Word.length_toBytes])
    have hsome : x.toBytes.isEmpty = false := by
      rw [List.isEmpty_eq_false_iff, ← List.length_pos_iff, Word.length_toBytes]
      exact hbytes
    have hwrite : c.writeAll x.toBytes
        = (.ok (), (onWords (words.set pos x) (pos + 1) : Wire w (ByteCursor .fixed)).bytes) := by
      simp only [ByteCursor.writeAll, hroom, hall, hsome, c, put_onWords, Word.store_of_lt h,
        Bool.false_eq_true, if_false, if_true]
    exact write_of_writeAll hwrite
  case isFalse h =>
    -- not one byte fits, so that nothing is put and the cursor stays
    have hnone : words.length - pos = 0 := Nat.sub_eq_zero_of_le (Nat.not_lt.mp h)
    have hpart : ¬(0 : Nat) = w.bytes := (Nat.ne_of_gt hbytes).symm
    have hwrite : c.writeAll x.toBytes = (.error (.refused .shortWrite), c) := by
      simp only [ByteCursor.writeAll, hroom, hnone, Nat.zero_mul, List.take_zero, List.isEmpty_nil,
        List.length_nil, Word.length_toBytes, hpart, if_true, if_false]
    exact write_of_writeAll_error (x := onWords words pos) (y := x) hwrite

end Cursor

end Wire

end PackedBits
