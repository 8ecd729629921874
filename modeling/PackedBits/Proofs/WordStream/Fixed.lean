import PackedBits.Proofs.WordStream.Aligned
import PackedBits.WordStream.Memory

/-!
# A row in memory and a cursor over its bytes

A row of words keeps its length, and its position stays in it (`Tape.InPlace`).  Whatever it refuses
leaves it as it was (`Tape.make_of_failed`).

Next to it there is the cursor over its bytes, at the same place (`Tape.cursor`).  A call that both
are made for (`WordCall.Within`) leads from the one pair to another, with answers that differ only
in the error of a refusal (`Tape.make_cursor`): what a cursor does differently, it does behind the
end, and there it never gets.
-/

namespace PackedBits

variable {w : Width}

/-! ### Calls and answers -/

/-- An answer that does not say why it was refused. -/
def WordAnswer.bare : WordAnswer StreamError w → WordAnswer Unit w
  | word answer => .word (PackedBits.bare answer)
  | atEnd answer => .atEnd (PackedBits.bare answer)
  | position n => .position n
  | done answer => .done (PackedBits.bare answer)

/-- Whether a call has failed. -/
def WordAnswer.failed {ε : Type} : WordAnswer ε w → Bool
  | word answer => !answer.isOk
  | atEnd answer => !answer.isOk
  | position _ => false
  | done answer => !answer.isOk

/-- Whether a call moves only to places in a row of `len` words, and writes only if the bytes under
the cursor are fixed as well. -/
def WordCall.Within (extent : Extent) (len : Nat) : WordCall w → Prop
  | seek n => n ≤ len
  | write _ => extent = .fixed
  | _ => True

instance WordCall.decidableWithin (extent : Extent) (len : Nat) :
    DecidablePred (Within (w := w) extent len)
  | seek n => inferInstanceAs (Decidable (n ≤ len))
  | write _ => inferInstanceAs (Decidable (extent = .fixed))
  | read => .isTrue trivial
  | atEnd => .isTrue trivial
  | position => .isTrue trivial
  | flush => .isTrue trivial

namespace Tape

variable {t : Tape w} {len : Nat}

/-! ### A row by itself -/

/-- Whether a row has `len` words, and its position is one of them or behind the last. -/
structure InPlace (len : Nat) (t : Tape w) : Prop where
  length : t.length = len
  pos_le : t.pos ≤ len

theorem read_of_lt (h : t.pos < t.length) :
    t.read = (.ok t.words[t.pos], { t with pos := t.pos + 1 }) := by
  rw [read, List.getElem?_eq_getElem h]

theorem seek_of_lt {n : Nat} (h : t.length < n) :
    t.seek n = (.error (.refused (.beyondEnd n t.length)), t) :=
  if_neg (Nat.not_le.mpr h)

/-- A call keeps the position in the row, and one that fails changes nothing. -/
theorem InPlace.make (h : InPlace len t) (c : WordCall w) :
    InPlace len (c.make t).2 ∧ ((c.make t).1.failed = true → (c.make t).2 = t) := by
  obtain ⟨rfl, hpos⟩ := h
  have hstay : InPlace t.length t := ⟨rfl, hpos⟩
  cases c with
  | read =>
    show InPlace _ t.read.2 ∧ ((WordAnswer.word t.read.1).failed = true → t.read.2 = t)
    rcases Nat.lt_or_ge t.pos t.length with hlt | hle
    · rw [read_of_lt hlt]
      exact ⟨⟨rfl, hlt⟩, Bool.noConfusion⟩
    · rw [read_of_length_le hle]
      exact ⟨hstay, fun _ => rfl⟩
  | atEnd | position | flush => exact ⟨hstay, fun _ => rfl⟩
  | seek n =>
    show InPlace _ (t.seek n).2 ∧
      ((WordAnswer.done (t.seek n).1 : WordAnswer _ w).failed = true → (t.seek n).2 = t)
    unfold seek
    split
    case isTrue hn => exact ⟨⟨rfl, hn⟩, Bool.noConfusion⟩
    case isFalse => exact ⟨hstay, fun _ => rfl⟩
  | write x =>
    show InPlace _ (t.write x).2 ∧
      ((WordAnswer.done (t.write x).1 : WordAnswer _ w).failed = true → (t.write x).2 = t)
    unfold write
    split
    case isTrue hlt => exact ⟨⟨List.length_set, hlt⟩, Bool.noConfusion⟩
    case isFalse => exact ⟨hstay, fun _ => rfl⟩

/-! ### A row and a cursor -/

section Cursor

variable {extent : Extent}

/-- The cursor over the bytes of a row, at its position. -/
def cursor (t : Tape w) : Wire w (ByteCursor extent) :=
  Wire.onWords t.words t.pos

/-- What two streams answer is the same up to the error of a refusal, and of the streams that they
leave one is the cursor of the other. -/
theorem make_cursor (h : InPlace len t) (hcount : len * w.bytes < countLimit) {c : WordCall w}
    (hc : c.Within extent len) :
    (c.make t).1.bare = (c.make (t.cursor : Wire w (ByteCursor extent))).1.bare ∧
      (c.make (t.cursor : Wire w (ByteCursor extent))).2 = (c.make t).2.cursor := by
  obtain ⟨rfl, hpos⟩ := h
  cases c with
  | read =>
    rcases Nat.lt_or_ge t.pos t.length with hlt | hle
    · have hread : WordSource.read t = (.ok t.words[t.pos], { t with pos := t.pos + 1 }) :=
        read_of_lt hlt
      rw [WordCall.make, WordCall.make, hread, cursor, Wire.read_onWords_of_lt hlt]
      exact ⟨rfl, rfl⟩
    · have hread : WordSource.read t = (.error (.refused (.endOfWords t.pos)), t) :=
        read_of_length_le hle
      rw [WordCall.make, WordCall.make, hread, cursor, Wire.read_onWords_of_le hle]
      -- the cursor is set to the end, and this is where it was
      refine ⟨rfl, ?_⟩
      show Wire.onWords t.words t.length = Wire.onWords t.words t.pos
      rw [Nat.le_antisymm hpos hle]
  | atEnd =>
    rw [WordCall.make, WordCall.make, cursor, Wire.atEnd_onWords]
    exact ⟨rfl, rfl⟩
  | position =>
    rw [WordCall.make, WordCall.make, cursor, Wire.position_onWords]
    exact ⟨rfl, rfl⟩
  | seek n =>
    have hn : n ≤ t.length := hc
    have hcounted : n * w.bytes < countLimit :=
      Nat.lt_of_le_of_lt (Nat.mul_le_mul_right _ hn) hcount
    have hseek : WordSeek.seek t n = (.ok (), { t with pos := n }) := if_pos hn
    rw [WordCall.make, WordCall.make, hseek, cursor, Wire.seek_onWords, if_pos hcounted]
    exact ⟨rfl, rfl⟩
  | write x =>
    obtain rfl : extent = .fixed := hc
    have hwrite : WordSink.write t x = t.write x := rfl
    rw [WordCall.make, WordCall.make, hwrite, write, cursor, Wire.write_fixed]
    by_cases hlt : t.pos < t.length
    · have hlt' : t.pos < t.words.length := hlt
      rw [if_pos hlt, if_pos hlt']
      exact ⟨rfl, rfl⟩
    · have hlt' : ¬t.pos < t.words.length := hlt
      rw [if_neg hlt, if_neg hlt']
      exact ⟨rfl, rfl⟩
  | flush => exact ⟨rfl, rfl⟩

end Cursor

/-! ### Any calls -/

/-- **A row and the cursor over its bytes agree.** Whatever calls are made on both, as long as they
move to places in the row, and write only to bytes that are fixed, the answers are the same up to
the error of a refusal.  After them, and so after each of them, the bytes are those of the words in
the row and the positions are the same.  All that is asked of the words is that their bytes can be
counted, as they always can be in memory.

Whatever calls are made on a row, it keeps its length and its position is in it.  It then refuses to
move beyond its end, and no call that fails changes anything. -/
theorem row_and_cursor_agree (words : List (Word w)) :
    let tape : Tape w := { words }
    (∀ (extent : Extent) (calls : List (WordCall w)), words.length * w.bytes < countLimit →
      (∀ c ∈ calls, c.Within extent words.length) →
      let cursor : Wire w (ByteCursor extent) :=
        { bytes := { bytes := words.flatMap Word.toBytes } }
      let t := (runAll WordCall.make tape calls).2
      let x := (runAll WordCall.make cursor calls).2
      (runAll WordCall.make tape calls).1.map WordAnswer.bare
          = (runAll WordCall.make cursor calls).1.map WordAnswer.bare ∧
        x.bytes.bytes = t.words.flatMap Word.toBytes ∧ x.bytes.pos = t.pos * w.bytes) ∧
    ∀ calls : List (WordCall w),
      let t := (runAll WordCall.make tape calls).2
      t.length = words.length ∧ t.pos ≤ words.length ∧
        (∀ n, words.length < n → t.seek n = (.error (.refused (.beyondEnd n words.length)), t)) ∧
        ∀ c : WordCall w, (c.make t).1.failed = true → (c.make t).2 = t := by
  intro tape
  have hstart : InPlace words.length tape := ⟨rfl, Nat.zero_le _⟩
  refine ⟨fun extent calls hcount hcalls => ?_, fun calls => ?_⟩
  · intro cursor t x
    -- the cursor is at any time the one that the row makes
    have hcursor : cursor = tape.cursor := by
      rw [Tape.cursor, Wire.onWords, Nat.zero_mul]
    have hmake : ∀ {t : Tape w} {x : Wire w (ByteCursor extent)} {c : WordCall w},
        InPlace words.length t ∧ x = t.cursor → c.Within extent words.length →
        (c.make t).1.bare = (c.make x).1.bare ∧
          InPlace words.length (c.make t).2 ∧ (c.make x).2 = (c.make t).2.cursor := by
      rintro t _ c ⟨ht, rfl⟩ hc
      obtain ⟨hanswer, hleft⟩ := make_cursor ht hcount hc
      exact ⟨hanswer, (ht.make c).1, hleft⟩
    have hadmitted : Admitted WordCall.make (fun _ c => c.Within extent words.length) tape calls :=
      admitted_of_forall fun _ => hcalls
    obtain ⟨hanswers, -, hleft⟩ := runAll_alike WordCall.make WordCall.make WordAnswer.bare
      WordAnswer.bare hmake hadmitted ⟨hstart, hcursor⟩
    have hx : x = t.cursor := hleft
    refine ⟨hanswers, ?_, ?_⟩
    · rw [hx, Tape.cursor, Wire.bytes_onWords]
    · rw [hx, Tape.cursor, Wire.pos_onWords]
  · intro t
    have ht : InPlace words.length t := runAll_keeps (fun c h => (h.make c).1) hstart calls
    refine ⟨ht.length, ht.pos_le, fun n hn => ?_, fun c => (ht.make c).2⟩
    rw [← ht.length] at hn ⊢
    exact seek_of_lt hn

/-- Two words, of which the second is replaced and the first read, with a write and a read behind
the end, and a move beyond it. -/
theorem row_and_cursor_agree_two_words :
    let words : List (Word .w16) := [0x1234, 0x5678]
    let calls : List (WordCall .w16) :=
      [.seek 1, .write 0xABCD, .write 0, .position, .seek 0, .read, .read, .read, .atEnd]
    let tape : Tape .w16 := { words }
    let cursor : Wire .w16 (ByteCursor .fixed) :=
      { bytes := { bytes := words.flatMap Word.toBytes } }
    let t := (runAll WordCall.make tape calls).2
    let done := WordAnswer.done (.ok ())
    words.length * Width.w16.bytes < countLimit ∧ (∀ c ∈ calls, c.Within .fixed words.length) ∧
      (runAll WordCall.make cursor calls).1.map WordAnswer.bare
        = [done, done, .done (.error (.refused ())), .position 2, done, .word (.ok 0x1234),
          .word (.ok 0xABCD), .word (.error (.refused ())), .atEnd (.ok true)] ∧
      (runAll WordCall.make cursor calls).2.bytes.bytes = [0x12, 0x34, 0xAB, 0xCD] ∧
      2 < 3 ∧ t.seek 3 = (.error (.refused (.beyondEnd 3 2)), t) ∧
      (WordCall.make t (.write 0)).1.failed = true ∧ (WordCall.make t (.write 0)).2 = t := by
  intro words calls tape cursor t done
  have hcount : words.length * Width.w16.bytes < countLimit := by decide
  have hcalls : ∀ c ∈ calls, c.Within .fixed words.length := by decide
  have hbeyond : words.length < 3 := by decide
  have hfailed : (WordCall.make t (.write 0)).1.failed = true := by decide
  obtain ⟨hanswers, hbytes, -⟩ := (row_and_cursor_agree words).1 .fixed calls hcount hcalls
  obtain ⟨-, -, hseek, hunchanged⟩ := (row_and_cursor_agree words).2 calls
  refine ⟨hcount, hcalls, ?_, ?_, hbeyond, hseek 3 hbeyond, hfailed, hunchanged _ hfailed⟩
  · rw [← hanswers]
    decide
  · rw [hbytes]
    decide

end Tape

end PackedBits
