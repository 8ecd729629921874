import PackedBits.Proofs.ByteStream.Intake
import PackedBits.Proofs.WordStream.Reliable
import PackedBits.Proofs.WordStream.Room
import PackedBits.WordStream.Wire

/-!
# Words on a wire that carries everything

A source of bytes `Supplies` certain bytes if it gives as many of them as are asked for, as long as
there are so many, and knows when there are none left.  On the wire of a source that supplies the
bytes of some words these words are served (`Wire.serves`): a word takes exactly its bytes, so the
bytes are at their end when the words are.

Of some sources it is also known what is answered when more bytes are asked for than are left, and
hence when no words are, or too few bytes for one (`ClosedSupply`, `Wire.closedView`,
`Wire.read_of_length_lt`).  These are bytes in memory, also those at a cursor, and a source that is
interrupted.

Bytes in memory supply themselves (`ByteQueue.supply`), and on the wire of a buffer every word is
taken, and its bytes are added behind those there are (`Wire.sinkView`).  Where there is a limit to
the bytes that are taken, there is room for the words whose bytes stay below it (`Wire.roomView`).
-/

namespace PackedBits

/-! ### Sources of bytes -/

section Sources

variable {σ : Type} [ByteSource σ]

/-- A relation between sources and the bytes that they are still to give, which every call keeps. -/
structure Supply (R : σ → List UInt8 → Prop) : Prop where
  /-- A source knows whether there are bytes left. -/
  atEnd {s : σ} {bytes : List UInt8} :
    R s bytes → ∃ s', ByteSource.atEnd s = (.ok bytes.isEmpty, s') ∧ R s' bytes
  /-- A source gives the first of the bytes that are left. -/
  readExact {s : σ} {bytes : List UInt8} {n : Nat} : R s bytes → n ≤ bytes.length →
    ∃ s', ByteSource.readExact s n = (.ok (bytes.take n), s') ∧ R s' (bytes.drop n)

/-- Whether a source gives `bytes`, in whatever pieces they are asked for, and then knows that it is
at its end. -/
def Supplies (s : σ) (bytes : List UInt8) : Prop :=
  ∃ R : σ → List UInt8 → Prop, Supply R ∧ R s bytes

/-- A relation between sources and the bytes that they are still to give, which every call keeps,
and of which it is known that a read of more bytes than are left is too short, and leaves none. The
question whether bytes are left may be refused, but only with errors that `P` holds of. -/
structure ClosedSupply (P : IoError → Prop) (R : σ → List UInt8 → Prop) : Prop where
  atEnd {s : σ} {bytes : List UInt8} : R s bytes →
    ∃ s', R s' bytes ∧ (ByteSource.atEnd s = (.ok bytes.isEmpty, s') ∨
      ∃ e, P e ∧ ByteSource.atEnd s = (.error e, s'))
  readExact {s : σ} {bytes : List UInt8} {n : Nat} : R s bytes → n ≤ bytes.length →
    ∃ s', ByteSource.readExact s n = (.ok (bytes.take n), s') ∧ R s' (bytes.drop n)
  readExact_short {s : σ} {bytes : List UInt8} {n : Nat} : R s bytes → bytes.length < n →
    ∃ s', ByteSource.readExact s n = (.error .shortRead, s') ∧ R s' []

theorem Supply.closed {R : σ → List UInt8 → Prop} (hR : Supply R)
    (hshort : ∀ {s : σ} {bytes : List UInt8} {n : Nat}, R s bytes → bytes.length < n →
      ∃ s', ByteSource.readExact s n = (.error .shortRead, s') ∧ R s' []) (P : IoError → Prop) :
    ClosedSupply P R where
  atEnd h := by
    obtain ⟨s', heq, hs'⟩ := hR.atEnd h
    exact ⟨s', hs', .inl heq⟩
  readExact := hR.readExact
  readExact_short := hshort

end Sources

/-- A cursor gives the bytes behind its position. -/
theorem ByteCursor.closedSupply (P : IoError → Prop) (extent : Extent) :
    ClosedSupply P fun (c : ByteCursor extent) bytes =>
      c.pos ≤ c.length ∧ c.bytes.drop c.pos = bytes where
  atEnd {c bytes} h := by
    obtain ⟨hle, rfl⟩ := h
    have hend : c.atEnd = (c.bytes.drop c.pos).isEmpty := by
      rw [ByteCursor.atEnd, Bool.eq_iff_iff, decide_eq_true_iff, List.isEmpty_iff,
        List.drop_eq_nil_iff]
      rfl
    exact ⟨c, ⟨hle, rfl⟩, .inl (by rw [← hend]; rfl)⟩
  readExact {c bytes n} h hn := by
    obtain ⟨hle, rfl⟩ := h
    have hfit : c.pos + n ≤ c.length := by
      rw [List.length_drop] at hn
      show c.pos + n ≤ c.bytes.length
      have hlen : c.length = c.bytes.length := rfl
      omega
    refine ⟨{ c with pos := c.pos + n }, ?_, hfit, List.drop_drop.symm⟩
    show c.readExact n = _
    rw [ByteCursor.readExact, if_pos hfit]
  readExact_short {c bytes n} h hn := by
    obtain ⟨hle, rfl⟩ := h
    have hbeyond : ¬c.pos + n ≤ c.length := by
      rw [List.length_drop] at hn
      have hlen : c.length = c.bytes.length := rfl
      omega
    refine ⟨{ c with pos := c.length }, ?_, Nat.le_refl _, List.drop_length⟩
    show c.readExact n = _
    rw [ByteCursor.readExact, if_neg hbeyond]

/-- Bytes in memory are taken from the front. -/
theorem ByteQueue.supply : Supply fun (q : ByteQueue) bytes => q.bytes = bytes where
  atEnd {q bytes} h := by
    subst h
    exact ⟨q, rfl, rfl⟩
  readExact {q bytes n} h hn := by
    subst h
    refine ⟨{ bytes := q.bytes.drop n }, ?_, rfl⟩
    show q.readExact n = _
    rw [ByteQueue.readExact, if_pos hn]
    rfl

theorem ByteQueue.closedSupply (P : IoError → Prop) :
    ClosedSupply P fun (q : ByteQueue) bytes => q.bytes = bytes := by
  refine supply.closed (fun {q bytes n} h hn => ?_) P
  subst h
  refine ⟨{ bytes := [] }, ?_, rfl⟩
  show q.readExact n = _
  rw [ByteQueue.readExact, if_neg (Nat.not_le.mpr hn)]

theorem ByteQueue.supplies (bytes : List UInt8) : Supplies ({ bytes } : ByteQueue) bytes :=
  ⟨_, supply, rfl⟩

namespace Wire

variable {w : Width}

/-! ### Words that are read -/

theorem isEmpty_flatMap_toBytes (ws : List (Word w)) :
    (ws.flatMap Word.toBytes).isEmpty = ws.isEmpty := by
  have hpos := w.bytes_pos
  cases ws with
  | nil => rfl
  | cons x ws =>
    rw [List.flatMap_cons, List.isEmpty_cons, List.isEmpty_eq_false_iff, ← List.length_pos_iff,
      List.length_append, Word.length_toBytes]
    omega

variable {σ : Type} [ByteSource σ]

/-- A word is made of its bytes. -/
theorem read_of_readExact {x : Wire w σ} {y : Word w} {s : σ}
    (h : ByteSource.readExact x.bytes w.bytes = (.ok y.toBytes, s)) :
    WordSource.read x = (.ok y, ({ bytes := s } : Wire w σ)) := by
  show x.read = _
  rw [Wire.read, h]
  exact congrArg (fun z => (Except.ok z, _)) (Word.ofBytes_toBytes y)

section Reads

variable {R : σ → List UInt8 → Prop}
  (hR : ∀ {s : σ} {bytes : List UInt8} {n : Nat}, R s bytes → n ≤ bytes.length →
    ∃ s', ByteSource.readExact s n = (.ok (bytes.take n), s') ∧ R s' (bytes.drop n))
  {x : Wire w σ} {y : Word w}

include hR

/-- Where bytes are given as they are asked for, so is a word whose bytes are the first. -/
theorem read_append {more : List UInt8} (h : R x.bytes (y.toBytes ++ more)) :
    ∃ x' : Wire w σ, WordSource.read x = (.ok y, x') ∧ R x'.bytes more := by
  have hlen := Word.length_toBytes y
  obtain ⟨s', heq, hs'⟩ := hR (n := w.bytes) h (by rw [List.length_append]; omega)
  rw [List.take_left' hlen] at heq
  rw [List.drop_left' hlen] at hs'
  exact ⟨{ bytes := s' }, read_of_readExact heq, hs'⟩

theorem read_flatMap {ws : List (Word w)} (h : R x.bytes ((y :: ws).flatMap Word.toBytes)) :
    ∃ x' : Wire w σ, WordSource.read x = (.ok y, x') ∧ R x'.bytes (ws.flatMap Word.toBytes) := by
  rw [List.flatMap_cons] at h
  exact read_append hR h

end Reads

/-- Fewer bytes than a word has are none. -/
theorem read_of_length_lt {P : IoError → Prop} {R : σ → List UInt8 → Prop} (hR : ClosedSupply P R)
    {x : Wire w σ} {bytes : List UInt8} (h : R x.bytes bytes) (hn : bytes.length < w.bytes) :
    ∃ x' : Wire w σ, WordSource.read x = (.error (.refused (.io (.partialWord w.bytes none))), x') ∧
      R x'.bytes [] := by
  obtain ⟨s', heq, hs'⟩ := hR.readExact_short h hn
  refine ⟨{ bytes := s' }, ?_, hs'⟩
  show x.read = _
  rw [Wire.read, heq]
  rfl

/-- The bytes of words are the words. -/
theorem sourceView {R : σ → List UInt8 → Prop} (hR : Supply R) :
    SourceView fun (x : Wire w σ) ws => R x.bytes (ws.flatMap Word.toBytes) where
  atEnd {x ws} h := by
    obtain ⟨s', heq, hs'⟩ := hR.atEnd h
    refine ⟨{ bytes := s' }, ?_, hs'⟩
    show x.atEnd = _
    rw [Wire.atEnd, heq, isEmpty_flatMap_toBytes]
  read h := read_flatMap hR.readExact h

/-- When the bytes are at their end, no more words are read. -/
theorem closedView {P : IoError → Prop} {R : σ → List UInt8 → Prop} (hR : ClosedSupply P R) :
    ClosedView (fun error => ∃ e, P e ∧ error = .io e) (.io (.partialWord w.bytes none))
      fun (x : Wire w σ) ws => R x.bytes (ws.flatMap Word.toBytes) where
  atEnd {x ws} h := by
    obtain ⟨s', hs', heq | ⟨e, he, heq⟩⟩ := hR.atEnd h
    · refine ⟨{ bytes := s' }, hs', .inl ?_⟩
      show x.atEnd = _
      rw [Wire.atEnd, heq, isEmpty_flatMap_toBytes]
    · refine ⟨{ bytes := s' }, hs', .inr ⟨.io e, ⟨e, he, rfl⟩, ?_⟩⟩
      show x.atEnd = _
      rw [Wire.atEnd, heq]
  read h := read_flatMap hR.readExact h
  read_nil h := read_of_length_lt hR h w.bytes_pos

/-- A source that supplies the bytes of words serves them. -/
theorem serves {s : σ} {ws : List (Word w)} (h : Supplies s (ws.flatMap Word.toBytes)) :
    Serves ({ bytes := s } : Wire w σ) ws := by
  obtain ⟨R, hR, hs⟩ := h
  exact ⟨_, sourceView hR, hs⟩

/-! ### Words that are written -/

/-- Whether a buffer has the bytes of the words that were written, behind those it had before. -/
def Carries (before : List UInt8) (x : Wire w ByteBuffer) (calls : List (SinkCall w)) : Prop :=
  x.bytes.bytes.toList = before ++ (calls.filterMap SinkCall.word?).flatMap Word.toBytes

/-- A buffer takes every word. -/
theorem sinkView (before : List UInt8) : SinkView (Carries (w := w) before) where
  write {x calls} y h := by
    refine ⟨{ bytes := x.bytes.append y.toBytes }, rfl, ?_⟩
    have hx : x.bytes.bytes.toList = _ := h
    rw [Carries, List.filterMap_append, List.flatMap_append, ← List.append_assoc, ← hx]
    simp [ByteBuffer.append, SinkCall.word?]
  flush {x calls} h := by
    refine ⟨x, rfl, ?_⟩
    have hx : x.bytes.bytes.toList = _ := h
    rw [Carries, List.filterMap_append, hx]
    simp [SinkCall.word?]

variable {κ : Type} [ByteSink κ]

/-- A word is written as its bytes. -/
theorem write_of_writeAll {x : Wire w κ} {y : Word w} {s : κ}
    (h : ByteSink.writeAll x.bytes y.toBytes = (.ok (), s)) :
    WordSink.write x y = (.ok (), ({ bytes := s } : Wire w κ)) := by
  show x.write y = _
  rw [Wire.write, h]
  rfl

theorem write_of_writeAll_error {x : Wire w κ} {y : Word w} {failure : Failure IoError} {s : κ}
    (h : ByteSink.writeAll x.bytes y.toBytes = (.error failure, s)) :
    WordSink.write x y = (.error (failure.map .io), ({ bytes := s } : Wire w κ)) := by
  show x.write y = _
  rw [Wire.write, h]
  rfl

/-- As long as bytes are taken, words are. -/
theorem roomView {limit room : Nat} {R : κ → List UInt8 → Prop} (hR : Intake limit R)
    (hroom : w.bytes * room < limit) :
    RoomView room fun (x : Wire w κ) ws => R x.bytes (ws.flatMap Word.toBytes) where
  write {x ws} y h hlt := by
    have hle : w.bytes * (ws.length + 1) ≤ w.bytes * room := Nat.mul_le_mul_left _ hlt
    obtain ⟨s', heq, hs'⟩ := hR.writeAll y.toBytes h (by
      rw [Word.length_flatMap_toBytes, Word.length_toBytes]
      exact Nat.lt_of_le_of_lt hle hroom)
    refine ⟨{ bytes := s' }, write_of_writeAll heq, ?_⟩
    rw [List.flatMap_append, List.flatMap_singleton]
    exact hs'

end Wire

end PackedBits
