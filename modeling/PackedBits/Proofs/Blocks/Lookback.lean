import PackedBits.Proofs.Blocks.Bounds

/-!
# Nothing is lost between blocks

A reader may give its bytes in any portions, be interrupted, and have nothing at the moment, in
which case the block that is loaded is shorter than it should be, or the last one so far.  Whatever
it does, the blocks up to the current one, the byte ahead and what the reader has still to give are
always its bytes (`Intact`).  Every load keeps this (`Intact.load`), hence the opening and every
step, and so it holds of all that can be `Reached`.

With it holds what is in reach in front of the current block, since a step keeps the bytes before a
block in place (`Follows`).  The theorem is `reached_intact`.
-/

namespace PackedBits

open Stream'

/-- The elements of a list at the front of a sequence. -/
theorem get?_ofList_append {α : Type} (l : List α) (s : Seq α) {i : Nat} (h : i < l.length) :
    (Seq.append (Seq.ofList l) s).get? i = l[i]? := by
  induction l generalizing i with
  | nil => simp at h
  | cons x l ih =>
    rw [Seq.ofList_cons, Seq.cons_append]
    cases i with
    | zero => rfl
    | succ i => rw [Seq.get?_cons_succ, ih (by simpa using h), List.getElem?_cons_succ]

namespace Blocks

variable {σ : Type} [ByteReader σ]

/-- What can be reached from a reader, with the blocks before the current one. -/
inductive Reached (s : σ) (shape : BlockShape) : List (List UInt8) → Blocks σ → Prop where
  | opened {b : Blocks σ} {s' : σ} : ofReader s shape = (.ok b, s') → Reached s shape [] b
  | next {earlier : List (List UInt8)} {b b' : Blocks σ} :
      Reached s shape earlier b → b.advance = (.ok true, b') →
        Reached s shape (earlier ++ [b.block]) b'
  | stay {earlier : List (List UInt8)} {b b' : Blocks σ} :
      Reached s shape earlier b → b.advance = (.ok false, b') → Reached s shape earlier b'

variable {R : σ → Seq UInt8 → Prop} {bytes : Seq UInt8} {shape : BlockShape} {s s' : σ}
  {earlier : List UInt8} {b b' : Blocks σ}

/-- Whatever is reached keeps to its room. -/
theorem InBounds.of_reached {blocks : List (List UInt8)} (h : Reached s shape blocks b) :
    InBounds b := by
  induction h with
  | opened hopen => exact (InBounds.of_ofReader hopen).1
  | next _ hadvance ih | stay _ hadvance ih =>
    have hstep := ih.advance.1
    rwa [hadvance] at hstep

omit [ByteReader σ] in
/-- A negative index gets the byte that is so far in front of the block, or zero in front of the
stream. -/
theorem Follows.get_neg (h : Follows earlier b) (hb : InBounds b) {i : Nat} (hpos : 0 < i)
    (hi : i ≤ b.shape.overlap) :
    b.get (-i) = .ok (if i ≤ earlier.length then earlier.getD (earlier.length - i) 0 else 0) := by
  rw [hb.get_eq_ok_iff, b.shown?_neg hpos hi]
  exact h.getElem?_lookback hpos hi

/-- Whether a block with the bytes `earlier` in front of it, the byte ahead and those to come are
all the bytes there are. -/
structure Intact (R : σ → Seq UInt8 → Prop) (bytes : Seq UInt8) (shape : BlockShape)
    (earlier : List UInt8) (b : Blocks σ) : Prop extends Follows earlier b where
  shape_eq : b.shape = shape
  whole : ∃ rest, R b.reader rest ∧
    Seq.append (Seq.ofList (earlier ++ b.block ++ b.ahead.toList)) rest = bytes

namespace Intact

/-- Loading a block behind `earlier`. The byte ahead is the first of it. -/
theorem load (hR : Trickle R) (h : Follows earlier b) {rest : Seq UInt8} (hs : R b.reader rest) :
    ∃ b', b.load = (.ok (), b') ∧ (b.ahead.isSome = true → b'.isEmpty = false) ∧
      Intact R (Seq.append (Seq.ofList (earlier ++ b.ahead.toList)) rest) b.shape earlier b' := by
  obtain ⟨got, ahead, s', rest', hload, rfl, hs'⟩ := hR.load hs
  refine ⟨_, hload, ?_, h.loaded _ _ _, rfl, rest', hs', ?_⟩
  · intro hahead
    obtain ⟨x, hx⟩ := Option.isSome_iff_exists.mp hahead
    simp [isEmpty, loaded, hx]
  · rw [block_loaded, ← Seq.append_assoc, ← Seq.ofList_append]
    simp [loaded]

/-- The first block. -/
theorem ofReader (hR : Trickle R) (hs : R s bytes) (hsize : 0 < shape.size)
    (hshape : shape.overlap + shape.size < offsetLimit) :
    ∃ b, ofReader s shape = (.ok b, b.reader) ∧ Intact R bytes shape [] b := by
  obtain ⟨b, hload, -, hb⟩ := load hR (Follows.new s shape) hs
  rw [List.nil_append, Option.toList_none, Seq.ofList_nil, Seq.nil_append] at hb
  exact ⟨b, ofReader_of_load hsize hshape hload, hb⟩

/-- The next block. -/
theorem next (hR : Trickle R) (h : Intact R bytes shape earlier b) {x : UInt8}
    (hahead : b.ahead = some x) (hcount : b.offset + b.len < countLimit) :
    ∃ b', b.advance = (.ok true, b') ∧ Intact R bytes shape (earlier ++ b.block) b' := by
  obtain ⟨rest, hs, rfl⟩ := h.whole
  obtain ⟨b', hload, hne, hb'⟩ := load hR h.toFollows.moved hs
  have hempty : b'.isEmpty = false := hne (by rw [moved, hahead, Option.isSome_some])
  refine ⟨b', ?_, ?_⟩
  · rw [advance_of_load hahead hcount hload, hempty, Bool.not_false]
  · rw [← h.shape_eq]
    exact hb'

/-- A step that answers keeps everything. -/
theorem advance (hR : Trickle R) (h : Intact R bytes shape earlier b) {answer : Bool}
    (hadvance : b.advance = (.ok answer, b')) :
    Intact R bytes shape (if answer then earlier ++ b.block else earlier) b' := by
  cases hahead : b.ahead with
  | none =>
    rw [advance_of_none hahead, Prod.mk.injEq, Except.ok.injEq] at hadvance
    obtain ⟨rfl, rfl⟩ := hadvance
    exact h
  | some x =>
    have hcount : b.offset + b.len < countLimit := by
      by_contra hle
      have hfault := advance_of_countLimit_le hahead (Nat.not_lt.mp hle)
      rw [hadvance] at hfault
      simp at hfault
    obtain ⟨b₁, heq, hb₁⟩ := h.next hR hahead hcount
    rw [hadvance, Prod.mk.injEq, Except.ok.injEq] at heq
    obtain ⟨rfl, rfl⟩ := heq
    exact hb₁

/-- All that is reached keeps everything. -/
theorem of_reached (hR : Trickle R) (hs : R s bytes) {blocks : List (List UInt8)}
    (h : Reached s shape blocks b) : Intact R bytes shape blocks.flatten b := by
  induction h with
  | opened hopen =>
    obtain ⟨hb, rfl⟩ := InBounds.of_ofReader hopen
    obtain ⟨b', heq, hb'⟩ := ofReader hR hs hb.size_pos hb.allocated
    rw [hopen, Prod.mk.injEq, Except.ok.injEq] at heq
    obtain ⟨rfl, -⟩ := heq
    exact hb'
  | next _ hadvance ih =>
    have hnext := ih.advance hR hadvance
    rw [if_pos rfl] at hnext
    rwa [List.flatten_concat]
  | stay _ hadvance ih => exact ih.advance hR hadvance

/-- A step has an answer unless the bytes can no longer be counted. -/
theorem advance_eq (hR : Trickle R) (h : Intact R bytes shape earlier b)
    (hcount : b.offset + b.len < countLimit) : b.advance.1 = .ok b.ahead.isSome := by
  cases hahead : b.ahead with
  | none => rw [advance_of_none hahead, Option.isSome_none]
  | some x =>
    obtain ⟨b', heq, -⟩ := h.next hR hahead hcount
    rw [heq, Option.isSome_some]

omit [ByteReader σ] in
/-- A byte in reach is the one of the stream that is so far in front of the block. -/
theorem get_neg (h : Intact R bytes shape earlier b) (hb : InBounds b) {i : Nat}
    (hpos : 0 < i) (hi : i ≤ shape.overlap) (hle : i ≤ b.offset) :
    ∃ x, bytes.get? (b.offset - i) = some x ∧ b.get (-i) = .ok x := by
  obtain ⟨rest, -, rfl⟩ := h.whole
  have hoffset := h.offset
  have hlt : b.offset - i < earlier.length := by omega
  have hlt' : b.offset - i < (earlier ++ (b.block ++ b.ahead.toList)).length := by
    rw [List.length_append]
    omega
  have hbyte := h.toFollows.get_neg hb hpos (by rwa [h.shape_eq])
  refine ⟨earlier[b.offset - i], ?_, ?_⟩
  · rw [List.append_assoc, get?_ofList_append _ _ hlt', List.getElem?_append_left hlt,
      List.getElem?_eq_getElem hlt]
  · rw [hbyte, if_pos (by omega), ← hoffset, List.getD_eq_getElem?_getD,
      List.getElem?_eq_getElem hlt, Option.getD_some]

end Intact

/-- **What is in reach.** From a reader that gives its bytes in portions of any size, with none in
between and with interruptions, a shape that can be allocated is opened.  In all that is reached
from it, the bytes of all blocks, the byte ahead and what the reader has still to give are the bytes
of the reader; the offset counts the bytes before the block; and in reach are the last of them, with
zeros in front of the stream, so that a negative index gets the byte that is so far in front of the
block.  The next step has an answer as long as the bytes can be counted. -/
theorem reached_intact (hR : Trickle R) (hs : R s bytes) (hsize : 0 < shape.size) :
    (shape.overlap + shape.size < offsetLimit → ∃ b, ofReader s shape = (.ok b, b.reader)) ∧
      ∀ (blocks : List (List UInt8)) (b : Blocks σ), Reached s shape blocks b →
        (∃ rest, R b.reader rest ∧
          Seq.append (Seq.ofList (blocks.flatten ++ b.block ++ b.ahead.toList)) rest = bytes) ∧
        b.offset = blocks.flatten.length ∧
        b.lookback
          = lastElements shape.overlap (List.replicate shape.overlap 0 ++ blocks.flatten) ∧
        (∀ i : Nat, 0 < i → i ≤ shape.overlap →
          (i ≤ b.offset → ∃ x, bytes.get? (b.offset - i) = some x ∧ b.get (-i) = .ok x) ∧
          (b.offset < i → b.get (-i) = .ok 0)) ∧
        (b.offset + b.len < countLimit → b.advance.1 = .ok b.ahead.isSome) := by
  constructor
  · intro hshape
    obtain ⟨b, heq, -⟩ := Intact.ofReader hR hs hsize hshape
    exact ⟨b, heq⟩
  · intro blocks b hb
    have hbounds := InBounds.of_reached hb
    have h := Intact.of_reached hR hs hb
    have hlookback := h.toFollows.lookback
    rw [h.shape_eq] at hlookback
    refine ⟨h.whole, h.offset, hlookback, ?_, h.advance_eq hR⟩
    intro i hpos hi
    refine ⟨h.get_neg hbounds hpos hi, ?_⟩
    intro hlt
    rw [h.toFollows.get_neg hbounds hpos (by rwa [h.shape_eq]), ← h.offset,
      if_neg (Nat.not_le.mpr hlt)]

/-- Five bytes in blocks of two, with a moment without any in between: one block is shorter, and
what is in reach of the next comes from two blocks. -/
theorem reached_intact_short_block :
    let s : ScriptReader :=
      { events := [.chunk [1, 2, 3], .chunk [], .fail (.own .interrupted "signal"), .chunk [4, 5]] }
    let shape : BlockShape := { size := 2, overlap := 3 }
    let b : Blocks ScriptReader :=
      { reader := { events := [] }, shape, past := [1, 2, 3], area := [4, 5], len := 2,
        offset := 3 }
    (∀ event ∈ s.events, event.Harmless) ∧ Reached s shape [[1, 2], [3]] b ∧
      b.lookback = [1, 2, 3] ∧ b.get (-3) = .ok 1 ∧ b.advance.1 = .ok false := by
  intro s shape b
  have hharmless : ∀ event ∈ s.events, event.Harmless := by decide
  let b₀ : Blocks ScriptReader :=
    { reader := { events := s.events.tail }, shape, area := [1, 2], len := 2, ahead := some 3 }
  let b₁ : Blocks ScriptReader :=
    { reader := { chunk := [5], events := [] }, shape, past := [1, 2], area := [3, 2], len := 1,
      offset := 2, ahead := some 4 }
  let behind : ScriptReader := { chunk := [3], events := s.events.tail }
  let resumed : ScriptReader := { events := [.fail (.own .interrupted "signal"), .chunk [4, 5]] }
  let drained : ScriptReader := { events := [] }
  -- each load collects a block, and then the byte behind it
  have hblock₀ : ByteReader.gather s 2 = (([1, 2], .full), behind) :=
    ByteReader.gather_of_full (by decide) rfl rfl
  have hahead₀ : ByteReader.gather behind 1 = (([3], .full), b₀.reader) :=
    ByteReader.gather_of_full (by decide) rfl rfl
  have hblock₁ : ByteReader.gather b₀.reader 1 = (([], .exhausted), resumed) :=
    ByteReader.gather_of_nil (by decide) rfl
  have hahead₁ : ByteReader.gather resumed 1 = (([4], .full), b₁.reader) :=
    (ByteReader.gather_of_interrupted (by decide) rfl rfl).trans
      (ByteReader.gather_of_full (by decide) rfl rfl)
  have hblock : ByteReader.gather b₁.reader 1 = (([5], .full), drained) :=
    ByteReader.gather_of_full (by decide) rfl rfl
  have hahead : ByteReader.gather drained 1 = (([], .exhausted), b.reader) :=
    ByteReader.gather_of_nil (by decide) rfl
  have hload₀ : ({ reader := s, shape } : Blocks ScriptReader).load = (.ok (), b₀) :=
    load_of_gather (b := { reader := s, shape }) hblock₀ (by simp) hahead₀ (by simp)
  have hload₁ : b₀.moved.load = (.ok (), b₁) :=
    load_of_gather (b := b₀.moved) hblock₁ (by simp) hahead₁ (by simp)
  have hload : b₁.moved.load = (.ok (), b) :=
    load_of_gather (b := b₁.moved) hblock (by simp) hahead (by simp)
  have hopened : Reached s shape [] b₀ :=
    .opened (ofReader_of_load (by decide) (by decide) hload₀)
  have hnext : Reached s shape [[1, 2]] b₁ :=
    hopened.next (advance_of_load rfl (by decide) hload₁)
  have hreached : Reached s shape [[1, 2], [3]] b :=
    hnext.next (advance_of_load rfl (by decide) hload)
  obtain ⟨-, hintact⟩ := reached_intact ScriptReader.trickle ⟨rfl, hharmless⟩
    (show 0 < shape.size by decide)
  obtain ⟨-, -, hlookback, hget, hadvance⟩ := hintact _ b hreached
  obtain ⟨x, hx, hbyte⟩ := (hget 3 (by decide) (by decide)).1 (by decide)
  have hone : x = 1 := (Option.some.inj hx).symm
  subst hone
  exact ⟨hharmless, hreached, hlookback, hbyte, hadvance (by decide)⟩

end Blocks

end PackedBits
