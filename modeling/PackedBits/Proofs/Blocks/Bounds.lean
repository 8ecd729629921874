import Mathlib
import PackedBits.Proofs.Blocks.Cut

/-!
# Staying in bounds

Whatever a reader does, also when it fails in the middle of a block, everything keeps to the room
that was allocated for it: the bytes in front of the block to the overlap, those in its place to the
size of a block, and the block to those in its place (`InBounds`).  The first load makes it so,
every load keeps it whichever of its two requests fails (`InBounds.load`), and so does every step
(`InBounds.advance`).

Hence the ranges of the buffer that are copied, filled or shown lie inside it.  That is said of its
`memory`: the overlap and the block are parts of it (`InBounds.part?_lookback`,
`InBounds.part?_block`), and so is what a step copies to its front (`InBounds.part?_moved`).  An
access by index finds the byte of the block or of the overlap that is shown there, and is refused
with the range exactly where none is; the offsets by which it is worked out never leave their range
(`InBounds.get?_eq`, `InBounds.get_eq`).

The theorems are `stays_in_bounds` and `access_agrees`.
-/

namespace PackedBits

/-- The elements of a list from the place `i` up to the place `j`, if these lie in the list and in
this order. -/
def part? {α : Type} (l : List α) (i j : Nat) : Option (List α) :=
  if i ≤ j ∧ j ≤ l.length then some ((l.take j).drop i) else none

theorem part?_of_le {α : Type} {l : List α} {i j : Nat} (hij : i ≤ j) (hj : j ≤ l.length) :
    part? l i j = some ((l.take j).drop i) :=
  if_pos ⟨hij, hj⟩

namespace Blocks

variable {σ : Type} {b b' : Blocks σ}

/-! ### The buffer -/

/-- Whether everything keeps to the room that there is for it. -/
structure InBounds (b : Blocks σ) : Prop where
  size_pos : 0 < b.shape.size
  allocated : b.shape.overlap + b.shape.size < offsetLimit
  past_le : b.past.length ≤ b.shape.overlap
  area_le : b.area.length ≤ b.shape.size
  len_le_area : b.len ≤ b.area.length
  offset_lt : b.offset < countLimit

/-- All the bytes of the buffer. -/
def memory (b : Blocks σ) : List UInt8 :=
  b.buffer ++ List.replicate (b.shape.size - b.area.length) 0

namespace InBounds

theorem len_le (h : InBounds b) : b.len ≤ b.shape.size :=
  Nat.le_trans h.len_le_area h.area_le

theorem length_lookback (h : InBounds b) : b.lookback.length = b.shape.overlap := by
  have hpast := h.past_le
  rw [lookback, List.length_append, List.length_replicate]
  omega

theorem length_block (h : InBounds b) : b.block.length = b.len := by
  rw [block, List.length_take, Nat.min_eq_left h.len_le_area]

theorem length_memory (h : InBounds b) : b.memory.length = b.shape.overlap + b.shape.size := by
  have harea := h.area_le
  rw [memory, buffer, List.length_append, List.length_append, h.length_lookback,
    List.length_replicate]
  omega

/-- The front of the buffer ends with the block. -/
theorem take_memory (h : InBounds b) :
    b.memory.take (b.shape.overlap + b.len) = b.lookback ++ b.block := by
  rw [memory, buffer, List.append_assoc, ← h.length_lookback, List.take_length_add_append,
    List.take_append_of_le_length h.len_le_area, block]

theorem part?_lookback (h : InBounds b) : part? b.memory 0 b.shape.overlap = some b.lookback := by
  rw [part?_of_le (Nat.zero_le _) (by rw [h.length_memory]; exact Nat.le_add_right ..),
    List.drop_zero, memory, buffer, List.append_assoc, List.take_left' h.length_lookback]

theorem part?_block (h : InBounds b) :
    part? b.memory b.shape.overlap (b.shape.overlap + b.len) = some b.block := by
  have hlen := h.len_le
  rw [part?_of_le (Nat.le_add_right ..) (by rw [h.length_memory]; omega), h.take_memory,
    List.drop_left' h.length_lookback]

/-- What is in front of the next block are the bytes of the buffer that end with this one. -/
theorem part?_moved (h : InBounds b) :
    part? b.memory b.len (b.len + b.shape.overlap) = some b.moved.lookback := by
  have hlen := h.len_le
  have hpast := h.past_le
  rw [part?_of_le (Nat.le_add_right ..) (by rw [h.length_memory]; omega), Nat.add_comm,
    h.take_memory]
  -- counted from the end they are the last `overlap` bytes, with zeros in front
  have hfront :
      (b.lookback ++ b.block).drop b.len
        = lastElements b.shape.overlap (b.lookback ++ b.block) := by
    rw [lastElements, List.length_append, h.length_lookback, h.length_block,
      Nat.add_sub_cancel_left]
  have hzeros : List.replicate b.shape.overlap 0 ++ (b.past ++ b.block)
      = List.replicate b.past.length 0 ++ (b.lookback ++ b.block) := by
    rw [lookback, List.append_assoc, ← List.append_assoc (List.replicate b.past.length 0),
      List.replicate_append_replicate, Nat.add_sub_cancel' hpast]
  have hlong : b.shape.overlap ≤ (b.lookback ++ b.block).length := by
    rw [List.length_append, h.length_lookback]
    exact Nat.le_add_right ..
  rw [hfront, ← lastElements_append_of_le (List.replicate b.past.length 0) hlong, ← hzeros,
    lastElements_replicate_append]
  rfl

end InBounds

/-! ### Access by index -/

/-- The byte that is shown at an index, if there is one: of the block, or counted back from its
front. -/
def shown? (b : Blocks σ) : Int → Option UInt8
  | .ofNat i => b.block[i]?
  | .negSucc i => if i < b.shape.overlap then b.lookback[b.shape.overlap - (i + 1)]? else none

theorem shown?_neg (b : Blocks σ) {i : Nat} (hpos : 0 < i) (hi : i ≤ b.shape.overlap) :
    b.shown? (-i) = b.lookback[b.shape.overlap - i]? := by
  obtain ⟨i, rfl⟩ := Nat.exists_eq_succ_of_ne_zero (Nat.ne_of_gt hpos)
  have hneg : -((i + 1 : Nat) : Int) = .negSucc i := rfl
  rw [Nat.succ_eq_add_one, hneg, shown?, if_pos (Nat.lt_of_succ_le hi)]

namespace InBounds

theorem isSome_shown? (h : InBounds b) (index : Int) :
    (b.shown? index).isSome = true ↔ -b.shape.overlap ≤ index ∧ index < b.len := by
  cases index with
  | ofNat i =>
    have hindex : Int.ofNat i = i := rfl
    rw [shown?, isSome_getElem?, h.length_block, hindex]
    omega
  | negSucc i =>
    rw [shown?]
    by_cases hi : i < b.shape.overlap
    · rw [if_pos hi, isSome_getElem?, h.length_lookback]
      omega
    · rw [if_neg hi, Option.isSome_none]
      simp only [Bool.false_eq_true, false_iff]
      omega

theorem shown?_eq_none (h : InBounds b) {index : Int}
    (hrange : ¬(-b.shape.overlap ≤ index ∧ index < b.len)) : b.shown? index = none := by
  rwa [← Option.not_isSome_iff_eq_none, h.isSome_shown?]

/-- A byte that is shown is the one at its place in the buffer. -/
theorem byteAt?_eq_shown? (h : InBounds b) {index : Int} {place : Nat}
    (hplace : index + b.shape.overlap = place) (hlt : place < b.shape.overlap + b.len) :
    b.byteAt? place = b.shown? index := by
  have hlen := h.len_le
  have hlook := h.length_lookback
  have harea := h.len_le_area
  rw [byteAt?, if_pos (by omega), buffer, List.getD_eq_getElem?_getD]
  cases index with
  | ofNat i =>
    have hindex : place = b.shape.overlap + i := by
      have hcast : Int.ofNat i = i := rfl
      omega
    rw [List.getElem?_append_right (by omega), hlook, hindex, Nat.add_sub_cancel_left, shown?,
      block, List.getElem?_take_of_lt (by omega), List.getElem?_eq_getElem (by omega),
      Option.getD_some]
  | negSucc i =>
    have hi : i < b.shape.overlap := by omega
    have hindex : place = b.shape.overlap - (i + 1) := by omega
    rw [hindex, List.getElem?_append_left (by omega), shown?, if_pos hi,
      List.getElem?_eq_getElem (by omega), Option.getD_some]

theorem get?_eq (h : InBounds b) (index : Int) : b.get? index = b.shown? index := by
  have hroom := h.allocated
  have hlen := h.len_le
  have hlimit : countLimit = 2 * offsetLimit := by decide
  by_cases hrange : -b.shape.overlap ≤ index ∧ index < b.len
  · obtain ⟨place, hplace⟩ : ∃ place : Nat, index + b.shape.overlap = place :=
      Int.eq_ofNat_of_zero_le (by omega)
    rw [get?, hplace, Offset.ofInt?_of_le (by omega)]
    dsimp only
    rw [Offset.toSize_natCast (by omega), if_neg (by omega)]
    exact h.byteAt?_eq_shown? hplace (by omega)
  · rw [h.shown?_eq_none hrange, get?]
    by_cases hoffset :
        -offsetLimit ≤ index + b.shape.overlap ∧ index + b.shape.overlap < offsetLimit
    · rw [Offset.ofInt?_of_le hoffset]
      dsimp only
      rw [if_pos]
      by_cases hneg : index + b.shape.overlap < 0
      · exact .inl hneg
      · obtain ⟨place, hplace⟩ : ∃ place : Nat, index + b.shape.overlap = place :=
          Int.eq_ofNat_of_zero_le (by omega)
        rw [hplace, Offset.toSize_natCast (by omega)]
        exact .inr (by omega)
    · rw [Offset.ofInt?_of_not_le hoffset]

/-- None of the offsets leaves its range. -/
theorem get_eq (h : InBounds b) (index : Int) :
    b.get index = match b.shown? index with
      | some byte => .ok byte
      | none => .error (.blockIndex index b.shape.overlap b.len) := by
  have hroom := h.allocated
  have hlen := h.len_le
  have hlimit : countLimit = 2 * offsetLimit := by decide
  have hoverlap : Offset.ofSize b.shape.overlap = b.shape.overlap := Offset.ofSize_of_lt (by omega)
  have hend : Offset.ofSize b.len = b.len := Offset.ofSize_of_lt (by omega)
  unfold get
  rw [hoverlap, hend, Offset.neg_bind_of_le (by omega)]
  by_cases hrange : -b.shape.overlap ≤ index ∧ index < b.len
  · obtain ⟨byte, hbyte⟩ := Option.isSome_iff_exists.mp ((h.isSome_shown? index).mpr hrange)
    obtain ⟨place, hplace⟩ : ∃ place : Nat, index + b.shape.overlap = place :=
      Int.eq_ofNat_of_zero_le (by omega)
    rw [if_pos hrange, Offset.add_bind_of_le (by omega), hplace, Offset.toSize_natCast (by omega),
      h.byteAt?_eq_shown? hplace (by omega), hbyte]
  · rw [if_neg hrange, h.shown?_eq_none hrange]

theorem get_eq_ok_iff (h : InBounds b) {index : Int} {x : UInt8} :
    b.get index = .ok x ↔ b.shown? index = some x := by
  rw [h.get_eq]
  cases b.shown? index with
  | none => simp
  | some y => simp

theorem eq_of_get_eq_error (h : InBounds b) {index : Int} {fault : Fault}
    (herror : b.get index = .error fault) : fault = .blockIndex index b.shape.overlap b.len := by
  rw [h.get_eq] at herror
  cases hshown : b.shown? index with
  | none =>
    rw [hshown] at herror
    exact (Except.error.inj herror).symm
  | some x =>
    rw [hshown] at herror
    exact absurd herror (by simp)

end InBounds

/-! ### Loads and steps -/

section Reader

variable [ByteReader σ]

/-- The ways in which a load turns out. -/
inductive Loads (b : Blocks σ) : Except IoError Unit × Blocks σ → Prop where
  /-- There are a block and the byte behind it, or the bytes have come to their end. -/
  | complete {got : List UInt8} {ahead : Option UInt8} {s : σ} :
    got.length ≤ b.shape.size - b.ahead.toList.length →
      Loads b (.ok (), b.loaded (b.ahead.toList ++ got) ahead s)
  /-- The block could not be collected. -/
  | cut {got : List UInt8} {e : IoError} {s : σ} :
    got.length ≤ b.shape.size - b.ahead.toList.length →
      Loads b (.error e, { b.loaded (b.ahead.toList ++ got) b.ahead s with len := b.len })
  /-- The byte behind it could not be read. -/
  | blind {got : List UInt8} {e : IoError} {s : σ} :
    got.length ≤ b.shape.size - b.ahead.toList.length →
      Loads b (.error e, b.loaded (b.ahead.toList ++ got) b.ahead s)

theorem loads (b : Blocks σ) : Loads b b.load := by
  have hgot := ByteReader.length_gather_le b.reader (b.shape.size - b.ahead.toList.length)
  rcases hblock :
      ByteReader.gather b.reader (b.shape.size - b.ahead.toList.length)
    with ⟨⟨got, ending⟩, s⟩
  rw [hblock] at hgot
  by_cases hfailed : ∃ e, ending = .failed e
  · obtain ⟨e, rfl⟩ := hfailed
    rw [load_of_gather_failed hblock]
    exact .cut hgot
  · have hended := not_exists.mp hfailed
    rcases hnext : ByteReader.gather s 1 with ⟨⟨next, ending'⟩, s'⟩
    by_cases hfailed' : ∃ e, ending' = .failed e
    · obtain ⟨e, rfl⟩ := hfailed'
      rw [load_of_ahead_failed hblock hended hnext]
      exact .blind hgot
    · rw [load_of_gather hblock hended hnext (not_exists.mp hfailed')]
      exact .complete hgot

/-- The ways in which a step turns out. -/
inductive Moves (b : Blocks σ) : Outcome IoError Bool × Blocks σ → Prop where
  /-- There is no next block. -/
  | stay : b.ahead = none → Moves b (.ok false, b)
  /-- The bytes in front of the next block cannot be counted. -/
  | uncounted : b.ahead.isSome = true → countLimit ≤ b.offset + b.len →
    Moves b (.error (.fault (.overflow .add)), { b with past := b.moved.past })
  /-- There is a next block, and it has bytes. -/
  | next {b' : Blocks σ} : b.ahead.isSome = true → b.offset + b.len < countLimit →
    b'.offset = b.offset + b.len → b'.lookback = b.moved.lookback → 0 < b'.len →
    Moves b (.ok true, b')
  /-- The reader has failed. -/
  | failed {e : IoError} {b' : Blocks σ} : b.ahead.isSome = true → b.offset + b.len < countLimit →
    b'.offset = b.offset + b.len → b'.lookback = b.moved.lookback →
    Moves b (.error (.refused e), b')

theorem moves (b : Blocks σ) : Moves b b.advance := by
  cases hahead : b.ahead with
  | none =>
    rw [advance_of_none hahead]
    exact .stay hahead
  | some x =>
    have hsome : b.ahead.isSome = true := by rw [hahead, Option.isSome_some]
    rcases Nat.lt_or_ge (b.offset + b.len) countLimit with hcount | hcount
    · have hloads := loads b.moved
      rcases hload : b.moved.load with ⟨outcome, b'⟩
      rw [hload] at hloads
      cases hloads with
      | complete =>
        -- the byte ahead is the first of the block
        have hmoved : b.moved.ahead = some x := hahead
        rw [advance_of_load hahead hcount hload, hmoved]
        exact .next hsome hcount rfl rfl (Nat.succ_pos _)
      | cut =>
        rw [advance_of_load_error hahead hcount hload]
        exact .failed hsome hcount rfl rfl
      | blind =>
        rw [advance_of_load_error hahead hcount hload]
        exact .failed hsome hcount rfl rfl
    · rw [advance_of_countLimit_le hahead hcount]
      exact .uncounted hsome hcount

namespace InBounds

omit [ByteReader σ] in
theorem new (s : σ) {shape : BlockShape} (hsize : 0 < shape.size)
    (hshape : shape.overlap + shape.size < offsetLimit) :
    InBounds ({ reader := s, shape } : Blocks σ) :=
  ⟨hsize, hshape, Nat.zero_le _, Nat.zero_le _, Nat.zero_le _, show 0 < countLimit by decide⟩

omit [ByteReader σ] in
/-- Bytes that are put in the place of a block, which is then of their length or of the old one. -/
theorem loaded (h : InBounds b) {fresh : List UInt8} (hfresh : fresh.length ≤ b.shape.size)
    (ahead : Option UInt8) (s : σ) {len : Nat} (hlen : len = fresh.length ∨ len = b.len) :
    InBounds ({ b.loaded fresh ahead s with len } : Blocks σ) := by
  have harea := h.area_le
  have hold := h.len_le_area
  have hnew : (fresh ++ b.area.drop fresh.length).length = max fresh.length b.area.length := by
    rw [List.length_append, List.length_drop]
    omega
  refine ⟨h.size_pos, h.allocated, h.past_le, ?_, ?_, h.offset_lt⟩
  · show (fresh ++ b.area.drop fresh.length).length ≤ b.shape.size
    omega
  · show len ≤ (fresh ++ b.area.drop fresh.length).length
    omega

omit [ByteReader σ] in
theorem length_past_moved (b : Blocks σ) : b.moved.past.length ≤ b.shape.overlap := by
  rw [Blocks.moved, length_lastElements]
  exact Nat.min_le_left ..

omit [ByteReader σ] in
theorem moved (h : InBounds b) (hcount : b.offset + b.len < countLimit) : InBounds b.moved :=
  ⟨h.size_pos, h.allocated, length_past_moved b, h.area_le, h.len_le_area, hcount⟩

theorem load (h : InBounds b) : InBounds b.load.2 ∧ b.load.2.shape = b.shape := by
  have hsize := h.size_pos
  have hone : b.ahead.toList.length ≤ 1 := by cases b.ahead <;> simp
  have hfresh : ∀ got : List UInt8, got.length ≤ b.shape.size - b.ahead.toList.length →
      (b.ahead.toList ++ got).length ≤ b.shape.size := by
    intro got hgot
    rw [List.length_append]
    omega
  have hloads := loads b
  rcases hload : b.load with ⟨outcome, b'⟩
  rw [hload] at hloads
  cases hloads with
  | complete hgot => exact ⟨h.loaded (hfresh _ hgot) _ _ (.inl rfl), rfl⟩
  | cut hgot => exact ⟨h.loaded (hfresh _ hgot) _ _ (.inr rfl), rfl⟩
  | blind hgot => exact ⟨h.loaded (hfresh _ hgot) _ _ (.inl rfl), rfl⟩

/-- What has been opened. -/
theorem of_ofReader {s s' : σ} {shape : BlockShape} (hopen : ofReader s shape = (.ok b, s')) :
    InBounds b ∧ b.shape = shape := by
  obtain ⟨hsize, hload⟩ := load_of_ofReader hopen
  have hshape : shape.overlap + shape.size < offsetLimit := by
    by_contra hle
    rw [ofReader_of_le hsize (Nat.not_lt.mp hle)] at hopen
    simp at hopen
  have hb := (new s hsize hshape).load
  rwa [hload] at hb

/-- Any step, whatever it answers. -/
theorem advance (h : InBounds b) : InBounds b.advance.2 ∧ b.advance.2.shape = b.shape := by
  cases hahead : b.ahead with
  | none =>
    rw [advance_of_none hahead]
    exact ⟨h, rfl⟩
  | some x =>
    rcases Nat.lt_or_ge (b.offset + b.len) countLimit with hcount | hcount
    · have hmoved := (h.moved hcount).load
      rcases hload : b.moved.load with ⟨e | _, b'⟩
      · rw [hload] at hmoved
        rwa [advance_of_load_error hahead hcount hload]
      · rw [hload] at hmoved
        rwa [advance_of_load hahead hcount hload]
    · rw [advance_of_countLimit_le hahead hcount]
      exact ⟨⟨h.size_pos, h.allocated, length_past_moved b, h.area_le, h.len_le_area, h.offset_lt⟩,
        rfl⟩

/-- All that comes after any steps. -/
theorem of_advances {s s' : σ} {shape : BlockShape} (hopen : ofReader s shape = (.ok b, s'))
    (n : Nat) : InBounds (b.advances n).2 ∧ (b.advances n).2.shape = shape := by
  induction n with
  | zero => exact of_ofReader hopen
  | succ n ih =>
    obtain ⟨hbefore, hshape⟩ := ih
    obtain ⟨hstep, hshape'⟩ := hbefore.advance
    exact ⟨hstep, hshape'.trans hshape⟩

end InBounds

/-- **Bounds.** Only a shape that can be allocated is opened. Whatever the reader does, after any
steps, whatever they have answered, the block is not longer than it may be and the offset can be
counted.  The bytes in front of the block, the block, and the bytes that the next step puts in front
of its block are parts of the buffer.  A step is at fault only if the bytes in front of the next
block cannot be counted; it never makes the offset less; it answers that there is no next block
exactly if there is no byte ahead, and then leaves everything as it is, the reader too; and a next
block has bytes.  An index finds a byte exactly if it is in range. -/
theorem stays_in_bounds {s s' : σ} {shape : BlockShape} {b : Blocks σ}
    (hopen : ofReader s shape = (.ok b, s')) (n : Nat) :
    let now := (b.advances n).2
    let step := now.advance
    0 < shape.size ∧ shape.overlap + shape.size < offsetLimit ∧
      now.shape = shape ∧ now.len ≤ shape.size ∧ now.offset < countLimit ∧
      now.memory.length = shape.overlap + shape.size ∧
      part? now.memory 0 shape.overlap = some now.lookback ∧
      part? now.memory shape.overlap (shape.overlap + now.len) = some now.block ∧
      (now.ahead.isSome = true →
        part? now.memory now.len (now.len + shape.overlap) = some step.2.lookback) ∧
      ((∃ fault, step.1 = .error (.fault fault)) ↔
        now.ahead.isSome = true ∧ countLimit ≤ now.offset + now.len) ∧
      now.offset ≤ step.2.offset ∧
      (step.1 = .ok false ↔ now.ahead = none) ∧ (now.ahead = none → step.2 = now) ∧
      (step.1 = .ok true → 0 < step.2.len) ∧
      ∀ index : Int, (now.get? index).isSome = true ↔ -shape.overlap ≤ index ∧ index < now.len := by
  intro now step
  have h : InBounds now := (InBounds.of_advances hopen n).1
  obtain rfl : now.shape = shape := (InBounds.of_advances hopen n).2
  have hget : ∀ index : Int, (now.get? index).isSome = true ↔
      -now.shape.overlap ≤ index ∧ index < now.len := by
    intro index
    rw [h.get?_eq index]
    exact h.isSome_shown? index
  have hmoved := h.part?_moved
  have hmoves : Moves now step := moves now
  refine ⟨h.size_pos, h.allocated, rfl, h.len_le, h.offset_lt, h.length_memory, h.part?_lookback,
    h.part?_block, ?_⟩
  -- the look-back of the step is a part of the buffer, whether or not its block is loaded
  rcases hstep : step with ⟨outcome, b'⟩
  rw [hstep] at hmoves
  cases hmoves with
  | stay hahead =>
    exact ⟨by simp [hahead], by simp [hahead], Nat.le_refl _, by simp [hahead], fun _ => rfl,
      by simp, hget⟩
  | uncounted hahead hcount =>
    have hsome := Option.isSome_iff_ne_none.mp hahead
    exact ⟨fun _ => hmoved, by simp [hahead, hcount], Nat.le_refl _, by simp [hsome],
      by simp [hsome], by simp, hget⟩
  | next hahead hcount hoffset hlook hlen =>
    have hsome := Option.isSome_iff_ne_none.mp hahead
    have hle : now.offset ≤ b'.offset := by omega
    exact ⟨fun _ => hlook ▸ hmoved, by simp [hahead, hcount], hle, by simp [hsome], by simp [hsome],
      fun _ => hlen, hget⟩
  | failed hahead hcount hoffset hlook =>
    have hsome := Option.isSome_iff_ne_none.mp hahead
    have hle : now.offset ≤ b'.offset := by omega
    exact ⟨fun _ => hlook ▸ hmoved, by simp [hahead, hcount], hle, by simp [hsome],
      by simp [hsome], by simp, hget⟩

/-- The reader fails when the second block lacks a byte. An old one still stands there, and the next
step goes on from what the failed one has left. -/
theorem stays_in_bounds_failed_block :
    let s : ScriptReader :=
      { events := [.chunk [1, 2, 3], .fail (.own (.named "WouldBlock") "later"), .chunk [4]] }
    let shape : BlockShape := { size := 2, overlap := 1 }
    ∃ b, ofReader s shape = (.ok b, b.reader) ∧
      let now := (b.advances 1).2
      (b.advances 1).1 = [.error (.refused (.own (.named "WouldBlock") "later"))] ∧
        now.block = [3, 2] ∧ now.advance.1 = .ok true ∧
        part? now.memory 1 3 = some [3, 2] ∧ part? now.memory 2 3 = some now.advance.2.lookback ∧
        now.offset ≤ now.advance.2.offset ∧ 0 < now.advance.2.len ∧ (now.get? 2).isSome ≠ true := by
  intro s shape
  let b : Blocks ScriptReader :=
    { reader := { events := s.events.tail }, shape, area := [1, 2], len := 2, ahead := some 3 }
  have hopen : ofReader s shape = (.ok b, b.reader) := by cbv
  have hanswers :
    (b.advances 1).1 = [.error (.refused (.own (.named "WouldBlock") "later"))] := by cbv
  have hblock : (b.advances 1).2.block = [3, 2] := by cbv
  have hlen : (b.advances 1).2.len = 2 := by cbv
  have hahead : (b.advances 1).2.ahead = some 3 := by cbv
  have hstep : (b.advances 1).2.advance.1 = .ok true := by cbv
  obtain ⟨-, -, -, -, -, -, -, hpart, hmoved, -, hoffset, -, -, hpos, hget⟩ :=
    stays_in_bounds hopen 1
  rw [hlen, hblock] at hpart
  rw [hlen] at hmoved
  refine ⟨b, hopen, hanswers, hblock, hstep, hpart, hmoved (by rw [hahead]; rfl), hoffset,
    hpos hstep, ?_⟩
  rw [Ne, hget 2, hlen]
  decide

/-- **Access by index.** In all that is opened and after any steps, whatever they have answered,
`get?` finds a byte at an index exactly if the index is in range, which is exactly if `get` is not
at fault. Then it is the same byte, of the block or counted back from its front. Any other index is
answered by the fault that names the range, and by no overflow, however far from it the index is. -/
theorem access_agrees {s s' : σ} {shape : BlockShape} {b : Blocks σ}
    (hopen : ofReader s shape = (.ok b, s')) (n : Nat) (index : Int) :
    let now := (b.advances n).2
    ((∃ x, now.get? index = some x) ↔ -shape.overlap ≤ index ∧ index < now.len) ∧
      ((∃ x, now.get index = .ok x) ↔ -shape.overlap ≤ index ∧ index < now.len) ∧
      (∀ x, now.get? index = some x ↔ now.get index = .ok x) ∧
      (∀ x, now.get index = .ok x →
        (0 ≤ index → now.block[index.toNat]? = some x) ∧
        (index < 0 → now.lookback[(shape.overlap + index).toNat]? = some x)) ∧
      ∀ fault, now.get index = .error fault → fault = .blockIndex index shape.overlap now.len := by
  intro now
  have h : InBounds now := (InBounds.of_advances hopen n).1
  obtain rfl : now.shape = shape := (InBounds.of_advances hopen n).2
  rw [h.get?_eq, ← h.isSome_shown?, ← Option.isSome_iff_exists]
  refine ⟨Iff.rfl, ?_, fun x => h.get_eq_ok_iff.symm, ?_, fun fault => h.eq_of_get_eq_error⟩
  · simp only [h.get_eq_ok_iff, Option.isSome_iff_exists]
  · intro x hx
    have hshown := h.get_eq_ok_iff.mp hx
    constructor
    · intro hpos
      obtain ⟨i, rfl⟩ := Int.eq_ofNat_of_zero_le hpos
      exact hshown
    · intro hneg
      have hrange := (h.isSome_shown? index).mp (by rw [hshown, Option.isSome_some])
      obtain ⟨i, hi⟩ := Int.eq_ofNat_of_zero_le (show 0 ≤ -index by omega)
      have hplace : ((now.shape.overlap : Int) + index).toNat = now.shape.overlap - i := by omega
      rw [hplace, ← now.shown?_neg (by omega) (by omega), ← hi, Int.neg_neg, hshown]

/-- After a step that has failed in the middle of a block. The bytes at the ends of the range are
found, the index behind it is not, nor are the first and the last of all offsets. -/
theorem access_agrees_failed_block :
    let s : ScriptReader :=
      { events := [.chunk [1, 2, 3], .fail (.own (.named "WouldBlock") "later"), .chunk [4]] }
    let shape : BlockShape := { size := 2, overlap := 1 }
    ∃ b, ofReader s shape = (.ok b, b.reader) ∧
      let now := (b.advances 1).2
      now.get? (-1) = some 2 ∧ now.get (-1) = .ok 2 ∧ now.get? 1 = some 2 ∧ now.get 1 = .ok 2 ∧
        ∀ index ∈ [2, -2, (offsetLimit : Int) - 1, -(offsetLimit : Int)],
          now.get index = .error (.blockIndex index 1 2) := by
  intro s shape
  let b : Blocks ScriptReader :=
    { reader := { events := s.events.tail }, shape, area := [1, 2], len := 2, ahead := some 3 }
  have hopen : ofReader s shape = (.ok b, b.reader) := by cbv
  have hlen : (b.advances 1).2.len = 2 := by cbv
  have hlook : (b.advances 1).2.lookback = [2] := by cbv
  have hblock : (b.advances 1).2.block = [3, 2] := by cbv
  refine ⟨b, hopen, ?_⟩
  intro now
  have hfront : now.get (-1) = .ok 2 := by
    obtain ⟨-, hok, -, hbyte, -⟩ := access_agrees hopen 1 (-1)
    obtain ⟨x, hx⟩ := hok.mpr ⟨by decide, by rw [hlen]; decide⟩
    have hat := (hbyte x hx).2 (by decide)
    rw [hlook] at hat
    rw [hx, ← Option.some.inj hat]
  have hend : now.get 1 = .ok 2 := by
    obtain ⟨-, hok, -, hbyte, -⟩ := access_agrees hopen 1 1
    obtain ⟨x, hx⟩ := hok.mpr ⟨by decide, by rw [hlen]; decide⟩
    have hat := (hbyte x hx).1 (by decide)
    rw [hblock] at hat
    rw [hx, ← Option.some.inj hat]
  refine ⟨((access_agrees hopen 1 (-1)).2.2.1 2).mpr hfront, hfront,
    ((access_agrees hopen 1 1).2.2.1 2).mpr hend, hend, ?_⟩
  intro index hindex
  obtain ⟨-, hok, -, -, herror⟩ := access_agrees hopen 1 index
  have hout : ¬(-(shape.overlap : Int) ≤ index ∧ index < (2 : Nat)) := by
    clear hok herror
    revert index
    decide
  cases hget : now.get index with
  | ok x =>
    rw [hlen] at hok
    exact absurd (hok.mp ⟨x, hget⟩) hout
  | error fault => rw [herror fault hget, hlen]

end Reader

end Blocks

end PackedBits
