import PackedBits.Proofs.Blocks.Moving
import PackedBits.Proofs.Word.Bytes

/-!
# Bytes cut into blocks

From a reader that delivers the bytes `d` the block `i` is `d` from `i * size` on, as far as `size`
bytes reach, and the byte ahead is the one behind it (`Cut`).  The first load makes it so for
`i = 0`, and a step from `i` to `i + 1` keeps it (`Cut.load`, `Cut.next`).  There is a byte ahead
exactly in front of the index `lastIndex`, so the steps have an answer up to there, and behind it
nothing changes any more (`Cut.advances`).

How the reader portions the bytes, and where it is interrupted, shows nowhere: two readers that
deliver the same bytes have the same answers, and all that is kept of the bytes is the same
(`Alike.advances`).
-/

namespace PackedBits.Blocks

variable {σ : Type}

/-- All that is kept of the bytes, without the reader. -/
def contents (b : Blocks σ) : Blocks Unit :=
  { b with reader := () }

/-- The index of the last of the blocks that `n` bytes are cut into. There are as many blocks as it
takes, and one at least. -/
def lastIndex (size n : Nat) : Nat :=
  max 1 ((n + size - 1) / size) - 1

theorem lastIndex_eq {size : Nat} (hsize : 0 < size) (n : Nat) :
    lastIndex size n = (n - 1) / size := by
  unfold lastIndex
  cases n with
  | zero => simp [Nat.div_eq_of_lt (Nat.sub_lt hsize Nat.one_pos)]
  | succ n =>
    have hsum : n + 1 + size - 1 = n + size := by omega
    rw [hsum, Nat.add_div_right _ hsize, Nat.max_eq_right (Nat.le_add_left 1 _), Nat.add_sub_cancel,
      Nat.add_sub_cancel]

/-- Behind every block but the last there are bytes. -/
theorem lt_lastIndex_iff {size : Nat} (hsize : 0 < size) (n i : Nat) :
    i < lastIndex size n ↔ (i + 1) * size < n := by
  have hpos : 0 < (i + 1) * size := Nat.mul_pos (Nat.succ_pos i) hsize
  rw [lastIndex_eq hsize, Nat.lt_iff_add_one_le, Nat.le_div_iff_mul_le hsize]
  omega

variable [ByteReader σ]

/-- Moves on `n` times. -/
def advances (b : Blocks σ) : Nat → List (Outcome IoError Bool) × Blocks σ
  | 0 => ([], b)
  | n + 1 =>
    let before := b.advances n
    let moved := before.2.advance
    (before.1 ++ [moved.1], moved.2)

/-- Whether the block `i` of the bytes `d` is the current one, and those behind the byte ahead are
still to come. -/
structure Cut (R : σ → List UInt8 → Prop) (d : List UInt8) (shape : BlockShape) (i : Nat)
    (b : Blocks σ) : Prop extends Follows (d.take (i * shape.size)) b where
  shape_eq : b.shape = shape
  le : i * shape.size ≤ d.length
  block : b.block = (d.drop (i * shape.size)).take shape.size
  ahead : b.ahead = (d.drop ((i + 1) * shape.size)).head?
  rest : R b.reader (d.drop ((i + 1) * shape.size + 1))

namespace Cut

variable {R : σ → List UInt8 → Prop} {d : List UInt8} {shape : BlockShape} {i : Nat}
  {b b' : Blocks σ}

/-- Loading the block `i`. -/
theorem load (hR : Delivery R) (h : Follows (d.take (i * shape.size)) b) (hshape : b.shape = shape)
    (hsize : 0 < shape.size) (hle : i * shape.size ≤ d.length) {bytes : List UInt8}
    (hs : R b.reader bytes) (hbytes : b.ahead.toList ++ bytes = d.drop (i * shape.size)) :
    ∃ b', b.load = (.ok (), b') ∧ Cut R d shape i b' := by
  subst hshape
  obtain ⟨s', hload, hs'⟩ := hR.load hs hsize
  have hnext : i * b.shape.size + b.shape.size = (i + 1) * b.shape.size := (Nat.succ_mul ..).symm
  rw [hbytes, List.drop_drop, hnext] at hload
  rw [hbytes, List.drop_drop, ← Nat.add_assoc, hnext] at hs'
  exact ⟨_, hload, h.loaded _ _ _, rfl, hle, block_loaded _ _ _ _, rfl, hs'⟩

/-- The first block. -/
theorem ofReader (hR : Delivery R) {s : σ} (hs : R s d) (hsize : 0 < shape.size)
    (hshape : shape.overlap + shape.size < offsetLimit) :
    ∃ b, ofReader s shape = (.ok b, b.reader) ∧ Cut R d shape 0 b := by
  have hnew : Follows (d.take (0 * shape.size)) ({ reader := s, shape } : Blocks σ) := by
    rw [Nat.zero_mul, List.take_zero]
    exact .new s shape
  obtain ⟨b, hload, hb⟩ := load hR hnew rfl hsize (by omega) hs (by simp)
  exact ⟨b, ofReader_of_load hsize hshape hload, hb⟩

omit [ByteReader σ] in
/-- The end of the block in the stream. -/
theorem offset_add_len (h : Cut R d shape i b) :
    b.offset + b.len = min ((i + 1) * shape.size) d.length := by
  have hle := h.le
  rw [h.offset, h.len, h.block, List.length_take, List.length_take, List.length_drop, Nat.succ_mul]
  omega

omit [ByteReader σ] in
theorem offset_eq (h : Cut R d shape i b) : b.offset = i * shape.size := by
  rw [h.offset, List.length_take, Nat.min_eq_left h.le]

omit [ByteReader σ] in
theorem isFirst_iff (h : Cut R d shape i b) (hsize : 0 < shape.size) :
    b.isFirst = true ↔ i = 0 := by
  rw [isFirst, decide_eq_true_iff, h.offset_eq, Nat.mul_eq_zero]
  omega

omit [ByteReader σ] in
theorem isLast_iff (h : Cut R d shape i b) : b.isLast = true ↔ b.offset + b.len = d.length := by
  rw [isLast, h.offset_add_len, h.ahead, Option.isNone_iff_eq_none, List.head?_eq_none_iff,
    List.drop_eq_nil_iff]
  omega

omit [ByteReader σ] in
theorem ahead_isSome_iff (h : Cut R d shape i b) (hsize : 0 < shape.size) :
    b.ahead.isSome = true ↔ i < lastIndex shape.size d.length := by
  rw [lt_lastIndex_iff hsize, h.ahead, List.isSome_head?]
  simp

omit [ByteReader σ] in
theorem isEmpty_iff (h : Cut R d shape i b) (hsize : 0 < shape.size) :
    b.isEmpty = true ↔ d.length ≤ i * shape.size := by
  rw [isEmpty, decide_eq_true_iff, h.len, h.block, List.length_eq_zero_iff, List.take_eq_nil_iff,
    List.drop_eq_nil_iff]
  omega

/-- The next block. -/
theorem next (hR : Delivery R) (h : Cut R d shape i b) (hsize : 0 < shape.size)
    (hi : i < lastIndex shape.size d.length) (hcount : (i + 1) * shape.size < countLimit) :
    ∃ b', b.advance = (.ok true, b') ∧ Cut R d shape (i + 1) b' := by
  have hlt := (lt_lastIndex_iff hsize _ _).mp hi
  have hdrop := List.drop_eq_getElem_cons hlt
  have hahead : b.ahead = some d[(i + 1) * shape.size] := by rw [h.ahead, hdrop, List.head?_cons]
  have hearlier : d.take (i * shape.size) ++ b.block = d.take ((i + 1) * shape.size) := by
    rw [h.block, ← List.take_add, Nat.succ_mul]
  have hmoved := h.toFollows.moved
  rw [hearlier] at hmoved
  obtain ⟨b', hload, hb'⟩ := load (i := i + 1) hR hmoved h.shape_eq hsize (Nat.le_of_lt hlt) h.rest
    (by rw [hdrop, moved, hahead]; rfl)
  have hend : b.offset + b.len < countLimit := by
    rw [h.offset_add_len]
    omega
  have hempty : b'.isEmpty = false := by
    rw [← Bool.not_eq_true, hb'.isEmpty_iff hsize]
    omega
  refine ⟨b', ?_, hb'⟩
  rw [advance_of_load hahead hend hload, hempty, Bool.not_false]

/-- A next block whose offset cannot be counted. -/
theorem advance_fault (h : Cut R d shape i b) (hsize : 0 < shape.size)
    (hi : i < lastIndex shape.size d.length) (hcount : countLimit ≤ (i + 1) * shape.size) :
    b.advance.1 = .error (.fault (.overflow .add)) := by
  obtain ⟨x, hahead⟩ := Option.isSome_iff_exists.mp ((h.ahead_isSome_iff hsize).mpr hi)
  have hlt := (lt_lastIndex_iff hsize _ _).mp hi
  have hend : countLimit ≤ b.offset + b.len := by
    rw [h.offset_add_len]
    omega
  rw [advance_of_countLimit_le hahead hend]

/-- Any number of steps from the first block. -/
theorem advances (hR : Delivery R) (h : Cut R d shape 0 b) (hsize : 0 < shape.size) (k : Nat)
    (hcount : min k (lastIndex shape.size d.length) * shape.size < countLimit) :
    (b.advances k).1
        = (List.range k).map (fun j => .ok (decide (j < lastIndex shape.size d.length))) ∧
      (b.advances k).2 = (b.advances (min k (lastIndex shape.size d.length))).2 ∧
      Cut R d shape (min k (lastIndex shape.size d.length)) (b.advances k).2 := by
  induction k with
  | zero => exact ⟨rfl, by rw [Nat.zero_min], by rwa [Nat.zero_min]⟩
  | succ k ih =>
    have hbefore : min k (lastIndex shape.size d.length) * shape.size < countLimit :=
      Nat.lt_of_le_of_lt (Nat.mul_le_mul_right _ (by omega)) hcount
    obtain ⟨hanswers, hstate, hcut⟩ := ih hbefore
    rw [List.range_succ, List.map_append, ← hanswers, List.map_singleton]
    by_cases hi : k < lastIndex shape.size d.length
    · have hmin : min k (lastIndex shape.size d.length) = k := by omega
      have hmin' : min (k + 1) (lastIndex shape.size d.length) = k + 1 := by omega
      rw [hmin] at hcut
      rw [hmin'] at hcount ⊢
      obtain ⟨b', heq, hb'⟩ := hcut.next hR hsize hi hcount
      simp only [Blocks.advances, heq, hi, decide_true, true_and]
      exact hb'
    · -- the last block has been reached before
      have hmin : min k (lastIndex shape.size d.length) = lastIndex shape.size d.length := by omega
      have hmin' : min (k + 1) (lastIndex shape.size d.length) = lastIndex shape.size d.length := by
        omega
      rw [hmin] at hcut hstate
      have hnone : (b.advances k).2.ahead = none := by
        rw [← Option.not_isSome_iff_eq_none, hcut.ahead_isSome_iff hsize]
        omega
      have heq := advance_of_none hnone
      rw [hmin', Blocks.advances]
      simp only [heq, hi, decide_false, true_and]
      exact ⟨hstate, hcut⟩

end Cut

/-! ### Two readers of the same bytes -/

section Alike

variable {τ : Type} [ByteReader τ]

/-- Whether two readers are to deliver the same bytes, and have brought the same so far. -/
structure Alike (R : σ → List UInt8 → Prop) (Q : τ → List UInt8 → Prop) (b : Blocks σ)
    (c : Blocks τ) : Prop where
  size : 0 < b.shape.size
  contents : b.contents = c.contents
  rest : ∃ bytes, R b.reader bytes ∧ Q c.reader bytes

namespace Alike

variable {R : σ → List UInt8 → Prop} {Q : τ → List UInt8 → Prop} {b : Blocks σ} {c : Blocks τ}

theorem load (hR : Delivery R) (hQ : Delivery Q) (h : Alike R Q b c) :
    ∃ b' c', b.load = (.ok (), b') ∧ c.load = (.ok (), c') ∧ Alike R Q b' c' := by
  have hshape : b.shape = c.shape := congrArg Blocks.shape h.contents
  have hahead : b.ahead = c.ahead := congrArg Blocks.ahead h.contents
  obtain ⟨bytes, hb, hc⟩ := h.rest
  obtain ⟨s, hload, hs⟩ := hR.load hb h.size
  obtain ⟨t, hload', ht⟩ := hQ.load hc (hshape ▸ h.size)
  rw [← hshape, ← hahead] at hload' ht
  refine ⟨_, _, hload, hload', h.size, ?_, _, hs, ht⟩
  -- loading does not look at the reader
  exact congrArg (fun x : Blocks Unit => x.loaded _ _ ()) h.contents

/-- The first block. -/
theorem ofReader (hR : Delivery R) (hQ : Delivery Q) {s : σ} {t : τ} {d : List UInt8} (hs : R s d)
    (ht : Q t d) {shape : BlockShape} (hsize : 0 < shape.size)
    (hshape : shape.overlap + shape.size < offsetLimit) :
    ∃ b c, ofReader s shape = (.ok b, b.reader) ∧ ofReader t shape = (.ok c, c.reader) ∧
      Alike R Q b c := by
  obtain ⟨b, c, hload, hload', h⟩ :=
    load (b := { reader := s, shape }) (c := { reader := t, shape })
      hR hQ ⟨hsize, rfl, d, hs, ht⟩
  exact ⟨b, c, ofReader_of_load hsize hshape hload, ofReader_of_load hsize hshape hload', h⟩

theorem advance (hR : Delivery R) (hQ : Delivery Q) (h : Alike R Q b c) :
    b.advance.1 = c.advance.1 ∧ Alike R Q b.advance.2 c.advance.2 := by
  have hahead : b.ahead = c.ahead := congrArg Blocks.ahead h.contents
  have hend : b.offset + b.len = c.offset + c.len :=
    congrArg (fun x => x.offset + x.len) h.contents
  have hmoved : b.moved.contents = c.moved.contents := congrArg Blocks.moved h.contents
  cases hnext : b.ahead with
  | none =>
    rw [advance_of_none hnext, advance_of_none (hahead ▸ hnext)]
    exact ⟨rfl, h⟩
  | some x =>
    rcases Nat.lt_or_ge (b.offset + b.len) countLimit with hcount | hcount
    · obtain ⟨b', c', hload, hload', hb'⟩ := load (b := b.moved) (c := c.moved) hR hQ
        ⟨h.size, hmoved, h.rest⟩
      rw [advance_of_load hnext hcount hload,
        advance_of_load (hahead ▸ hnext) (hend ▸ hcount) hload']
      have hempty : b'.isEmpty = c'.isEmpty := congrArg Blocks.isEmpty hb'.contents
      exact ⟨by rw [hempty], hb'⟩
    · rw [advance_of_countLimit_le hnext hcount,
        advance_of_countLimit_le (hahead ▸ hnext) (hend ▸ hcount)]
      refine ⟨rfl, h.size, ?_, h.rest⟩
      exact congrArg (fun x => { x with past := x.moved.past }) h.contents

theorem advances (hR : Delivery R) (hQ : Delivery Q) (h : Alike R Q b c) (k : Nat) :
    (b.advances k).1 = (c.advances k).1 ∧ Alike R Q (b.advances k).2 (c.advances k).2 := by
  induction k with
  | zero => exact ⟨rfl, h⟩
  | succ k ih =>
    obtain ⟨hanswer, halike⟩ := ih.2.advance hR hQ
    exact ⟨by rw [Blocks.advances, Blocks.advances, ih.1, hanswer], halike⟩

end Alike

end Alike

/-! ### All the bytes -/

theorem length_le_lastIndex {size : Nat} (hsize : 0 < size) (n : Nat) :
    n ≤ (lastIndex size n + 1) * size := by
  have hlast := lt_lastIndex_iff hsize n (lastIndex size n)
  omega

namespace Cut

variable {R : σ → List UInt8 → Prop} {d : List UInt8} {shape : BlockShape} {i : Nat} {b : Blocks σ}

omit [ByteReader σ] in
/-- Only if there are no bytes at all does a block have none. -/
theorem eq_nil_of_isEmpty (h : Cut R d shape i b) (hsize : 0 < shape.size)
    (hi : i ≤ lastIndex shape.size d.length) (hempty : b.isEmpty = true) : d = [] := by
  have hle := (h.isEmpty_iff hsize).mp hempty
  cases i with
  | zero => exact List.eq_nil_of_length_eq_zero (by omega)
  | succ j => exact absurd ((lt_lastIndex_iff hsize _ j).mp hi) (Nat.not_lt.mpr hle)

/-- All blocks are come to. -/
theorem shown (hR : Delivery R) (h : Cut R d shape 0 b) (hsize : 0 < shape.size)
    (hcount : lastIndex shape.size d.length * shape.size < countLimit)
    (hi : i ≤ lastIndex shape.size d.length) : Cut R d shape i (b.advances i).2 := by
  have hmin : min i (lastIndex shape.size d.length) = i := Nat.min_eq_left hi
  have hstep := h.advances hR hsize i
    (Nat.lt_of_le_of_lt (Nat.mul_le_mul_right _ (Nat.min_le_right ..)) hcount)
  rw [hmin] at hstep
  exact hstep.2.2

/-- Together they are all the bytes. -/
theorem flatMap_block (hR : Delivery R) (h : Cut R d shape 0 b) (hsize : 0 < shape.size)
    (hcount : lastIndex shape.size d.length * shape.size < countLimit) :
    (List.range (lastIndex shape.size d.length + 1)).flatMap (fun i => (b.advances i).2.block)
      = d := by
  have hblocks : (List.range (lastIndex shape.size d.length + 1)).map
      (fun i => (b.advances i).2.block)
        = (List.range (lastIndex shape.size d.length + 1)).map
          fun i => (d.drop (i * shape.size)).take shape.size := by
    apply List.map_congr_left
    intro i hi
    exact (h.shown hR hsize hcount (Nat.lt_succ_iff.mp (List.mem_range.mp hi))).block
  rw [List.flatMap_def, hblocks, ← List.flatMap_def, flatMap_take_drop,
    List.take_of_length_le (length_le_lastIndex hsize d.length)]

end Cut

/-- **The cut.** From a reader that delivers the bytes `d`, in portions of any size and with any
interruptions, a shape that can be allocated is opened, and any other is a fault for which the
reader is not asked.  The answers, and all that is kept of the bytes, are those for the bytes in
memory: as long as offsets can be counted, there is a next block as often as there are bytes behind
the current one, and behind the last block neither the block nor the reader changes any more.  Each
block has its place in `d`, the first and the last of them are recognised, together they are `d`,
and none is empty unless `d` is. -/
theorem cut_delivers {s : σ} {d : List UInt8} (hs : Delivers s d) (shape : BlockShape)
    (hsize : 0 < shape.size) :
    let last := lastIndex shape.size d.length
    (offsetLimit ≤ shape.overlap + shape.size →
      ∃ fault, ofReader s shape = (.error (.fault fault), s)) ∧
    (shape.overlap + shape.size < offsetLimit →
      ∃ (b : Blocks σ) (c : Blocks ByteQueue),
        ofReader s shape = (.ok b, b.reader) ∧
        ofReader ({ bytes := d } : ByteQueue) shape = (.ok c, c.reader) ∧
        (∀ k, (b.advances k).1 = (c.advances k).1 ∧
          (b.advances k).2.contents = (c.advances k).2.contents) ∧
        (∀ k, min k last * shape.size < countLimit →
          let i := min k last
          let now := (b.advances k).2
          (b.advances k).1 = (List.range k).map (fun j => .ok (decide (j < last))) ∧
          now = (b.advances i).2 ∧
          now.offset = i * shape.size ∧
          now.block = (d.drop (i * shape.size)).take shape.size ∧
          (now.isFirst = true ↔ i = 0) ∧
          (now.isLast = true ↔ now.offset + now.len = d.length)) ∧
        (last * shape.size < countLimit →
          (List.range (last + 1)).flatMap (fun i => (b.advances i).2.block) = d ∧
          ∀ i ≤ last, (b.advances i).2.isEmpty = true → d = [])) := by
  intro last
  constructor
  · intro hshape
    exact ⟨_, ofReader_of_le hsize hshape⟩
  · intro hshape
    obtain ⟨R, hR, hs⟩ := hs
    obtain ⟨b, hopen, hcut⟩ := Cut.ofReader hR hs hsize hshape
    obtain ⟨b', c, hopen', hqueue, halike⟩ :=
      Alike.ofReader hR ByteQueue.delivery hs rfl hsize hshape
    rw [hopen, Prod.mk.injEq, Except.ok.injEq] at hopen'
    obtain ⟨rfl, -⟩ := hopen'
    refine ⟨b, c, hopen, hqueue, ?_, ?_, ?_⟩
    · intro k
      obtain ⟨hanswers, hstate⟩ := halike.advances hR ByteQueue.delivery k
      exact ⟨hanswers, hstate.contents⟩
    · intro k hcount i now
      obtain ⟨hanswers, hstate, hnow⟩ := hcut.advances hR hsize k hcount
      exact ⟨hanswers, hstate, hnow.offset_eq, hnow.block, hnow.isFirst_iff hsize, hnow.isLast_iff⟩
    · intro hcount
      refine ⟨hcut.flatMap_block hR hsize hcount, ?_⟩
      intro i hi
      exact (hcut.shown hR hsize hcount hi).eq_nil_of_isEmpty hsize hi

/-- Four bytes in blocks of two, interrupted between any two portions: there is one block behind the
first, and no third one, however often it is asked for. -/
theorem cut_delivers_four_bytes :
    let s : ScriptReader :=
      { events := [.chunk [1], .fail (.own .interrupted "signal"), .chunk [2, 3],
          .fail (.own .interrupted "signal"), .chunk [4]] }
    Delivers s [1, 2, 3, 4] ∧
      ∃ b, ofReader s { size := 2, overlap := 1 } = (.ok b, b.reader) ∧
        (b.advances 3).1 = [.ok true, .ok false, .ok false] ∧ (b.advances 3).2.block = [3, 4] := by
  intro s
  have hs : Delivers s [1, 2, 3, 4] := ⟨_, ScriptReader.delivery, rfl, by decide, by decide⟩
  obtain ⟨-, hcut⟩ := cut_delivers hs { size := 2, overlap := 1 } (by decide)
  obtain ⟨b, c, hopen, -, -, hstates, -⟩ := hcut (by decide)
  obtain ⟨hanswers, -, -, hblock, -⟩ := hstates 3 (by decide)
  exact ⟨hs, b, hopen, hanswers, hblock⟩

/-- No block of the largest size that can be counted is allocated, not even for three bytes; and of
more bytes than can be counted not all blocks are shown, even if each of them is a single byte. -/
theorem cut_beyond_limits_wrong :
    (let s : ByteQueue := { bytes := [1, 2, 3] }
      let shape : BlockShape := { size := countLimit - 1, overlap := 0 }
      Delivers s [1, 2, 3] ∧ 0 < shape.size ∧ ofReader s shape = (.error (.fault .capacity), s)) ∧
    (let d : List UInt8 := List.replicate (countLimit + 1) 0
      let s : ByteQueue := { bytes := d }
      Delivers s d ∧ ∃ b, ofReader s { size := 1, overlap := 0 } = (.ok b, b.reader) ∧
        (b.advances (countLimit - 1)).2.advance.1 = .error (.fault (.overflow .add))) := by
  constructor
  · intro s shape
    have hsize : 0 < shape.size := by decide
    refine ⟨⟨_, ByteQueue.delivery, rfl⟩, hsize, ?_⟩
    rw [ofReader_of_le hsize (show offsetLimit ≤ shape.overlap + shape.size by decide),
      if_neg (show ¬countLimit ≤ shape.overlap + shape.size by decide)]
  · intro d s
    let shape : BlockShape := { size := 1, overlap := 0 }
    have hsize : 0 < shape.size := Nat.one_pos
    have hlast : lastIndex shape.size d.length = countLimit := by
      rw [List.length_replicate]
      decide
    obtain ⟨b, hopen, hcut⟩ := Cut.ofReader ByteQueue.delivery (s := s) (d := d) rfl hsize
      (show shape.overlap + shape.size < offsetLimit by decide)
    have hmin : min (countLimit - 1) (lastIndex shape.size d.length) = countLimit - 1 := by
      rw [hlast]
      decide
    obtain ⟨-, -, hbefore⟩ := hcut.advances ByteQueue.delivery hsize (countLimit - 1)
      (by rw [hmin]; decide)
    rw [hmin] at hbefore
    refine ⟨⟨_, ByteQueue.delivery, rfl⟩, b, hopen, hbefore.advance_fault hsize ?_ ?_⟩
    · rw [hlast]
      decide
    · decide

end PackedBits.Blocks
