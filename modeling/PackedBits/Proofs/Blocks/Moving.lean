import PackedBits.Blocks
import PackedBits.Proofs.ByteStream.Delivery

/-!
# Loading a block and moving to the next

Loading asks the reader twice, for what the block is missing and for one byte more.  If neither
fails, the block is the byte ahead and what was collected behind it, whatever was in its place
before (`load_of_gather`, `block_loaded`).  If one does, what it had collected is in place, but the
byte ahead is still the old one (`load_of_gather_failed`, `load_of_ahead_failed`).  From a reader
that stumbles a block is the front of the bytes to come, or bytes behind the byte ahead are lost
(`Stumble.load`); from one that delivers it is always the front (`Delivery.load`); from one that
trickles they are bytes that then are missing at the front (`Trickle.load`).

Moving to the next block puts the current one behind those before it.  What is kept of these is
their last `overlap` bytes (`Follows`), and nothing is lost by taking these from what was kept
before: `lastElements_append` is why a long overlap may be made of many short blocks.  With zeros in
front where there are too few, they are the bytes in reach (`Follows.lookback`,
`Follows.getElem?_lookback`).
-/

namespace PackedBits

open Stream'

/-! ### The last elements of a list -/

section LastElements

variable {α : Type} (n : Nat) (l l' : List α)

theorem length_lastElements : (lastElements n l).length = min n l.length := by
  rw [lastElements, List.length_drop]
  omega

theorem lastElements_of_length_le {n : Nat} {l : List α} (h : l.length ≤ n) :
    lastElements n l = l := by
  rw [lastElements, Nat.sub_eq_zero_of_le h, List.drop_zero]

/-- A suffix with enough elements has the last ones. -/
theorem lastElements_append_of_le {n : Nat} {l' : List α} (h : n ≤ l'.length) :
    lastElements n (l ++ l') = lastElements n l' := by
  have hlen : (l ++ l').length - n = l.length + (l'.length - n) := by
    rw [List.length_append]
    omega
  rw [lastElements, hlen, ← List.drop_drop, List.drop_left, lastElements]

/-- What was not among the last elements before is not among them later. -/
theorem lastElements_append :
    lastElements n (lastElements n l ++ l') = lastElements n (l ++ l') := by
  rcases Nat.le_total l.length n with hle | hle
  · rw [lastElements_of_length_le hle]
  · have hsplit : l ++ l' = l.take (l.length - n) ++ (lastElements n l ++ l') := by
      rw [← List.append_assoc, lastElements, List.take_append_drop]
    have hlen : n ≤ (lastElements n l ++ l').length := by
      rw [List.length_append, length_lastElements]
      omega
    rw [hsplit, lastElements_append_of_le _ hlen]

theorem length_replicate_append_sub (x : α) : (List.replicate n x ++ l).length - n = l.length := by
  rw [List.length_append, List.length_replicate, Nat.add_sub_cancel_left]

/-- Where there are too few elements, there is what is in front of them. -/
theorem lastElements_replicate_append (x : α) :
    lastElements n (List.replicate n x ++ l)
      = List.replicate (n - (lastElements n l).length) x ++ lastElements n l := by
  rw [length_lastElements, lastElements, length_replicate_append_sub, List.drop_append,
    List.drop_replicate, List.length_replicate, lastElements]
  congr 2
  omega

/-- Counted back from the end, the last elements are those of the list, and then what is in front of
it. -/
theorem getElem?_lastElements_replicate_append {n i : Nat} (x : α) (hpos : 0 < i) (hi : i ≤ n) :
    (lastElements n (List.replicate n x ++ l))[n - i]?
      = some (if i ≤ l.length then l.getD (l.length - i) x else x) := by
  rw [lastElements, length_replicate_append_sub, List.getElem?_drop]
  by_cases hle : i ≤ l.length
  · have hindex : l.length + (n - i) - n = l.length - i := by omega
    have hlt : l.length - i < l.length := by omega
    rw [List.getElem?_append_right (by rw [List.length_replicate]; omega), List.length_replicate,
      hindex, if_pos hle, List.getD_eq_getElem?_getD, List.getElem?_eq_getElem hlt,
      Option.getD_some]
  · rw [List.getElem?_append_left (by rw [List.length_replicate]; omega),
      List.getElem?_replicate_of_lt (by omega), if_neg hle]

end LastElements

theorem toList_head?_of_length_le {α : Type} {l : List α} (h : l.length ≤ 1) :
    l.head?.toList = l := by
  rcases l with _ | ⟨x, _ | ⟨y, l⟩⟩
  · rfl
  · rfl
  · simp at h

namespace Blocks

variable {σ : Type}

/-! ### One load -/

/-- Blocks with the bytes `fresh` loaded, and the first byte behind them. -/
def loaded (b : Blocks σ) (fresh : List UInt8) (ahead : Option UInt8) (reader : σ) : Blocks σ :=
  { b with reader, ahead, area := fresh ++ b.area.drop fresh.length, len := fresh.length }

/-- What was in the place of a block does not show in it. -/
@[simp] theorem block_loaded (b : Blocks σ) (fresh : List UInt8) (ahead : Option UInt8)
    (reader : σ) : (b.loaded fresh ahead reader).block = fresh :=
  List.take_left' rfl

variable [ByteReader σ]

theorem load_of_gather {b : Blocks σ} {got next : List UInt8} {ending ending' : Ending} {s s' : σ}
    (h : ByteReader.gather b.reader (b.shape.size - b.ahead.toList.length) = ((got, ending), s))
    (hending : ∀ e, ending ≠ .failed e)
    (h' : ByteReader.gather s 1 = ((next, ending'), s')) (hending' : ∀ e, ending' ≠ .failed e) :
    b.load = (.ok (), b.loaded (b.ahead.toList ++ got) next.head? s') := by
  unfold load fillArea readAhead
  rw [h]
  cases ending with
  | failed e => exact absurd rfl (hending e)
  | full | exhausted =>
    simp only [h']
    cases ending' with
    | failed e => exact absurd rfl (hending' e)
    | full | exhausted => rfl

/-- If the block itself cannot be loaded, what was collected of it is in place, and no more. -/
theorem load_of_gather_failed {b : Blocks σ} {got : List UInt8} {e : IoError} {s : σ}
    (h : ByteReader.gather b.reader (b.shape.size - b.ahead.toList.length)
      = ((got, .failed e), s)) :
    b.load = (.error e, { b.loaded (b.ahead.toList ++ got) b.ahead s with len := b.len }) := by
  unfold load fillArea
  rw [h]
  rfl

/-- If only the byte behind it cannot be read, the block is there, with the old byte ahead. -/
theorem load_of_ahead_failed {b : Blocks σ} {got next : List UInt8} {ending : Ending} {e : IoError}
    {s s' : σ}
    (h : ByteReader.gather b.reader (b.shape.size - b.ahead.toList.length) = ((got, ending), s))
    (hending : ∀ e, ending ≠ .failed e)
    (h' : ByteReader.gather s 1 = ((next, .failed e), s')) :
    b.load = (.error e, b.loaded (b.ahead.toList ++ got) b.ahead s') := by
  unfold load fillArea readAhead
  rw [h]
  cases ending with
  | failed e => exact absurd rfl (hending e)
  | full | exhausted =>
    simp only [h']
    rfl

end Blocks

section Load

variable {σ : Type} [ByteReader σ] {b : Blocks σ}

/-- From a reader that stumbles, a block is the front of the byte ahead and the bytes to come,
unless there is a failure.  Then bytes behind the byte ahead are lost, which is ahead still, and the
length is that of the block that was to be loaded, or the old one. -/
theorem Stumble.load {R : σ → Nat → List UInt8 → Prop} (hR : Stumble R) {m : Nat}
    {bytes : List UInt8} (h : R b.reader m bytes) (hsize : 0 < b.shape.size) :
    let coming := b.ahead.toList ++ bytes
    (∃ s,
      b.load = (.ok (), b.loaded (coming.take b.shape.size) (coming.drop b.shape.size).head? s) ∧
      R s m (coming.drop (b.shape.size + 1))) ∨
    ∃ e fresh lost rest s k len,
      b.load = (.error e, { b.loaded fresh b.ahead s with len }) ∧ m = k + 1 ∧ R s k rest ∧
        bytes = lost ++ rest ∧ lost.length ≤ b.shape.size - b.ahead.toList.length ∧
        (len = b.len ∨ len = (coming.take b.shape.size).length) := by
  intro coming
  have hone : b.ahead.toList.length ≤ 1 := by cases b.ahead <;> simp
  have hended : ∀ (full : Prop) [Decidable full] (e : IoError),
      (if full then Ending.full else .exhausted) ≠ .failed e := by
    intro full _ e
    split <;> simp
  -- the byte ahead is part of the block, and what is missing is collected
  have hdrop : ∀ k, 0 < k → coming.drop k = bytes.drop (k - b.ahead.toList.length) := by
    intro k hk
    rw [List.drop_append, List.drop_of_length_le (by omega), List.nil_append]
  have hblock : coming.take b.shape.size
      = b.ahead.toList ++ bytes.take (b.shape.size - b.ahead.toList.length) := by
    rw [List.take_append, List.take_of_length_le (by omega)]
  have hbehind : b.shape.size + 1 - b.ahead.toList.length
      = b.shape.size - b.ahead.toList.length + 1 := by omega
  rcases hR.gather h (b.shape.size - b.ahead.toList.length) with
    ⟨hgot, hs⟩ | ⟨e, rest, k, hfailed, hbytes, hlt, hm, hs⟩
  · rcases hR.gather hs 1 with ⟨hnext, hs'⟩ | ⟨e, rest, k, hfailed, hbytes, hlt, hm, hs'⟩
    · have hload :=
        Blocks.load_of_gather (Prod.ext hgot rfl) (hended _) (Prod.ext hnext rfl) (hended _)
      rw [List.head?_take, if_neg Nat.one_ne_zero, ← hblock, ← hdrop _ hsize] at hload
      rw [List.drop_drop, ← hbehind, ← hdrop _ (Nat.succ_pos _)] at hs'
      exact .inl ⟨_, hload, hs'⟩
    · -- the byte behind the block was not collected, so all that is lost is the block
      have hload := Blocks.load_of_ahead_failed (Prod.ext hgot rfl) (hended _)
        (Prod.ext (Prod.ext rfl hfailed) rfl)
      have hnil := List.eq_nil_of_length_eq_zero (Nat.lt_one_iff.mp hlt)
      rw [hnil, List.nil_append] at hbytes
      rw [← hblock] at hload
      refine .inr ⟨e, _, bytes.take (b.shape.size - b.ahead.toList.length), rest, _, k, _, hload,
        hm, hs', ?_, List.length_take_le .., .inr rfl⟩
      rw [← hbytes, List.take_append_drop]
  · have hload := Blocks.load_of_gather_failed (Prod.ext (Prod.ext rfl hfailed) rfl)
    exact .inr ⟨e, _, _, _, _, k, _, hload, hm, hs, hbytes, Nat.le_of_lt hlt, .inl rfl⟩

/-- From a reader that delivers, a block is the front of the byte ahead and the bytes to come. -/
theorem Delivery.load {R : σ → List UInt8 → Prop} (hR : Delivery R) {bytes : List UInt8}
    (h : R b.reader bytes) (hsize : 0 < b.shape.size) :
    let coming := b.ahead.toList ++ bytes
    ∃ s, b.load = (.ok (), b.loaded (coming.take b.shape.size) (coming.drop b.shape.size).head? s) ∧
      R s (coming.drop (b.shape.size + 1)) := by
  intro coming
  rcases hR.stumble.load ⟨rfl, h⟩ hsize with
    ⟨s, hload, -, hs⟩ | ⟨e, fresh, lost, rest, s, k, len, -, hzero, -⟩
  · exact ⟨s, hload, hs⟩
  · exact absurd hzero (Nat.succ_ne_zero k).symm

/-- From a reader that trickles, what a block has behind the byte ahead, and the byte behind the
block, were bytes to come. -/
theorem Trickle.load {R : σ → Seq UInt8 → Prop} (hR : Trickle R) {bytes : Seq UInt8}
    (h : R b.reader bytes) :
    ∃ (got : List UInt8) (ahead : Option UInt8) (s : σ) (rest : Seq UInt8),
      b.load = (.ok (), b.loaded (b.ahead.toList ++ got) ahead s) ∧
        bytes = Seq.append (Seq.ofList (got ++ ahead.toList)) rest ∧ R s rest := by
  obtain ⟨hended, rest, rfl, hs⟩ := hR.gather h (b.shape.size - b.ahead.toList.length)
  have hone := ByteReader.length_gather_le
    (ByteReader.gather b.reader (b.shape.size - b.ahead.toList.length)).2 1
  obtain ⟨hended', rest', rfl, hs'⟩ := hR.gather hs 1
  refine ⟨_, _, _, rest', Blocks.load_of_gather rfl hended rfl hended', ?_, hs'⟩
  rw [Seq.ofList_append, Seq.append_assoc, toList_head?_of_length_le hone]

end Load

namespace Blocks

variable {σ : Type} {b b' : Blocks σ} {earlier : List UInt8}

/-! ### One step -/

/-- Blocks of which the current one has been put behind those before it, and the next is not
loaded. -/
def moved (b : Blocks σ) : Blocks σ :=
  { b with past := lastElements b.shape.overlap (b.past ++ b.block), offset := b.offset + b.len }

section Advance

variable [ByteReader σ]

/-- The last block is left alone, and the reader with it. -/
theorem advance_of_none (h : b.ahead = none) : b.advance = (.ok false, b) := by
  unfold advance
  rw [if_pos (by simp [isLast, h])]

theorem advance_of_load {x : UInt8} (h : b.ahead = some x) (hcount : b.offset + b.len < countLimit)
    (hload : b.moved.load = (.ok (), b')) : b.advance = (.ok (!b'.isEmpty), b') := by
  have hmoved : ({ b with past := lastElements b.shape.overlap (b.past ++ b.block),
                          offset := b.offset + b.len } : Blocks σ).load = (.ok (), b') := hload
  unfold advance
  rw [if_neg (by simp [isLast, h])]
  dsimp only
  rw [if_neg (Nat.not_le.mpr hcount), hmoved]

/-- A step that fails leaves what the load has left. -/
theorem advance_of_load_error {x : UInt8} {e : IoError} (h : b.ahead = some x)
    (hcount : b.offset + b.len < countLimit) (hload : b.moved.load = (.error e, b')) :
    b.advance = (.error (.refused e), b') := by
  have hmoved : ({ b with past := lastElements b.shape.overlap (b.past ++ b.block),
                          offset := b.offset + b.len } : Blocks σ).load = (.error e, b') := hload
  unfold advance
  rw [if_neg (by simp [isLast, h])]
  dsimp only
  rw [if_neg (Nat.not_le.mpr hcount), hmoved]

/-- Before the bytes can no longer be counted, the bytes to be kept have been replaced. -/
theorem advance_of_countLimit_le {x : UInt8} (h : b.ahead = some x)
    (hcount : countLimit ≤ b.offset + b.len) :
    b.advance = (.error (.fault (.overflow .add)), { b with past := b.moved.past }) := by
  unfold advance
  rw [if_neg (by simp [isLast, h])]
  dsimp only
  rw [if_pos hcount]
  rfl

/-- The first block of a shape that can be allocated. -/
theorem ofReader_of_load {s : σ} {shape : BlockShape} (hsize : 0 < shape.size)
    (hshape : shape.overlap + shape.size < offsetLimit)
    (hload : ({ reader := s, shape } : Blocks σ).load = (.ok (), b)) :
    ofReader s shape = (.ok b, b.reader) := by
  have hlimit : offsetLimit ≤ countLimit := by decide
  unfold ofReader
  rw [if_neg (Nat.ne_of_gt hsize), if_neg (by omega), if_neg (by omega), hload]

/-- What has been opened has been loaded. -/
theorem load_of_ofReader {s s' : σ} {shape : BlockShape} (h : ofReader s shape = (.ok b, s')) :
    0 < shape.size ∧ ({ reader := s, shape } : Blocks σ).load = (.ok (), b) := by
  unfold ofReader at h
  split at h
  · simp at h
  · next hsize =>
    split at h
    · simp at h
    · split at h
      · simp at h
      · split at h
        · simp at h
        · next hload =>
          rw [Prod.mk.injEq, Except.ok.injEq] at h
          rw [h.1] at hload
          exact ⟨Nat.pos_of_ne_zero hsize, hload⟩

/-- No other shapes can, and the reader is not asked. -/
theorem ofReader_of_le {s : σ} {shape : BlockShape} (hsize : 0 < shape.size)
    (hshape : offsetLimit ≤ shape.overlap + shape.size) :
    ofReader s shape = (.error (.fault (if countLimit ≤ shape.overlap + shape.size
      then .overflow .add else .capacity)), s) := by
  unfold ofReader
  rw [if_neg (Nat.ne_of_gt hsize)]
  by_cases hcount : countLimit ≤ shape.overlap + shape.size
  · rw [if_pos hcount, if_pos hcount]
  · rw [if_neg hcount, if_neg hcount, if_pos hshape]

end Advance

/-! ### What is kept of the blocks before -/

/-- Whether the bytes `earlier` are in front of the current block: their number is its offset, and
the last of them have been kept. -/
structure Follows (earlier : List UInt8) (b : Blocks σ) : Prop where
  offset : b.offset = earlier.length
  past : b.past = lastElements b.shape.overlap earlier
  len : b.len = b.block.length

namespace Follows

theorem new (s : σ) (shape : BlockShape) : Follows [] ({ reader := s, shape } : Blocks σ) :=
  ⟨rfl, by simp [lastElements], rfl⟩

theorem loaded (h : Follows earlier b) (fresh : List UInt8) (ahead : Option UInt8) (s : σ) :
    Follows earlier (b.loaded fresh ahead s) :=
  ⟨h.offset, h.past, by rw [block_loaded]; rfl⟩

theorem moved (h : Follows earlier b) : Follows (earlier ++ b.block) b.moved where
  offset := by
    rw [List.length_append, ← h.len, ← h.offset]
    rfl
  past := by
    rw [Blocks.moved, h.past, lastElements_append]
  len := h.len

/-- The bytes in front of the block are the last of the zeros and all the bytes before it. -/
theorem lookback (h : Follows earlier b) :
    b.lookback
      = lastElements b.shape.overlap (List.replicate b.shape.overlap 0 ++ earlier) := by
  rw [lastElements_replicate_append, Blocks.lookback, h.past]

/-- Counted back from the front of the block they are the bytes before it, and zeros where the
stream has not begun. -/
theorem getElem?_lookback (h : Follows earlier b) {i : Nat} (hpos : 0 < i)
    (hi : i ≤ b.shape.overlap) :
    b.lookback[b.shape.overlap - i]?
      = some (if i ≤ earlier.length then earlier.getD (earlier.length - i) 0 else 0) := by
  rw [h.lookback, getElem?_lastElements_replicate_append earlier 0 hpos hi]

end Follows

end Blocks

end PackedBits
