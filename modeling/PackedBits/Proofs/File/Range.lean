import PackedBits.File.Range
import PackedBits.Proofs.ByteStream.Delivery
import PackedBits.Proofs.WordStream.Wire

/-!
# What a range of a file gives

A buffered file is to give the bytes of its buffer that have not been given out, and then those of
the file from its offset on.  Filling the buffer moves the border between the two and nothing else,
and what is read or consumed is taken from their front (`BufferedFile.Stands`).

A range gives those of them that lie in front of its end: as the buffer knows nothing of the end,
this holds because the position and the buffer keep step (`FileRange.Shows`).  So a range is a
reader that delivers, and a source that supplies, the bytes of its span (`FileRange.delivery`,
`FileRange.supply`), and it is too short where more are asked for (`FileRange.closedSupply`).
-/

namespace PackedBits

namespace BufferedFile

/-! ### Through the buffer -/

/-- What is shown are the bytes that have not been given out. -/
theorem unread_fill (f : BufferedFile) : f.fill.2.unread = f.fill.1 := by
  unfold fill
  split
  · rfl
  · rfl

/-- The index moves by no more than is in the buffer, and so the sum does not wrap around. -/
theorem index_consume {f : BufferedFile} {n : Nat} (hbuffer : f.buffer.length < offsetLimit)
    (hindex : f.index ≤ f.buffer.length) (hn : n ≤ f.unread.length) :
    (f.consume n).index = f.index + n := by
  have hlimit : countLimit = 2 * offsetLimit := by decide
  rw [unread, List.length_drop] at hn
  show min ((f.index + n) % countLimit) f.buffer.length = f.index + n
  rw [Nat.mod_eq_of_lt (by omega)]
  omega

theorem unread_consume {f : BufferedFile} {n : Nat} (hbuffer : f.buffer.length < offsetLimit)
    (hindex : f.index ≤ f.buffer.length) (hn : n ≤ f.unread.length) :
    (f.consume n).unread = f.unread.drop n := by
  rw [unread, index_consume hbuffer hindex hn, unread, List.drop_drop]
  rfl

/-- Whether `rest` are the bytes that a file is still to give. -/
structure Stands (f : BufferedFile) (rest : List UInt8) : Prop where
  capacity_pos : 0 < f.capacity
  capacity_lt : f.capacity < offsetLimit
  buffer_le : f.buffer.length ≤ f.capacity
  index_le : f.index ≤ f.buffer.length
  rest_eq : f.unread ++ f.content.drop f.offset = rest

variable {f : BufferedFile} {rest : List UInt8}

theorem Stands.readDirect (h : Stands f rest) (hused : f.buffer.length ≤ f.index) (n : Nat) :
    (f.readDirect n).1 = rest.take n ∧ Stands (f.readDirect n).2 (rest.drop n) := by
  have hunread : f.unread = [] := List.drop_eq_nil_of_le hused
  have hrest := h.rest_eq
  rw [hunread, List.nil_append] at hrest
  subst hrest
  refine ⟨rfl, h.capacity_pos, h.capacity_lt, Nat.zero_le _, Nat.le_refl _, ?_⟩
  -- the offset moves behind what was read
  show (f.content.drop (f.offset + _)) = _
  rw [← List.drop_drop, List.length_take, ← List.drop_eq_drop_min]

/-- The bytes at hand are the front of those to come, and there are some as long as there are
any. -/
theorem Stands.fill (h : Stands f rest) :
    Stands f.fill.2 rest ∧ (∃ more, rest = f.fill.1 ++ more) ∧ (f.fill.1 = [] → rest = []) := by
  unfold BufferedFile.fill
  by_cases hlt : f.index < f.buffer.length
  · rw [if_pos hlt]
    refine ⟨h, ⟨_, h.rest_eq.symm⟩, fun hnil => ?_⟩
    have hle := List.drop_eq_nil_iff.mp hnil
    omega
  · rw [if_neg hlt]
    obtain ⟨hbytes, hstands⟩ := h.readDirect (Nat.not_lt.mp hlt) f.capacity
    have hsplit : rest = (f.readDirect f.capacity).1 ++ rest.drop f.capacity := by
      rw [hbytes, List.take_append_drop]
    refine ⟨⟨h.capacity_pos, h.capacity_lt, f.length_readDirect_le _, Nat.zero_le _, ?_⟩,
      ⟨_, hsplit⟩, fun hnil => ?_⟩
    · -- the buffer is in front of what the file has behind it
      rw [hsplit, ← hstands.rest_eq]
      rfl
    · rw [hbytes] at hnil
      exact (List.take_eq_nil_iff.mp hnil).resolve_left (Nat.ne_of_gt h.capacity_pos)

theorem Stands.consume (h : Stands f rest) {n : Nat} (hn : n ≤ f.unread.length) :
    Stands (f.consume n) (rest.drop n) := by
  have hunread : (f.consume n).unread = f.unread.drop n :=
    unread_consume (Nat.lt_of_le_of_lt h.buffer_le h.capacity_lt) h.index_le hn
  refine ⟨h.capacity_pos, h.capacity_lt, h.buffer_le, Nat.min_le_right .., ?_⟩
  rw [← h.rest_eq, hunread, List.drop_append_of_le_length hn]
  rfl

/-- What is read is the front of the bytes to come, and empty only at their end. -/
theorem Stands.read (h : Stands f rest) {n : Nat} (hn : 0 < n) :
    ∃ rest', rest = (f.read n).1 ++ rest' ∧ ((f.read n).1 = [] → rest = []) ∧
      Stands (f.read n).2 rest' := by
  unfold BufferedFile.read
  by_cases hdirect : f.buffer.length ≤ f.index ∧ f.capacity ≤ n
  · rw [if_pos hdirect]
    obtain ⟨hbytes, hstands⟩ := h.readDirect hdirect.1 n
    rw [hbytes]
    exact ⟨_, (List.take_append_drop n rest).symm,
      fun hnil => (List.take_eq_nil_iff.mp hnil).resolve_left (Nat.ne_of_gt hn), hstands⟩
  · rw [if_neg hdirect]
    obtain ⟨hstands, ⟨more, hmore⟩, hend⟩ := h.fill
    have hle : min n f.fill.1.length ≤ f.fill.2.unread.length := by
      rw [unread_fill]
      exact Nat.min_le_right ..
    have hfront : rest.take (min n f.fill.1.length) = f.fill.1.take n := by
      rw [hmore, List.take_append_of_le_length (Nat.min_le_right ..), ← List.take_eq_take_min]
    refine ⟨_, ?_, fun hnil => ?_, hstands.consume hle⟩
    · show rest = f.fill.1.take n ++ rest.drop (min n f.fill.1.length)
      rw [← hfront, List.take_append_drop]
    · exact hend ((List.take_eq_nil_iff.mp hnil).resolve_left (Nat.ne_of_gt hn))

end BufferedFile

namespace FileRange

/-! ### Up to the end of the range -/

/-- Whether `bytes` are what a range is still to give: as many of those that its file is to give as
there are in front of its end. -/
structure Shows (r : FileRange) (bytes : List UInt8) : Prop where
  stands : ∃ rest, r.file.Stands rest ∧ r.remaining ≤ rest.length ∧ rest.take r.remaining = bytes

/-- A range that is opened is to give the bytes of its span. -/
theorem shows_ofContent (content : List UInt8) (span : Span) {capacity : Nat} (hpos : 0 < capacity)
    (hlt : capacity < offsetLimit) :
    Shows (ofContent content span capacity) ((span.clamp content.length).slice content) := by
  have hlen := span.length_slice_clamp content
  refine ⟨content.drop (span.clamp content.length).start,
    ⟨hpos, hlt, Nat.zero_le _, Nat.le_refl _, rfl⟩, ?_, rfl⟩
  rw [Span.slice, List.length_take] at hlen
  show (span.clamp content.length).length ≤ _
  omega

theorem shows_of_openWith {content : List UInt8} {span : Span} {capacity : Nat} {r : FileRange}
    (hpos : 0 < capacity) (hopen : openWith (some content) span capacity = .ok r) :
    Shows r ((span.clamp content.length).slice content) := by
  unfold openWith at hopen
  dsimp only at hopen
  split at hopen
  · next hlt =>
    rw [Except.ok.injEq] at hopen
    rw [← hopen]
    exact shows_ofContent content span hpos hlt
  · simp at hopen

theorem read_of_eq_zero {r : FileRange} {n : Nat} (h : min r.remaining n = 0) :
    r.read n = ([], r) := by
  unfold FileRange.read
  dsimp only
  rw [if_pos h]

theorem read_of_pos {r : FileRange} {n : Nat} (h : 0 < min r.remaining n) :
    r.read n = ((r.file.read (min r.remaining n)).1,
      { r with file := (r.file.read (min r.remaining n)).2,
               pos := r.pos + (r.file.read (min r.remaining n)).1.length }) := by
  unfold FileRange.read
  dsimp only
  rw [if_neg (Nat.ne_of_gt h)]

/-- A range delivers its bytes. -/
theorem delivery : Delivery Shows where
  read {r bytes n} h hn := by
    obtain ⟨rest, hstands, hle, rfl⟩ := h.stands
    rcases Nat.eq_zero_or_pos (min r.remaining n) with h0 | hpos
    · -- the end of the range has been reached
      have hzero : r.remaining = 0 := by omega
      refine .inl ⟨[], [], r, ?_, by simp [hzero], fun _ => rfl,
        ⟨rest, hstands, hle, by simp [hzero]⟩⟩
      show (Except.ok (r.read n).1, (r.read n).2) = _
      rw [read_of_eq_zero h0]
    · obtain ⟨rest', rfl, hend, hstands'⟩ := hstands.read hpos
      have hshort := r.file.length_read_le (min r.remaining n)
      have hfile : (r.read n).2.file = (r.file.read (min r.remaining n)).2 := by
        rw [read_of_pos hpos]
      have hleft : (r.read n).2.remaining
          = r.remaining - (r.file.read (min r.remaining n)).1.length := by
        rw [r.remaining_read, read_of_pos hpos]
      rw [List.length_append] at hle
      refine .inl ⟨(r.file.read (min r.remaining n)).1,
        rest'.take (r.remaining - (r.file.read (min r.remaining n)).1.length), (r.read n).2, ?_, ?_,
        fun hnil => ?_, ?_⟩
      · show (Except.ok (r.read n).1, (r.read n).2) = _
        rw [read_of_pos hpos]
      · rw [List.take_append, List.take_of_length_le (by omega)]
      · rw [(List.append_eq_nil_iff.mp (hend hnil)).2, List.take_nil]
      · exact ⟨rest', by rwa [hfile], by omega, by rw [hleft]⟩

/-- A range supplies its bytes. -/
theorem supply : Supply Shows where
  atEnd {r bytes} h := by
    obtain ⟨rest, hstands, hle, rfl⟩ := h.stands
    show ∃ r', (Except.ok r.fill.1.isEmpty, r.fill.2) = _ ∧ _
    unfold FileRange.fill
    by_cases hzero : r.remaining = 0
    · rw [if_pos hzero]
      exact ⟨r, by simp [hzero], rest, hstands, hle, rfl⟩
    · rw [if_neg hzero]
      obtain ⟨hfilled, ⟨more, rfl⟩, hend⟩ := hstands.fill
      refine ⟨{ r with file := r.file.fill.2 }, ?_, _, hfilled, hle, rfl⟩
      -- there are bytes in the range, and so there are some at hand
      have hne : r.file.fill.1 ≠ [] := by
        intro hnil
        rw [hend hnil] at hle
        exact hzero (Nat.eq_zero_of_le_zero hle)
      have hsome : (r.file.fill.1.take r.remaining).isEmpty = false := by
        rw [List.isEmpty_eq_false_iff, Ne, List.take_eq_nil_iff]
        exact not_or.mpr ⟨hzero, hne⟩
      have hsome' : ((r.file.fill.1 ++ more).take r.remaining).isEmpty = false := by
        rw [List.isEmpty_eq_false_iff, Ne, List.take_eq_nil_iff]
        exact not_or.mpr ⟨hzero, List.append_ne_nil_of_left_ne_nil hne more⟩
      rw [hsome']
      exact Prod.ext (congrArg Except.ok hsome) rfl
  readExact h hn := delivery.readExact h hn

theorem closedSupply (P : IoError → Prop) : ClosedSupply P Shows :=
  supply.closed (fun h hn => delivery.readExact_short h hn) P

end FileRange

end PackedBits
