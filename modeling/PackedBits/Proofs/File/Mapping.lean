import PackedBits.File.Mapped
import PackedBits.Proofs.File.Cursor

/-!
# The bytes of a range, mapped and read

A range of a file is emptied in one of two ways.  Either portions are read, of any sizes, up to the
first empty one (`FileRange.readPortions`), or what is at hand is looked at and then moved over as a
whole, until nothing is (`FileRange.showPortions`).  In both a round that does not end the loop
brings the position nearer to the end of the range, so they end for every range.

What they collect is told by the cursor that the range follows: each round gives the front of the
bytes behind the position and moves behind it, and is the last one only if there are none.  By
induction over the rounds the pieces are these bytes, put together again (`Follows.readPortions_eq`,
`Follows.showPortions_eq`).  A mapping shows the same bytes at once, on every system whose mappings
show what is stored (`Mapper.Faithful`, `mapping_agrees`).
-/

namespace PackedBits

namespace FileRange

/-! ### Emptying a range -/

theorem length_fill_le (r : FileRange) : r.fill.1.length ≤ r.remaining := by
  unfold fill
  split
  · exact Nat.zero_le _
  · exact List.length_take_le ..

theorem remaining_fill (r : FileRange) : r.fill.2.remaining = r.remaining := by
  unfold fill
  split
  · rfl
  · rfl

theorem remaining_consume {r r' : FileRange} {n : Nat} (h : r.consume n = (.ok (), r')) :
    r'.remaining = r.remaining - n := by
  unfold consume at h
  dsimp only at h
  split at h
  · obtain rfl := (Prod.mk.inj h).2
    exact Nat.sub_add_eq ..
  · simp at h

/-- Reads portions of these sizes, up to the first empty one. -/
def readPortions (r : FileRange) (sizes : Nat → Nat) : List UInt8 :=
  let portion := r.read (sizes 0)
  if portion.1.isEmpty then
    []
  else
    portion.1 ++ portion.2.readPortions fun k => sizes (k + 1)
  termination_by r.remaining
  decreasing_by
    have hlen := r.length_read_le (sizes 0)
    have hpos : 0 < (r.read (sizes 0)).1.length :=
      List.length_pos_iff.2 (by simpa [portion] using ‹¬portion.1.isEmpty = true›)
    rw [r.remaining_read]
    omega

/-- Shows what is at hand and moves over it, until there is nothing. -/
def showPortions (r : FileRange) : Outcome IoError (List UInt8) :=
  let atHand := r.fill
  if atHand.1.isEmpty then
    .ok []
  else
    match _h : atHand.2.consume atHand.1.length with
    | (.ok (), r') => r'.showPortions.map (atHand.1 ++ ·)
    | (.error failure, _) => .error failure
  termination_by r.remaining
  decreasing_by
    have hlen : atHand.1.length ≤ r.remaining := r.length_fill_le
    have hpos : 0 < atHand.1.length :=
      List.length_pos_iff.2 (by simpa using ‹¬atHand.1.isEmpty = true›)
    rw [remaining_consume _h, remaining_fill]
    omega

/-! ### The pieces, put together -/

/-- A piece and what is behind it. -/
theorem append_drop_add {piece bytes : List UInt8} {pos : Nat} (h : piece <+: bytes.drop pos) :
    piece ++ bytes.drop (pos + piece.length) = bytes.drop pos := by
  rw [← List.drop_drop]
  exact List.prefix_iff_eq_append.mp h

namespace Follows

variable {content : List UInt8} {capacity start len : Nat} {r : FileRange} {c : Cursor}

/-- Whatever is asked for, as long as it is something: all the bytes behind the position. -/
theorem readPortions_eq (h : Follows content capacity start len r c)
    (hle : start + len ≤ content.length) (hlen : len < countLimit) {sizes : Nat → Nat}
    (hsizes : ∀ k, 0 < sizes k) :
    r.readPortions sizes = ((content.drop start).take len).drop c.pos := by
  fun_induction readPortions r sizes generalizing c with
  | case1 r sizes portion =>
    rename_i hempty
    obtain ⟨-, -, hnil, -⟩ := h.read hle hlen (sizes 0)
    have hend := (hnil.mp (List.isEmpty_iff.mp hempty)).resolve_left (Nat.ne_of_gt (hsizes 0))
    rw [List.drop_eq_nil_of_le (by rwa [length_take_drop hle])]
  | case2 r sizes portion =>
    rename_i ih
    obtain ⟨hfront, -, -, hnext⟩ := h.read hle hlen (sizes 0)
    rw [ih hnext fun k => hsizes (k + 1)]
    exact append_drop_add hfront

/-- The bytes at hand, round after round. -/
theorem showPortions_eq (h : Follows content capacity start len r c)
    (hle : start + len ≤ content.length) (hlen : len < countLimit) :
    r.showPortions = .ok (((content.drop start).take len).drop c.pos) := by
  fun_induction showPortions r generalizing c with
  | case1 r atHand =>
    rename_i hempty
    obtain ⟨-, -, hnil, -⟩ := h.fill hle
    rw [List.drop_eq_nil_of_le (by
      rw [length_take_drop hle]
      exact hnil.mp (List.isEmpty_iff.mp hempty))]
  | case2 r atHand =>
    rename_i r' hconsume ih
    obtain ⟨hfront, -, -, hshown⟩ := h.fill hle
    obtain ⟨-, hnext⟩ := hshown.consume hlen (Nat.le_refl _)
    rw [show r.fill.2.consume r.fill.1.length = (.ok (), r') from hconsume] at hnext
    rw [ih hnext]
    exact congrArg Except.ok (append_drop_add hfront)
  | case3 r atHand =>
    rename_i failure r' hconsume
    obtain ⟨-, -, -, hshown⟩ := h.fill hle
    obtain ⟨hok, -⟩ := hshown.consume hlen (Nat.le_refl _)
    rw [show r.fill.2.consume r.fill.1.length = (.error failure, r') from hconsume] at hok
    simp at hok

end Follows

end FileRange

/-! ### Mappings -/

/-- Whether all parts of a file that have bytes can be mapped, and show these bytes. -/
def Mapper.Faithful (map : Mapper) : Prop :=
  ∀ (content : List UInt8) (offset len : Nat), 0 < len → offset + len ≤ content.length →
    map content offset len = .ok ((content.drop offset).take len)

theorem Mapper.faithful_stored : Mapper.stored.Faithful := by
  intro content offset len _ _
  rfl

/-- The bytes of a clamped span are mapped, unless there are none. -/
theorem MappedRange.openWith_eq {map : Mapper} (hmap : map.Faithful) (content : List UInt8)
    (span : Span) :
    ∃ m, openWith map (some content) span = .ok m ∧ m.start = (span.clamp content.length).start ∧
      m.bytes = (span.clamp content.length).slice content ∧
      m.isEmpty = decide ((span.clamp content.length).length = 0) := by
  have hstart := span.start_clamp_le content.length
  have hstop := span.stop_clamp_le content.length
  unfold openWith
  dsimp only
  by_cases hzero : (span.clamp content.length).length = 0
  · rw [if_pos hzero]
    refine ⟨_, rfl, rfl, ?_, (decide_eq_true hzero).symm⟩
    rw [Span.slice, hzero, List.take_zero]
    rfl
  · rw [if_neg hzero, hmap content _ _ (by omega) (by rw [Span.length]; omega)]
    exact ⟨_, rfl, rfl, rfl, (decide_eq_false hzero).symm⟩

/-! ### Mapped and read -/

/-- **A mapping shows what is read.** Let mappings show what is stored.  Whatever the file and the
span, the span may be reversed or lie outside the file: the mapping succeeds, and a range with a
buffer that can be allocated is opened, while any other buffer is a fault.  Both start at the same
offset and have the same length, and one is empty if the other is.  The bytes that are mapped are
those of the clamped span, and also those that are read in portions of whatever sizes until a
portion is empty, and those that are shown in the buffer, one look after the other. -/
theorem mapping_agrees {map : Mapper} (hmap : map.Faithful) (content : List UInt8) (span : Span)
    {capacity : Nat} (hpos : 0 < capacity) (hspan : span.stop < countLimit) :
    let stop := min span.stop content.length
    let start := min span.start stop
    ∃ m, MappedRange.openWith map (some content) span = .ok m ∧
      m.start = start ∧ m.bytes = (content.drop start).take (stop - start) ∧
      (offsetLimit ≤ capacity →
        FileRange.openWith (some content) span capacity = .error (.fault .capacity)) ∧
      (capacity < offsetLimit → ∃ r, FileRange.openWith (some content) span capacity = .ok r ∧
        r.start = m.start ∧ r.len = m.length ∧ r.isEmpty = m.isEmpty ∧
        (∀ sizes : Nat → Nat, (∀ k, 0 < sizes k) → r.readPortions sizes = m.bytes) ∧
        r.showPortions = .ok m.bytes) := by
  intro stop start
  obtain ⟨m, hopen, hbegin, hbytes, hempty⟩ := MappedRange.openWith_eq hmap content span
  refine ⟨m, hopen, hbegin, hbytes, fun hge => ?_, fun hlt => ?_⟩
  · rw [FileRange.openWith, if_neg (Nat.not_lt.mpr hge)]
  · have hlen : m.length = (span.clamp content.length).length := by
      rw [MappedRange.length, hbytes, span.length_slice_clamp content]
    have hstart := span.start_clamp_le content.length
    have hstop := span.stop_clamp_le content.length
    have hle : (span.clamp content.length).start + (span.clamp content.length).length
        ≤ content.length := by
      rw [Span.length]
      omega
    have hcount : (span.clamp content.length).length < countLimit := by
      have hclamp : (span.clamp content.length).stop ≤ span.stop := Nat.min_le_left ..
      rw [Span.length]
      omega
    have hfollows := FileRange.follows_ofContent content span hpos hlt
    rw [hbytes]
    refine ⟨FileRange.ofContent content span capacity, ?_, hbegin.symm, hlen.symm, hempty.symm, ?_,
      ?_⟩
    · rw [FileRange.openWith, if_pos hlt]
    · intro sizes hsizes
      exact hfollows.readPortions_eq hle hcount hsizes
    · exact hfollows.showPortions_eq hle hcount

/-- A span that goes beyond a file of ten bytes, through a buffer of three: portions of one byte, of
two, of three and so on, of which some end with the buffer, and the last ones with the file. -/
theorem mapping_agrees_beyond_end :
    let content : List UInt8 := [0, 1, 2, 3, 4, 5, 6, 7, 8, 9]
    let span : Span := { start := 4, stop := 100 }
    Mapper.stored.Faithful ∧ 0 < 3 ∧ span.stop < countLimit ∧ (∀ k, 0 < k + 1) ∧
      ∃ m r, MappedRange.openSpan (some content) span = .ok m ∧ m.bytes = [4, 5, 6, 7, 8, 9] ∧
        FileRange.openWith (some content) span 3 = .ok r ∧ r.len = 6 ∧
        r.readPortions (· + 1) = [4, 5, 6, 7, 8, 9] ∧ r.showPortions = .ok [4, 5, 6, 7, 8, 9] := by
  intro content span
  have hspan : span.stop < countLimit := by decide
  obtain ⟨m, hmap, -, hbytes, -, hopen⟩ :=
    mapping_agrees Mapper.faithful_stored content span (show 0 < 3 by decide) hspan
  obtain ⟨r, hr, -, hlen, -, hread, hshow⟩ := hopen (by decide)
  have hbytes : m.bytes = [4, 5, 6, 7, 8, 9] := hbytes
  rw [hbytes] at hread hshow
  rw [MappedRange.length, hbytes] at hlen
  exact ⟨Mapper.faithful_stored, by decide, hspan, Nat.succ_pos, m, r, hmap, hbytes, hr, hlen,
    hread _ Nat.succ_pos, hshow⟩

/-- Where no buffer can be allocated the bytes are mapped all the same, and no range is there to be
compared with. -/
theorem mapping_beyond_limit_wrong :
    let content : List UInt8 := [0, 1, 2, 3, 4, 5, 6, 7, 8, 9]
    let span : Span := { start := 2, stop := 7 }
    0 < offsetLimit ∧ span.stop < countLimit ∧
      (∃ m, MappedRange.openSpan (some content) span = .ok m ∧ m.bytes = [2, 3, 4, 5, 6]) ∧
      ¬∃ r, FileRange.openWith (some content) span offsetLimit = .ok r := by
  intro content span
  refine ⟨by decide, by decide, ⟨_, rfl, rfl⟩, ?_⟩
  rintro ⟨r, hr⟩
  rw [FileRange.openWith, if_neg (Nat.lt_irrefl offsetLimit)] at hr
  simp at hr

end PackedBits
