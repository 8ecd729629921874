import PackedBits.Proofs.File.Cursor

/-!
# Seeking in a range of a file

A seek travels either by the distance from the position or, when that is too large to be counted, by
way of the file's own offset.  Both ways lead to the same place of the file as long as the position
and the buffer keep step: the buffer tracks the place `start + pos`, and the offset of the file is
one that the system has (`FileRange.InStep`).  Every call keeps them in step that moves over no more
bytes than the buffer holds, and so they are in step in all ranges that can be `Reached`.

Where they are in step the outcome of a seek is decided by the place it leads to alone: it arrives
if the system has such an offset (`InStep.seek_of_lt`), and otherwise it is refused and the range is
as it was before, buffer included (`InStep.seek_of_le`).  The buffer would be forgotten by a refused
seek only if the position were larger than any offset of the file, and this needs a position that is
out of step (`BufferedFile.Tracks.moveBy_of_le`).

In a range of which nothing is known a seek still moves to its target or leaves the position alone
(`seek_cases`).
-/

namespace PackedBits

namespace BufferedFile

/-! ### The offset of the file -/

/-- Reading stops at the end of the file, and so does its offset, unless it was behind the end
before. -/
theorem offset_readDirect_le (f : BufferedFile) (n : Nat) :
    (f.readDirect n).2.offset ≤ max f.offset f.content.length := by
  show f.offset + ((f.content.drop f.offset).take n).length ≤ max f.offset f.content.length
  rw [List.length_take, List.length_drop]
  omega

theorem offset_fill_le (f : BufferedFile) :
    f.fill.2.offset ≤ max f.offset f.content.length := by
  unfold fill
  split
  · exact Nat.le_max_left ..
  · exact f.offset_readDirect_le f.capacity

theorem offset_read_le (f : BufferedFile) (n : Nat) :
    (f.read n).2.offset ≤ max f.offset f.content.length := by
  unfold read
  split
  · exact f.offset_readDirect_le n
  · exact f.offset_fill_le

/-! ### Moves of a file -/

/-- A move that is refused leaves the file, or it leaves it without its buffer. -/
theorem moveTo_cases (f : BufferedFile) (offset : Int) :
    (∃ f', f.moveTo offset = (.ok (), f')) ∨ f.moveTo offset = (.error .badOffset, f) := by
  unfold moveTo
  split
  · exact .inl ⟨_, rfl⟩
  · exact .inr rfl

theorem moveBy_cases (f : BufferedFile) (distance : Int) :
    (∃ f', f.moveBy distance = (.ok (), f')) ∨ f.moveBy distance = (.error .badOffset, f) ∨
      f.moveBy distance = (.error .badOffset, f.rewind) := by
  unfold moveBy
  dsimp only
  split
  · exact .inl ⟨_, rfl⟩
  · split
    · rcases moveTo_cases f.rewind _ with hok | herror
      · exact .inl hok
      · exact .inr (.inr herror)
    · rcases moveTo_cases f _ with hok | herror
      · exact .inl hok
      · exact .inr (.inl herror)

namespace Tracks

variable {content : List UInt8} {capacity limit place : Nat} {f : BufferedFile}

/-- A move by a distance to an offset that the system has. -/
theorem moveBy_of_lt (h : Tracks content capacity limit f place) {distance : Int} {target : Nat}
    (htarget : place + distance = target)
    (hdistance : -(offsetLimit : Int) ≤ distance - f.unread.length) (hoffset : f.offset < limit)
    (hlt : target < limit) :
    ∃ f', f.moveBy distance = (.ok (), f') ∧ f'.offset < limit ∧
      Tracks content capacity limit f' target := by
  rcases h.moveBy_eq htarget with ⟨f', hok, hsame, hf'⟩ | hmoved
  · exact ⟨f', hok, by rwa [hsame], hf'⟩
  · obtain ⟨f', hok, harrived, hf'⟩ := h.moveTo_of_lt hlt
    rw [hmoved, if_neg (Int.not_lt.mpr hdistance)]
    exact ⟨f', hok, by rwa [harrived], hf'⟩

/-- A move by a distance to an offset that the system refuses. It is not inside the buffer, and as
the distance can be counted the buffer is kept. -/
theorem moveBy_of_le (h : Tracks content capacity limit f place) {distance : Int} {target : Nat}
    (htarget : place + distance = target)
    (hdistance : -(offsetLimit : Int) ≤ distance - f.unread.length) (hoffset : f.offset < limit)
    (hle : limit ≤ target) : f.moveBy distance = (.error .badOffset, f) := by
  rcases h.moveBy_eq htarget with ⟨f', -, hsame, hf'⟩ | hmoved
  · have hunread := hf'.length_unread
    omega
  · rw [hmoved, if_neg (Int.not_lt.mpr hdistance)]
    exact h.moveTo_of_le hle

end Tracks

end BufferedFile

namespace FileRange

/-! ### Ranges in which position and buffer keep step -/

/-- Whether the byte at the position is the one that the buffer gives out next, and the offset of
the file is one that the system has. -/
structure InStep (content : List UInt8) (capacity limit : Nat) (r : FileRange) : Prop where
  tracks : r.file.Tracks content capacity limit (r.start + r.pos)
  offset_lt : r.file.offset < limit

theorem travel_cases (r : FileRange) (position : Nat) :
    (∃ file, r.travel position = (.ok (), file)) ∨
      ∃ e file, r.travel position = (.error e, file) ∧ e.kind = .invalidInput ∧
        (file = r.file ∨ file = r.file.rewind) := by
  unfold travel
  dsimp only
  split
  · rcases r.file.moveBy_cases (position - r.pos) with hok | herror | herror
    · exact .inl hok
    · exact .inr ⟨_, _, herror, rfl, .inl rfl⟩
    · exact .inr ⟨_, _, herror, rfl, .inr rfl⟩
  · split
    · rcases r.file.moveTo_cases (r.start + position) with hok | herror
      · exact .inl hok
      · exact .inr ⟨_, _, herror, rfl, .inl rfl⟩
    · exact .inr ⟨_, _, rfl, rfl, .inl rfl⟩

/-- A target that is not a position is refused. -/
theorem seek_of_not_range {r : FileRange} {target : SeekTarget}
    (h : target.place r.len r.pos < 0 ∨ countLimit ≤ target.place r.len r.pos) :
    r.seek target = (.error .seekRange, r) := by
  rw [seek_eq, resolve_eq, if_neg (by omega)]

section Position

variable {r : FileRange} {target : SeekTarget} {position : Nat}
  (hplace : target.place r.len r.pos = position) (hcount : position < countLimit)

include hplace hcount

theorem seek_of_place :
    r.seek target =
      match r.travel position with
      | (.ok _, file) => (.ok position, { r with file, pos := position })
      | (.error e, file) => (.error e, { r with file }) := by
  have hseek := seek_eq r target
  rw [resolve_eq, hplace, if_pos ⟨by omega, by omega⟩, Int.toNat_natCast] at hseek
  exact hseek

/-- Whatever the state of a range, a seek to a position ends there, or it is refused; then no more
than the buffer is forgotten. -/
theorem seek_cases :
    (∃ file, r.seek target = (.ok position, { r with file, pos := position })) ∨
    ∃ e file, r.seek target = (.error e, { r with file }) ∧ e.kind = .invalidInput ∧
      (file = r.file ∨ file = r.file.rewind) := by
  rw [seek_of_place hplace hcount]
  rcases r.travel_cases position with ⟨file, hok⟩ | ⟨e, file, herror, hkind, hfile⟩
  · rw [hok]
    exact .inl ⟨file, rfl⟩
  · rw [herror]
    exact .inr ⟨e, file, rfl, hkind, hfile⟩

end Position

namespace InStep

variable {content : List UInt8} {capacity limit n : Nat} {r : FileRange}

/-- No position is so far behind that it could not be counted how far, nor with the bytes of the
buffer on top. -/
theorem distance_le (h : InStep content capacity limit r) (hlimit : limit ≤ offsetLimit)
    (position : Nat) :
    -(offsetLimit : Int) ≤ (position : Int) - r.pos - r.file.unread.length := by
  have hunread := h.tracks.length_unread
  have hlt := h.offset_lt
  omega

/-- The file arrives at every place that the system has. -/
theorem travel_of_lt (h : InStep content capacity limit r) (hlimit : limit ≤ offsetLimit)
    {position : Nat} (hlt : r.start + position < limit) :
    ∃ file, r.travel position = (.ok (), file) ∧ file.offset < limit ∧
      file.Tracks content capacity limit (r.start + position) := by
  have hback := h.distance_le hlimit position
  have hplace : ((r.start + r.pos : Nat) : Int) + ((position : Int) - r.pos)
      = ((r.start + position : Nat) : Int) := by omega
  unfold travel
  dsimp only
  rw [if_pos (by omega)]
  exact h.tracks.moveBy_of_lt hplace hback h.offset_lt hlt

/-- It is not moved to any other, on neither way. -/
theorem travel_of_le (h : InStep content capacity limit r) (hlimit : limit ≤ offsetLimit)
    {position : Nat} (hle : limit ≤ r.start + position) :
    ∃ e, r.travel position = (.error e, r.file) ∧ e.kind = .invalidInput := by
  have hback := h.distance_le hlimit position
  have hplace : ((r.start + r.pos : Nat) : Int) + ((position : Int) - r.pos)
      = ((r.start + position : Nat) : Int) := by omega
  unfold travel
  dsimp only
  -- by the distance, by the offset, or not at all since the offset cannot be counted
  split
  · exact ⟨_, h.tracks.moveBy_of_le hplace hback h.offset_lt hle, rfl⟩
  · split
    · exact ⟨_, h.tracks.moveTo_of_le hle, rfl⟩
    · exact ⟨_, rfl, rfl⟩

theorem seek_of_lt (h : InStep content capacity limit r) (hlimit : limit ≤ offsetLimit)
    {target : SeekTarget} {position : Nat} (hplace : target.place r.len r.pos = position)
    (hcount : position < countLimit) (hlt : r.start + position < limit) :
    ∃ r', r.seek target = (.ok position, r') ∧ r'.pos = position ∧
      InStep content capacity limit r' := by
  obtain ⟨file, hok, hoffset, htracks⟩ := h.travel_of_lt hlimit hlt
  rw [seek_of_place hplace hcount, hok]
  exact ⟨_, rfl, rfl, htracks, hoffset⟩

theorem seek_of_le (h : InStep content capacity limit r) (hlimit : limit ≤ offsetLimit)
    {target : SeekTarget} {position : Nat} (hplace : target.place r.len r.pos = position)
    (hcount : position < countLimit) (hle : limit ≤ r.start + position) :
    ∃ e, r.seek target = (.error e, r) ∧ e.kind = .invalidInput := by
  obtain ⟨e, herror, hkind⟩ := h.travel_of_le hlimit hle
  rw [seek_of_place hplace hcount, herror]
  exact ⟨e, rfl, hkind⟩

theorem seek (h : InStep content capacity limit r) (hlimit : limit ≤ offsetLimit)
    (target : SeekTarget) : InStep content capacity limit (r.seek target).2 := by
  by_cases hrange : target.place r.len r.pos < 0 ∨ countLimit ≤ target.place r.len r.pos
  · rwa [seek_of_not_range hrange]
  · obtain ⟨position, hplace⟩ := Int.eq_ofNat_of_zero_le
      (show 0 ≤ target.place r.len r.pos by omega)
    have hcount : position < countLimit := by omega
    rcases Nat.lt_or_ge (r.start + position) limit with hlt | hle
    · obtain ⟨r', hok, -, hr'⟩ := h.seek_of_lt hlimit hplace hcount hlt
      rwa [hok]
    · obtain ⟨e, herror, -⟩ := h.seek_of_le hlimit hplace hcount hle
      rwa [herror]

/-- What is read ends with the file, and the system has all offsets up to there. -/
theorem max_lt (h : InStep content capacity limit r) (hcontent : content.length < limit) :
    max r.file.offset r.file.content.length < limit := by
  rw [h.tracks.content_eq]
  exact Nat.max_lt.mpr ⟨h.offset_lt, hcontent⟩

theorem read (h : InStep content capacity limit r) (hcontent : content.length < limit) (n : Nat) :
    InStep content capacity limit (r.read n).2 := by
  rcases Nat.eq_zero_or_pos (min r.remaining n) with hzero | hpos
  · rwa [read_of_eq_zero hzero]
  · have htracks := h.tracks.read (min r.remaining n)
    rw [Nat.add_assoc] at htracks
    rw [read_of_pos hpos]
    exact ⟨htracks, Nat.lt_of_le_of_lt (r.file.offset_read_le _) (h.max_lt hcontent)⟩

theorem fill (h : InStep content capacity limit r) (hcontent : content.length < limit) :
    InStep content capacity limit r.fill.2 := by
  unfold FileRange.fill
  split
  · exact h
  · exact ⟨h.tracks.fill, Nat.lt_of_le_of_lt r.file.offset_fill_le (h.max_lt hcontent)⟩

theorem consume (h : InStep content capacity limit r) (hlimit : limit ≤ offsetLimit)
    (hn : n ≤ r.file.unread.length) : InStep content capacity limit (r.consume n).2 := by
  have htracks := h.tracks.consume hn
  rw [Nat.add_assoc] at htracks
  have hcount : r.pos + n < countLimit := by
    have hunread := h.tracks.length_unread
    have hlt := h.offset_lt
    have hcountLimit : countLimit = 2 * offsetLimit := by decide
    omega
  unfold FileRange.consume
  dsimp only
  rw [if_pos hcount]
  exact ⟨htracks, h.offset_lt⟩

end InStep

/-! ### Ranges that calls lead to -/

/-- A range on a system that has the offsets below `limit`. -/
def under (r : FileRange) (limit : Nat) : FileRange :=
  { r with file := { r.file with limit } }

/-- Whether a call may be made: only bytes that the buffer holds may be moved over. -/
def Admits (r : FileRange) : CursorCall → Prop
  | .consume n => n ≤ r.file.unread.length
  | _ => True

/-- The ranges of a file that calls lead to, from the opening on, where the system has the offsets
below `limit`. -/
inductive Reached (content : List UInt8) (limit : Nat) : FileRange → Prop where
  | opened {span : Span} {capacity : Nat} {r : FileRange} :
    openWith (some content) span capacity = .ok r → Reached content limit (r.under limit)
  | perform {r : FileRange} (call : CursorCall) :
    r.Admits call → Reached content limit r → Reached content limit (r.perform call).2

variable {content : List UInt8} {capacity limit : Nat} {r : FileRange}

theorem inStep_of_openWith (hcontent : content.length < limit) {span : Span}
    (hopen : openWith (some content) span capacity = .ok r) :
    InStep content capacity limit (r.under limit) := by
  unfold openWith at hopen
  dsimp only at hopen
  split at hopen
  · next hlt =>
    obtain rfl := Except.ok.inj hopen
    have hstart : (span.clamp content.length).start < limit := by
      have hle := span.start_clamp_le content.length
      have hstop := span.stop_clamp_le content.length
      omega
    exact ⟨BufferedFile.Tracks.of_nil rfl rfl rfl hlt rfl rfl, hstart⟩
  · simp at hopen

/-- One call keeps position and buffer in step. -/
theorem InStep.perform (h : InStep content capacity limit r) (hlimit : limit ≤ offsetLimit)
    (hcontent : content.length < limit) {call : CursorCall} (hcall : r.Admits call) :
    InStep content capacity limit (r.perform call).2 := by
  cases call with
  | read n => exact h.read hcontent n
  | fill => exact h.fill hcontent
  | consume n =>
    have hconsumed := h.consume hlimit hcall
    rw [FileRange.perform]
    rcases hmade : r.consume n with ⟨_ | _, r'⟩
    all_goals
      rw [hmade] at hconsumed
      exact hconsumed
  | seek target =>
    have hsought := h.seek hlimit target
    rw [FileRange.perform]
    rcases hmade : r.seek target with ⟨_ | _, r'⟩
    all_goals
      rw [hmade] at hsought
      exact hsought

/-- And so do any calls. -/
theorem Reached.inStep (hr : Reached content limit r) (hlimit : limit ≤ offsetLimit)
    (hcontent : content.length < limit) : ∃ capacity, InStep content capacity limit r := by
  induction hr with
  | opened hopen => exact ⟨_, inStep_of_openWith hcontent hopen⟩
  | perform call hcall _ ih =>
    obtain ⟨capacity, h⟩ := ih
    exact ⟨capacity, h.perform hlimit hcontent hcall⟩

/-- **A seek is exact, or it changes nothing.** The place it leads to is worked out as an integer.
If this is no position, the seek is refused, whatever the state of the range.  In a range that calls
have led to, a position whose offset the system has is arrived at and answered, and any other is
refused.  Whoever is refused finds the range as it was, its position, its file and its buffer, so
that nothing that follows can tell.  There is no other outcome, and no fault.

If more bytes were moved over than the buffer held, and in any other state, a seek to a position
still ends at it or leaves the position alone, and then no more can be lost than what was in the
buffer. -/
theorem seek_exact {content : List UInt8} {limit : Nat} (hlimit : limit ≤ offsetLimit)
    (hcontent : content.length < limit) (r : FileRange) (target : SeekTarget) :
    let place := target.place r.len r.pos
    (place < 0 ∨ countLimit ≤ place →
      r.seek target = (.error .seekRange, r) ∧ IoError.seekRange.kind = .invalidInput) ∧
    ∀ position : Nat, place = position → position < countLimit →
      (Reached content limit r →
        (r.start + position < limit →
          ∃ r', r.seek target = (.ok position, r') ∧ r'.pos = position) ∧
        (limit ≤ r.start + position →
          ∃ e, r.seek target = (.error e, r) ∧ e.kind = .invalidInput)) ∧
      ((∃ r', r.seek target = (.ok position, r') ∧ r'.pos = position) ∨
        ∃ e file, r.seek target = (.error e, { r with file }) ∧ e.kind = .invalidInput ∧
          (file = r.file ∨ file = r.file.rewind)) := by
  intro place
  refine ⟨fun hrange => ⟨seek_of_not_range hrange, rfl⟩, ?_⟩
  intro position hplace hcount
  refine ⟨fun hr => ?_, ?_⟩
  · obtain ⟨capacity, hstep⟩ := hr.inStep hlimit hcontent
    refine ⟨fun hlt => ?_, hstep.seek_of_le hlimit hplace hcount⟩
    obtain ⟨r', hok, hpos, -⟩ := hstep.seek_of_lt hlimit hplace hcount hlt
    exact ⟨r', hok, hpos⟩
  · rcases seek_cases hplace hcount with ⟨file, hok⟩ | hrefused
    · exact .inl ⟨_, hok, rfl⟩
    · exact .inr hrefused

/-- Five of ten bytes on a system with sixteen offsets, through a buffer of three of which one has
been moved over: the thirteenth position has the last offset there is, the one behind it none, and
in front of the range there is no position. -/
theorem seek_exact_sixteen_offsets :
    let content : List UInt8 := [0, 1, 2, 3, 4, 5, 6, 7, 8, 9]
    16 ≤ offsetLimit ∧ content.length < 16 ∧ ∃ r, Reached content 16 r ∧
      (r.start, r.len, r.pos, r.file.buffer) = (2, 5, 1, [2, 3, 4]) ∧
      (∃ r', r.seek (.fromHere 12) = (.ok 13, r') ∧ r'.pos = 13) ∧
      (∃ e, r.seek (.position 14) = (.error e, r) ∧ e.kind = .invalidInput) ∧
      r.seek (.fromEnd (-6)) = (.error .seekRange, r) := by
  intro content
  have hlimit : 16 ≤ offsetLimit := by decide
  have hcontent : content.length < 16 := by decide
  have hopen : openWith (some content) { start := 2, stop := 7 } 3 = .ok _ := rfl
  have hopened : Reached content 16 _ := .opened hopen
  have hmoved :=
    Reached.perform (.consume 1) (by unfold Admits; decide) (.perform .fill trivial hopened)
  refine ⟨hlimit, hcontent, _, hmoved, by decide, ?_, ?_, ?_⟩
  · exact (((seek_exact hlimit hcontent _ (.fromHere 12)).2 13 rfl (by decide)).1 hmoved).1
      (by decide)
  · exact (((seek_exact hlimit hcontent _ (.position 14)).2 14 rfl (by decide)).1 hmoved).2
      (by decide)
  · exact ((seek_exact hlimit hcontent _ (.fromEnd (-6))).1 (by decide)).1

/-- Four bytes are moved over, and none of them is in the buffer: the position says four, the file
is still at the first byte, and there is no way back to the second, although the system has its
offset. -/
theorem seek_out_of_step_wrong :
    let content : List UInt8 := [0, 1, 2, 3, 4, 5, 6, 7, 8, 9]
    let span : Span := { start := 2, stop := 7 }
    let r := ofContent content span 4
    let r' := (r.consume 4).2
    openWith (some content) span 4 = .ok r ∧ (r.consume 4).1 = .ok () ∧ r'.pos = 4 ∧
      content.length < offsetLimit ∧ (SeekTarget.position 1).place r'.len r'.pos = 1 ∧
      r'.start + 1 < offsetLimit ∧ (r'.seek (.position 1)).1 = .error .badOffset := by
  intro content span r r'
  exact ⟨rfl, rfl, rfl, by decide, rfl, by decide, by decide⟩

end FileRange

end PackedBits
