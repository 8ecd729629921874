import PackedBits.Proofs.File.Range

/-!
# A range as a cursor

Three numbers say where a range is: its position, the index in the buffer, and the offset of the
file.  The buffer always holds the bytes of the file from some offset on up to the file's own, and
so the index says which byte is given out next (`BufferedFile.Tracks`).  Filling, reading and giving
out bytes keep this, and so does every move, whether it stays inside the buffer or empties it, and
also when it is refused.

Hence a range that was opened follows a `Cursor` over the bytes of its span, which knows nothing of
a buffer: the position, and how many bytes have been shown that may be moved over
(`FileRange.Follows`).  What is right for the cursor to answer is `Cursor.Allows`.  One call keeps
the two together (`FileRange.Follows.perform`), and so does any sequence of calls
(`range_conforms`).
-/

namespace PackedBits

namespace BufferedFile

/-! ### The buffer and the offset of the file -/

/-- Whether the buffer of a file with these bytes holds those in front of its offset, and the byte
at the offset `place` is given out next. -/
structure Tracks (content : List UInt8) (capacity limit : Nat) (f : BufferedFile) (place : Nat) :
    Prop where
  content_eq : f.content = content
  capacity_eq : f.capacity = capacity
  limit_eq : f.limit = limit
  capacity_lt : f.capacity < offsetLimit
  buffer_le : f.buffer.length ≤ f.capacity
  index_le : f.index ≤ f.buffer.length
  front : ∃ base, f.offset = base + f.buffer.length ∧ place = base + f.index ∧
    f.buffer <+: content.drop base

namespace Tracks

variable {content : List UInt8} {capacity limit place n : Nat} {f : BufferedFile}

/-- What is given out from there on. -/
theorem stands (h : Tracks content capacity limit f place) (hpos : 0 < capacity) :
    f.Stands (content.drop place) := by
  obtain ⟨base, hoffset, rfl, rest, hrest⟩ := h.front
  refine ⟨by rwa [h.capacity_eq], h.capacity_lt, h.buffer_le, h.index_le, ?_⟩
  rw [unread, h.content_eq, hoffset, ← List.drop_drop, ← List.drop_drop, ← hrest, List.drop_left,
    List.drop_append_of_le_length h.index_le]

theorem buffer_lt (h : Tracks content capacity limit f place) : f.buffer.length < offsetLimit :=
  Nat.lt_of_le_of_lt h.buffer_le h.capacity_lt

/-- The bytes that have not been given out are those up to the offset of the file. -/
theorem length_unread (h : Tracks content capacity limit f place) :
    place + f.unread.length = f.offset := by
  obtain ⟨base, hoffset, rfl, -⟩ := h.front
  have hindex := h.index_le
  rw [hoffset, unread, List.length_drop]
  omega

theorem length_unread_le (h : Tracks content capacity limit f place) :
    f.unread.length ≤ capacity := by
  have hbuffer := h.buffer_le
  rw [h.capacity_eq] at hbuffer
  rw [unread, List.length_drop]
  omega

/-- With an empty buffer it is the offset of the file. -/
theorem of_nil (hcontent : f.content = content) (hcapacity : f.capacity = capacity)
    (hlimit : f.limit = limit) (hlt : f.capacity < offsetLimit) (hbuffer : f.buffer = [])
    (hindex : f.index = 0) : Tracks content capacity limit f f.offset := by
  refine ⟨hcontent, hcapacity, hlimit, hlt, ?_, ?_, f.offset, ?_, ?_, ?_⟩
  · rw [hbuffer]
    exact Nat.zero_le _
  · rw [hindex]
    exact Nat.zero_le _
  · rw [hbuffer, List.length_nil, Nat.add_zero]
  · rw [hindex, Nat.add_zero]
  · rw [hbuffer]
    exact List.nil_prefix

/-- The file may be at any offset if the buffer is emptied. -/
theorem emptied (h : Tracks content capacity limit f place) (offset : Nat) :
    Tracks content capacity limit { f with offset, buffer := [], index := 0 } offset :=
  of_nil h.content_eq h.capacity_eq h.limit_eq h.capacity_lt rfl rfl

/-- Once the buffer is used up, the next byte is at the offset of the file. -/
theorem offset_eq (h : Tracks content capacity limit f place) (hused : f.buffer.length ≤ f.index) :
    f.offset = place := by
  have hunread := h.length_unread
  rwa [unread, List.drop_eq_nil_of_le hused, List.length_nil, Nat.add_zero, eq_comm] at hunread

theorem readDirect (h : Tracks content capacity limit f place) (hused : f.buffer.length ≤ f.index)
    (n : Nat) :
    Tracks content capacity limit (f.readDirect n).2 (place + (f.readDirect n).1.length) := by
  rw [← h.offset_eq hused]
  exact h.emptied _

theorem fill (h : Tracks content capacity limit f place) :
    Tracks content capacity limit f.fill.2 place := by
  unfold BufferedFile.fill
  by_cases hlt : f.index < f.buffer.length
  · rw [if_pos hlt]
    exact h
  · rw [if_neg hlt]
    refine ⟨h.content_eq, h.capacity_eq, h.limit_eq, h.capacity_lt, f.length_readDirect_le _,
      Nat.zero_le _, f.offset, rfl, (h.offset_eq (Nat.not_lt.mp hlt)).symm, ?_⟩
    rw [← h.content_eq]
    exact List.take_prefix _ _

theorem consume (h : Tracks content capacity limit f place) (hn : n ≤ f.unread.length) :
    Tracks content capacity limit (f.consume n) (place + n) := by
  obtain ⟨base, hoffset, rfl, hfront⟩ := h.front
  refine ⟨h.content_eq, h.capacity_eq, h.limit_eq, h.capacity_lt, h.buffer_le,
    Nat.min_le_right .., base, hoffset, ?_, hfront⟩
  rw [index_consume h.buffer_lt h.index_le hn, Nat.add_assoc]

theorem read (h : Tracks content capacity limit f place) (n : Nat) :
    Tracks content capacity limit (f.read n).2 (place + (f.read n).1.length) := by
  unfold BufferedFile.read
  by_cases hdirect : f.buffer.length ≤ f.index ∧ f.capacity ≤ n
  · rw [if_pos hdirect]
    exact h.readDirect hdirect.1 n
  · rw [if_neg hdirect]
    show Tracks content capacity limit (f.fill.2.consume _) (place + (f.fill.1.take n).length)
    rw [List.length_take]
    apply h.fill.consume
    rw [unread_fill]
    exact Nat.min_le_right ..

theorem rewind (h : Tracks content capacity limit f place) :
    Tracks content capacity limit f.rewind place := by
  have hoffset : f.offset - f.unread.length = place := by
    rw [← h.length_unread, Nat.add_sub_cancel]
  rw [BufferedFile.rewind, hoffset]
  exact h.emptied place

/-! A move goes to an offset that the system has, or it is refused. -/

theorem moveTo_of_lt (h : Tracks content capacity limit f place) {target : Nat}
    (hlt : target < limit) :
    ∃ f', f.moveTo target = (.ok (), f') ∧ f'.offset = target ∧
      Tracks content capacity limit f' target := by
  have hrange : (0 : Int) ≤ target ∧ (target : Int) < f.limit := by
    rw [h.limit_eq]
    omega
  rw [BufferedFile.moveTo, if_pos hrange]
  exact ⟨_, rfl, rfl, h.emptied target⟩

theorem moveTo_of_le (h : Tracks content capacity limit f place) {target : Nat}
    (hle : limit ≤ target) : f.moveTo target = (.error .badOffset, f) := by
  have hbeyond : ¬(0 ≤ (target : Int) ∧ (target : Int) < f.limit) := by
    rw [h.limit_eq]
    omega
  rw [BufferedFile.moveTo, if_neg hbeyond]

/-- A move by a distance. Inside the buffer only the index moves, and in all other cases the file is
moved; where the distance leads does not depend on whether the buffer is forgotten first. -/
theorem moveBy_eq (h : Tracks content capacity limit f place) {distance : Int} {target : Nat}
    (htarget : place + distance = target) :
    (∃ f', f.moveBy distance = (.ok (), f') ∧ f'.offset = f.offset ∧
      Tracks content capacity limit f' target) ∨
    f.moveBy distance
      = (if distance - f.unread.length < -offsetLimit then f.rewind else f).moveTo target := by
  unfold BufferedFile.moveBy
  dsimp only
  by_cases hinside : 0 ≤ f.index + distance ∧ f.index + distance ≤ f.buffer.length
  · rw [if_pos hinside]
    obtain ⟨base, hoffset, rfl, hfront⟩ := h.front
    refine .inl ⟨_, rfl, rfl, h.content_eq, h.capacity_eq, h.limit_eq, h.capacity_lt, h.buffer_le,
      ?_, base, hoffset, ?_, hfront⟩
    · show (f.index + distance).toNat ≤ f.buffer.length
      omega
    · show target = base + (f.index + distance).toNat
      omega
  · rw [if_neg hinside]
    right
    have hmoved : ∀ {f'}, Tracks content capacity limit f' place →
        (f'.offset : Int) - f'.unread.length + distance = target := by
      intro f' h'
      have hunread := h'.length_unread
      omega
    split
    · rw [hmoved h.rewind]
    · rw [hmoved h]

/-- If a move is refused, the next byte is the same. -/
theorem moveTo (h : Tracks content capacity limit f place) (target : Nat) :
    (∃ f', f.moveTo target = (.ok (), f') ∧ Tracks content capacity limit f' target) ∨
    f.moveTo target = (.error .badOffset, f) := by
  rcases Nat.lt_or_ge target limit with hlt | hle
  · obtain ⟨f', hok, -, hf'⟩ := h.moveTo_of_lt hlt
    exact .inl ⟨f', hok, hf'⟩
  · exact .inr (h.moveTo_of_le hle)

theorem moveBy (h : Tracks content capacity limit f place) {distance : Int} {target : Nat}
    (htarget : place + distance = target) :
    (∃ f', f.moveBy distance = (.ok (), f') ∧ Tracks content capacity limit f' target) ∨
    ∃ f', f.moveBy distance = (.error .badOffset, f') ∧ Tracks content capacity limit f' place := by
  rcases h.moveBy_eq htarget with ⟨f', hok, -, hf'⟩ | hmoved
  · exact .inl ⟨f', hok, hf'⟩
  · have hfrom : Tracks content capacity limit
        (if distance - f.unread.length < -offsetLimit then f.rewind else f) place := by
      split
      · exact h.rewind
      · exact h
    rw [hmoved]
    exact (hfrom.moveTo target).imp_right fun herror => ⟨_, herror, hfrom⟩

end Tracks

end BufferedFile

/-! ### Cursors -/

/-- A call on a cursor. -/
inductive CursorCall where
  | read (n : Nat)
  | fill
  | consume (n : Nat)
  | seek (target : SeekTarget)
  deriving DecidableEq, Repr

/-- What a call on a cursor answers. -/
inductive CursorAnswer where
  | bytes (portion : List UInt8)
  | consumed
  | moved (position : Nat)
  | failed (failure : Failure IoError)
  deriving DecidableEq, Repr

/-- The place that a target stands for, in `len` bytes and from the position `pos`. -/
def SeekTarget.place (len pos : Nat) : SeekTarget → Int
  | position n => n
  | fromEnd distance => len + distance
  | fromHere distance => pos + distance

/-- A position in a list of bytes, and the number of bytes behind it that have just been shown. -/
structure Cursor where
  pos : Nat := 0
  atHand : Nat := 0
  deriving DecidableEq, Repr

namespace Cursor

/-- Whether a call may be made: only bytes that have been shown may be moved over. -/
def Accepts (c : Cursor) : CursorCall → Prop
  | .consume n => n ≤ c.atHand
  | _ => True

/-- Whether an answer is right for the bytes `s`. What is read is the front of the bytes behind the
position, not more than was asked for, and empty only if nothing was asked for or nothing is there;
what is shown is the front as well, not more than the buffer holds. -/
def Allows (s : List UInt8) (capacity : Nat) (c : Cursor) : CursorCall → CursorAnswer → Prop
  | .read n, .bytes portion =>
    portion <+: s.drop c.pos ∧ portion.length ≤ n ∧ (portion = [] ↔ n = 0 ∨ s.length ≤ c.pos)
  | .fill, .bytes portion =>
    portion <+: s.drop c.pos ∧ portion.length ≤ capacity ∧ (portion = [] ↔ s.length ≤ c.pos)
  | .consume _, .consumed => True
  | .seek target, .moved position => (position : Int) = target.place s.length c.pos
  | .seek _, .failed (.refused _) => True
  | _, _ => False

/-- The cursor behind a call: bytes that are read or consumed are behind it, and a seek moves it to
the position that it answers, or leaves it alone. -/
def next (c : Cursor) : CursorCall → CursorAnswer → Cursor
  | .read _, .bytes portion => { pos := c.pos + portion.length }
  | .fill, .bytes portion => { c with atHand := portion.length }
  | .consume n, .consumed => { pos := c.pos + n, atHand := c.atHand - n }
  | .seek _, .moved position => { pos := position }
  | _, _ => { pos := c.pos }

end Cursor

namespace FileRange

/-- Makes a call on a range. -/
def perform (r : FileRange) : CursorCall → CursorAnswer × FileRange
  | .read n => ((.bytes (r.read n).1), (r.read n).2)
  | .fill => ((.bytes r.fill.1), r.fill.2)
  | .consume n =>
    match r.consume n with
    | (.ok _, r) => (.consumed, r)
    | (.error failure, r) => (.failed failure, r)
  | .seek target =>
    match r.seek target with
    | (.ok position, r) => (.moved position, r)
    | (.error e, r) => (.failed (.refused e), r)

/-- Whether a range is and stays a cursor over the bytes `s`, from a state of the cursor on and
through these calls: it has the length of `s` and the position of the cursor, and as long as the
calls may be made, the answers are right. -/
def Conforms (s : List UInt8) (capacity : Nat) : Cursor → FileRange → List CursorCall → Prop
  | c, r, [] => r.len = s.length ∧ r.pos = c.pos
  | c, r, call :: calls =>
    r.len = s.length ∧ r.pos = c.pos ∧
      (c.Accepts call →
        c.Allows s capacity call (r.perform call).1 ∧
          Conforms s capacity (c.next call (r.perform call).1) (r.perform call).2 calls)

/-! ### The position and the offset of the file -/

/-- Whether a range of `len` bytes from `start` on is where a cursor is. -/
structure Follows (content : List UInt8) (capacity start len : Nat) (r : FileRange) (c : Cursor) :
    Prop where
  capacity_pos : 0 < capacity
  tracks : r.file.Tracks content capacity offsetLimit (start + c.pos)
  start_eq : r.start = start
  len_eq : r.len = len
  pos_eq : r.pos = c.pos
  pos_lt : c.pos < countLimit
  atHand_le : c.atHand ≤ r.file.unread.length
  atHand_le_sub : c.atHand ≤ len - c.pos

/-- The bytes of a range behind a position. -/
theorem drop_take_drop (content : List UInt8) (start len p : Nat) :
    ((content.drop start).take len).drop p = (content.drop (start + p)).take (len - p) := by
  rw [List.drop_take, List.drop_drop]

theorem length_take_drop {content : List UInt8} {start len : Nat}
    (h : start + len ≤ content.length) : ((content.drop start).take len).length = len := by
  rw [List.length_take, List.length_drop]
  omega

namespace Follows

variable {content : List UInt8} {capacity start len n : Nat} {r : FileRange} {c : Cursor}

theorem remaining_eq (h : Follows content capacity start len r c) : r.remaining = len - c.pos := by
  rw [remaining, h.len_eq, h.pos_eq]

/-- A position with nothing shown behind it. -/
theorem of_tracks {file : BufferedFile} {p : Nat} (h : Follows content capacity start len r c)
    (htracks : file.Tracks content capacity offsetLimit (start + p)) (hp : p < countLimit) :
    Follows content capacity start len { r with file, pos := p } { pos := p } :=
  ⟨h.capacity_pos, htracks, h.start_eq, h.len_eq, rfl, hp, Nat.zero_le _, Nat.zero_le _⟩

/-- Nothing is shown any more. -/
theorem stay (h : Follows content capacity start len r c) :
    Follows content capacity start len r { pos := c.pos } :=
  ⟨h.capacity_pos, h.tracks, h.start_eq, h.len_eq, h.pos_eq, h.pos_lt, Nat.zero_le _, Nat.zero_le _⟩

theorem read (h : Follows content capacity start len r c) (hle : start + len ≤ content.length)
    (hlen : len < countLimit) (n : Nat) :
    (r.read n).1 <+: ((content.drop start).take len).drop c.pos ∧ (r.read n).1.length ≤ n ∧
      ((r.read n).1 = [] ↔ n = 0 ∨ len ≤ c.pos) ∧
      Follows content capacity start len (r.read n).2 { pos := c.pos + (r.read n).1.length } := by
  have hremaining := h.remaining_eq
  rcases Nat.eq_zero_or_pos (min r.remaining n) with hzero | hpos
  · rw [read_of_eq_zero hzero]
    exact ⟨List.nil_prefix, Nat.zero_le n, iff_of_true rfl (by omega), h.stay⟩
  · have hshort := r.file.length_read_le (min r.remaining n)
    have htracks := h.tracks.read (min r.remaining n)
    obtain ⟨rest, hrest, hend, -⟩ := (h.tracks.stands h.capacity_pos).read hpos
    rw [read_of_pos hpos, h.pos_eq]
    dsimp only
    refine ⟨?_, by omega, ?_, ?_⟩
    · rw [drop_take_drop, List.prefix_take_iff]
      exact ⟨⟨rest, hrest.symm⟩, by omega⟩
    · -- in front of the end of the range the file has bytes
      refine iff_of_false ?_ (by omega)
      intro hnil
      have hbehind := List.drop_eq_nil_iff.mp (hend hnil)
      omega
    · rw [Nat.add_assoc] at htracks
      exact h.of_tracks htracks (by omega)

theorem fill (h : Follows content capacity start len r c) (hle : start + len ≤ content.length) :
    r.fill.1 <+: ((content.drop start).take len).drop c.pos ∧ r.fill.1.length ≤ capacity ∧
      (r.fill.1 = [] ↔ len ≤ c.pos) ∧
      Follows content capacity start len r.fill.2 { c with atHand := r.fill.1.length } := by
  have hremaining := h.remaining_eq
  unfold FileRange.fill
  by_cases hzero : r.remaining = 0
  · rw [if_pos hzero]
    exact ⟨List.nil_prefix, Nat.zero_le _, iff_of_true rfl (by omega), h.stay⟩
  · rw [if_neg hzero]
    have htracks := h.tracks.fill
    have hunread := r.file.unread_fill
    have hcapacity := htracks.length_unread_le
    obtain ⟨-, ⟨more, hmore⟩, hend⟩ := (h.tracks.stands h.capacity_pos).fill
    rw [hunread] at hcapacity
    have hshort : (r.file.fill.1.take r.remaining).length ≤ r.file.fill.1.length :=
      List.length_take_le' ..
    have hwithin : (r.file.fill.1.take r.remaining).length ≤ len - c.pos := by
      rw [← hremaining]
      exact List.length_take_le ..
    refine ⟨?_, Nat.le_trans hshort hcapacity, ?_, ?_⟩
    · rw [drop_take_drop, ← hremaining, List.prefix_take_iff]
      exact ⟨(List.take_prefix _ _).trans ⟨more, hmore.symm⟩, List.length_take_le ..⟩
    · refine iff_of_false ?_ (by omega)
      intro hnil
      have hbehind :=
        List.drop_eq_nil_iff.mp (hend ((List.take_eq_nil_iff.mp hnil).resolve_left hzero))
      omega
    · exact ⟨h.capacity_pos, htracks, h.start_eq, h.len_eq, h.pos_eq, h.pos_lt, by rwa [hunread],
        hwithin⟩

theorem consume (h : Follows content capacity start len r c) (hlen : len < countLimit)
    (hn : n ≤ c.atHand) :
    (r.consume n).1 = .ok () ∧
      Follows content capacity start len (r.consume n).2
        { pos := c.pos + n, atHand := c.atHand - n } := by
  have hwithin := h.atHand_le_sub
  have hpos := h.pos_lt
  have hcount : c.pos + n < countLimit := by omega
  have hunread := h.atHand_le
  have htracks := h.tracks.consume (Nat.le_trans hn hunread)
  have hleft : (r.file.consume n).unread.length = r.file.unread.length - n := by
    rw [BufferedFile.unread_consume h.tracks.buffer_lt h.tracks.index_le (Nat.le_trans hn hunread),
      List.length_drop]
  unfold FileRange.consume
  rw [h.pos_eq, if_pos hcount]
  refine ⟨rfl, h.capacity_pos, by rwa [← Nat.add_assoc], h.start_eq, h.len_eq, rfl, hcount, ?_, ?_⟩
  · show c.atHand - n ≤ (r.file.consume n).unread.length
    omega
  · show c.atHand - n ≤ len - (c.pos + n)
    omega

end Follows

/-! ### Moves -/

/-- How the file is moved to a position of the range. -/
def travel (r : FileRange) (position : Nat) : Except IoError Unit × BufferedFile :=
  let distance : Int := position - r.pos
  if -offsetLimit ≤ distance ∧ distance < offsetLimit then
    r.file.moveBy distance
  else if r.start + position < countLimit then
    r.file.moveTo (r.start + position)
  else
    (.error .seekOverflow, r.file)

theorem seek_eq (r : FileRange) (target : SeekTarget) :
    r.seek target =
      match r.resolve target with
      | none => (.error .seekRange, r)
      | some position =>
        match r.travel position with
        | (.ok _, file) => (.ok position, { r with file, pos := position })
        | (.error e, file) => (.error e, { r with file }) :=
  rfl

/-- A target is the place that it stands for, unless positions cannot be counted there. -/
theorem resolve_eq (r : FileRange) (target : SeekTarget) :
    r.resolve target =
      if 0 ≤ target.place r.len r.pos ∧ target.place r.len r.pos < countLimit then
        some (target.place r.len r.pos).toNat
      else none := by
  cases target with
  | position n => rfl
  | fromEnd distance => rfl
  | fromHere distance => rfl

theorem place_of_resolve {r : FileRange} {target : SeekTarget} {position : Nat}
    (h : r.resolve target = some position) :
    (position : Int) = target.place r.len r.pos ∧ position < countLimit := by
  rw [resolve_eq, Option.ite_none_right_eq_some] at h
  obtain ⟨hrange, heq⟩ := h
  have hposition := Option.some.inj heq
  omega

namespace Follows

variable {content : List UInt8} {capacity start len : Nat} {r : FileRange} {c : Cursor}

/-- The file is moved as far as the position, or not at all. -/
theorem travel (h : Follows content capacity start len r c) (position : Nat) :
    (∃ file, r.travel position = (.ok (), file) ∧
      file.Tracks content capacity offsetLimit (start + position)) ∨
    ∃ e file, r.travel position = (.error e, file) ∧
      file.Tracks content capacity offsetLimit (start + c.pos) := by
  have htarget : ((start + c.pos : Nat) : Int) + ((position : Int) - c.pos)
      = (start + position : Nat) := by omega
  unfold FileRange.travel
  rw [h.pos_eq, h.start_eq]
  dsimp only
  split
  · exact (h.tracks.moveBy htarget).imp_right fun herror => ⟨_, herror⟩
  · split
    · exact (h.tracks.moveTo (start + position)).imp_right fun herror => ⟨_, _, herror, h.tracks⟩
    · exact .inr ⟨_, _, rfl, h.tracks⟩

theorem seek (h : Follows content capacity start len r c) (target : SeekTarget) :
    (∃ position : Nat, (r.seek target).1 = .ok position ∧
      (position : Int) = target.place len c.pos ∧
      Follows content capacity start len (r.seek target).2 { pos := position }) ∨
    ∃ e, (r.seek target).1 = .error e ∧
      Follows content capacity start len (r.seek target).2 { pos := c.pos } := by
  rw [seek_eq]
  cases hresolve : r.resolve target with
  | none => exact .inr ⟨_, rfl, h.stay⟩
  | some position =>
    obtain ⟨hplace, hcount⟩ := place_of_resolve hresolve
    rw [h.len_eq, h.pos_eq] at hplace
    dsimp only
    rcases h.travel position with ⟨file, hok, htracks⟩ | ⟨e, file, herror, htracks⟩
    · rw [hok]
      exact .inl ⟨position, rfl, hplace, h.of_tracks htracks hcount⟩
    · rw [herror]
      exact .inr ⟨e, rfl, h.capacity_pos, htracks, h.start_eq, h.len_eq, h.pos_eq, h.pos_lt,
        Nat.zero_le _, Nat.zero_le _⟩

/-- One call: if it may be made, the answer is right, and the range stays where the cursor is. -/
theorem perform (h : Follows content capacity start len r c) (hle : start + len ≤ content.length)
    (hlen : len < countLimit) {call : CursorCall} (hcall : c.Accepts call) :
    c.Allows ((content.drop start).take len) capacity call (r.perform call).1 ∧
      Follows content capacity start len (r.perform call).2 (c.next call (r.perform call).1) := by
  have hslice := length_take_drop hle
  cases call with
  | read n =>
    obtain ⟨hfront, hshort, hnil, hr⟩ := h.read hle hlen n
    exact ⟨⟨hfront, hshort, by rwa [hslice]⟩, hr⟩
  | fill =>
    obtain ⟨hfront, hshort, hnil, hr⟩ := h.fill hle
    exact ⟨⟨hfront, hshort, by rwa [hslice]⟩, hr⟩
  | consume n =>
    obtain ⟨hok, hr⟩ := h.consume hlen hcall
    rcases hconsume : r.consume n with ⟨answer, r'⟩
    rw [hconsume] at hok hr
    obtain rfl : answer = .ok () := hok
    rw [FileRange.perform, hconsume]
    exact ⟨trivial, hr⟩
  | seek target =>
    rw [FileRange.perform]
    rcases hseek : r.seek target with ⟨answer, r'⟩
    rcases h.seek target with ⟨position, hok, hplace, hr⟩ | ⟨e, herror, hr⟩
    · rw [hseek] at hok hr
      obtain rfl : answer = .ok position := hok
      exact ⟨by rwa [Cursor.Allows, hslice], hr⟩
    · rw [hseek] at herror hr
      obtain rfl : answer = .error e := herror
      exact ⟨trivial, hr⟩

/-- Any sequence of calls. -/
theorem conforms (h : Follows content capacity start len r c) (hle : start + len ≤ content.length)
    (hlen : len < countLimit) (calls : List CursorCall) :
    Conforms ((content.drop start).take len) capacity c r calls := by
  induction calls generalizing r c with
  | nil => exact ⟨h.len_eq.trans (length_take_drop hle).symm, h.pos_eq⟩
  | cons call calls ih =>
    refine ⟨h.len_eq.trans (length_take_drop hle).symm, h.pos_eq, ?_⟩
    intro hcall
    obtain ⟨hallows, hr⟩ := h.perform hle hlen hcall
    exact ⟨hallows, ih hr⟩

end Follows

/-- A range that is opened is where a cursor begins. -/
theorem follows_ofContent (content : List UInt8) (span : Span) {capacity : Nat}
    (hpos : 0 < capacity) (hlt : capacity < offsetLimit) :
    Follows content capacity (span.clamp content.length).start (span.clamp content.length).length
      (ofContent content span capacity) {} :=
  ⟨hpos, BufferedFile.Tracks.of_nil rfl rfl rfl hlt rfl rfl, rfl, rfl, rfl, by decide,
    Nat.zero_le _, Nat.zero_le _⟩

/-- **A range is a cursor over its bytes.** Whatever the file, the span and the capacity of the
buffer, if there is any: a buffer that can be allocated is opened, and any other is a fault.  What
is opened has as many bytes as the file has in the clamped span, is at position zero, and is a
cursor over these bytes through every sequence of calls: reading gives the front of the bytes behind
the position, some as long as there are any, and moves behind them; the same bytes are shown in the
buffer, and may be moved over; a seek answers the new position.  A seek that is refused does not
move it. -/
theorem range_conforms (content : List UInt8) (span : Span) {capacity : Nat} (hpos : 0 < capacity)
    (hspan : span.stop < countLimit) :
    let stop := min span.stop content.length
    let start := min span.start stop
    let s := (content.drop start).take (stop - start)
    (capacity < offsetLimit → ∃ r, openWith (some content) span capacity = .ok r) ∧
    (offsetLimit ≤ capacity → openWith (some content) span capacity = .error (.fault .capacity)) ∧
    ∀ r, openWith (some content) span capacity = .ok r →
      r.start = start ∧ ∀ calls, Conforms s capacity {} r calls := by
  intro stop start s
  unfold openWith
  dsimp only
  rcases Nat.lt_or_ge capacity offsetLimit with hlt | hge
  · rw [if_pos hlt]
    refine ⟨fun _ => ⟨_, rfl⟩, fun hge => absurd hlt (Nat.not_lt.mpr hge), ?_⟩
    intro r hr
    obtain rfl := Except.ok.inj hr
    have hfollows :
        Follows content capacity start (stop - start) (ofContent content span capacity) {} :=
      follows_ofContent content span hpos hlt
    exact ⟨rfl, hfollows.conforms (by omega) (by omega)⟩
  · rw [if_neg (Nat.not_lt.mpr hge)]
    refine ⟨fun hlt => absurd hlt (Nat.not_lt.mpr hge), fun _ => rfl, ?_⟩
    intro r hr
    simp at hr

/-- Five of the ten bytes of a file, through a buffer of three: from the position behind the third
of them no more than two are read, although the file has more. -/
theorem range_conforms_five_bytes :
    let content : List UInt8 := [0, 1, 2, 3, 4, 5, 6, 7, 8, 9]
    let span : Span := { start := 2, stop := 7 }
    0 < 3 ∧ span.stop < countLimit ∧ ∃ r, openWith (some content) span 3 = .ok r ∧
      Conforms [2, 3, 4, 5, 6] 3 {} r [.fill, .consume 1, .seek (.fromHere 2), .read 9] ∧
      r.fill.1 = [2, 3, 4] ∧ ((r.seek (.position 3)).2.read 9).1 = [5, 6] := by
  intro content span
  have hspan : span.stop < countLimit := by decide
  obtain ⟨hopen, -, hconforms⟩ := range_conforms content span (show 0 < 3 by decide) hspan
  obtain ⟨r, hr⟩ := hopen (by decide)
  obtain ⟨-, hcalls⟩ := hconforms r hr
  refine ⟨by decide, hspan, r, hr, hcalls _, ?_, ?_⟩
  · obtain rfl := Except.ok.inj hr
    decide
  · obtain rfl := Except.ok.inj hr
    decide

/-- No buffer is allocated of more bytes than an offset can have, not even for five bytes, and so
there is nothing that could be a cursor over them. -/
theorem range_beyond_limit_wrong :
    let content : List UInt8 := [0, 1, 2, 3, 4, 5, 6, 7, 8, 9]
    let span : Span := { start := 2, stop := 7 }
    0 < offsetLimit ∧ span.stop < countLimit ∧
      openWith (some content) span offsetLimit = .error (.fault .capacity) ∧
      ¬∃ r, openWith (some content) span offsetLimit = .ok r ∧
        ∀ calls, Conforms [2, 3, 4, 5, 6] offsetLimit {} r calls := by
  intro content span
  have hopen : openWith (some content) span offsetLimit = .error (.fault .capacity) := by
    unfold openWith
    exact if_neg (Nat.lt_irrefl offsetLimit)
  refine ⟨by decide, by decide, hopen, ?_⟩
  rintro ⟨r, hr, -⟩
  rw [hopen] at hr
  exact absurd hr (by simp)

end FileRange

end PackedBits
