import PackedBits.BitStream.Unpacker
import PackedBits.Proofs.BitStream.Calls
import PackedBits.Proofs.BitStream.Layout
import PackedBits.Proofs.WordStream.Reliable

/-!
# What an unpacker gives out

A marked unpacker over a source that serves any words has some bits left to give out: those valid
bits of its current word that it has not yet given out, and behind them, if the current word is not
known to be the last, the valid bits of the word read ahead and of those left in the source.
`Remains u bs` says that these are `bs`.

At the opening they are the valid bits of all the words (`remains_openMarked`).  Advancing splits
the first word off the valid bits behind the current one (`remains_advance`); this is the only place
where the mark and the end of the source are looked at.  What both do is said for each way in which
the source can answer (`openMarked_of_read`, `advance_of_read`).  A read takes as many bits as it
asks for from the front (`View.readBit`, `View.readBits`): as long as the current word has them they
are those above its position (`Remains.group`), and if it has not, then what it has are the first of
them and there is a next word (`Remains.advance`).  The unpacker is at its end if and only if
nothing is left (`Remains.atEnd`).

Nothing is asked of the words.  Reading to the end gives exactly their valid bits
(`gives_validBits`).
-/

namespace PackedBits.Unpacker

open Word EndMark Layout

variable {w : Width} {σ : Type}

/-- The number of valid bits of the current word. -/
def valid (u : Unpacker .marked w σ) : Nat :=
  u.lastBits?.getD w.bits

variable [WordSource σ w]

/-- The bits that come behind the current word. -/
inductive Behind (u : Unpacker .marked w σ) : List Bool → Prop where
  /-- The current word is the last. -/
  | last {n : Nat} : u.lastBits? = some n → Behind u []
  /-- There are the word read ahead and those left in the source. -/
  | more {ws : List (Word w)} :
    u.lastBits? = none → Serves u.source ws → Behind u (validBits (u.next :: ws))

/-- The bits that are left to give out. -/
structure Remains (u : Unpacker .marked w σ) (bs : List Bool) : Prop where
  pos_le : u.pos ≤ w.bits
  valid_le : u.valid ≤ w.bits
  split : ∃ rest, Behind u rest ∧ bs = (u.word.lowBits u.valid).drop u.pos ++ rest

/-! ### One read

Where the next bit is in the current word, and where it is not and advancing has an answer. -/

section OneRead

variable {mode : EndMode} {u u' : Unpacker mode w σ} {n : Nat} {failure : Failure StreamError}

theorem readBit_of_lt (hend : u.atEnd = false) (hpos : u.pos < w.bits) :
    u.readBit = (.ok (u.word.getLsbD u.pos), { u with pos := u.pos + 1 }) := by
  unfold readBit
  rw [if_neg (by simp [hend])]
  simp only [Nat.not_le.mpr hpos, ↓reduceIte]

theorem readBit_of_advance (hend : u.atEnd = false) (hpos : w.bits ≤ u.pos)
    (h : u.advance = (.ok (), u')) :
    u.readBit = (.ok (u'.word.getLsbD u'.pos), { u' with pos := u'.pos + 1 }) := by
  unfold readBit
  rw [if_neg (by simp [hend])]
  simp only [hpos, ↓reduceIte, h]

theorem readBit_of_advance_error (hend : u.atEnd = false) (hpos : w.bits ≤ u.pos)
    (h : u.advance = (.error failure, u')) : u.readBit = (.error failure, u') := by
  unfold readBit
  rw [if_neg (by simp [hend])]
  simp only [hpos, ↓reduceIte, h]

theorem readBits_of_le (hn : 0 < n ∧ n ≤ w.bits) (hend : u.atEnd = false)
    (hpos : u.pos + n ≤ w.bits) :
    u.readBits n = (.ok (u.word >>> u.pos &&& lowOnes n), { u with pos := u.pos + n }) := by
  have hfit : n ≤ w.bits - u.pos := by omega
  unfold readBits
  rw [if_neg (not_not_intro hn), if_neg (by simp [hend]), if_neg (by omega)]
  simp only [hfit, ↓reduceIte]

theorem readBits_of_advance (hn : 0 < n ∧ n ≤ w.bits) (hend : u.atEnd = false)
    (hpos : u.pos ≤ w.bits) (hcross : w.bits < u.pos + n) (h : u.advance = (.ok (), u')) :
    u.readBits n
      = (.ok (u.word >>> u.pos
          ||| (u'.word &&& lowOnes (n - (w.bits - u.pos))) <<< (w.bits - u.pos)),
        { u' with pos := n - (w.bits - u.pos) }) := by
  have hfit : ¬n ≤ w.bits - u.pos := by omega
  unfold readBits
  rw [if_neg (not_not_intro hn), if_neg (by simp [hend]), if_neg (Nat.not_lt.mpr hpos)]
  simp only [hfit, ↓reduceIte, h]

theorem readBits_of_advance_error (hn : 0 < n ∧ n ≤ w.bits) (hend : u.atEnd = false)
    (hpos : u.pos ≤ w.bits) (hcross : w.bits < u.pos + n)
    (h : u.advance = (.error failure, u')) : u.readBits n = (.error failure, u') := by
  have hfit : ¬n ≤ w.bits - u.pos := by omega
  unfold readBits
  rw [if_neg (not_not_intro hn), if_neg (by simp [hend]), if_neg (Nat.not_lt.mpr hpos)]
  simp only [hfit, ↓reduceIte, h]

/-- Any read that needs the next word, where advancing fails. -/
theorem make_of_advance_error {c : ReadCall} (hc : c.InRange w) (hend : u.atEnd = false)
    (hpos : u.pos ≤ w.bits) (hcross : w.bits < u.pos + c.width)
    (h : u.advance = (.error failure, u')) : c.make u = (.error failure, u') := by
  cases c with
  | bit =>
    have hused : w.bits ≤ u.pos := Nat.le_of_lt_succ hcross
    simp only [ReadCall.make, BitReader.readBit, readBit_of_advance_error hend hused h]
    rfl
  | bits n =>
    simp only [ReadCall.make, BitReader.readBits, readBits_of_advance_error hc hend hpos hcross h]
    rfl

end OneRead

/-! ### Views

What is said of reads below holds of any relation between unpackers and the bits they are still to
give out, as long as these are the bits of the current word and then those of the words behind
it. -/

/-- A relation between unpackers and bits that are left, which taking bits of the current word and
advancing to the next one keep. -/
structure View (mode : EndMode) (R : Unpacker mode w σ → List Bool → Prop) : Prop where
  pos_le {u : Unpacker mode w σ} {bs : List Bool} : R u bs → u.pos ≤ w.bits
  atEnd {u : Unpacker mode w σ} {bs : List Bool} : R u bs → bs ≠ [] → u.atEnd = false
  /-- The bits from the position on are the first of those left. -/
  group {u : Unpacker mode w σ} {bs : List Bool} {n : Nat} :
    R u bs → 0 < n → n ≤ bs.length → u.pos + n ≤ w.bits →
      u.word >>> u.pos &&& lowOnes n = ofBits (bs.take n) ∧
        R { u with pos := u.pos + n } (bs.drop n)
  /-- If more bits are left than the current word has positions for, what it has are the first of
  them and the next word has the others. -/
  advance {u : Unpacker mode w σ} {bs : List Bool} :
    R u bs → w.bits - u.pos < bs.length →
      ∃ u', u.advance = (.ok (), u') ∧ u'.pos = 0 ∧
        u.word >>> u.pos = ofBits (bs.take (w.bits - u.pos)) ∧ R u' (bs.drop (w.bits - u.pos))

namespace View

variable {mode : EndMode} {R : Unpacker mode w σ → List Bool → Prop} {u : Unpacker mode w σ}
  {bs : List Bool} {n : Nat}

theorem head (hR : View mode R) {bit : Bool} (h : R u (bit :: bs)) (hw : u.pos < w.bits) :
    u.word.getLsbD u.pos = bit ∧ R { u with pos := u.pos + 1 } bs := by
  obtain ⟨hvalue, hrest⟩ := hR.group h Nat.one_pos (by simp) hw
  refine ⟨?_, hrest⟩
  have hbit : (u.word >>> u.pos &&& lowOnes 1).getLsbD 0
      = (ofBits ((bit :: bs).take 1) : Word w).getLsbD 0 := by rw [hvalue]
  rw [BitVec.getLsbD_and, BitVec.getLsbD_ushiftRight, getLsbD_lowOnes, getLsbD_ofBits] at hbit
  simpa [w.bits_pos] using hbit

theorem readBit (hR : View mode R) {bit : Bool} (h : R u (bit :: bs)) :
    ∃ u', u.readBit = (.ok bit, u') ∧ R u' bs := by
  have hend := hR.atEnd h (List.cons_ne_nil bit bs)
  rcases Nat.lt_or_ge u.pos w.bits with hpos | hpos
  · obtain ⟨hbit, hrest⟩ := hR.head h hpos
    exact ⟨_, by rw [readBit_of_lt hend hpos, hbit], hrest⟩
  · -- the current word is used up
    have hnone : w.bits - u.pos = 0 := by omega
    obtain ⟨u', hadvance, hpos', -, hu'⟩ := hR.advance h (by simp [hnone])
    rw [hnone, List.drop_zero] at hu'
    obtain ⟨hbit, hrest⟩ := hR.head hu' (by rw [hpos']; exact w.bits_pos)
    exact ⟨_, by rw [readBit_of_advance hend hpos hadvance, hbit], hrest⟩

theorem readBits (hR : View mode R) (h : R u bs) (hrange : 0 < n ∧ n ≤ w.bits)
    (hn : n ≤ bs.length) :
    ∃ u', u.readBits n = (.ok (ofBits (bs.take n)), u') ∧ R u' (bs.drop n) := by
  have hend : u.atEnd = false := by
    apply hR.atEnd h
    rintro rfl
    exact Nat.not_le.mpr hrange.1 hn
  rcases Nat.lt_or_ge w.bits (u.pos + n) with hcross | hfit
  · -- the current word has the low bits of the group, and the next has the high ones
    have hpos := hR.pos_le h
    have hsum : w.bits - u.pos + (n - (w.bits - u.pos)) = n := by omega
    obtain ⟨u', hadvance, hpos', hlow, hu'⟩ := hR.advance h (by omega)
    obtain ⟨hhigh, hrest⟩ := hR.group (n := n - (w.bits - u.pos)) hu' (by omega)
      (by rw [List.length_drop]; omega) (by omega)
    rw [hpos', BitVec.ushiftRight_zero] at hhigh
    rw [hpos', Nat.zero_add, List.drop_drop, hsum] at hrest
    refine ⟨_, ?_, hrest⟩
    rw [readBits_of_advance hrange hend hpos hcross hadvance, hlow, hhigh,
      ofBits_take_eq_or (k := w.bits - u.pos) (n := n) (by omega) (by omega)]
  · obtain ⟨hvalue, hrest⟩ := hR.group h hrange.1 hn hfit
    exact ⟨_, by rw [readBits_of_le hrange hend hfit, hvalue], hrest⟩

/-- Any read of no more bits than are left. -/
theorem make (hR : View mode R) (h : R u bs) {c : ReadCall} (hc : c.InRange w)
    (hn : c.width ≤ bs.length) :
    ∃ u', c.make u = (.ok (c.value bs), u') ∧ R u' (bs.drop c.width) := by
  cases c with
  | bit =>
    cases bs with
    | nil => exact absurd hn (by decide)
    | cons b bs =>
      obtain ⟨u', heq, hu'⟩ := hR.readBit h
      refine ⟨u', ?_, hu'⟩
      simp only [ReadCall.make, BitReader.readBit, heq]
      rfl
  | bits n =>
    obtain ⟨u', heq, hu'⟩ := hR.readBits h hc hn
    refine ⟨u', ?_, hu'⟩
    simp only [ReadCall.make, BitReader.readBits, heq]
    rfl

/-- One read, with the question for the end behind it. -/
theorem perform (hR : View mode R) (h : R u bs) {c : ReadCall} (hc : c.InRange w)
    (hn : c.width ≤ bs.length) :
    (c.perform u).1.1 = .ok (c.value bs) ∧ R (c.perform u).2 (bs.drop c.width) := by
  obtain ⟨u', heq, hu'⟩ := hR.make h hc hn
  rw [ReadCall.perform_of_make heq]
  exact ⟨rfl, hu'⟩

/-- The bits that are left after any history of reads of no more than there are. -/
theorem run (hR : View mode R) (h : R u bs) {calls : List ReadCall}
    (hcalls : ∀ c ∈ calls, c.InRange w) (hn : (calls.map ReadCall.width).sum ≤ bs.length) :
    R (ReadCall.run u calls).2 (bs.drop (calls.map ReadCall.width).sum) := by
  obtain ⟨-, hleft⟩ := runAll_forall₂ ReadCall.takeFrom ReadCall.perform (R := fun bs u => R u bs)
    (Q := fun answer outcome => outcome.1 = answer.1) (fun hu hc => hR.perform hu hc.1 hc.2)
    (ReadCall.admitted_takeFrom hcalls hn) h
  rwa [ReadCall.runAll_takeFrom] at hleft

/-- The outcomes of such a history, where it can be said from the bits that are left whether the end
is reached. -/
theorem run_eq_map_answers (hR : View mode R) (ended : Bool → Bool)
    (hend : ∀ {u bs}, R u bs → u.atEnd = ended bs.isEmpty) (h : R u bs) {calls : List ReadCall}
    (hcalls : ∀ c ∈ calls, c.InRange w) (hn : (calls.map ReadCall.width).sum ≤ bs.length) :
    (ReadCall.run u calls).1
      = (ReadCall.answers bs calls).map fun answer => (answer.1, ended answer.2) := by
  have hmake : ∀ {bs : List Bool} {u : Unpacker mode w σ} {c : ReadCall}, R u bs →
      c.InRange w ∧ c.width ≤ bs.length →
      (.ok (c.value bs), ended (bs.drop c.width).isEmpty) = id (c.perform u).1 ∧
        R (c.perform u).2 (bs.drop c.width) := by
    intro bs u c hu hc
    obtain ⟨houtcome, hu'⟩ := hR.perform hu hc.1 hc.2
    exact ⟨Prod.ext houtcome.symm (hend hu').symm, hu'⟩
  obtain ⟨hanswers, -⟩ := runAll_alike ReadCall.takeFrom ReadCall.perform
    (fun answer => (answer.1, ended answer.2)) id (R := fun bs u => R u bs) hmake
    (ReadCall.admitted_takeFrom hcalls hn) h
  rw [ReadCall.runAll_takeFrom, List.map_id] at hanswers
  exact hanswers.symm

end View

/-! ### Opening and advancing

Both ask the source for its end and for a word, and do what its answers say. -/

section Answers

variable {s s₁ s₂ s₃ : σ} {x : Word w} {failure : Failure StreamError}

theorem openMarked_of_end (hend : WordSource.atEnd s = (.ok true, s₁)) :
    openMarked s = (.ok { source := s₁, lastBits? := some 0 }, s₁) := by
  unfold openMarked
  rw [hend]

theorem openMarked_of_read (hend : WordSource.atEnd s = (.ok false, s₁))
    (hread : WordSource.read s₁ = (.ok x, s₂)) :
    openMarked s = (.ok { source := s₂, next := x }, s₂) := by
  unfold openMarked
  rw [hend]
  simp only [hread]

theorem openMarked_of_read_error (hend : WordSource.atEnd s = (.ok false, s₁))
    (hread : WordSource.read s₁ = (.error failure, s₂)) : openMarked s = (.error failure, s₂) := by
  unfold openMarked
  rw [hend]
  simp only [hread]

variable {u u' : Unpacker .marked w σ}

/-- The two ways in which an opening succeeds. -/
theorem openMarked_eq_ok (h : openMarked s = (.ok u, s₂)) :
    (WordSource.atEnd s = (.ok true, s₂) ∧ u = { source := s₂, lastBits? := some 0 }) ∨
      ∃ s₁ x, WordSource.atEnd s = (.ok false, s₁) ∧ WordSource.read s₁ = (.ok x, s₂) ∧
        u = { source := s₂, next := x } := by
  unfold openMarked at h
  rcases hend : WordSource.atEnd s with ⟨failure | _ | _, s₁⟩
  · simp [hend] at h
  · simp only [hend] at h
    rcases hread : WordSource.read s₁ with ⟨failure | x, s₂⟩
    · simp [hread] at h
    · simp only [hread, Prod.mk.injEq, Except.ok.injEq] at h
      obtain ⟨rfl, rfl⟩ := h
      exact .inr ⟨s₁, x, rfl, hread, rfl⟩
  · simp only [hend, Prod.mk.injEq, Except.ok.injEq] at h
    obtain ⟨rfl, rfl⟩ := h
    exact .inl ⟨rfl, rfl⟩

/-- At first there is no current word. -/
theorem pos_of_openMarked (h : openMarked s = (.ok u, s₂)) : u.pos = w.bits := by
  obtain ⟨-, rfl⟩ | ⟨s₁, x, -, -, rfl⟩ := openMarked_eq_ok h
  · rfl
  · rfl

/-- Behind the last word there is none. -/
theorem advance_of_last {n : Nat} (hlast : u.lastBits? = some n) :
    u.advance = (.error (.fault .pastEnd), u) := by
  show u.shift = _
  unfold shift
  rw [if_pos (by rw [hlast]; rfl)]

theorem lastBits_of_advance (h : u.advance = (.ok (), u')) : u.lastBits? = none := by
  cases hlast : u.lastBits? with
  | none => rfl
  | some n =>
    rw [advance_of_last hlast] at h
    simp at h

/-- The word read ahead is the last, and carries its own mark. -/
theorem advance_of_end (hlast : u.lastBits? = none)
    (hend : WordSource.atEnd u.source = (.ok true, s₁)) :
    u.advance = (.ok (), { u with source := s₁, word := u.next, pos := 0,
                                  lastBits? := some (decode u.next) }) := by
  show u.shift = _
  unfold shift
  rw [if_neg (by rw [hlast]; decide)]
  simp only [hend]

/-- There is a word behind the one read ahead. It may be the last, with nothing but a mark. -/
theorem advance_of_read {ended : Bool} (hlast : u.lastBits? = none)
    (hend : WordSource.atEnd u.source = (.ok false, s₁)) (hread : WordSource.read s₁ = (.ok x, s₂))
    (hend' : WordSource.atEnd s₂ = (.ok ended, s₃)) :
    u.advance = (.ok (), { u with
      source := s₃, word := u.next, next := x, pos := 0,
      lastBits? :=
        if ended = true ∧ payloadBits w ≤ decode x then some (decode x) else none }) := by
  show u.shift = _
  unfold shift
  rw [if_neg (by rw [hlast]; decide)]
  simp only [hend, hread, hend']
  cases ended with
  | false => simp [hlast]
  | true =>
    by_cases hmark : payloadBits w ≤ decode x
    · simp [hmark]
    · simp [hmark, hlast]

/-- The word behind the one read ahead cannot be read. -/
theorem advance_of_read_error (hlast : u.lastBits? = none)
    (hend : WordSource.atEnd u.source = (.ok false, s₁))
    (hread : WordSource.read s₁ = (.error failure, s₂)) :
    u.advance = (.error failure, { u with source := s₂, word := u.next, pos := 0 }) := by
  show u.shift = _
  unfold shift
  rw [if_neg (by rw [hlast]; decide)]
  simp only [hend, hread]

end Answers

/-- A source that serves words is opened, and their valid bits are what is left. -/
theorem remains_openMarked {s : σ} {ws : List (Word w)} (hs : Serves s ws) :
    ∃ u t, openMarked s = (.ok u, t) ∧ Remains u (validBits ws) := by
  obtain ⟨s₁, hend, hs₁⟩ := hs.atEnd
  cases ws with
  | nil =>
    refine ⟨_, s₁, openMarked_of_end hend, Nat.le_refl _, Nat.zero_le _, [], .last rfl, ?_⟩
    simp [valid, lowBits]
  | cons x ws =>
    obtain ⟨s₂, hread, hs₂⟩ := hs₁.read
    exact ⟨_, s₂, openMarked_of_read hend hread, Nat.le_refl _, Nat.le_refl _, _, .more rfl hs₂,
      (drop_bits_self_append 0 _).symm⟩

/-- The next word becomes the current one, with all that is known about the end. -/
theorem remains_advance {u : Unpacker .marked w σ} {ws : List (Word w)} (hlast : u.lastBits? = none)
    (hs : Serves u.source ws) :
    ∃ u', u.advance = (.ok (), u') ∧ u'.pos = 0 ∧ Remains u' (validBits (u.next :: ws)) := by
  obtain ⟨s₁, hend₁, hs₁⟩ := hs.atEnd
  cases ws with
  | nil =>
    -- the word carries its own mark
    exact ⟨_, advance_of_end hlast hend₁, rfl, Nat.zero_le _, decode_le u.next, [], .last rfl,
      by simp [valid]⟩
  | cons y ws =>
    obtain ⟨s₂, hread, hs₂⟩ := hs₁.read
    obtain ⟨s₃, hend₃, hs₃⟩ := hs₂.atEnd
    refine ⟨_, advance_of_read hlast hend₁ hread hend₃, rfl, ?_⟩
    rw [validBits_cons_cons]
    simp only [List.isEmpty_iff]
    by_cases hmark : ws = [] ∧ payloadBits w ≤ decode y
    · -- the word behind carries nothing but the mark
      rw [if_pos hmark, if_pos hmark]
      exact ⟨Nat.zero_le _, decode_le y, [], .last rfl, by simp [valid]⟩
    · rw [if_neg hmark, if_neg hmark]
      exact ⟨Nat.zero_le _, Nat.le_refl _, _, .more rfl hs₃, by simp [valid, bits]⟩

namespace Remains

variable {u : Unpacker .marked w σ} {bs : List Bool} {n : Nat}

/-! ### The bits of the current word -/

/-- The end is reached when nothing is left. -/
theorem atEnd (h : Remains u bs) : u.atEnd = bs.isEmpty := by
  obtain ⟨rest, hrest, rfl⟩ := h.split
  cases hrest with
  | last hlast =>
    rw [List.append_nil, Unpacker.atEnd, hlast, Option.any_some, Bool.eq_iff_iff,
      decide_eq_true_iff, List.isEmpty_iff, List.drop_eq_nil_iff, length_lowBits, valid, hlast,
      Option.getD_some]
  | @more ws hlast hs =>
    rw [Unpacker.atEnd, hlast, Option.any_none, eq_comm, List.isEmpty_eq_false_iff]
    exact List.append_ne_nil_of_right_ne_nil _ (validBits_ne_nil (List.cons_ne_nil u.next ws))

/-- Bits that are left, and that the current word has the positions for, are among its valid
bits. -/
theorem add_le_valid (h : Remains u bs) (hpos : 0 < n) (hn : n ≤ bs.length)
    (hw : u.pos + n ≤ w.bits) : u.pos + n ≤ u.valid := by
  obtain ⟨rest, hrest, rfl⟩ := h.split
  cases hrest with
  | last hlast =>
    rw [List.append_nil, List.length_drop, length_lowBits] at hn
    omega
  | more hlast hs =>
    unfold valid
    rw [hlast]
    exact hw

/-- These bits are the first of those left, and when they have been given out the others are
left. -/
theorem drop (h : Remains u bs) (hn : u.pos + n ≤ u.valid) :
    bs.take n = ((u.word.lowBits u.valid).drop u.pos).take n ∧
      Remains { u with pos := u.pos + n } (bs.drop n) := by
  have hvalid := h.valid_le
  obtain ⟨rest, hrest, rfl⟩ := h.split
  have hlen : n ≤ ((u.word.lowBits u.valid).drop u.pos).length := by
    rw [List.length_drop, length_lowBits]
    omega
  refine ⟨List.take_append_of_le_length hlen, Nat.le_trans hn hvalid, hvalid, rest, ?_, ?_⟩
  · cases hrest with
    | last hlast => exact .last hlast
    | more hlast hs => exact .more hlast hs
  · rw [List.drop_append_of_le_length hlen, List.drop_drop]
    rfl

/-- A group of bits of the current word. -/
theorem group (h : Remains u bs) (hpos : 0 < n) (hn : n ≤ bs.length) (hw : u.pos + n ≤ w.bits) :
    u.word >>> u.pos &&& lowOnes n = ofBits (bs.take n) ∧
      Remains { u with pos := u.pos + n } (bs.drop n) := by
  have hle := h.add_le_valid hpos hn hw
  obtain ⟨htake, hrest⟩ := h.drop hle
  refine ⟨?_, hrest⟩
  rw [htake, ofBits_take_drop_lowBits u.word hle]

/-- If more bits are left than the current word has positions for, it is not the last word.  What is
above its position are the first of the bits left, and the next word has the others. -/
theorem advance (h : Remains u bs) (hn : w.bits - u.pos < bs.length) :
    ∃ u', u.advance = (.ok (), u') ∧ u'.pos = 0 ∧
      u.word >>> u.pos = ofBits (bs.take (w.bits - u.pos)) ∧
      Remains u' (bs.drop (w.bits - u.pos)) := by
  obtain ⟨rest, hrest, rfl⟩ := h.split
  cases hrest with
  | last hlast =>
    have hvalid := h.valid_le
    rw [List.append_nil, List.length_drop, length_lowBits] at hn
    omega
  | more hlast hs =>
    have hall : u.word.lowBits u.valid = u.word.bits := by
      unfold valid
      rw [hlast]
      rfl
    obtain ⟨u', hadvance, hpos', hu'⟩ := remains_advance hlast hs
    obtain ⟨hlow, hrest⟩ := shiftRight_drop_bits_append u.word u.pos (validBits (u.next :: _))
    rw [hall, hrest]
    exact ⟨u', hadvance, hpos', hlow, hu'⟩

/-! ### Reads -/

theorem view : View .marked (Remains (w := w) (σ := σ)) where
  pos_le h := h.pos_le
  atEnd h hne := by
    rw [h.atEnd, List.isEmpty_eq_false_iff]
    exact hne
  group h := h.group
  advance h := h.advance

/-- Any history of reads of no more bits than are left. -/
theorem run (h : Remains u bs) {calls : List ReadCall} (hcalls : ∀ c ∈ calls, c.InRange w)
    (hn : (calls.map ReadCall.width).sum ≤ bs.length) :
    (ReadCall.run u calls).1 = ReadCall.answers bs calls := by
  exact (view.run_eq_map_answers id (fun hu => hu.atEnd) h hcalls hn).trans (List.map_id _)

/-- Reading bit by bit stops behind the last of those left, and not before unless it was asked
to. -/
theorem readUpTo (h : Remains u bs) (max : Nat) :
    (BitReader.readUpTo u max).1
      = (bs.take max, if max ≤ bs.length then .enough else .atEnd) := by
  induction max generalizing u bs with
  | zero => rfl
  | succ max ih =>
    have hend : BitReader.atEnd u = bs.isEmpty := h.atEnd
    rw [BitReader.readUpTo, hend]
    cases bs with
    | nil => rfl
    | cons b bs =>
      obtain ⟨u', heq, hu'⟩ := view.readBit h
      have hread : BitReader.readBit u = (.ok b, u') := heq
      simp only [List.isEmpty_cons, Bool.false_eq_true, ↓reduceIte, hread, ih hu',
        List.take_succ_cons, List.length_cons, Nat.add_le_add_iff_right]

end Remains

/-! ### Reading to the end -/

/-- Whether a source opens, and reading bit by bit gives the bits `bs` and then finds the end:
whatever the greatest number of bits asked for, as many of them are given as there are, and the end
is what stops the reading if more are asked for. -/
def Gives (s : σ) (bs : List Bool) : Prop :=
  ∃ (u : Unpacker .marked w σ) (t : σ), openMarked s = (.ok u, t) ∧
    ∀ max, (BitReader.readUpTo u max).1
      = (bs.take max, if max ≤ bs.length then .enough else .atEnd)

/-- A source that serves words gives their valid bits. -/
theorem Gives.of_serves {s : σ} {ws : List (Word w)} (hs : Serves s ws) :
    Gives s (validBits ws) := by
  obtain ⟨u, t, heq, hu⟩ := remains_openMarked hs
  exact ⟨u, t, heq, hu.readUpTo⟩

/-- No source gives two streams. -/
theorem Gives.unique {s : σ} {bs bs' : List Bool} (h : Gives s bs) (h' : Gives s bs') :
    bs = bs' := by
  obtain ⟨u, t, hopen, hread⟩ := h
  obtain ⟨u', t', hopen', hread'⟩ := h'
  rw [hopen, Prod.mk.injEq, Except.ok.injEq] at hopen'
  obtain ⟨rfl, -⟩ := hopen'
  have hall := (hread (bs.length + bs'.length)).symm.trans (hread' (bs.length + bs'.length))
  rw [Prod.mk.injEq, List.take_of_length_le (by omega), List.take_of_length_le (by omega)] at hall
  exact hall.1

/-- **Any words can be read to the end.** Whatever the words are, in memory or made of their bytes,
they are opened, and read bit by bit up to the end they give exactly their valid bits. -/
theorem gives_validBits (ws : List (Word w)) :
    Gives ({ words := ws } : Tape w) (validBits ws) ∧
      Gives (AssembledWords.ofBytes (ws.flatMap toBytes) : AssembledWords w) (validBits ws) := by
  refine ⟨.of_serves (Tape.serves ws), ?_⟩
  have hbytes := AssembledWords.serves ws [] w.bytes_pos
  rw [List.append_nil] at hbytes
  exact .of_serves hbytes

end PackedBits.Unpacker
