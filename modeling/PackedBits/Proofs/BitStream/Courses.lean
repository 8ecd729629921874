import PackedBits.Proofs.BitStream.Layout

/-!
# Courses of a reading

Moving to the next word of a marked stream takes up to three calls on the source: whether there is a
next word, that word, and whether there is one behind it.  If calls are refused, and then made again
from where the unpacker has got to, reading takes a `Course` of its own.

If the first or the second call is refused, the word that was read ahead has become the current one
without another taking its place, and it is given out whole twice.  If the third is refused, there
is another in its place, and nothing has happened, unless that is a mark by itself, which then is
taken for a word of bits.  Refusals never lose a bit, and what they add are whole words
(`Course.sublist`, `Course.length_eq`).  They add none exactly if all are third ones, and none is
the last (`Course.eq_iff`).
-/

namespace PackedBits.Unpacker

open Word EndMark Layout

variable {w : Width}

/-- How many calls on the source reading these words takes if none of them is refused: three for
each word with another behind it, and one for a word that is found to be the last by itself. -/
def steadyCalls : List (Word w) → Nat
  | [] => 0
  | [_] => 1
  | _ :: y :: ws =>
    if ws = [] ∧ payloadBits w ≤ decode y then 3 else 3 + steadyCalls (y :: ws)

/-- The ways in which the words `x :: ws` can be read, of which `x` has been read ahead: whether
each of the calls on the source is refused, and the bits that are obtained.  There is one case for
each way in which moving to the next word may turn out. -/
inductive Course : Word w → List (Word w) → List Bool → List Bool → Prop where
  /-- There are no more words, and the one that was read ahead has its own mark. -/
  | last {x : Word w} : Course x [] [false] (x.lowBits (decode x))
  /-- The question for more words is refused: all of the word is given out, and yet it stays
  ahead. -/
  | first {x : Word w} {ws : List (Word w)} {asked bits : List Bool} :
    Course x ws asked bits → Course x ws (true :: asked) (x.bits ++ bits)
  /-- The next word is refused, with the same effect. -/
  | second {x y : Word w} {ws : List (Word w)} {asked bits : List Bool} :
    Course x (y :: ws) asked bits → Course x (y :: ws) (false :: true :: asked) (x.bits ++ bits)
  /-- The question behind the next word is refused: it is ahead now, but may be the last
  unnoticed. -/
  | third {x y : Word w} {ws : List (Word w)} {asked bits : List Bool} :
    Course y ws asked bits →
      Course x (y :: ws) (false :: false :: true :: asked) (x.bits ++ bits)
  /-- Nothing is refused, and the next word has bits of its own. -/
  | onward {x y : Word w} {ws : List (Word w)} {asked bits : List Bool} :
    ¬(ws = [] ∧ payloadBits w ≤ decode y) → Course y ws asked bits →
      Course x (y :: ws) (false :: false :: false :: asked) (x.bits ++ bits)
  /-- Nothing is refused, and the next word has nothing but the mark. -/
  | apart {x y : Word w} :
    payloadBits w ≤ decode y → Course x [y] [false, false, false] (x.lowBits (decode y))

/-- Whether only third calls are refused, and not the one that is the last of a reading without
refusals. -/
def OnlyThird (last : Nat) (asked : List Bool) : Prop :=
  ∀ i, asked[i]? = some true → i % 3 = 2 ∧ i + 1 < last

theorem steadyCalls_pos (x : Word w) (ws : List (Word w)) : 0 < steadyCalls (x :: ws) := by
  cases ws with
  | nil => exact Nat.one_pos
  | cons y ws =>
    rw [steadyCalls]
    split <;> omega

theorem onlyThird_cons_false (last : Nat) (c : Bool) (asked : List Bool) :
    OnlyThird (3 + last) (false :: false :: c :: asked) ↔
      (c = true → 0 < last) ∧ OnlyThird last asked := by
  constructor
  · intro h
    refine ⟨?_, ?_⟩
    · intro hc
      have htwo := h 2 (by simp [hc])
      omega
    · intro i hi
      have hthree := h (i + 3) hi
      omega
  · rintro ⟨hc, h⟩ i hi
    -- the three calls of the first word, and those behind them
    rcases i with _ | _ | _ | i
    · simp at hi
    · simp at hi
    · have hlast := hc (by simpa using hi)
      omega
    · have hthree := h i hi
      omega

/-! ### What refusals add -/

theorem length_bits_append (x : Word w) {bits : List Bool} {m k : Nat}
    (h : bits.length = m + k * w.bits) : (x.bits ++ bits).length = m + (k + 1) * w.bits := by
  rw [List.length_append, length_bits, h, Nat.succ_mul]
  omega

theorem bits_append_ne (x : Word w) {bits bits' : List Bool} (h : bits'.length ≤ bits.length) :
    x.bits ++ bits ≠ bits' := by
  have hpos := w.bits_pos
  intro heq
  have hlen := congrArg List.length heq
  rw [List.length_append, length_bits] at hlen
  omega

namespace Course

variable {x : Word w} {ws : List (Word w)} {asked bits : List Bool}

/-- No bit is lost. -/
theorem sublist (h : Course x ws asked bits) : (validBits (x :: ws)).Sublist bits := by
  induction h with
  | last => exact List.Sublist.refl _
  | first h ih => exact ih.trans (List.sublist_append_right _ _)
  | second h ih => exact ih.trans (List.sublist_append_right _ _)
  | @third x y ws asked bits h ih =>
    rw [validBits_cons_cons]
    split
    · -- the bits of the word that count are the first of it
      rw [← take_lowBits x (decode_le y)]
      exact (List.take_sublist _ _).trans (List.sublist_append_left _ _)
    · exact (List.append_sublist_append_left _).mpr ih
  | @onward x y ws asked bits hmore h ih =>
    rw [validBits_cons_cons, if_neg hmore]
    exact (List.append_sublist_append_left _).mpr ih
  | @apart x y hmark => simp [validBits_cons_cons, hmark]

theorem length_le (h : Course x ws asked bits) : (validBits (x :: ws)).length ≤ bits.length :=
  h.sublist.length_le

/-- What is added are whole words. -/
theorem length_eq (h : Course x ws asked bits) :
    ∃ k, bits.length = (validBits (x :: ws)).length + k * w.bits := by
  induction h with
  | last => exact ⟨0, by simp⟩
  | first h ih =>
    obtain ⟨k, hk⟩ := ih
    exact ⟨k + 1, length_bits_append _ hk⟩
  | second h ih =>
    obtain ⟨k, hk⟩ := ih
    exact ⟨k + 1, length_bits_append _ hk⟩
  | @third x y ws asked bits h ih =>
    obtain ⟨k, hk⟩ := ih
    rw [validBits_cons_cons]
    split
    · -- the mark is taken for a word, and it has as many valid bits as the word before
      rename_i hmark
      obtain ⟨rfl, -⟩ := hmark
      refine ⟨k + 1, length_bits_append _ ?_⟩
      rw [hk, validBits_singleton, length_lowBits, length_lowBits]
    · refine ⟨k, ?_⟩
      rw [List.length_append, List.length_append, hk, Nat.add_assoc]
  | @onward x y ws asked bits hmore h ih =>
    obtain ⟨k, hk⟩ := ih
    refine ⟨k, ?_⟩
    rw [validBits_cons_cons, if_neg hmore, List.length_append, List.length_append, hk,
      Nat.add_assoc]
  | @apart x y hmark => exact ⟨0, by simp [validBits_cons_cons, hmark]⟩

/-- Nothing is added exactly if only third calls are refused, and not the last one. -/
theorem eq_iff (h : Course x ws asked bits) :
    bits = validBits (x :: ws) ↔ OnlyThird (steadyCalls (x :: ws)) asked := by
  induction h with
  | @last x =>
    refine iff_of_true rfl ?_
    intro i hi
    rcases i with _ | i
    · simp at hi
    · simp at hi
  | @first x ws asked bits h ih =>
    -- a word that is given out twice makes too many bits
    refine iff_of_false (bits_append_ne x h.length_le) ?_
    intro honly
    have hzero := honly 0 rfl
    omega
  | @second x y ws asked bits h ih =>
    refine iff_of_false (bits_append_ne x h.length_le) ?_
    intro honly
    have hone := honly 1 rfl
    omega
  | @third x y ws asked bits h ih =>
    rw [validBits_cons_cons, steadyCalls]
    by_cases hmark : ws = [] ∧ payloadBits w ≤ decode y
    · -- the end goes unnoticed, and the mark makes too many bits
      rw [if_pos hmark, if_pos hmark]
      obtain ⟨rfl, -⟩ := hmark
      have hle : (x.lowBits (decode y)).length ≤ bits.length := by
        rw [length_lowBits]
        have hlen := h.length_le
        rwa [validBits_singleton, length_lowBits] at hlen
      refine iff_of_false (bits_append_ne x hle) ?_
      intro honly
      have htwo := honly 2 rfl
      omega
    · -- there was no end to notice
      rw [if_neg hmark, if_neg hmark, List.append_cancel_left_eq, onlyThird_cons_false]
      exact ih.trans ⟨fun honly => ⟨fun _ => steadyCalls_pos y ws, honly⟩, And.right⟩
  | @onward x y ws asked bits hmore h ih =>
    rw [validBits_cons_cons, steadyCalls, if_neg hmore, if_neg hmore, List.append_cancel_left_eq,
      onlyThird_cons_false]
    exact ih.trans ⟨fun honly => ⟨fun hc => absurd hc (by decide), honly⟩, And.right⟩
  | @apart x y hmark =>
    rw [validBits_cons_cons, if_pos ⟨rfl, hmark⟩]
    refine iff_of_true rfl ?_
    intro i hi
    rcases i with _ | _ | _ | i
    · simp at hi
    · simp at hi
    · simp at hi
    · simp at hi

end Course

end PackedBits.Unpacker
