import PackedBits.Proofs.BitStream.Packer
import PackedBits.Proofs.BitStream.Unpacker

/-!
# Reading without a mark

An unbounded unpacker over a row of words gives out the bits of the words one after the other, as
long as there are any.  A call that asks for more bits than are left is refused as a whole: the low
bits of the group, which the last word may still have, are not given out, and neither the unpacker
nor the row has changed.  The bits that are left can therefore still be read by shorter calls.

Whatever the source is, as long as it gives words: the bits that are left are those of the current
word and of the words to come (`Flows S u bs`), and calls for no more than these succeed, since that
is a `View` (`Flows.view`).  `Unread m u bs` says so of the unpacker `u` of a row of `m` words.
That the other calls are refused rests on one fact, that words which have not been fetched make for
at least a word's worth of bits (`Unread.fetched`): no group is longer than that, so only an
unpacker whose row is used up refuses.

Words that a packer wrote without a mark are those of the bits and of zeros up to the end of the
last one (`Layout.joinBits_layout_false`).
-/

namespace PackedBits

open Word Layout

variable {w : Width}

namespace Layout

theorem layout_false (w : Width) (b : List Bool) :
    (layout false b : List (Word w)) = groups (padded w b) ∧ remainder w (padded w b) = [] := by
  rcases Nat.eq_zero_or_pos (b.length % w.bits) with h0 | hpos
  · have hrem : remainder w b = [] := by
      apply List.eq_nil_of_length_eq_zero
      rw [length_remainder, h0]
    rw [padded_of_mod_eq_zero h0]
    exact ⟨by simp [layout, ending, h0], hrem⟩
  · obtain ⟨hgroups, hrem⟩ := groups_padded hpos
    rw [hgroups]
    exact ⟨by simp [layout, ending, Nat.ne_of_gt hpos], hrem⟩

/-- What the words of an unmarked stream stand for: the bits, and zeros that complete the last
word. -/
theorem joinBits_layout_false (w : Width) (b : List Bool) :
    joinBits (layout false b : List (Word w)) = padded w b := by
  obtain ⟨hgroups, hrem⟩ := layout_false w b
  have hjoin := joinBits_groups w (padded w b)
  rwa [hrem, List.append_nil, ← hgroups] at hjoin

theorem length_layout_false (w : Width) (b : List Bool) :
    (layout false b : List (Word w)).length = (b.length + (w.bits - 1)) / w.bits := by
  have hpos := w.bits_pos
  have hzeros := Nat.mod_lt (w.bits - b.length % w.bits) hpos
  have hlen : (layout false b : List (Word w)).length * w.bits
      = b.length + (w.bits - b.length % w.bits) % w.bits := by
    rw [← length_joinBits, joinBits_layout_false, padded, List.length_append,
      List.length_replicate]
  symm
  apply Nat.div_eq_of_lt_le
  · rw [hlen]
    omega
  · rw [Nat.succ_mul, hlen]
    omega

end Layout

namespace Unpacker

/-! ### Words of any source -/

section Flows

variable {σ : Type}

/-- The bits that an unpacker has left whose source gives words as `S` says. -/
structure Flows (S : σ → List (Word w) → Prop) (u : Unpacker .unbounded w σ) (bs : List Bool) :
    Prop where
  pos_le : u.pos ≤ w.bits
  unmarked : u.lastBits? = none
  split : ∃ ws, S u.source ws ∧ bs = u.word.bits.drop u.pos ++ joinBits ws

variable {S : σ → List (Word w) → Prop} {u : Unpacker .unbounded w σ} {bs : List Bool}

theorem flows_openUnbounded [WordSource σ w] {s : σ} {ws : List (Word w)} (h : S s ws) :
    Flows S (openUnbounded s) (joinBits ws) where
  pos_le := Nat.le_refl _
  unmarked := rfl
  split := ⟨ws, h, (drop_bits_self_append 0 (joinBits ws)).symm⟩

namespace Flows

theorem atEnd (h : Flows S u bs) : u.atEnd = false := by
  rw [Unpacker.atEnd, h.unmarked, Option.any_none]

/-- Bits that are not in the current word are in a word that the source still has. -/
theorem advance [WordSource σ w] (hS : SourceView S) (h : Flows S u bs)
    (hn : w.bits - u.pos < bs.length) :
    ∃ u', u.advance = (.ok (), u') ∧ u'.pos = 0 ∧
      u.word >>> u.pos = ofBits (bs.take (w.bits - u.pos)) ∧
      Flows S u' (bs.drop (w.bits - u.pos)) := by
  obtain ⟨ws, hs, rfl⟩ := h.split
  obtain ⟨hlow, hrest⟩ := shiftRight_drop_bits_append u.word u.pos (joinBits ws)
  cases ws with
  | nil =>
    rw [List.length_append, List.length_drop, length_bits] at hn
    exact absurd hn (by simp)
  | cons x ws =>
    obtain ⟨s', hread, hs'⟩ := hS.read hs
    refine ⟨{ u with source := s', word := x, pos := 0 }, ?_, rfl, hlow, Nat.zero_le _, h.unmarked,
      ws, hs', ?_⟩
    · show u.fetch = _
      unfold fetch
      rw [hread]
    · rw [hrest]
      simp

theorem view [WordSource σ w] (hS : SourceView S) : View .unbounded (Flows (w := w) S) where
  pos_le h := h.pos_le
  atEnd h _ := h.atEnd
  group {u bs n} h _ hn hw := by
    obtain ⟨ws, hs, rfl⟩ := h.split
    obtain ⟨hgroup, hrest⟩ := group_drop_bits_append u.word hw (joinBits ws)
    exact ⟨hgroup, hw, h.unmarked, ws, hs, hrest⟩
  advance h hn := h.advance hS hn

end Flows

end Flows

/-! ### Words of a row -/

/-- The bits that an unpacker of a row of `m` words has left. -/
structure Unread (m : Nat) (u : Unpacker .unbounded w (Tape w)) (bs : List Bool) : Prop where
  pos_le : u.pos ≤ w.bits
  unmarked : u.lastBits? = none
  length : u.source.length = m
  place : u.source.pos ≤ m
  split : bs = u.word.bits.drop u.pos ++ joinBits (u.source.words.drop u.source.pos)

theorem unread_iff {m : Nat} {u : Unpacker .unbounded w (Tape w)} {bs : List Bool} :
    Unread m u bs ↔
      Flows (fun t ws => t.length = m ∧ t.pos ≤ t.length ∧ t.words.drop t.pos = ws) u bs := by
  constructor
  · intro h
    exact ⟨h.pos_le, h.unmarked, _, ⟨h.length, h.length ▸ h.place, rfl⟩, h.split⟩
  · intro h
    obtain ⟨ws, ⟨hlen, hle, rfl⟩, hbs⟩ := h.split
    exact ⟨h.pos_le, h.unmarked, hlen, hlen ▸ hle, hbs⟩

theorem unread_of_le {t : Tape w} (ht : t.pos ≤ t.length) :
    Unread t.length (openUnbounded t) (joinBits (t.words.drop t.pos)) :=
  unread_iff.mpr (flows_openUnbounded ⟨rfl, ht, rfl⟩)

theorem unread_openUnbounded (ws : List (Word w)) :
    Unread ws.length (openUnbounded { words := ws }) (joinBits ws) :=
  unread_of_le (t := { words := ws }) (Nat.zero_le _)

namespace Unread

variable {m : Nat} {u : Unpacker .unbounded w (Tape w)} {bs : List Bool}

theorem atEnd (h : Unread m u bs) : u.atEnd = false := by
  rw [Unpacker.atEnd, h.unmarked, Option.any_none]

theorem length_eq (h : Unread m u bs) :
    bs.length = (w.bits - u.pos) + (u.source.words.drop u.source.pos).length * w.bits := by
  rw [h.split, List.length_append, List.length_drop, length_bits, length_joinBits]

/-- An unpacker whose row is used up is refused another word, and stays as it is. -/
theorem advance_error (h : Unread m u bs) (hnil : u.source.words.drop u.source.pos = []) :
    u.advance = (.error (.refused (.endOfWords m)), u) := by
  have hend : u.source.pos = m := by
    have hle := List.drop_eq_nil_iff.mp hnil
    have hlen := h.length
    have hplace := h.place
    unfold Tape.length at hlen
    omega
  have hread := Tape.read_of_length_le (t := u.source) (by rw [h.length, hend])
  show u.fetch = _
  unfold fetch
  simp only [WordSource.read, hread, hend]

/-- If fewer bits are left than a word has, then all words have been fetched. -/
theorem fetched (h : Unread m u bs) (hn : bs.length < w.bits) :
    u.source.words.drop u.source.pos = [] ∧ bs.length = w.bits - u.pos := by
  have hlen := h.length_eq
  cases hdrop : u.source.words.drop u.source.pos with
  | nil =>
    rw [hdrop, List.length_nil, Nat.zero_mul, Nat.add_zero] at hlen
    exact ⟨rfl, hlen⟩
  | cons x ws =>
    rw [hdrop, List.length_cons, Nat.succ_mul] at hlen
    omega

theorem view (w : Width) (m : Nat) : View .unbounded (Unread (w := w) m) := by
  have hsame : Unread (w := w) m = Flows fun t ws =>
      t.length = m ∧ t.pos ≤ t.length ∧ t.words.drop t.pos = ws := by
    ext u bs
    exact unread_iff
  rw [hsame]
  exact Flows.view ((Tape.closedView (fun _ => False) m).sourceView fun _ => id)

/-- A group of more bits than are left. -/
theorem readBits_error (h : Unread m u bs) {n : Nat} (hn : 0 < n ∧ n ≤ w.bits)
    (hfew : bs.length < n) :
    u.readBits n = (.error (.refused (.endOfWords m)), u) := by
  obtain ⟨hnil, hlen⟩ := h.fetched (Nat.lt_of_lt_of_le hfew hn.2)
  have hpos := h.pos_le
  exact readBits_of_advance_error hn h.atEnd hpos (by omega) (h.advance_error hnil)

/-- A call for more bits than are left. -/
theorem make_error (h : Unread m u bs) {c : ReadCall} (hc : c.InRange w)
    (hn : bs.length < c.width) : c.make u = (.error (.refused (.endOfWords m)), u) := by
  obtain ⟨hnil, hlen⟩ := h.fetched (Nat.lt_of_lt_of_le hn hc.width_le)
  have hpos := h.pos_le
  exact make_of_advance_error hc h.atEnd hpos (by omega) (h.advance_error hnil)

/-- Any calls: the bits of those that succeed are taken from the front. -/
theorem run (h : Unread m u bs) {calls : List ReadCall} (hcalls : ∀ c ∈ calls, c.InRange w) :
    (∀ outcome ∈ (ReadCall.run u calls).1, outcome.2 = false) ∧
      ReadCall.bitsRead calls (ReadCall.run u calls).1 ≤ bs.length ∧
      Unread m (ReadCall.run u calls).2
        (bs.drop (ReadCall.bitsRead calls (ReadCall.run u calls).1)) := by
  induction calls generalizing u bs with
  | nil =>
    refine ⟨?_, Nat.zero_le _, h⟩
    intro outcome houtcome
    exact absurd houtcome List.not_mem_nil
  | cons c calls ih =>
    have hrest : ∀ c' ∈ calls, c'.InRange w := fun c' hc' => hcalls c' (List.mem_cons_of_mem c hc')
    have hc := hcalls c List.mem_cons_self
    rcases Nat.lt_or_ge bs.length c.width with hn | hn
    · -- a call that is refused takes nothing, and those behind it go on from here
      have heq := h.make_error hc hn
      obtain ⟨hends, hle, hleft⟩ := ih h hrest
      rw [ReadCall.run_cons heq]
      refine ⟨?_, hle, hleft⟩
      intro outcome houtcome
      rcases List.mem_cons.mp houtcome with rfl | hmem
      · exact h.atEnd
      · exact hends outcome hmem
    · obtain ⟨u', heq, hu'⟩ := (view w m).make h hc hn
      obtain ⟨hends, hle, hleft⟩ := ih hu' hrest
      rw [List.length_drop] at hle
      rw [List.drop_drop] at hleft
      rw [ReadCall.run_cons heq]
      refine ⟨?_, ?_, hleft⟩
      · intro outcome houtcome
        rcases List.mem_cons.mp houtcome with rfl | hmem
        · exact hu'.atEnd
        · exact hends outcome hmem
      · have hsum : c.width + ReadCall.bitsRead calls (ReadCall.run u' calls).1 ≤ bs.length := by
          omega
        exact hsum

end Unread

/-- **Reading words without a mark.** Whatever the words are and whatever has been read, the end is
never reached.  The next call gets the bits behind those read, if the words have as many as it asks
for; if not, it is refused at the end of the row, and unpacker and row are what they were.  Words
that a packer wrote without a mark are as many as the bits need, and have the bits and then
zeros. -/
theorem unbounded_reads (w : Width) :
    (∀ (ws : List (Word w)) (calls : List ReadCall), (∀ c ∈ calls, c.InRange w) →
      let done :=
        ReadCall.run (openUnbounded { words := ws } : Unpacker .unbounded w (Tape w)) calls
      let read := ReadCall.bitsRead calls done.1
      (∀ outcome ∈ done.1, outcome.2 = false) ∧ BitReader.atEnd done.2 = false ∧
      ∀ c : ReadCall, c.InRange w →
        (read + c.width ≤ ws.length * w.bits →
          (c.make done.2).1 = .ok (c.value ((joinBits ws).drop read))) ∧
        (ws.length * w.bits < read + c.width →
          c.make done.2 = (.error (.refused (.endOfWords ws.length)), done.2))) ∧
    ∀ {κ : Type} [WordSink κ w] {s : κ}, Unfailing s → ∀ (calls : List (WriteCall w)),
      (∀ c ∈ calls, c.InRange) → ∀ e : Packer.Closing,
        let b := WriteCall.stream calls
        let ended := (WriteCall.run (Packer.recording w false s) calls).2.finish e
        ended.1 = .ok () ∧ ended.2.words.length = (b.length + (w.bits - 1)) / w.bits ∧
          joinBits ended.2.words = padded w b := by
  constructor
  · intro ws calls hcalls done read
    obtain ⟨hends, hle, hunread⟩ := (unread_openUnbounded ws).run hcalls
    have hleft : Unread ws.length done.2 ((joinBits ws).drop read) := hunread
    have hread : read ≤ (joinBits ws).length := hle
    have hlen : ((joinBits ws).drop read).length = ws.length * w.bits - read := by
      rw [List.length_drop, length_joinBits]
    rw [length_joinBits] at hread
    refine ⟨hends, hleft.atEnd, ?_⟩
    intro c hc
    constructor
    · intro hn
      obtain ⟨u', heq, -⟩ := (Unread.view w ws.length).make hleft hc (by omega)
      rw [heq]
    · intro hn
      exact hleft.make_error hc (by omega)
  · intro κ _ s hs calls hcalls e b ended
    have hwords : ended.2.words = layout false b :=
      Packer.words_finish_run_recording hs false hcalls e
    rw [hwords]
    exact ⟨(Packer.finish_run_recording hs false hcalls e).1, length_layout_false w b,
      joinBits_layout_false w b⟩

/-- Sixteen bits: a group across the two words, one for more than is left, and one for all that
is. -/
theorem unbounded_reads_two_words :
    let done := ReadCall.run
      (openUnbounded { words := [0x96, 0x5a] } : Unpacker .unbounded .w8 (Tape .w8))
      [.bits 5, .bits 6, .bits 8]
    (∀ c ∈ ([.bits 5, .bits 6, .bits 8] : List ReadCall), c.InRange .w8) ∧
      ReadCall.bitsRead [.bits 5, .bits 6, .bits 8] done.1 = 11 ∧
      (ReadCall.make done.2 (.bits 6)) = (.error (.refused (.endOfWords 2)), done.2) ∧
      (ReadCall.make done.2 (.bits 5)).1 = .ok (.bits 0xb) ∧
      Unfailing ({} : WordBuffer .w8) ∧
      joinBits ((WriteCall.run (Packer.recording .w8 false ({} : WordBuffer .w8))
        [.bits 0x16 5]).2.finish .close).2.words
          = [false, true, true, false, true, false, false, false] := by
  intro done
  have hcalls : ∀ c ∈ ([.bits 5, .bits 6, .bits 8] : List ReadCall), c.InRange .w8 := by
    simp [ReadCall.InRange, Width.bits]
  have hread : ReadCall.bitsRead [.bits 5, .bits 6, .bits 8] done.1 = 11 := by rfl
  obtain ⟨hany, hwrote⟩ := unbounded_reads .w8
  obtain ⟨-, -, hnext⟩ := hany [0x96, 0x5a] _ hcalls
  rw [hread] at hnext
  refine ⟨hcalls, hread, ?_, ?_, WordBuffer.unfailing _, ?_⟩
  · exact (hnext (.bits 6) (by decide)).2 (by decide)
  · rw [(hnext (.bits 5) (by decide)).1 (by decide)]
    rfl
  · obtain ⟨-, -, hbits⟩ := hwrote (WordBuffer.unfailing {}) [.bits 0x16 5] (by decide) .close
    rw [hbits]
    rfl

end Unpacker

end PackedBits
