import PackedBits.BitStream.Packer
import PackedBits.Proofs.BitStream.Calls
import PackedBits.Proofs.BitStream.Layout
import PackedBits.Proofs.WordStream.Reliable

/-!
# What a packer passes to its sink

A packer over a sink that does not fail is determined by the bits `b` that were written: the sink
has the groups of `b`, the word being filled has the remainder, and the position is its length.
This is the invariant `Packer.Packs`, which every call keeps, with `b` extended as
`WriteCall.extend` says (`Packs.make`), and hence every history of calls (`Packs.run`).  A call asks
the sink at most once, so a sink that may fail decides by one answer what becomes of it
(`Packs.make_asksOnce`).

Both ways of writing come down to putting some bits `c` above those of the current word.  Where
these leave room nothing else happens (`Packs.put`); where they fill up the word it is emitted, and
what it had no room for begins the next one (`Packs.put_full`).

Closing lays out the end of the stream.  After any history the sink has been given exactly the words
of `layout marked b`, and then one flush (`Packs.close`), by whichever of its three ways the packer
is `finish`ed.
-/

namespace PackedBits.Packer

open Word EndMark Layout

variable {w : Width} {κ : Type}

/-! ### What a packer holds -/

/-- What a packer has got of the bits `b`, with a sink that has been called as `R` says. -/
structure Holds (R : κ → List (SinkCall w) → Prop) (b : List Bool) (p : Packer w κ) : Prop where
  word : p.word = ofBits (remainder w b)
  pos : p.pos = b.length % w.bits
  emitted : p.emitted = true ↔ (groups b : List (Word w)) ≠ []
  sink : R p.sink ((groups b).map .write)

/-- An open packer that has got the bits `b`, of which `n` were written. -/
structure Packs (R : κ → List (SinkCall w) → Prop) (marked : Bool) (b : List Bool) (n : Nat)
    (p : Packer w κ) : Prop extends Holds R b p where
  closed : p.closed = false
  strict : p.strict = false
  marked : p.marked = marked
  written : p.written = n

variable {R : κ → List (SinkCall w) → Prop} {marked : Bool} {b : List Bool} {n : Nat}
  {p : Packer w κ}

theorem Holds.pos_lt (h : Holds R b p) : p.pos < w.bits := by
  rw [h.pos]
  exact Nat.mod_lt _ w.bits_pos

theorem Holds.length_remainder (h : Holds R b p) : (remainder w b).length = p.pos := by
  rw [Word.length_remainder, h.pos]

theorem Holds.word_or (h : Holds R b p) (c : List Bool) :
    p.word ||| ofBits c <<< p.pos = ofBits (remainder w b ++ c) := by
  rw [ofBits_append, h.word, h.length_remainder]

/-- Zeros up to the end of the current word, where the sink takes it. -/
theorem Holds.pad (h : Holds R b p) (hpos : 0 < p.pos) {s' : κ}
    (hs' : R s' ((groups b).map .write ++ [.write p.word])) :
    Holds R (padded w b) { p with sink := s', word := 0, pos := 0, emitted := true } := by
  obtain ⟨hgroups, hrem⟩ := groups_padded (h.pos ▸ hpos)
  exact
    { word := by rw [hrem, ofBits_nil]
      pos := by rw [← Word.length_remainder, hrem, List.length_nil]
      emitted := by simp [hgroups]
      sink := by
        rw [hgroups, List.map_append, List.map_cons, List.map_nil, ← h.word]
        exact hs' }

/-- A packer that has got any bits can tell. -/
theorem Holds.begun (h : Holds R b p) (hb : b ≠ []) : 0 < p.pos ∨ p.emitted = true := by
  rcases Nat.eq_zero_or_pos p.pos with h0 | hpos
  · right
    rw [h.emitted]
    intro hgroups
    exact hb (eq_nil_of_groups_eq_nil hgroups (by rw [← h.pos, h0]))
  · exact Or.inl hpos

theorem packs_new {s : κ} (h : R s []) (marked : Bool) :
    Packs R marked [] 0 ({ sink := s, marked } : Packer w κ) where
  word := by simp [remainder]
  pos := by simp
  emitted := by simp
  sink := by rwa [groups_nil]
  closed := rfl
  strict := rfl
  marked := rfl
  written := rfl

namespace Packs

/-- Bits that leave room in the current word. -/
theorem put (h : Packs R marked b n p) {c : List Bool} (k : Nat)
    (hroom : p.pos + c.length < w.bits) :
    Packs R marked (b ++ c) (n + k)
      { p with word := p.word ||| ofBits c <<< p.pos, pos := p.pos + c.length,
               written := p.written + k } := by
  have hlt : b.length % w.bits + c.length < w.bits := by rwa [← h.pos]
  obtain ⟨hgroups, hrem⟩ := groups_append hlt
  have hlen : (b ++ c).length % w.bits = p.pos + c.length := by
    rw [← Word.length_remainder, hrem, List.length_append, h.length_remainder]
  exact
    { word := by rw [hrem]; exact h.word_or c
      pos := hlen.symm
      emitted := by
        rw [hgroups]
        exact h.emitted
      sink := by
        rw [hgroups]
        exact h.sink
      closed := h.closed
      strict := h.strict
      marked := h.marked
      written := congrArg (· + k) h.written }

theorem groups_put_full (h : Packs R marked b n p) {c : List Bool}
    (hfull : w.bits ≤ p.pos + c.length) (hc : c.length ≤ w.bits) :
    (groups (b ++ c) : List (Word w)) = groups b ++ [p.word ||| ofBits c <<< p.pos] := by
  rw [h.pos] at hfull
  rw [(groups_append_full hfull hc).1, h.word_or]

/-- Bits that fill up the current word, where the sink takes it. -/
theorem put_full (h : Packs R marked b n p) {c : List Bool} (k : Nat) {s' : κ}
    (hfull : w.bits ≤ p.pos + c.length) (hc : c.length ≤ w.bits)
    (hs' : R s' ((groups b).map .write ++ [.write (p.word ||| ofBits c <<< p.pos)])) :
    Packs R marked (b ++ c) (n + k)
      { p with sink := s', word := ofBits (c.drop (w.bits - p.pos)),
               pos := c.length - (w.bits - p.pos), written := p.written + k, emitted := true } := by
  have hle : w.bits ≤ b.length % w.bits + c.length := by rwa [← h.pos]
  obtain ⟨hgroups, hrem⟩ := groups_append_full hle hc
  rw [← h.pos] at hrem
  exact
    { word := by rw [hrem]
      pos := by rw [← Word.length_remainder, hrem, List.length_drop]
      emitted := by simp [hgroups]
      sink := by
        -- the word that is emitted is the group that `b` was missing
        rw [hgroups, List.map_append, List.map_cons, List.map_nil, ← h.word_or c]
        exact hs'
      closed := h.closed
      strict := h.strict
      marked := h.marked
      written := congrArg (· + k) h.written }

end Packs

/-! ### Emitting -/

variable [WordSink κ w]

theorem emit_of_ok {s' : κ} (h : WordSink.write p.sink p.word = (.ok (), s')) :
    p.emit = (.ok (), { p with sink := s', word := 0, pos := 0, emitted := true }) := by
  unfold emit
  rw [h]

theorem emit_of_error {s' : κ} {failure : Failure StreamError}
    (h : WordSink.write p.sink p.word = (.error failure, s')) :
    p.emit = (.error failure, { p with sink := s' }) := by
  unfold emit
  rw [h]

theorem emit_eq_ok_iff {q : Packer w κ} :
    p.emit = (.ok (), q) ↔ ∃ s', WordSink.write p.sink p.word = (.ok (), s') ∧
      q = { p with sink := s', word := 0, pos := 0, emitted := true } := by
  rcases hwrite : WordSink.write p.sink p.word with ⟨failure | _, s'⟩
  · simp [emit_of_error hwrite]
  · simp [emit_of_ok hwrite, eq_comm]

theorem emit_eq_error {q : Packer w κ} {failure : Failure StreamError}
    (h : p.emit = (.error failure, q)) :
    WordSink.write p.sink p.word = (.error failure, q.sink) ∧ q.written = p.written := by
  rcases hwrite : WordSink.write p.sink p.word with ⟨failure' | _, s'⟩
  · rw [emit_of_error hwrite, Prod.mk.injEq, Except.error.injEq] at h
    obtain ⟨rfl, rfl⟩ := h
    exact ⟨rfl, rfl⟩
  · simp [emit_of_ok hwrite] at h

/-- A sink that does not fail takes the word. -/
theorem emit_ok (hR : SinkView R) {calls : List (SinkCall w)} (h : R p.sink calls) :
    ∃ s', R s' (calls ++ [.write p.word]) ∧
      p.emit = (.ok (), { p with sink := s', word := 0, pos := 0, emitted := true }) := by
  obtain ⟨s', heq, hs'⟩ := hR.write p.word h
  exact ⟨s', hs', emit_of_ok heq⟩

@[simp] theorem emit_closed (p : Packer w κ) : p.emit.2.closed = p.closed := by
  unfold emit
  split <;> rfl

/-! ### One write

What a write to an open packer does: where the bits leave room in the current word, and where they
fill it up and the sink takes the word or refuses it. -/

section OneWrite

variable {s' : κ} {failure : Failure StreamError} {bit : Bool} {x : Word w} {k : Nat}

omit [WordSink κ w] in
theorem word_or_bit (p : Packer w κ) (bit : Bool) :
    (if bit then p.word ||| BitVec.twoPow w.bits p.pos else p.word)
      = p.word ||| ofBits [bit] <<< p.pos := by
  apply BitVec.eq_of_getLsbD_eq
  intro i hi
  cases bit with
  | false => simp [ofBits_singleton]
  | true => simp [ofBits_singleton, BitVec.twoPow_eq]

theorem writeBit_of_lt (hopen : p.closed = false) (hpos : p.pos < w.bits) :
    p.writeBit bit =
      let q : Packer w κ := { p with word := p.word ||| ofBits [bit] <<< p.pos, pos := p.pos + 1,
                                     written := p.written + 1 }
      if p.pos + 1 = w.bits then q.emit else (.ok (), q) := by
  have hbit : ¬(bit = true ∧ w.bits ≤ p.pos) := fun hb => Nat.not_le.mpr hpos hb.2
  unfold Packer.writeBit
  rw [if_neg (Bool.eq_false_iff.mp hopen), if_neg hbit, word_or_bit]

theorem writeBits_of_room (hopen : p.closed = false)
    (hvalue : ¬(p.strict = true ∧ x &&& ~~~lowOnes k ≠ 0)) (hk : 0 < k ∧ k ≤ w.bits)
    (hroom : p.pos + k < w.bits) :
    p.writeBits x k = (.ok k, { p with word := p.word ||| ofBits (x.lowBits k) <<< p.pos,
                                       pos := p.pos + k, written := p.written + k }) := by
  have hfit : k < w.bits - p.pos := by omega
  unfold Packer.writeBits
  -- none of the faults: the range, a closed packer, the value, and a word without room
  rw [if_neg (not_not_intro hk), if_neg (Bool.eq_false_iff.mp hopen), if_neg hvalue,
    if_neg (by omega), if_neg (by omega), ← ofBits_lowBits]
  simp only [hfit, ↓reduceIte]

theorem writeBits_of_full (hopen : p.closed = false)
    (hvalue : ¬(p.strict = true ∧ x &&& ~~~lowOnes k ≠ 0)) (hk : 0 < k ∧ k ≤ w.bits)
    (hpos : p.pos < w.bits) (hfull : w.bits ≤ p.pos + k) :
    p.writeBits x k =
      match { p with word := p.word ||| ofBits (x.lowBits k) <<< p.pos,
                     written := p.written + k : Packer w κ }.emit with
      | (.error failure, q) => (.error failure, q)
      | (.ok _, q) => (.ok k, { q with word := ofBits ((x.lowBits k).drop (w.bits - p.pos)),
                                       pos := k - (w.bits - p.pos) }) := by
  have hfit : ¬k < w.bits - p.pos := by omega
  have hlen := length_lowBits x k
  unfold Packer.writeBits
  rw [if_neg (not_not_intro hk), if_neg (Bool.eq_false_iff.mp hopen), if_neg hvalue,
    if_neg (by omega), if_neg (by omega), ← ofBits_lowBits]
  simp only [hfit, ↓reduceIte]
  unfold emit
  rcases WordSink.write p.sink (p.word ||| ofBits (x.lowBits k) <<< p.pos) with ⟨failure | _, s⟩
  · rfl
  · dsimp only
    by_cases hrest : w.bits - p.pos < k
    · rw [if_pos hrest, ofBits_drop (by rw [hlen]; exact hk.2)]
    · -- the group ends where the word does
      have hnone : (x.lowBits k).drop (w.bits - p.pos) = [] :=
        List.drop_eq_nil_of_le (by rw [hlen]; omega)
      have hpos' : k - (w.bits - p.pos) = 0 := by omega
      rw [if_neg hrest, hnone, hpos', ofBits_nil]

/-- The ways in which a write of a group turns out, whatever the packer is like. -/
inductive Writes (p : Packer w κ) (x : Word w) (k : Nat) :
    Outcome StreamError Nat × Packer w κ → Prop where
  /-- The width is out of range. -/
  | range : ¬(0 < k ∧ k ≤ w.bits) → Writes p x k (.error (.fault (.writeWidth w.bits k)), p)
  /-- The packer is closed. -/
  | closed : p.closed = true → Writes p x k (.error (.fault .closed), p)
  /-- The packer is strict, and the value does not fit. -/
  | excess : 0 < k ∧ k ≤ w.bits → p.closed = false → p.strict = true → x &&& ~~~lowOnes k ≠ 0 →
    Writes p x k (.error (.fault (.excessBits x.toNat k)), p)
  /-- There is no place for the group. -/
  | beyond {op : Arithmetic} : w.bits ≤ p.pos → Writes p x k (.error (.fault (.overflow op)), p)
  /-- The bits are in the word, or it has been taken with the first of them. -/
  | done {q : Packer w κ} : 0 < k → q.written = p.written + k →
    q.sink = p.sink ∨ (∃ y, WordSink.write p.sink y = (.ok (), q.sink)) → Writes p x k (.ok k, q)
  /-- The sink has failed. -/
  | lost {y : Word w} {failure : Failure StreamError} {q : Packer w κ} :
    0 < k → q.written = p.written + k →
    WordSink.write p.sink y = (.error failure, q.sink) → Writes p x k (.error failure, q)

theorem writes (p : Packer w κ) (x : Word w) (k : Nat) : Writes p x k (p.writeBits x k) := by
  by_cases hk : 0 < k ∧ k ≤ w.bits
  · cases hclosed : p.closed with
    | true =>
      unfold Packer.writeBits
      rw [if_neg (not_not_intro hk), if_pos hclosed]
      exact .closed hclosed
    | false =>
      by_cases hvalue : p.strict = true ∧ x &&& ~~~lowOnes k ≠ 0
      · unfold Packer.writeBits
        rw [if_neg (not_not_intro hk), if_neg (Bool.eq_false_iff.mp hclosed), if_pos hvalue]
        exact .excess hk hclosed hvalue.1 hvalue.2
      · rcases Nat.lt_or_ge p.pos w.bits with hpos | hpos
        · by_cases hroom : p.pos + k < w.bits
          · rw [writeBits_of_room hclosed hvalue hk hroom]
            exact .done hk.1 rfl (.inl rfl)
          · rw [writeBits_of_full hclosed hvalue hk hpos (Nat.not_lt.mp hroom)]
            rcases hwrite :
                WordSink.write p.sink (p.word ||| ofBits (x.lowBits k) <<< p.pos)
              with ⟨failure | _, s⟩
            · rw [emit_of_error (by exact hwrite)]
              exact .lost hk.1 rfl hwrite
            · rw [emit_of_ok (by exact hwrite)]
              exact .done hk.1 rfl (.inr ⟨_, hwrite⟩)
        · unfold Packer.writeBits
          rw [if_neg (not_not_intro hk), if_neg (Bool.eq_false_iff.mp hclosed), if_neg hvalue]
          rcases Nat.lt_or_eq_of_le hpos with hlt | heq
          · rw [if_pos hlt]
            exact .beyond hpos
          · rw [if_neg (by omega), if_pos heq.symm]
            exact .beyond hpos
  · unfold Packer.writeBits
    rw [if_pos hk]
    exact .range hk

end OneWrite

/-! ### One call -/

/-- How a call turns out that makes the bits `b'` of the bits `b`: it fills up no word, or it fills
up one and fares as the sink does that is asked to take it. -/
def AsksOnce {α : Type} (R : κ → List (SinkCall w) → Prop) (marked : Bool) (b b' : List Bool)
    (n : Nat) (p : Packer w κ) (value : α) (made : Outcome StreamError α × Packer w κ) : Prop :=
  ((groups b' : List (Word w)) = groups b ∧ ∃ p', made = (.ok value, p') ∧ Packs R marked b' n p') ∨
    ∃ x : Word w, groups b' = groups b ++ [x] ∧
      (∀ s', WordSink.write p.sink x = (.ok (), s') →
        R s' ((groups b).map .write ++ [.write x]) →
          ∃ p', made = (.ok value, p') ∧ Packs R marked b' n p') ∧
      ∀ failure s', WordSink.write p.sink x = (.error failure, s') →
        ∃ p', made = (.error failure, p') ∧ p'.sink = s'

theorem AsksOnce.map {α β : Type} {b' : List Bool} {value : α}
    {made : Outcome StreamError α × Packer w κ} (h : AsksOnce R marked b b' n p value made)
    (f : α → β) : AsksOnce R marked b b' n p (f value) (made.1.map f, made.2) := by
  rcases h with ⟨hgroups, p', rfl, hp'⟩ | ⟨x, hgroups, hok, herror⟩
  · exact .inl ⟨hgroups, p', rfl, hp'⟩
  · refine .inr ⟨x, hgroups, ?_, ?_⟩
    · intro s' hwrite hs'
      obtain ⟨p', rfl, hp'⟩ := hok s' hwrite hs'
      exact ⟨p', rfl, hp'⟩
    · intro failure s' hwrite
      obtain ⟨p', rfl, hp'⟩ := herror failure s' hwrite
      exact ⟨p', rfl, hp'⟩

namespace Packs

theorem writeBit (h : Packs R marked b n p) (bit : Bool) :
    AsksOnce R marked b (b ++ [bit]) (n + 1) p () (p.writeBit bit) := by
  have hpos := h.pos_lt
  rw [writeBit_of_lt h.closed hpos]
  by_cases hfull : p.pos + 1 = w.bits
  · -- nothing is left over
    have hspace : w.bits - p.pos = 1 := by omega
    have hle : w.bits ≤ p.pos + [bit].length := by simp; omega
    simp only [hfull, ↓reduceIte]
    refine .inr ⟨_, h.groups_put_full hle w.bits_pos, ?_, ?_⟩
    · intro s' hwrite hs'
      have hpacks := put_full h 1 hle w.bits_pos hs'
      rw [hspace] at hpacks
      exact ⟨_, emit_of_ok hwrite, by simpa using hpacks⟩
    · intro failure s' hwrite
      exact ⟨_, emit_of_error hwrite, rfl⟩
  · have hroom : p.pos + [bit].length < w.bits := by simp; omega
    simp only [hfull, ↓reduceIte]
    exact .inl ⟨(groups_append (h.pos ▸ hroom)).1, _, rfl, put h 1 hroom⟩

theorem writeBits (h : Packs R marked b n p) (x : Word w) {k : Nat} (hk : 0 < k ∧ k ≤ w.bits) :
    AsksOnce R marked b (b ++ x.lowBits k) (n + k) p k (p.writeBits x k) := by
  have hpos := h.pos_lt
  have hlen := length_lowBits x k
  by_cases hroom : p.pos + k < w.bits
  · have hput := put h (c := x.lowBits k) k (by omega)
    rw [hlen] at hput
    exact .inl ⟨(groups_append (by rw [hlen, ← h.pos]; exact hroom)).1, _,
      writeBits_of_room h.closed (by simp [h.strict]) hk hroom, hput⟩
  · have hfull := Nat.not_lt.mp hroom
    rw [writeBits_of_full h.closed (by simp [h.strict]) hk hpos hfull]
    refine .inr ⟨_, h.groups_put_full (by omega) (by omega), ?_, ?_⟩
    · intro s' hwrite hs'
      have hpacks := put_full h k (c := x.lowBits k) (by omega) (by omega) hs'
      rw [hlen] at hpacks
      rw [emit_of_ok (p := { p with word := p.word ||| ofBits (x.lowBits k) <<< p.pos,
                                    written := p.written + k }) hwrite]
      exact ⟨_, rfl, hpacks⟩
    · intro failure s' hwrite
      rw [emit_of_error (p := { p with word := p.word ||| ofBits (x.lowBits k) <<< p.pos,
                                       written := p.written + k }) hwrite]
      exact ⟨_, rfl, rfl⟩

end Packs

theorem flush_of_zero (hpos : p.pos = 0) : p.flush = (.ok (), p) := by
  unfold Packer.flush
  rw [if_neg (by omega)]

theorem flush_of_pos (hpos : 0 < p.pos) : p.flush = p.emit := by
  unfold Packer.flush
  rw [if_pos hpos]

/-- Filling up the current word, if it is begun. -/
theorem Holds.flush (hR : SinkView R) (h : Holds R b p) :
    ∃ p', p.flush = (.ok (), p') ∧ Holds R (padded w b) p' ∧ p'.closed = p.closed ∧
      p'.strict = p.strict ∧ p'.marked = p.marked ∧ p'.written = p.written := by
  rcases Nat.eq_zero_or_pos p.pos with h0 | hpos
  · refine ⟨p, flush_of_zero h0, ?_, rfl, rfl, rfl, rfl⟩
    rwa [padded_of_mod_eq_zero (by rw [← h.pos, h0])]
  · obtain ⟨s', hs', hemit⟩ := emit_ok hR h.sink
    rw [flush_of_pos hpos]
    exact ⟨_, hemit, h.pad hpos hs', rfl, rfl, rfl, rfl⟩

theorem Packs.flush (h : Packs R marked b n p) :
    AsksOnce R marked b (padded w b) n p () p.flush := by
  rcases Nat.eq_zero_or_pos p.pos with h0 | hpos
  · have hmod : b.length % w.bits = 0 := by rw [← h.pos, h0]
    rw [flush_of_zero h0, padded_of_mod_eq_zero hmod]
    exact .inl ⟨rfl, p, rfl, h⟩
  · rw [flush_of_pos hpos]
    refine .inr ⟨p.word, ?_, ?_, ?_⟩
    · rw [(groups_padded (h.pos ▸ hpos)).1, h.word]
    · intro s' hwrite hs'
      exact ⟨_, emit_of_ok hwrite, h.pad hpos hs', h.closed, h.strict, h.marked, h.written⟩
    · intro failure s' hwrite
      exact ⟨_, emit_of_error hwrite, rfl⟩

/-- Any call in range, with a sink that may fail. -/
theorem Packs.make_asksOnce (h : Packs R marked b n p) {c : WriteCall w} (hc : c.InRange) :
    AsksOnce R marked b (c.extend b) (n + c.width) p c.value? (c.make p) := by
  cases c with
  | bit x => exact (h.writeBit x).map fun _ => none
  | bits x k => exact (h.writeBits x hc).map some
  | flush => exact h.flush.map fun _ => none

/-- One call in range puts the bits that it should behind those there are. -/
theorem Packs.make (hR : SinkView R) (h : Packs R marked b n p) {c : WriteCall w}
    (hc : c.InRange) :
    ∃ p', c.make p = (.ok c.value?, p') ∧ Packs R marked (c.extend b) (n + c.width) p' := by
  rcases h.make_asksOnce hc with ⟨-, hmade⟩ | ⟨x, -, hok, -⟩
  · exact hmade
  · obtain ⟨s', hwrite, hs'⟩ := hR.write x h.sink
    exact hok s' hwrite hs'

/-- And so does any number of calls. -/
theorem Packs.run (hR : SinkView R) (h : Packs R marked b n p) {calls : List (WriteCall w)}
    (hcalls : ∀ c ∈ calls, c.InRange) :
    (WriteCall.run p calls).1 = calls.map (fun c => .ok c.value?) ∧
      Packs R marked (calls.foldl WriteCall.extend b) (n + (calls.map WriteCall.width).sum)
        (WriteCall.run p calls).2 := by
  -- the bits `b` are those before the calls that are still to come
  induction calls generalizing b n p with
  | nil => exact ⟨rfl, h⟩
  | cons c calls ih =>
    obtain ⟨p', heq, hp'⟩ := h.make hR (hcalls c List.mem_cons_self)
    obtain ⟨houtcomes, hpacks⟩ := ih hp' fun c' hc' => hcalls c' (List.mem_cons_of_mem c hc')
    rw [WriteCall.run_cons heq]
    refine ⟨?_, ?_⟩
    · rw [List.map_cons, ← houtcomes]
    · rw [List.foldl_cons, List.map_cons, List.sum_cons, ← Nat.add_assoc]
      exact hpacks

/-! ### Being closed -/

theorem mark_closed (p : Packer w κ) : p.mark.2.closed = p.closed := by
  have hfirst : (if payloadBits w ≤ p.pos then p.emit else (.ok (), p)).2.closed = p.closed := by
    split
    · exact emit_closed p
    · rfl
  unfold mark
  split
  · dsimp only
    split
    · rename_i q heq
      rwa [heq] at hfirst
    · rename_i q heq
      rw [heq] at hfirst
      split
      · exact hfirst
      · rw [emit_closed]
        exact hfirst
  · rfl

theorem flush_closed (p : Packer w κ) : p.flush.2.closed = p.closed := by
  unfold flush
  split
  · exact emit_closed p
  · rfl

/-- A packer is closed once it has been asked to, whether that has succeeded or not. -/
theorem close_closed (p : Packer w κ) : p.close.2.closed = true := by
  have hend : ∀ q : Packer w κ, (if q.marked then q.mark else q.flush).2.closed = q.closed := by
    intro q
    split
    · exact mark_closed q
    · exact flush_closed q
  unfold close
  split
  · assumption
  · have hq := hend { p with closed := true }
    dsimp only at hq ⊢
    split
    · rename_i q heq
      rwa [heq] at hq
    · rename_i q heq
      rwa [heq] at hq

/-- Closing again does nothing. -/
theorem close_of_closed {p : Packer w κ} (h : p.closed = true) : p.close = (.ok (), p) := by
  rw [close, if_pos h]

/-! ### Ending the stream -/

theorem Holds.mark_nil (h : Holds R [] p) : p.mark = (.ok (), p) := by
  have hpos : p.pos = 0 := by rw [h.pos, List.length_nil, Nat.zero_mod]
  have hemitted : ¬p.emitted = true := by simp [h.emitted]
  unfold mark
  rw [if_neg (not_or.mpr ⟨by omega, hemitted⟩)]

/-- The mark goes into the current word. -/
theorem Holds.mark_beside (hR : SinkView R) (h : Holds R b p) (hb : b ≠ [])
    (hlt : p.pos < payloadBits w) :
    ∃ p', p.mark = (.ok (), p') ∧ R p'.sink ((layout true b).map .write) := by
  have hbits := h.pos_lt
  have hvalid : 0 < (if 0 < p.pos then p.pos else w.bits) ∧
      (if 0 < p.pos then p.pos else w.bits) ≤ w.bits := by
    split <;> omega
  unfold mark
  rw [if_pos (h.begun hb)]
  simp only [Nat.not_le.mpr hlt, ↓reduceIte, encode?_of_le hvalid]
  obtain ⟨s', hs', hemit⟩ := emit_ok
    (p := { p with word := p.word ||| encode (if 0 < p.pos then p.pos else w.bits) }) hR h.sink
  refine ⟨_, hemit, ?_⟩
  unfold layout ending
  rw [← h.pos, ← h.word, List.map_append]
  rcases Nat.eq_zero_or_pos p.pos with h0 | hpos
  · -- no bits are beside it, and the word before is full
    have hzero : p.word = 0#w.bits := by
      rw [h.word, List.eq_nil_of_length_eq_zero (h.length_remainder.trans h0)]
      exact ofBits_nil
    rw [h0, hzero, BitVec.zero_or] at hs'
    simpa [hb, h0] using hs'
  · simpa [hb, Nat.ne_of_gt hpos, hpos, hlt] using hs'

/-- The current word is passed on as it is, and the mark is the next. -/
theorem Holds.mark_apart (hR : SinkView R) (h : Holds R b p) (hb : b ≠ [])
    (hle : payloadBits w ≤ p.pos) :
    ∃ p', p.mark = (.ok (), p') ∧ R p'.sink ((layout true b).map .write) := by
  have hbits := h.pos_lt
  have hpos : 0 < p.pos := by
    have hpayload := payloadBits_eq w
    omega
  unfold mark
  rw [if_pos (h.begun hb)]
  obtain ⟨s₁, hs₁, hemit₁⟩ := emit_ok hR h.sink
  simp only [hle, hpos, ↓reduceIte, hemit₁, encode?_of_le ⟨hpos, Nat.le_of_lt hbits⟩]
  obtain ⟨s₂, hs₂, hemit₂⟩ := emit_ok
    (p := { p with sink := s₁, word := 0 ||| encode p.pos, pos := 0, emitted := true }) hR hs₁
  refine ⟨_, hemit₂, ?_⟩
  unfold layout ending
  rw [← h.pos, ← h.word, List.map_append]
  simpa [hb, Nat.ne_of_gt hpos, Nat.not_lt.mpr hle] using hs₂

/-- The end of a marked stream. -/
theorem Holds.mark (hR : SinkView R) (h : Holds R b p) :
    ∃ p', p.mark = (.ok (), p') ∧ R p'.sink ((layout true b).map .write) := by
  by_cases hb : b = []
  · subst hb
    refine ⟨p, h.mark_nil, ?_⟩
    rw [layout_nil]
    simpa using h.sink
  · rcases Nat.lt_or_ge p.pos (payloadBits w) with hlt | hle
    · exact h.mark_beside hR hb hlt
    · exact h.mark_apart hR hb hle

/-- The end of a stream without a mark. -/
theorem Holds.flush_layout (hR : SinkView R) (h : Holds R b p) :
    ∃ p', p.flush = (.ok (), p') ∧ R p'.sink ((layout false b).map .write) := by
  obtain ⟨p', heq, hpadded, -⟩ := h.flush hR
  have hsink := hpadded.sink
  refine ⟨p', heq, ?_⟩
  unfold layout ending
  rcases Nat.eq_zero_or_pos (b.length % w.bits) with h0 | hpos
  · rw [padded_of_mod_eq_zero h0] at hsink
    simpa [h0] using hsink
  · rw [(groups_padded hpos).1] at hsink
    simpa [Nat.ne_of_gt hpos] using hsink

/-- The end of a stream, with a mark or without one, and the flush behind it. -/
theorem Packs.close (hR : SinkView R) (h : Packs R marked b n p) :
    ∃ p', p.close = (.ok (), p') ∧ R p'.sink ((layout marked b).map .write ++ [.flush]) := by
  have hq : Holds R b { p with closed := true } := ⟨h.word, h.pos, h.emitted, h.sink⟩
  have hend : ∃ q, (if p.marked then ({ p with closed := true } : Packer w κ).mark
      else ({ p with closed := true } : Packer w κ).flush) = (.ok (), q) ∧
      R q.sink ((layout marked b).map .write) := by
    cases marked with
    | true =>
      rw [if_pos h.marked]
      exact hq.mark hR
    | false =>
      rw [if_neg (Bool.eq_false_iff.mp h.marked)]
      exact hq.flush_layout hR
  obtain ⟨q, heq, hsink⟩ := hend
  obtain ⟨s', hflush, hs'⟩ := hR.flush hsink
  refine ⟨{ q with sink := s' }, ?_, hs'⟩
  unfold Packer.close
  rw [if_neg (Bool.eq_false_iff.mp h.closed)]
  simp only [heq, flushSink, hflush]

/-- The ways in which the life of a packer ends: it is closed and then dropped, turned into its
sink, or dropped. -/
inductive Closing where
  | close
  | intoSink
  | discard
  deriving DecidableEq

/-- Ends the life of a packer. -/
def finish (p : Packer w κ) : Closing → Outcome StreamError Unit × κ
  | .close => let closed := p.close; (closed.1, closed.2.discard.2)
  | .intoSink => p.intoSink
  | .discard => p.discard

/-- A new packer over a sink whose calls are recorded. -/
def recording (w : Width) (marked : Bool) (s : κ) : Packer w (Recorded w κ) :=
  { sink := { sink := s }, marked }

/-- If closing succeeds, all ways of ending leave the same sink. -/
theorem finish_eq {p p' : Packer w κ} (h : p.close = (.ok (), p')) (e : Closing) :
    p.finish e = (.ok (), p'.sink) := by
  have hagain : p'.close = (.ok (), p') := by
    apply close_of_closed
    have hclosed := close_closed p
    rwa [h] at hclosed
  cases e with
  | close => simp only [finish, h, discard, hagain]
  | intoSink => simp only [finish, intoSink, h]
  | discard => simp only [finish, discard, h]

/-- A packer that records its sink and has made some writes. -/
theorem packs_run_recording {s : κ} (hs : Unfailing s) (marked : Bool) {calls : List (WriteCall w)}
    (hcalls : ∀ c ∈ calls, c.InRange) :
    (WriteCall.run (recording w marked s) calls).1 = calls.map (fun c => .ok c.value?) ∧
      Packs Recorded.Keeps marked (WriteCall.stream calls) (calls.map WriteCall.width).sum
        (WriteCall.run (recording w marked s) calls).2 := by
  have hkeeps : Recorded.Keeps ({ sink := s } : Recorded w κ) [] := ⟨rfl, hs⟩
  have hnew := packs_new hkeeps marked
  obtain ⟨houtcomes, hpacks⟩ := hnew.run Recorded.sinkView hcalls
  rw [Nat.zero_add] at hpacks
  exact ⟨houtcomes, hpacks⟩

/-- Ending a packer lays out the bits and flushes the sink. -/
theorem finish_run_recording {s : κ} (hs : Unfailing s) (marked : Bool) {calls : List (WriteCall w)}
    (hcalls : ∀ c ∈ calls, c.InRange) (e : Closing) :
    ((WriteCall.run (recording w marked s) calls).2.finish e).1 = .ok () ∧
      ((WriteCall.run (recording w marked s) calls).2.finish e).2.calls.toList
        = (layout marked (WriteCall.stream calls)).map .write ++ [.flush] := by
  obtain ⟨p', heq, hsink⟩ := (packs_run_recording hs marked hcalls).2.close Recorded.sinkView
  rw [finish_eq heq e]
  exact ⟨rfl, hsink.1⟩

/-- The words that reach the sink are those of the layout. -/
theorem words_finish_run_recording {s : κ} (hs : Unfailing s) (marked : Bool)
    {calls : List (WriteCall w)} (hcalls : ∀ c ∈ calls, c.InRange) (e : Closing) :
    ((WriteCall.run (recording w marked s) calls).2.finish e).2.words
      = layout marked (WriteCall.stream calls) := by
  rw [Recorded.words, (finish_run_recording hs marked hcalls e).2, List.filterMap_append,
    SinkCall.filterMap_word?_map_write]
  exact List.append_nil _

/-- **What reaches the sink.** After any writes the sink has been given the complete words that the
bits fill, and nothing else; the position is the number of bits behind them, and the count that of
the bits written.  Ending the packer in any of the three ways passes on the end of the layout of
these bits and then one flush. -/
theorem run_recording {s : κ} (hs : Unfailing s) (marked : Bool) (calls : List (WriteCall w))
    (hcalls : ∀ c ∈ calls, c.InRange) :
    let b := WriteCall.stream calls
    let done := WriteCall.run (recording w marked s) calls
    done.1 = calls.map (fun c => .ok c.value?) ∧
      done.2.sink.calls.toList = (groups b).map .write ∧
      BitWriter.posInWord done.2 = b.length % w.bits ∧
      BitWriter.bitsWritten done.2 = (calls.map WriteCall.width).sum ∧
      ∀ e : Closing, (done.2.finish e).1 = .ok () ∧
        (done.2.finish e).2.calls.toList
          = (groups b ++ ending marked b).map .write ++ [.flush] := by
  intro b done
  obtain ⟨houtcomes, hpacks⟩ := packs_run_recording hs marked hcalls
  exact ⟨houtcomes, hpacks.sink.1, hpacks.pos, hpacks.written,
    finish_run_recording hs marked hcalls⟩

/-- Six bits in words of eight: one more than stand beside a mark. -/
theorem run_recording_six_bits :
    Unfailing ({} : WordBuffer .w8) ∧
      (∀ c ∈ ([.bits 0x16 5, .bit true] : List (WriteCall .w8)), c.InRange) ∧
      ((WriteCall.run (recording .w8 true ({} : WordBuffer .w8))
        [.bits 0x16 5, .bit true]).2.finish .discard).2.calls.toList
          = [.write 0x36, .write 0x50, .flush] := by
  have hcalls : ∀ c ∈ ([.bits 0x16 5, .bit true] : List (WriteCall .w8)), c.InRange := by decide
  refine ⟨WordBuffer.unfailing _, hcalls, ?_⟩
  obtain ⟨-, -, -, -, hend⟩ := run_recording (WordBuffer.unfailing {}) true _ hcalls
  rw [(hend .discard).2]
  decide

end PackedBits.Packer
