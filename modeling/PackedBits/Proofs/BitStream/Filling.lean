import PackedBits.Proofs.BitStream.Bitwise
import PackedBits.Proofs.BitStream.Packer

/-!
# Packers that are filling a word

As long as no write has failed, an open packer is filling a word: there are some bits in it, as many
as the position says, and nothing above them (`Packer.Filling`).  What becomes of it when more bits
are written is the same whether they are written as a group or one by one, and is said by the
relation `Packer.Put`: they are put behind those that are there, and if the word has no room for
them, then it is passed to the sink and the others begin the next one.

A group is written exactly if its bits are `Put` (`Filling.writeBits_eq_ok_iff`), and so is a single
bit (`Filling.writeBit_eq_ok_iff`); bits that were written one by one have been put there as well
(`Filling.put_of_writeEach`).  Hence bits can be written as a group if they can be written one by
one, and the packer is left alike (`Filling.writeBits_of_writeEach`).

Whatever call is made on a packer that is filling a word, it goes on filling one, or the call hands
on a refusal of the sink (`Filling.make`).  So any calls leave it filling a word if they have all
succeeded (`Filling.run_of_ok`), or if the sink does not fail (`Filling.run_of_unfailing`).
-/

namespace PackedBits.Packer

open BitWriter Word

variable {w : Width} {κ : Type} {p q : Packer w κ} {c d : List Bool}

/-! ### The bits of the current word -/

/-- An open packer that has put the bits `c`, and no others, into the word it is filling. -/
structure Filling (c : List Bool) (p : Packer w κ) : Prop where
  word : p.word = ofBits c
  pos : p.pos = c.length
  room : c.length < w.bits
  closed : p.closed = false

/-- The packer with other bits in the word it is filling, and with `n` more bits written. -/
def refill (p : Packer w κ) (c : List Bool) (n : Nat) : Packer w κ :=
  { p with word := ofBits c, pos := c.length, written := p.written + n }

/-- The packer whose sink has become `s'` by taking a word. -/
def relay (p : Packer w κ) (s' : κ) : Packer w κ :=
  { p with sink := s', emitted := true }

theorem refill_refill (p : Packer w κ) (c d : List Bool) (m n : Nat) :
    (p.refill c m).refill d n = p.refill d (m + n) := by
  rw [refill, refill, refill, Nat.add_assoc]

theorem filling_new (s : κ) (marked strict : Bool) :
    Filling [] ({ sink := s, marked, strict } : Packer w κ) :=
  ⟨ofBits_nil.symm, rfl, w.bits_pos, rfl⟩

namespace Filling

theorem pos_lt (h : Filling c p) : p.pos < w.bits := h.pos ▸ h.room

theorem word_or (h : Filling c p) (d : List Bool) :
    p.word ||| ofBits d <<< p.pos = ofBits (c ++ d) := by
  rw [ofBits_append, h.word, h.pos]

theorem refill_self (h : Filling c p) : p.refill c 0 = p := by
  rw [refill, ← h.word, ← h.pos, Nat.add_zero]

end Filling

theorem filling_refill (h : p.closed = false) (hd : d.length < w.bits) (n : Nat) :
    Filling d (p.refill d n) :=
  ⟨rfl, rfl, hd, h⟩

/-! ### Putting bits -/

variable [WordSink κ w]

/-- What a packer becomes that has put the bits `d` behind the bits `c`. -/
inductive Put (c d : List Bool) (p : Packer w κ) : Packer w κ → Prop where
  /-- The word has room for them. -/
  | room : c.length + d.length < w.bits → Put c d p (p.refill (c ++ d) d.length)
  /-- They fill up the word, which the sink takes, and the others begin the next one. -/
  | full {s' : κ} : w.bits ≤ c.length + d.length →
    WordSink.write p.sink (ofBits (c ++ d)) = (.ok (), s') →
      Put c d p ((p.relay s').refill (d.drop (w.bits - c.length)) d.length)

theorem put_iff_of_room (h : c.length + d.length < w.bits) :
    Put c d p q ↔ q = p.refill (c ++ d) d.length := by
  constructor
  · rintro (_ | ⟨hfull, -⟩)
    · rfl
    · omega
  · rintro rfl
    exact .room h

theorem put_iff_of_full (h : w.bits ≤ c.length + d.length) :
    Put c d p q ↔ ∃ s', WordSink.write p.sink (ofBits (c ++ d)) = (.ok (), s') ∧
      q = (p.relay s').refill (d.drop (w.bits - c.length)) d.length := by
  constructor
  · rintro (hroom | ⟨-, hwrite⟩)
    · omega
    · exact ⟨_, hwrite, rfl⟩
  · rintro ⟨s', hwrite, rfl⟩
    exact .full h hwrite

namespace Put

theorem written (h : Put c d p q) : q.written = p.written + d.length := by
  cases h with
  | room => rfl
  | full => rfl

theorem filling (h : Put c d p q) (hp : Filling c p) (hd : d.length ≤ w.bits) :
    ∃ c', Filling c' q := by
  cases h with
  | room hroom => exact ⟨_, filling_refill hp.closed (by rwa [List.length_append]) _⟩
  | full hfull _ =>
    have hroom := hp.room
    refine ⟨_, filling_refill (p := p.relay _) hp.closed ?_ _⟩
    rw [List.length_drop]
    omega

/-- One bit, and then the others. -/
theorem cons {bit : Bool} {p₁ : Packer w κ} (h : Put c [bit] p p₁) (hp : Filling c p)
    (hd : d.length + 1 ≤ w.bits) (hrest : ∀ c₁, Filling c₁ p₁ → Put c₁ d p₁ q) :
    Put c (bit :: d) p q := by
  have hsplit : c ++ bit :: d = c ++ [bit] ++ d := by simp
  have hlen : (c ++ [bit]).length = c.length + 1 := by simp
  have hlen' : (bit :: d).length = 1 + d.length := by simp [Nat.add_comm]
  have hroom' := hp.room
  cases h with
  | room hroom =>
    -- the other bits come behind this one, and may fill up the word
    have hput := hrest _ (filling_refill hp.closed (by rwa [List.length_append]) 1)
    cases hput with
    | room hroom =>
      rw [refill_refill, put_iff_of_room (by omega), hsplit, hlen']
      rfl
    | full hfull hwrite =>
      have hdrop : (bit :: d).drop (w.bits - c.length) = d.drop (w.bits - (c ++ [bit]).length) := by
        have hsub : w.bits - c.length = w.bits - (c ++ [bit]).length + 1 := by omega
        rw [hsub, List.drop_succ_cons]
      rw [put_iff_of_full (by omega), hsplit, hdrop, hlen']
      exact ⟨_, hwrite, refill_refill (p.relay _) (c ++ [bit]) _ 1 _⟩
  | full hfull hwrite =>
    -- the bit is the last of the word, and the next one has room for all the others
    rw [List.length_singleton] at hfull
    have hone : [bit].drop (w.bits - c.length) = [] := List.drop_eq_nil_of_le (by simp; omega)
    have hall : (bit :: d).drop (w.bits - c.length) = d := by
      have hsub : w.bits - c.length = 1 := by omega
      rw [hsub, List.drop_one, List.tail_cons]
    rw [hone] at hrest
    have hput := hrest [] (filling_refill (p := p.relay _) (d := []) hp.closed w.bits_pos 1)
    rw [put_iff_of_room (by rw [List.length_nil]; omega), refill_refill] at hput
    rw [put_iff_of_full (by omega), hsplit, ofBits_append_of_le (by omega), hall, hlen']
    exact ⟨_, hwrite, hput⟩

end Put

/-! ### Writes -/

omit [WordSink κ w] in
/-- The value of no more than `k` bits passes the check of a group of `k`. -/
theorem not_excess_ofBits (p : Packer w κ) {k : Nat} (hd : d.length ≤ k) :
    ¬(p.strict = true ∧ (ofBits d : Word w) &&& ~~~lowOnes k ≠ 0) := by
  rw [ofBits_and_not_lowOnes hd]
  simp

namespace Filling

theorem writeBit_eq_ok_iff (h : Filling c p) {bit : Bool} :
    p.writeBit bit = (.ok (), q) ↔ Put c [bit] p q := by
  have hpos := h.pos
  have hlt := h.pos_lt
  have hlen : [bit].length = 1 := List.length_singleton
  rw [writeBit_of_lt h.closed hlt, h.word_or]
  by_cases hfull : p.pos + 1 = w.bits
  · -- no bits begin the next word
    have hrest : [bit].drop (w.bits - c.length) = [] := List.drop_eq_nil_of_le (by omega)
    simp only [hfull, ↓reduceIte]
    rw [emit_eq_ok_iff, put_iff_of_full (by omega), hrest, hlen]
    simp only [relay, Packer.refill, ofBits_nil, List.length_nil]
  · simp only [hfull, ↓reduceIte]
    rw [put_iff_of_room (by omega), Prod.mk.injEq, Packer.refill, List.length_append, hlen, hpos]
    simp only [true_and, eq_comm]

theorem writeBits_eq_ok_iff (h : Filling c p) {x : Word w} {k m : Nat} (hk : 0 < k ∧ k ≤ w.bits)
    (hvalue : ¬(p.strict = true ∧ x &&& ~~~lowOnes k ≠ 0)) :
    p.writeBits x k = (.ok m, q) ↔ m = k ∧ Put c (x.lowBits k) p q := by
  have hpos := h.pos
  have hlt := h.pos_lt
  have hlen := length_lowBits x k
  by_cases hroom : p.pos + k < w.bits
  · rw [writeBits_of_room h.closed hvalue hk hroom, h.word_or, put_iff_of_room (by omega),
      Prod.mk.injEq, Packer.refill, List.length_append, hlen, hpos]
    simp only [Except.ok.injEq, eq_comm]
  · have hfull := Nat.not_lt.mp hroom
    rw [writeBits_of_full h.closed hvalue hk hlt hfull, h.word_or, put_iff_of_full (by omega)]
    rcases hwrite : WordSink.write p.sink (ofBits (c ++ x.lowBits k)) with ⟨failure | _, s'⟩
    · rw [emit_of_error hwrite]
      simp
    · rw [emit_of_ok hwrite]
      simp only [relay, Packer.refill, List.length_drop, hlen, hpos, Prod.mk.injEq,
        Except.ok.injEq, true_and, exists_eq_left', eq_comm]

theorem writeBit_eq_error (h : Filling c p) {bit : Bool} {failure : Failure StreamError}
    (hwrite : p.writeBit bit = (.error failure, q)) :
    WordSink.write p.sink (ofBits (c ++ [bit])) = (.error failure, q.sink) := by
  rw [writeBit_of_lt h.closed h.pos_lt, h.word_or] at hwrite
  by_cases hfull : p.pos + 1 = w.bits
  · simp only [hfull, ↓reduceIte] at hwrite
    exact (emit_eq_error hwrite).1
  · simp [hfull] at hwrite

/-- A write that fails has met a refusal of the sink, and has counted its bits. -/
theorem writeBits_eq_error (h : Filling c p) {x : Word w} {k : Nat} (hk : 0 < k ∧ k ≤ w.bits)
    (hvalue : ¬(p.strict = true ∧ x &&& ~~~lowOnes k ≠ 0)) {failure : Failure StreamError}
    (hwrite : p.writeBits x k = (.error failure, q)) :
    WordSink.write p.sink (ofBits (c ++ x.lowBits k)) = (.error failure, q.sink) ∧
      q.written = p.written + k := by
  have hlt := h.pos_lt
  by_cases hroom : p.pos + k < w.bits
  · rw [writeBits_of_room h.closed hvalue hk hroom] at hwrite
    simp at hwrite
  · rw [writeBits_of_full h.closed hvalue hk hlt (Nat.not_lt.mp hroom), h.word_or] at hwrite
    split at hwrite
    · rename_i hemit
      rw [Prod.mk.injEq, Except.error.injEq] at hwrite
      obtain ⟨rfl, rfl⟩ := hwrite
      exact emit_eq_error hemit
    · simp at hwrite

/-- Bits that were written one by one have been put there. -/
theorem put_of_writeEach (h : Filling c p) (hd : d.length ≤ w.bits)
    (hwrite : writeEach p d = (.ok (), q)) : Put c d p q := by
  induction d generalizing c p with
  | nil =>
    rw [writeEach, Prod.mk.injEq] at hwrite
    obtain ⟨-, rfl⟩ := hwrite
    rw [put_iff_of_room (d := []) h.room, List.append_nil]
    exact h.refill_self.symm
  | cons bit d ih =>
    obtain ⟨p₁, hbit, hrest⟩ := writeEach_cons_eq_ok_iff.mp hwrite
    rw [List.length_cons] at hd
    exact (h.writeBit_eq_ok_iff.mp hbit).cons h hd fun _ h₁ => ih h₁ (by omega) hrest

/-- Bits that are given as the value of a group are no more than these bits. -/
theorem writeBits_ofBits_eq_ok_iff (h : Filling c p) {k m : Nat} (hk : 0 < k ∧ k ≤ w.bits)
    (hlen : d.length = k) : p.writeBits (ofBits d) k = (.ok m, q) ↔ m = k ∧ Put c d p q := by
  subst hlen
  rw [h.writeBits_eq_ok_iff hk (not_excess_ofBits p (Nat.le_refl _)), lowBits_ofBits hk.2]

/-- If bits can be written one by one, then they can be written as a group. -/
theorem writeBits_of_writeEach (h : Filling c p) {k : Nat} (hk : 0 < k ∧ k ≤ w.bits)
    (hlen : d.length = k) (hwrite : writeEach p d = (.ok (), q)) :
    p.writeBits (ofBits d) k = (.ok k, q) :=
  (h.writeBits_ofBits_eq_ok_iff hk hlen).mpr ⟨rfl, h.put_of_writeEach (by omega) hwrite⟩

/-- Any number of bits that were written one by one. -/
theorem of_writeEach (h : Filling c p) (hwrite : writeEach p d = (.ok (), q)) :
    (∃ c', Filling c' q) ∧ q.written = p.written + d.length := by
  induction d generalizing c p with
  | nil =>
    rw [writeEach, Prod.mk.injEq] at hwrite
    obtain ⟨-, rfl⟩ := hwrite
    exact ⟨⟨c, h⟩, rfl⟩
  | cons bit d ih =>
    obtain ⟨p₁, hbit, hrest⟩ := writeEach_cons_eq_ok_iff.mp hwrite
    have hput := h.writeBit_eq_ok_iff.mp hbit
    obtain ⟨c₁, h₁⟩ := hput.filling h w.bits_pos
    obtain ⟨hfilling, hwritten⟩ := ih h₁ hrest
    refine ⟨hfilling, ?_⟩
    rw [hwritten, hput.written, List.length_singleton, List.length_cons, Nat.add_assoc,
      Nat.add_comm 1]

end Filling

/-! ### Any calls -/

/-- How a call turns out for a packer that is filling a word: it is still filling one, and its sink
has taken at most one word, or the sink has refused a word and the refusal is handed on. -/
inductive Turns {α : Type} (p : Packer w κ) : Outcome StreamError α × Packer w κ → Prop where
  | alone {c' : List Bool} {outcome : Outcome StreamError α} {q : Packer w κ} :
    Filling c' q → q.sink = p.sink → Turns p (outcome, q)
  | taken {c' : List Bool} {outcome : Outcome StreamError α} {q : Packer w κ} {x : Word w} :
    Filling c' q → WordSink.write p.sink x = (.ok (), q.sink) → Turns p (outcome, q)
  | refused {failure : Failure StreamError} {q : Packer w κ} {x : Word w} :
    WordSink.write p.sink x = (.error failure, q.sink) → Turns p (.error failure, q)

theorem Put.turns {α : Type} (h : Put c d p q) (hp : Filling c p) (hd : d.length ≤ w.bits)
    (outcome : Outcome StreamError α) : Turns p (outcome, q) := by
  obtain ⟨c', hq⟩ := h.filling hp hd
  cases h with
  | room => exact .alone hq rfl
  | full _ hwrite => exact .taken hq hwrite

/-- A sink that does not fail refuses nothing. -/
theorem Turns.of_unfailing {α : Type} {made : Outcome StreamError α × Packer w κ} (h : Turns p made)
    (hs : Unfailing p.sink) : (∃ c', Filling c' made.2) ∧ Unfailing made.2.sink := by
  cases h with
  | alone hq hsink => exact ⟨⟨_, hq⟩, hsink ▸ hs⟩
  | @taken _ _ _ x hq hwrite =>
    obtain ⟨s', heq, hs'⟩ := hs.write x
    rw [hwrite, Prod.mk.injEq] at heq
    exact ⟨⟨_, hq⟩, heq.2 ▸ hs'⟩
  | @refused _ _ x hwrite =>
    obtain ⟨s', heq, -⟩ := hs.write x
    rw [hwrite] at heq
    simp at heq

namespace Filling

theorem make (h : Filling c p) (call : WriteCall w) : Turns p (call.make p) := by
  cases call with
  | bit bit =>
    show Turns p ((p.writeBit bit).1.map fun _ => none, (p.writeBit bit).2)
    rcases hwrite : p.writeBit bit with ⟨failure | _, q⟩
    · exact .refused (h.writeBit_eq_error hwrite)
    · exact (h.writeBit_eq_ok_iff.mp hwrite).turns h w.bits_pos _
  | bits x k =>
    show Turns p ((p.writeBits x k).1.map some, (p.writeBits x k).2)
    by_cases hk : 0 < k ∧ k ≤ w.bits
    · by_cases hvalue : p.strict = true ∧ x &&& ~~~lowOnes k ≠ 0
      · have hfault : p.writeBits x k = (.error (.fault (.excessBits x.toNat k)), p) := by
          unfold Packer.writeBits
          rw [if_neg (not_not_intro hk), if_neg (Bool.eq_false_iff.mp h.closed), if_pos hvalue]
        rw [hfault]
        exact .alone h rfl
      · rcases hwrite : p.writeBits x k with ⟨failure | m, q⟩
        · exact .refused (h.writeBits_eq_error hk hvalue hwrite).1
        · obtain ⟨rfl, hput⟩ := (h.writeBits_eq_ok_iff hk hvalue).mp hwrite
          exact hput.turns h (by rw [length_lowBits]; exact hk.2) _
    · have hfault : p.writeBits x k = (.error (.fault (.writeWidth w.bits k)), p) := by
        unfold Packer.writeBits
        rw [if_pos hk]
      rw [hfault]
      exact .alone h rfl
  | flush =>
    show Turns p (p.flush.1.map fun _ => none, p.flush.2)
    rcases Nat.eq_zero_or_pos p.pos with h0 | hpos
    · rw [flush_of_zero h0]
      exact .alone h rfl
    · rw [flush_of_pos hpos]
      rcases hwrite : WordSink.write p.sink p.word with ⟨failure | _, s'⟩
      · rw [emit_of_error hwrite]
        exact .refused hwrite
      · have hempty : Filling [] ({ p with sink := s', word := 0, pos := 0, emitted := true } :
            Packer w κ) := ⟨ofBits_nil.symm, rfl, w.bits_pos, h.closed⟩
        rw [emit_of_ok hwrite]
        exact .taken hempty hwrite

/-- Calls that succeed. -/
theorem run_of_ok (h : Filling c p) {calls : List (WriteCall w)}
    (hok : ∀ outcome ∈ (WriteCall.run p calls).1, outcome.isOk = true) :
    ∃ c', Filling c' (WriteCall.run p calls).2 := by
  induction calls generalizing c p with
  | nil => exact ⟨c, h⟩
  | cons call calls ih =>
    have hturns := h.make call
    rcases hmake : call.make p with ⟨outcome, p₁⟩
    rw [hmake] at hturns
    rw [WriteCall.run_cons hmake] at hok ⊢
    have hrest : ∀ outcome ∈ (WriteCall.run p₁ calls).1, outcome.isOk = true :=
      fun outcome' hmem => hok outcome' (List.mem_cons_of_mem outcome hmem)
    cases hturns with
    | alone h₁ _ => exact ih h₁ hrest
    | taken h₁ _ => exact ih h₁ hrest
    | refused hwrite =>
      exact absurd (hok _ List.mem_cons_self) (by simp [Except.isOk, Except.toBool])

/-- Any calls, if the sink does not fail. -/
theorem run_of_unfailing (h : Filling c p) (hs : Unfailing p.sink) (calls : List (WriteCall w)) :
    (∃ c', Filling c' (WriteCall.run p calls).2) ∧ Unfailing (WriteCall.run p calls).2.sink := by
  refine runAll_keeps (I := fun p => (∃ c, Filling c p) ∧ Unfailing p.sink) ?_ ⟨⟨c, h⟩, hs⟩ calls
  rintro p call ⟨⟨c, h⟩, hs⟩
  exact (h.make call).of_unfailing hs

/-- Then bits can be written one by one. -/
theorem exists_writeEach (h : Filling c p) (hs : Unfailing p.sink) (bits : List Bool) :
    ∃ q, writeEach p bits = (.ok (), q) := by
  induction bits generalizing c p with
  | nil => exact ⟨p, rfl⟩
  | cons bit bits ih =>
    rcases hwrite : p.writeBit bit with ⟨failure | _, p₁⟩
    · obtain ⟨s', heq, -⟩ := hs.write (ofBits (c ++ [bit]))
      rw [h.writeBit_eq_error hwrite] at heq
      simp at heq
    · obtain ⟨⟨c₁, h₁⟩, hs₁⟩ := Turns.of_unfailing
        ((h.writeBit_eq_ok_iff.mp hwrite).turns h w.bits_pos (.ok ())) hs
      obtain ⟨q, hrest⟩ := ih h₁ hs₁
      exact ⟨q, writeEach_cons_eq_ok_iff.mpr ⟨p₁, hwrite, hrest⟩⟩

end Filling

end PackedBits.Packer
