import PackedBits.Proofs.BitStream.Closing
import PackedBits.Proofs.BitStream.Together

/-!
# What being strict changes

* `writeBits_eq_excess_iff`: a strict packer refuses a group, and is left as it is, exactly if the
  value has bits above those to be written.
* `BitWriter.Mirrors.lenient`: all other calls are answered as by the packer that is not strict.
* `toNat_lt_of_readBits`: an unpacker never gives out a value with such bits, so that no copy is
  refused.

Together they are `strict_only_rejects`.  Being strict is looked at in one place of one call.  That
nothing else depends on it is one equation for each operation of a packer, which moves `lenient`
from the packer to what the operation leaves: from `emit_lenient`, which passes on a word, to
`close_lenient`.
-/

namespace PackedBits

variable {w : Width}

/-! ### Values that fit -/

namespace Word

/-- A word is below `2 ^ n` exactly if it has no bits outside of the mask. -/
theorem and_not_lowOnes_eq_zero_iff (x : Word w) (n : Nat) :
    x &&& ~~~lowOnes n = 0 ↔ x.toNat < 2 ^ n := by
  constructor
  · intro h
    apply Nat.lt_pow_two_of_testBit
    intro i hi
    rw [BitVec.testBit_toNat]
    rcases Nat.lt_or_ge i w.bits with hlt | hge
    · have hbit : (x &&& ~~~lowOnes n).getLsbD i = false := by
        rw [h]
        exact BitVec.getLsbD_zero
      rwa [BitVec.getLsbD_and, BitVec.getLsbD_not, getLsbD_lowOnes, decide_eq_true hlt,
        decide_eq_false (Nat.not_lt.mpr hi), Bool.and_false, Bool.not_false, Bool.and_true,
        Bool.and_true] at hbit
    · exact BitVec.getLsbD_of_ge x i hge
  · intro h
    apply BitVec.eq_of_getLsbD_eq
    intro i hi
    rw [BitVec.getLsbD_and, BitVec.getLsbD_not, getLsbD_lowOnes]
    rcases Nat.lt_or_ge i n with hlt | hge
    · simp [hi, hlt]
    · have hbit : x.getLsbD i = false :=
        Nat.testBit_lt_two_pow (Nat.lt_of_lt_of_le h (Nat.pow_le_pow_right (by decide) hge))
      rw [hbit, Bool.false_and]
      exact BitVec.getLsbD_zero.symm

/-- What is taken from a word by a mask is the same for its remainder. -/
theorem ofNat_mod_and_lowOnes (x : Word w) (n : Nat) :
    (BitVec.ofNat w.bits (x.toNat % 2 ^ n) : Word w) &&& lowOnes n = x &&& lowOnes n := by
  apply BitVec.eq_of_getLsbD_eq
  intro i hi
  rw [BitVec.getLsbD_and, BitVec.getLsbD_and, getLsbD_lowOnes, BitVec.getLsbD_ofNat,
    Nat.testBit_mod_two_pow, BitVec.testBit_toNat, decide_eq_true hi]
  rcases Nat.lt_or_ge i n with hlt | hge
  · rw [decide_eq_true hlt, Bool.true_and, Bool.true_and]
  · rw [decide_eq_false (Nat.not_lt.mpr hge), Bool.and_false, Bool.and_false, Bool.and_false]

end Word

/-! ### What an unpacker gives out -/

namespace Unpacker

variable {mode : EndMode} {σ : Type} [WordSource σ w]

/-- Whatever is in the words of an unpacker, and wherever it stands. -/
theorem toNat_lt_of_readBits {u : Unpacker mode w σ} {n : Nat} {x : Word w}
    (h : (u.readBits n).1 = .ok x) : x.toNat < 2 ^ n := by
  apply Nat.lt_pow_two_of_testBit
  intro i hi
  rw [BitVec.testBit_toNat]
  unfold readBits at h
  split at h
  · simp at h
  split at h
  · simp at h
  split at h
  · simp at h
  next hpos =>
  dsimp only at h
  split at h
  · -- the bits of one word
    obtain rfl := Except.ok.inj h
    simp [BitVec.getLsbD_and, Nat.not_lt.mpr hi]
  · split at h
    · simp at h
    · -- those that are left of a word, and others behind them
      obtain rfl := Except.ok.inj h
      have hlow : u.word.getLsbD (u.pos + i) = false := BitVec.getLsbD_of_ge _ _ (by omega)
      have hhigh : ¬i - (w.bits - u.pos) < n - (w.bits - u.pos) := by omega
      simp [BitVec.getLsbD_or, BitVec.getLsbD_ushiftRight, BitVec.getLsbD_shiftLeft,
        BitVec.getLsbD_and, hlow, hhigh]

/-- Advancing fails with what the source answers, or because there is no next word. -/
theorem failure_of_advance {u u' : Unpacker mode w σ} {failure : Failure StreamError}
    (h : u.advance = (.error failure, u')) : failure = .fault .pastEnd ∨
      ∃ s : σ, (WordSource.read s).1 = .error failure ∨
        (WordSource.atEnd s).1 = .error failure := by
  unfold advance at h
  split at h
  · unfold shift at h
    split at h
    · rw [Prod.mk.injEq, Except.error.injEq] at h
      exact .inl h.1.symm
    dsimp only at h
    split at h
    · next hend =>
      rw [Prod.mk.injEq, Except.error.injEq] at h
      exact .inr ⟨_, .inr (by rw [hend, h.1])⟩
    · simp at h
    split at h
    · next hread =>
      rw [Prod.mk.injEq, Except.error.injEq] at h
      exact .inr ⟨_, .inl (by rw [hread, h.1])⟩
    split at h
    · next hend =>
      rw [Prod.mk.injEq, Except.error.injEq] at h
      exact .inr ⟨_, .inr (by rw [hend, h.1])⟩
    · simp at h
    · split at h
      · simp at h
      · simp at h
  · unfold fetch at h
    split at h
    · next hread =>
      rw [Prod.mk.injEq, Except.error.injEq] at h
      exact .inr ⟨_, .inl (by rw [hread, h.1])⟩
    · simp at h

/-- A read is at no such fault of its own. -/
theorem excess_of_readBits {u u' : Unpacker mode w σ} {n value k : Nat}
    (h : u.readBits n = (.error (.fault (.excessBits value k)), u')) :
    ∃ s : σ, (WordSource.read s).1 = .error (.fault (.excessBits value k)) ∨
      (WordSource.atEnd s).1 = .error (.fault (.excessBits value k)) := by
  unfold readBits at h
  split at h
  · simp at h
  split at h
  · simp at h
  split at h
  · simp at h
  dsimp only at h
  split at h
  · simp at h
  split at h
  · next hadvance =>
    rw [Prod.mk.injEq, Except.error.injEq] at h
    obtain ⟨rfl, -⟩ := h
    rcases failure_of_advance hadvance with hpast | hsource
    · simp at hpast
    · exact hsource
  · simp at h

end Unpacker

/-! ### Packers that are not strict -/

namespace Packer

variable {κ : Type}

/-- The same packer, which takes any value. -/
def lenient (p : Packer w κ) : Packer w κ :=
  { p with strict := false }

variable [WordSink κ w] {p q : Packer w κ} {x : Word w} {n : Nat}

/-- What an operation answers, with what it leaves made lenient. -/
def leniently {α : Type} (made : α × Packer w κ) : α × Packer w κ :=
  (made.1, made.2.lenient)

omit [WordSink κ w] in
/-- A case split that does not depend on being strict. -/
theorem leniently_ite {α : Type} {c c' : Prop} [Decidable c] [Decidable c']
    {a b a' b' : α × Packer w κ}
    (hc : c' ↔ c) (ha : a' = leniently a) (hb : b' = leniently b) :
    (if c' then a' else b') = leniently (if c then a else b) := by
  by_cases h : c
  · rw [if_pos h, if_pos (hc.mpr h), ha]
  · rw [if_neg h, if_neg (mt hc.mp h), hb]

omit [WordSink κ w] in
/-- What is done behind an operation that has succeeded. -/
theorem leniently_match {β : Type} {made made' : Outcome StreamError Unit × Packer w κ}
    {next next' : Packer w κ → Outcome StreamError β × Packer w κ} :
    made' = leniently made → (∀ q, next' q.lenient = leniently (next q)) →
      (match made' with
        | (.error failure, q) => (.error failure, q)
        | (.ok _, q) => next' q)
      = leniently
        (match made with
        | (.error failure, q) => (.error failure, q)
        | (.ok _, q) => next q) := by
  rintro rfl hnext
  rcases made with ⟨failure | _, q⟩
  · rfl
  · exact hnext q

/-- The packer may also be one that is lenient by its form. -/
theorem emit_lenient (h : q = p.lenient) : q.emit = leniently p.emit := by
  subst h
  rcases hwrite : WordSink.write p.sink p.word with ⟨failure | _, s⟩
  · rw [emit_of_error hwrite, emit_of_error (p := p.lenient) hwrite]
    rfl
  · rw [emit_of_ok hwrite, emit_of_ok (p := p.lenient) hwrite]
    rfl

theorem writeBit_lenient (p : Packer w κ) (bit : Bool) :
    p.lenient.writeBit bit = leniently (p.writeBit bit) := by
  unfold writeBit
  refine leniently_ite Iff.rfl rfl (leniently_ite Iff.rfl rfl (leniently_ite Iff.rfl ?_ rfl))
  exact emit_lenient rfl

theorem flush_lenient (p : Packer w κ) : p.lenient.flush = leniently p.flush := by
  unfold flush
  exact leniently_ite Iff.rfl (emit_lenient rfl) rfl

/-- A value that does not fit is refused where the packer is open and the width is in range, and
nothing has been changed then. -/
theorem writeBits_eq_excess_iff :
    p.writeBits x n = (.error (.fault (.excessBits x.toNat n)), p) ↔
      (0 < n ∧ n ≤ w.bits) ∧ p.closed = false ∧ p.strict = true ∧ 2 ^ n ≤ x.toNat := by
  have hvalue : x &&& ~~~Word.lowOnes n ≠ 0 ↔ 2 ^ n ≤ x.toNat := by
    rw [Ne, Word.and_not_lowOnes_eq_zero_iff, Nat.not_lt]
  constructor
  · intro h
    have hwrites := writes p x n
    rw [h] at hwrites
    cases hwrites with
    | excess hn hopen hstrict hexcess => exact ⟨hn, hopen, hstrict, hvalue.mp hexcess⟩
    | lost hpos hwritten => omega
  · rintro ⟨hn, hopen, hstrict, hle⟩
    unfold writeBits
    rw [if_neg (not_not_intro hn), if_neg (Bool.eq_false_iff.mp hopen),
      if_pos ⟨hstrict, hvalue.mpr hle⟩]

/-- A value that fits is refused in these words only by the sink. -/
theorem excess_of_writeBits (hx : x.toNat < 2 ^ n) {value k : Nat}
    (h : (p.writeBits x n).1 = .error (.fault (.excessBits value k))) :
    ∃ (s : κ) (y : Word w), (WordSink.write s y).1 = .error (.fault (.excessBits value k)) := by
  have hwrites := writes p x n
  rcases hmade : p.writeBits x n with ⟨answer, q⟩
  rw [hmade] at h hwrites
  obtain rfl : answer = _ := h
  cases hwrites with
  | excess _ _ _ hexcess => exact absurd ((Word.and_not_lowOnes_eq_zero_iff x n).mpr hx) hexcess
  | lost _ _ hwrite => exact ⟨_, _, congrArg Prod.fst hwrite⟩

/-- A group that is not refused for its value. -/
theorem writeBits_lenient (hfits : p.writeBits x n ≠ (.error (.fault (.excessBits x.toNat n)), p)) :
    p.lenient.writeBits x n = leniently (p.writeBits x n) := by
  by_cases hvalue : p.strict = true ∧ x &&& ~~~Word.lowOnes n ≠ 0
  · -- then it is refused before its value is looked at
    have hexcess : 2 ^ n ≤ x.toNat := by
      rw [← Nat.not_lt, ← Word.and_not_lowOnes_eq_zero_iff]
      exact hvalue.2
    by_cases hn : 0 < n ∧ n ≤ w.bits
    · have hclosed : p.closed = true := by
        by_contra hopen
        exact hfits
          (writeBits_eq_excess_iff.mpr ⟨hn, Bool.not_eq_true _ ▸ hopen, hvalue.1, hexcess⟩)
      rw [writeBits_of_closed hclosed, writeBits_of_closed (p := p.lenient) hclosed]
      rfl
    · unfold writeBits
      rw [if_pos hn, if_pos hn]
      rfl
  · have hvalue' : ¬(p.lenient.strict = true ∧ x &&& ~~~Word.lowOnes n ≠ 0) :=
      fun h => Bool.false_ne_true h.1
    unfold writeBits
    refine leniently_ite Iff.rfl rfl (leniently_ite Iff.rfl rfl (leniently_ite ⟨?_, ?_⟩ rfl ?_))
    · exact fun h => absurd h hvalue'
    · exact fun h => absurd h hvalue
    refine leniently_ite Iff.rfl rfl (leniently_ite Iff.rfl rfl (leniently_ite Iff.rfl rfl ?_))
    -- the word is emitted, and the rest of the group begins the next one
    refine leniently_match (emit_lenient rfl) fun q => ?_
    by_cases hrest : w.bits - p.pos < n
    · rw [if_pos hrest, if_pos (show w.bits - p.lenient.pos < n from hrest)]
      rfl
    · rw [if_neg hrest, if_neg (show ¬w.bits - p.lenient.pos < n from hrest)]
      rfl

/-- Only the bits that are written make a difference to a packer that is not strict. -/
theorem writeBits_lenient_mod (p : Packer w κ) (x : Word w) (n : Nat) :
    p.lenient.writeBits x n = p.lenient.writeBits (BitVec.ofNat w.bits (x.toNat % 2 ^ n)) n := by
  have hvalue : ∀ y : Word w, ¬(p.lenient.strict = true ∧ y &&& ~~~Word.lowOnes n ≠ 0) :=
    fun y h => Bool.false_ne_true h.1
  unfold writeBits
  rw [if_neg (hvalue x), if_neg (hvalue _), Word.ofNat_mod_and_lowOnes]

theorem mark_lenient (p : Packer w κ) : p.lenient.mark = leniently p.mark := by
  unfold mark
  refine leniently_ite Iff.rfl ?_ rfl
  dsimp only
  refine leniently_match (leniently_ite Iff.rfl (emit_lenient rfl) rfl) fun q => ?_
  have hvalid :
      (if 0 < p.lenient.pos then p.lenient.pos else w.bits)
        = if 0 < p.pos then p.pos else w.bits := rfl
  rw [hvalid]
  rcases EndMark.encode? w (if 0 < p.pos then p.pos else w.bits) with fault | mark
  · rfl
  · exact emit_lenient rfl

theorem close_lenient (p : Packer w κ) : p.lenient.close = leniently p.close := by
  unfold close
  refine leniently_ite Iff.rfl rfl ?_
  dsimp only
  refine leniently_match (leniently_ite Iff.rfl ?_ ?_) fun q => rfl
  · exact mark_lenient { p with closed := true }
  · exact flush_lenient { p with closed := true }

theorem discard_lenient (p : Packer w κ) : p.lenient.discard = p.discard := by
  unfold discard
  rw [close_lenient]
  rcases p.close with ⟨(_ | _) | _, q⟩
  · rfl
  · rfl
  · rfl

/-- How a stream ends is no matter of being strict. -/
theorem finish_lenient (p : Packer w κ) (e : Closing) : p.lenient.finish e = p.finish e := by
  cases e with
  | close =>
    show (p.lenient.close.1, p.lenient.close.2.discard.2) = (p.close.1, p.close.2.discard.2)
    rw [close_lenient, ← discard_lenient p.close.2]
    rfl
  | intoSink =>
    show (p.lenient.close.1, p.lenient.close.2.sink) = (p.close.1, p.close.2.sink)
    rw [close_lenient]
    rfl
  | discard => exact discard_lenient p

end Packer

/-! ### Whole histories -/

section Histories

variable {mode : EndMode} {σ κ : Type} [WordSource σ w] [WordSink κ w]

open Packer

/-- Whether a group is not refused for its value. -/
def Packer.Fits (p : Packer w κ) (x : Word w) (n : Nat) : Prop :=
  p.writeBits x n ≠ (.error (.fault (.excessBits x.toNat n)), p)

theorem BitWriter.Mirrors.lenient :
    BitWriter.Mirrors Fits fun p q : Packer w κ => q = p.lenient where
  writeBit := by
    rintro p _ bit rfl
    have hwrite : BitWriter.writeBit p.lenient bit = leniently (p.writeBit bit) :=
      writeBit_lenient p bit
    rw [hwrite]
    exact ⟨rfl, rfl⟩
  writeBits := by
    rintro p _ x n hfits rfl
    have hwrite : BitWriter.writeBits p.lenient x n = leniently (p.writeBits x n) :=
      writeBits_lenient hfits
    rw [hwrite]
    exact ⟨rfl, rfl⟩
  flush := by
    rintro p _ rfl
    have hflush : BitWriter.flush p.lenient = leniently p.flush := flush_lenient p
    rw [hflush]
    exact ⟨rfl, rfl⟩
  posInWord := by
    rintro p _ rfl
    rfl
  bitsWritten := by
    rintro p _ rfl
    rfl

/-- What has been read can be written. -/
theorem fits_of_readBits {u : Unpacker mode w σ} {n : Nat} {x : Word w}
    (h : (BitReader.readBits u n).1 = .ok x) (p : Packer w κ) : p.Fits x n := by
  intro hexcess
  obtain ⟨-, -, -, hle⟩ := writeBits_eq_excess_iff.mp hexcess
  exact Nat.not_lt.mpr hle (Unpacker.toNat_lt_of_readBits h)

/-- A copy is refused in these words only by the source or the sink. -/
theorem excess_of_copyBits {u : Unpacker mode w σ} {p : Packer w κ} {n value k : Nat}
    (h : (copyBits u p n).1 = .error (.fault (.excessBits value k))) :
    (∃ s : σ, (WordSource.read s).1 = .error (.fault (.excessBits value k)) ∨
      (WordSource.atEnd s).1 = .error (.fault (.excessBits value k))) ∨
    ∃ (s : κ) (y : Word w), (WordSink.write s y).1 = .error (.fault (.excessBits value k)) := by
  induction n using Nat.strongRecOn generalizing u p with
  | ind n ih =>
    rcases Nat.eq_zero_or_pos n with rfl | hpos
    · rw [copyBits_zero] at h
      simp at h
    · have hn : n ≠ 0 := Nat.ne_of_gt hpos
      have hbits := w.bits_pos
      rcases hread : BitReader.readBits u (min n w.bits) with ⟨(error | fault) | x, u'⟩
      · rw [copyBits_of_read_error hn hread] at h
        simp [Failure.map] at h
      · rw [copyBits_of_read_error hn hread] at h
        obtain rfl : fault = .excessBits value k := by simpa [Failure.map] using h
        exact .inl (Unpacker.excess_of_readBits hread)
      · rcases hwrite : BitWriter.writeBits p x (min n w.bits) with ⟨(error | fault) | m, p'⟩
        · rw [copyBits_of_write_error hn hread hwrite] at h
          simp [Failure.map] at h
        · rw [copyBits_of_write_error hn hread hwrite] at h
          obtain rfl : fault = .excessBits value k := by simpa [Failure.map] using h
          have hx : x.toNat < 2 ^ min n w.bits :=
            Unpacker.toNat_lt_of_readBits (congrArg Prod.fst hread)
          exact .inr (excess_of_writeBits hx (congrArg Prod.fst hwrite))
        · rw [copyBits_of_ok hn hread hwrite] at h
          exact ih _ (by omega) h

/-- What is asked of a packer, and of an unpacker together with it. -/
inductive Use (w : Width) where
  | call (c : PairCall w)
  | close
  deriving DecidableEq

/-- What is answered. -/
inductive UseAnswer (w : Width) where
  | call (answer : PairAnswer w × Display)
  | closed (answer : Outcome StreamError Unit)
  deriving DecidableEq

namespace Use

/-- Does what is asked. -/
def make (streams : Unpacker mode w σ × Packer w κ) :
    Use w → UseAnswer w × (Unpacker mode w σ × Packer w κ)
  | call c => let made := c.make streams; (.call made.1, made.2)
  | close => let made := streams.2.close; (.closed made.1, streams.1, made.2)

/-- Does what is asked, one after the other. -/
def run (streams : Unpacker mode w σ × Packer w κ) (uses : List (Use w)) :
    List (UseAnswer w) × (Unpacker mode w σ × Packer w κ) :=
  runAll make streams uses

/-- Whether what is asked is no group that is refused for its value. -/
def Fits (streams : Unpacker mode w σ × Packer w κ) (use : Use w) : Prop :=
  ∀ x n, use = .call (.write (.bits x n)) → streams.2.Fits x n

theorem make_lenient {u : Unpacker mode w σ} {p : Packer w κ} {use : Use w}
    (hfits : Fits (u, p) use) :
    (use.make (u, p)).1 = (use.make (u, p.lenient)).1 ∧
      (use.make (u, p)).2.1 = (use.make (u, p.lenient)).2.1 ∧
      (use.make (u, p.lenient)).2.2 = (use.make (u, p)).2.2.lenient := by
  cases use with
  | call c =>
    obtain ⟨hanswer, hreader, hwriter⟩ :=
      PairCall.make_mirrors BitReader.mirrors_eq BitWriter.Mirrors.lenient
      fits_of_readBits (u, p) (u, p.lenient) ⟨rfl, rfl⟩ fun x n heq => hfits x n (congrArg _ heq)
    exact ⟨congrArg UseAnswer.call hanswer, hreader, hwriter⟩
  | close =>
    show (.closed p.close.1 : UseAnswer w) = .closed p.lenient.close.1 ∧ u = u ∧
      p.lenient.close.2 = p.close.2.lenient
    rw [close_lenient]
    exact ⟨rfl, rfl, rfl⟩

theorem run_lenient {u : Unpacker mode w σ} {p : Packer w κ} {uses : List (Use w)}
    (hfits : Admitted make Fits (u, p) uses) :
    (run (u, p) uses).1 = (run (u, p.lenient) uses).1 ∧
      (run (u, p) uses).2.1 = (run (u, p.lenient) uses).2.1 ∧
      (run (u, p.lenient) uses).2.2 = (run (u, p) uses).2.2.lenient := by
  refine runAll_related make make
    (R := fun (a b : Unpacker mode w σ × Packer w κ) => a.1 = b.1 ∧ b.2 = a.2.lenient)
    ?_ hfits ⟨rfl, rfl⟩
  rintro ⟨u, p⟩ ⟨_, _⟩ use ⟨rfl, rfl⟩ huse
  exact make_lenient huse

end Use

/-- **Being strict.** Let any packer be made strict, or not.  Open and strict it refuses a group of
a width in range, and is then as it was before, exactly if the value is not below `2 ^ n`; any other
group is refused in these words only by the sink.  Apart from such groups nothing that is asked of
it, and of an unpacker together with it, makes a difference: the answers, the unpacker, and the
packer up to its being strict are the same, and so is each way of ending.  If it is not strict, only
the bits that are written matter.  No unpacker, wherever it stands and whatever is in its words,
gives out more bits than are asked for, so what it gives out is never refused, and a copy is refused
in these words only by the source or the sink. -/
theorem strict_only_rejects (u : Unpacker mode w σ) (p : Packer w κ) :
    let strict : Packer w κ := { p with strict := true }
    let lenient : Packer w κ := { p with strict := false }
    (p.closed = false → ∀ (x : Word w) (n : Nat), 0 < n ∧ n ≤ w.bits →
      (strict.writeBits x n = (.error (.fault (.excessBits x.toNat n)), strict) ↔ 2 ^ n ≤ x.toNat) ∧
        ∀ value k : Nat, x.toNat < 2 ^ n →
          (strict.writeBits x n).1 = .error (.fault (.excessBits value k)) →
          ∃ (s : κ) (y : Word w), (WordSink.write s y).1 = .error (.fault (.excessBits value k))) ∧
    (∀ uses : List (Use w), Admitted Use.make Use.Fits (u, strict) uses →
      let checked := Use.run (u, strict) uses
      let unchecked := Use.run (u, lenient) uses
      checked.1 = unchecked.1 ∧ checked.2.1 = unchecked.2.1 ∧
        unchecked.2.2 = { checked.2.2 with strict := false } ∧
        ∀ e : Closing, unchecked.2.2.finish e = checked.2.2.finish e) ∧
    (∀ (x : Word w) (n : Nat),
      lenient.writeBits x n = lenient.writeBits (BitVec.ofNat w.bits (x.toNat % 2 ^ n)) n) ∧
    (∀ (n : Nat) (x : Word w), (u.readBits n).1 = .ok x → x.toNat < 2 ^ n ∧ strict.Fits x n) ∧
    ∀ n value k : Nat, (copyBits u strict n).1 = .error (.fault (.excessBits value k)) →
      (∃ s : σ, (WordSource.read s).1 = .error (.fault (.excessBits value k)) ∨
        (WordSource.atEnd s).1 = .error (.fault (.excessBits value k))) ∨
      ∃ (s : κ) (y : Word w), (WordSink.write s y).1 = .error (.fault (.excessBits value k)) := by
  intro strict lenient
  refine ⟨?_, ?_, writeBits_lenient_mod p, ?_, fun n value k => excess_of_copyBits⟩
  · intro hopen x n hn
    rw [writeBits_eq_excess_iff]
    refine ⟨⟨fun h => h.2.2.2, fun hle => ⟨hn, hopen, rfl, hle⟩⟩, ?_⟩
    intro value k hx
    exact excess_of_writeBits hx
  · intro uses huses checked unchecked
    obtain ⟨hanswers, hreader, hpacker⟩ := Use.run_lenient huses
    refine ⟨hanswers, hreader, hpacker, ?_⟩
    intro e
    exact (congrArg (fun q : Packer w κ => q.finish e) hpacker).trans (finish_lenient _ e)
  · intro n x hread
    exact ⟨Unpacker.toNat_lt_of_readBits hread, fits_of_readBits hread strict⟩

/-- Eleven bits are copied behind three others. A group of four with a fifth bit would have been
refused. -/
theorem strict_only_rejects_eleven_bits :
    let u : Unpacker .unbounded .w8 (Tape .w8) := Unpacker.openUnbounded { words := [0xb5, 0x03] }
    let p : Packer .w8 (WordBuffer .w8) := { sink := {}, strict := true }
    let uses : List (Use .w8) := [.call (.write (.bits 0x5 3)), .call (.sendTo 11), .close]
    p.closed = false ∧ Admitted Use.make Use.Fits (u, p) uses ∧
      p.writeBits 0x1f 4 = (.error (.fault (.excessBits 0x1f 4)), p) ∧
      (Use.run (u, p) uses).1 = (Use.run (u, { p with strict := false }) uses).1 ∧
      (Use.run (u, { p with strict := false }) uses).2.2.finish .intoSink
        = (Use.run (u, p) uses).2.2.finish .intoSink ∧
      (u.readBits 4).1 = .ok 5 ∧ p.Fits 5 4 := by
  intro u p uses
  have hfits : Admitted Use.make Use.Fits (u, p) uses := by
    rw [admitted_cons_iff, admitted_cons_iff, admitted_cons_iff]
    refine ⟨?_, ?_, ?_, admitted_nil _ _ _⟩
    · rintro x n heq hexcess
      obtain ⟨rfl, rfl⟩ : (0x5 : Word .w8) = x ∧ 3 = n := by simpa using heq
      exact absurd (writeBits_eq_excess_iff.mp hexcess).2.2.2 (by decide)
    · intro x n heq
      simp at heq
    · intro x n heq
      simp at heq
  have hread : (u.readBits 4).1 = .ok 5 := by decide
  obtain ⟨hgroup, hsame, -, hvalue, -⟩ := strict_only_rejects u p
  obtain ⟨hanswers, -, -, hfinish⟩ := hsame uses hfits
  exact ⟨rfl, hfits, (hgroup rfl 0x1f 4 (by decide)).1.mpr (by decide), hanswers, hfinish .intoSink,
    hread, (hvalue 4 5 hread).2⟩

end Histories

end PackedBits
