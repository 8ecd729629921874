import Mathlib.Algebra.BigOperators.Fin
import PackedBits.Proofs.BitStream.Unpacker

/-!
# Groups of bits and single bits

Reading a group of bits is reading its bits one by one: if as many reads of one bit succeed, then so
does the read of the group, its value has these bits, and the unpacker and its source are left alike
(`Unpacker.readBits_of_readEach`).  This asks nothing of the words, of the mark or of the source,
which may as well fail at other times.  What it rests on is that a group takes the next word at most
once, and that taking it does not depend on how much of the current one has been given out
(`Unpacker.advance_of_pos`).

A group that ends in the current word is a piece of it (`Unpacker.readEach_of_le`).  One that goes
on has all that is left of the current word, and the front of the next one
(`Unpacker.readEach_of_used`).

Bits are read, written and copied one by one by `readEach`, `writeEach` and `copyEach`, which stop
at the first call that fails.  Copying is reading and writing: where it succeeds, the two can be
taken apart (`copyEach_eq_ok_iff`).
-/

namespace PackedBits

variable {w : Width}

/-! ### One bit after the other -/

section Each

variable {ρ ω : Type} [BitReader ρ w] [BitWriter ω w]

namespace BitReader

/-- Reads `n` bits one by one. -/
def readEach (r : ρ) : Nat → Outcome StreamError (List Bool) × ρ
  | 0 => (.ok [], r)
  | n + 1 =>
    match readBit r with
    | (.error failure, r) => (.error failure, r)
    | (.ok bit, r) =>
      let rest := readEach r n
      (rest.1.map (bit :: ·), rest.2)

variable {r r' : ρ} {bits : List Bool}

theorem readEach_zero_eq_ok_iff : readEach r 0 = (.ok bits, r') ↔ bits = [] ∧ r' = r := by
  simp [readEach, eq_comm]

theorem readEach_succ_eq_ok_iff {n : Nat} :
    readEach r (n + 1) = (.ok bits, r') ↔
      ∃ bit r₁ rest, readBit r = (.ok bit, r₁) ∧ readEach r₁ n = (.ok rest, r') ∧
        bits = bit :: rest := by
  constructor
  · intro h
    rw [readEach] at h
    rcases hread : readBit r with ⟨failure | bit, r₁⟩
    · simp [hread] at h
    · rcases hrest : readEach r₁ n with ⟨failure | rest, r₂⟩
      · simp [hread, hrest, Except.map] at h
      · simp only [hread, hrest, Except.map, Prod.mk.injEq, Except.ok.injEq] at h
        exact ⟨bit, r₁, rest, rfl, by rw [hrest, h.2], h.1.symm⟩
  · rintro ⟨bit, r₁, rest, hread, hrest, rfl⟩
    rw [readEach, hread]
    dsimp only
    rw [hrest]
    rfl

theorem readEach_add_eq_ok_iff {m n : Nat} :
    readEach r (m + n) = (.ok bits, r') ↔
      ∃ front r₁ back, readEach r m = (.ok front, r₁) ∧ readEach r₁ n = (.ok back, r') ∧
        bits = front ++ back := by
  induction m generalizing r bits with
  | zero => simp [readEach_zero_eq_ok_iff]
  | succ m ih =>
    rw [Nat.succ_add]
    simp only [readEach_succ_eq_ok_iff, ih]
    constructor
    · rintro ⟨bit, r₁, _, hbit, ⟨front, r₂, back, hfront, hback, rfl⟩, rfl⟩
      exact ⟨_, r₂, back, ⟨bit, r₁, front, hbit, hfront, rfl⟩, hback, rfl⟩
    · rintro ⟨_, r₂, back, ⟨bit, r₁, front, hbit, hfront, rfl⟩, hback, rfl⟩
      exact ⟨bit, r₁, _, hbit, ⟨front, r₂, back, hfront, hback, rfl⟩, rfl⟩

theorem length_of_readEach {n : Nat} (h : readEach r n = (.ok bits, r')) : bits.length = n := by
  induction n generalizing r bits with
  | zero => rw [(readEach_zero_eq_ok_iff.mp h).1, List.length_nil]
  | succ n ih =>
    obtain ⟨bit, r₁, rest, -, hrest, rfl⟩ := readEach_succ_eq_ok_iff.mp h
    rw [List.length_cons, ih hrest]

end BitReader

namespace BitWriter

/-- Writes bits one by one. -/
def writeEach (s : ω) : List Bool → Outcome StreamError Unit × ω
  | [] => (.ok (), s)
  | bit :: bits =>
    match writeBit s bit with
    | (.error failure, s) => (.error failure, s)
    | (.ok _, s) => writeEach s bits

variable {s s' : ω}

theorem writeEach_cons_eq_ok_iff {bit : Bool} {bits : List Bool} :
    writeEach s (bit :: bits) = (.ok (), s') ↔
      ∃ s₁, writeBit s bit = (.ok (), s₁) ∧ writeEach s₁ bits = (.ok (), s') := by
  rw [writeEach]
  rcases writeBit s bit with ⟨failure | _, s₁⟩
  · simp
  · simp

theorem writeEach_append_eq_ok_iff {front back : List Bool} :
    writeEach s (front ++ back) = (.ok (), s') ↔
      ∃ s₁, writeEach s front = (.ok (), s₁) ∧ writeEach s₁ back = (.ok (), s') := by
  induction front generalizing s with
  | nil => simp [writeEach]
  | cons bit front ih =>
    rw [List.cons_append]
    simp only [writeEach_cons_eq_ok_iff, ih]
    constructor
    · rintro ⟨s₁, hbit, s₂, hfront, hback⟩
      exact ⟨s₂, ⟨s₁, hbit, hfront⟩, hback⟩
    · rintro ⟨s₂, ⟨s₁, hbit, hfront⟩, hback⟩
      exact ⟨s₁, hbit, s₂, hfront, hback⟩

end BitWriter

/-- Moves `n` bits from a reader to a writer, one by one. -/
def copyEach (r : ρ) (s : ω) : Nat → Outcome CopyError Unit × ρ × ω
  | 0 => (.ok (), r, s)
  | n + 1 =>
    match BitReader.readBit r with
    | (.error failure, r) => (.error (failure.map .reading), r, s)
    | (.ok bit, r) =>
      match BitWriter.writeBit s bit with
      | (.error failure, s) => (.error (failure.map .writing), r, s)
      | (.ok _, s) => copyEach r s n

variable {r r' : ρ} {s s' : ω}

theorem copyEach_succ_eq_ok_iff {n : Nat} :
    copyEach r s (n + 1) = (.ok (), r', s') ↔
      ∃ bit r₁ s₁, BitReader.readBit r = (.ok bit, r₁) ∧ BitWriter.writeBit s bit = (.ok (), s₁) ∧
        copyEach r₁ s₁ n = (.ok (), r', s') := by
  constructor
  · intro h
    rw [copyEach] at h
    rcases hread : BitReader.readBit r with ⟨failure | bit, r₁⟩
    · simp [hread] at h
    · rcases hwrite : BitWriter.writeBit s bit with ⟨failure | _, s₁⟩
      · simp [hread, hwrite] at h
      · simp only [hread, hwrite] at h
        exact ⟨bit, r₁, s₁, rfl, hwrite, h⟩
  · rintro ⟨bit, r₁, s₁, hread, hwrite, h⟩
    rw [copyEach, hread]
    dsimp only
    rw [hwrite]
    exact h

/-- Copying succeeds if reading and writing do. -/
theorem copyEach_eq_ok_iff {n : Nat} :
    copyEach r s n = (.ok (), r', s') ↔
      ∃ bits, BitReader.readEach r n = (.ok bits, r') ∧
        BitWriter.writeEach s bits = (.ok (), s') := by
  induction n generalizing r s with
  | zero => simp [copyEach, BitReader.readEach, BitWriter.writeEach, eq_comm]
  | succ n ih =>
    simp only [copyEach_succ_eq_ok_iff, BitReader.readEach_succ_eq_ok_iff, ih]
    constructor
    · rintro ⟨bit, r₁, s₁, hread, hwrite, rest, hreads, hwrites⟩
      exact ⟨_, ⟨bit, r₁, rest, hread, hreads, rfl⟩,
        BitWriter.writeEach_cons_eq_ok_iff.mpr ⟨s₁, hwrite, hwrites⟩⟩
    · rintro ⟨_, ⟨bit, r₁, rest, hread, hreads, rfl⟩, hwrites⟩
      obtain ⟨s₁, hwrite, hwrites⟩ := BitWriter.writeEach_cons_eq_ok_iff.mp hwrites
      exact ⟨bit, r₁, s₁, hread, hwrite, rest, hreads, hwrites⟩

end Each

/-! ### The value of a group -/

namespace Word

theorem toNat_ofBoolListLE (bits : List Bool) :
    (BitVec.ofBoolListLE bits).toNat = ∑ i : Fin bits.length, bits[i].toNat * 2 ^ (i : Nat) := by
  induction bits with
  | nil => simp [BitVec.ofBoolListLE]
  | cons bit bits ih =>
    have hsum : ∑ i : Fin bits.length, bits[i].toNat * 2 ^ ((i : Nat) + 1)
        = (∑ i : Fin bits.length, bits[i].toNat * 2 ^ (i : Nat)) * 2 := by
      rw [Finset.sum_mul]
      apply Finset.sum_congr rfl
      intro i _
      rw [Nat.pow_succ, Nat.mul_assoc]
    show (BitVec.concat (BitVec.ofBoolListLE bits) bit).toNat
      = ∑ i : Fin (bits.length + 1), (bit :: bits)[i].toNat * 2 ^ (i : Nat)
    rw [BitVec.toNat_concat, ih, Fin.sum_univ_succ, ← hsum, Nat.add_comm]
    simp

/-- As many bits as a word has room for make the number that has them as binary digits, the lowest
first. -/
theorem toNat_ofBits {bits : List Bool} (h : bits.length ≤ w.bits) :
    (ofBits bits : Word w).toNat = ∑ i : Fin bits.length, bits[i].toNat * 2 ^ (i : Nat) := by
  rw [← toNat_ofBoolListLE, ofBits, BitVec.toNat_setWidth]
  apply Nat.mod_eq_of_lt
  exact Nat.lt_of_lt_of_le (BitVec.isLt _) (Nat.pow_le_pow_right (by decide) h)

end Word

/-! ### Unpackers -/

namespace Unpacker

open BitReader Word

variable {mode : EndMode} {σ : Type} [WordSource σ w] {u u' : Unpacker mode w σ}

theorem shift_pos (hlast : u.lastBits? = none) (pos : Nat) :
    ({ u with pos } : Unpacker mode w σ).shift = u.shift := by
  have hnone : ¬u.lastBits?.isSome = true := by simp [hlast]
  unfold shift
  rw [if_neg hnone, if_neg hnone]

/-- Advancing is the same from everywhere in the current word. -/
theorem advance_of_pos (h : u.advance = (.ok (), u')) (pos : Nat) :
    ({ u with pos } : Unpacker mode w σ).advance = (.ok (), u') := by
  cases mode with
  | marked =>
    have hshift : u.shift = (.ok (), u') := h
    show ({ u with pos } : Unpacker .marked w σ).shift = _
    rw [shift_pos (lastBits_of_advance h), hshift]
  | unbounded =>
    have hfetch : u.fetch = (.ok (), u') := h
    show ({ u with pos } : Unpacker .unbounded w σ).fetch = _
    unfold fetch at hfetch ⊢
    rcases hread : WordSource.read u.source with ⟨failure | x, source⟩
    · simp [hread] at hfetch
    · simpa [hread] using hfetch

/-- It begins the next word, or leaves the position where it was. -/
theorem advance_pos (u : Unpacker mode w σ) : u.advance.2.pos = 0 ∨ u.advance.2.pos = u.pos := by
  cases mode with
  | marked =>
    show u.shift.2.pos = 0 ∨ u.shift.2.pos = u.pos
    unfold shift
    split
    · exact .inr rfl
    · left
      dsimp only
      rcases WordSource.atEnd u.source with ⟨failure | _ | _, s₁⟩
      · rfl
      · dsimp only
        rcases WordSource.read s₁ with ⟨failure | x, s₂⟩
        · rfl
        · dsimp only
          rcases WordSource.atEnd s₂ with ⟨failure | _ | _, s₃⟩
          · rfl
          · rfl
          · dsimp only
            split <;> rfl
      · rfl
  | unbounded =>
    show u.fetch.2.pos = 0 ∨ u.fetch.2.pos = u.pos
    unfold fetch
    split
    · exact .inr rfl
    · exact .inl rfl

theorem advance_pos_of_ok (h : u.advance = (.ok (), u')) : u'.pos = 0 := by
  -- from a position that is not zero it comes to zero all the same
  have hpos := advance_pos ({ u with pos := 1 } : Unpacker mode w σ)
  rw [advance_of_pos h 1] at hpos
  rcases hpos with hpos | hpos
  · exact hpos
  · have hagain := advance_pos ({ u with pos := 0 } : Unpacker mode w σ)
    rw [advance_of_pos h 0] at hagain
    exact hagain.elim id id

/-! ### Reading one by one -/

/-- The two ways in which the read of a bit succeeds. -/
theorem readBit_eq_ok {bit : Bool} (h : u.readBit = (.ok bit, u')) :
    u.atEnd = false ∧
      ((u.pos < w.bits ∧ bit = u.word.getLsbD u.pos ∧ u' = { u with pos := u.pos + 1 }) ∨
        (w.bits ≤ u.pos ∧ ∃ v, u.advance = (.ok (), v) ∧ bit = v.word.getLsbD 0 ∧
          u' = { v with pos := 1 })) := by
  cases hend : u.atEnd with
  | true => simp [readBit, hend] at h
  | false =>
    refine ⟨rfl, ?_⟩
    rcases Nat.lt_or_ge u.pos w.bits with hpos | hpos
    · rw [readBit_of_lt hend hpos, Prod.mk.injEq, Except.ok.injEq] at h
      exact .inl ⟨hpos, h.1.symm, h.2.symm⟩
    · rcases hadvance : u.advance with ⟨failure | _, v⟩
      · rw [readBit_of_advance_error hend hpos hadvance] at h
        simp at h
      · rw [readBit_of_advance hend hpos hadvance, advance_pos_of_ok hadvance, Prod.mk.injEq,
          Except.ok.injEq] at h
        exact .inr ⟨hpos, v, rfl, h.1.symm, h.2.symm⟩

/-- As long as the current word has them, the bits are a piece of it. -/
theorem readEach_of_le {n : Nat} {bits : List Bool} (h : readEach u n = (.ok bits, u'))
    (hfit : u.pos + n ≤ w.bits) :
    bits = (u.word.bits.drop u.pos).take n ∧ u' = { u with pos := u.pos + n } := by
  induction n generalizing u bits with
  | zero => exact readEach_zero_eq_ok_iff.mp h
  | succ n ih =>
    obtain ⟨bit, u₁, rest, hbit, hrest, rfl⟩ := readEach_succ_eq_ok_iff.mp h
    obtain ⟨-, ⟨hpos, rfl, rfl⟩ | ⟨hpos, -⟩⟩ := readBit_eq_ok hbit
    · obtain ⟨rfl, rfl⟩ := ih hrest (by dsimp only; omega)
      refine ⟨?_, ?_⟩
      · rw [Word.bits, drop_lowBits_eq_cons u.word hpos, List.take_succ_cons]
      · rw [Nat.add_assoc, Nat.add_comm 1]
    · omega

/-- When the current word is used up, they are the front of the next one. -/
theorem readEach_of_used {n : Nat} {bits : List Bool} (h : readEach u n = (.ok bits, u'))
    (hn : 0 < n ∧ n ≤ w.bits) (hused : w.bits ≤ u.pos) :
    ∃ v, u.advance = (.ok (), v) ∧ bits = v.word.lowBits n ∧ u' = { v with pos := n } := by
  obtain ⟨n, rfl⟩ := Nat.exists_eq_succ_of_ne_zero (Nat.ne_of_gt hn.1)
  obtain ⟨bit, u₁, rest, hbit, hrest, rfl⟩ := readEach_succ_eq_ok_iff.mp h
  obtain ⟨-, ⟨hpos, -⟩ | ⟨-, v, hadvance, rfl, rfl⟩⟩ := readBit_eq_ok hbit
  · omega
  · obtain ⟨rfl, rfl⟩ := readEach_of_le hrest (by dsimp only; omega)
    refine ⟨v, hadvance, ?_, ?_⟩
    · rw [← take_lowBits v.word hn.2, ← List.drop_zero (l := v.word.lowBits w.bits),
        drop_lowBits_eq_cons v.word w.bits_pos, List.take_succ_cons]
      rfl
    · show ({ v with pos := 1 + n } : Unpacker mode w σ) = { v with pos := n + 1 }
      rw [Nat.add_comm]

/-- If the bits of a group can be read one by one, then the group can be read. -/
theorem readBits_of_readEach {n : Nat} {bits : List Bool} (hpos : u.pos ≤ w.bits)
    (hn : 0 < n ∧ n ≤ w.bits) (h : readEach u n = (.ok bits, u')) :
    u.readBits n = (.ok (ofBits bits), u') := by
  have hend : u.atEnd = false := by
    obtain ⟨m, rfl⟩ := Nat.exists_eq_succ_of_ne_zero (Nat.ne_of_gt hn.1)
    obtain ⟨bit, u₁, rest, hbit, -⟩ := readEach_succ_eq_ok_iff.mp h
    exact (readBit_eq_ok hbit).1
  rcases Nat.lt_or_ge w.bits (u.pos + n) with hcross | hfit
  · -- what is left of the current word, and the front of the next
    have hsum : n = (w.bits - u.pos) + (n - (w.bits - u.pos)) := by omega
    rw [hsum] at h
    obtain ⟨low, u₁, high, hlow, hhigh, rfl⟩ := readEach_add_eq_ok_iff.mp h
    have hlen := length_of_readEach hlow
    obtain ⟨rfl, rfl⟩ := readEach_of_le hlow (by omega)
    obtain ⟨v, hadvance, rfl, rfl⟩ := readEach_of_used hhigh (by omega) (by dsimp only; omega)
    have hadvance : u.advance = (.ok (), v) := advance_of_pos hadvance u.pos
    have hall : (u.word.bits.drop u.pos).take (w.bits - u.pos) = u.word.bits.drop u.pos :=
      List.take_of_length_le (Nat.le_of_eq (by rw [List.length_drop, length_bits]))
    rw [readBits_of_advance hn hend hpos hcross hadvance, ofBits_append, hlen, hall,
      ofBits_drop (Nat.le_of_eq (length_bits u.word)), ofBits_bits, ofBits_lowBits]
  · obtain ⟨rfl, rfl⟩ := readEach_of_le h hfit
    rw [readBits_of_le hn hend hfit, Word.bits, ofBits_take_drop_lowBits u.word hfit]

/-! ### The unpackers that there are -/

/-- The unpackers that an opening and any calls lead to, whatever the calls come to. -/
inductive Reached : {mode : EndMode} → Unpacker mode w σ → Prop where
  | marked {s s' : σ} {u : Unpacker .marked w σ} : openMarked s = (.ok u, s') → Reached u
  | unbounded (s : σ) : Reached (openUnbounded s)
  | make {mode : EndMode} {u : Unpacker mode w σ} (c : ReadCall) : Reached u → Reached (c.make u).2

theorem advance_pos_le (hpos : u.pos ≤ w.bits) : u.advance.2.pos ≤ w.bits := by
  rcases advance_pos u with h | h
  · rw [h]
    exact Nat.zero_le _
  · rwa [h]

theorem readBit_pos_le (hpos : u.pos ≤ w.bits) : u.readBit.2.pos ≤ w.bits := by
  have hadvance := advance_pos_le hpos
  cases hend : u.atEnd with
  | true => simpa [readBit, hend] using hpos
  | false =>
    rcases Nat.lt_or_ge u.pos w.bits with hlt | hused
    · rw [readBit_of_lt hend hlt]
      exact hlt
    · rcases heq : u.advance with ⟨failure | _, v⟩
      · rw [readBit_of_advance_error hend hused heq]
        rwa [heq] at hadvance
      · rw [readBit_of_advance hend hused heq]
        show v.pos + 1 ≤ w.bits
        rw [advance_pos_of_ok heq]
        exact w.bits_pos

theorem readBits_pos_le (hpos : u.pos ≤ w.bits) (n : Nat) : (u.readBits n).2.pos ≤ w.bits := by
  have hadvance := advance_pos_le hpos
  by_cases hn : 0 < n ∧ n ≤ w.bits
  · cases hend : u.atEnd with
    | true => simpa [readBits, hn, hend] using hpos
    | false =>
      rcases Nat.lt_or_ge w.bits (u.pos + n) with hcross | hfit
      · rcases heq : u.advance with ⟨failure | _, v⟩
        · rw [readBits_of_advance_error hn hend hpos hcross heq]
          rwa [heq] at hadvance
        · rw [readBits_of_advance hn hend hpos hcross heq]
          show n - (w.bits - u.pos) ≤ w.bits
          omega
      · rw [readBits_of_le hn hend hfit]
        exact hfit
  · unfold readBits
    rw [if_pos hn]
    exact hpos

/-- The position never leaves the current word, of which the place behind its last bit is part. -/
theorem Reached.pos_le (hu : Reached u) : u.pos ≤ w.bits := by
  induction hu with
  | marked hopen => exact Nat.le_of_eq (pos_of_openMarked hopen)
  | unbounded s => exact Nat.le_refl _
  | make c _ ih =>
    cases c with
    | bit => exact readBit_pos_le ih
    | bits n => exact readBits_pos_le ih n

/-- **Groups and single bits.** Whatever an unpacker reads from, and whatever has been read: if `n`
reads of one bit succeed, then so does the read of a group of `n` bits.  Its value is the number
with these bits as its binary digits, the first as the lowest, and the unpacker and its source are
left as by the single reads. -/
theorem readBits_bit_by_bit (hu : Reached u) {n : Nat} (hn : 0 < n ∧ n ≤ w.bits) {bits : List Bool}
    (h : readEach u n = (.ok bits, u')) :
    ∃ x : Word w, u.readBits n = (.ok x, u') ∧ bits.length = n ∧
      x.toNat = ∑ i : Fin bits.length, bits[i].toNat * 2 ^ (i : Nat) := by
  have hlen := length_of_readEach h
  exact ⟨ofBits bits, readBits_of_readEach hu.pos_le hn h, hlen, toNat_ofBits (hlen ▸ hn.2)⟩

/-- Six bits, three from the top of a word and three from the front of the next one, which is the
last that has bits and becomes known as such. -/
theorem readBits_bit_by_bit_across_words :
    let words : List (Word .w8) := [0x96, 0x5a, 0x50]
    let first : Unpacker .marked .w8 (Tape .w8) := { source := { words, pos := 1 }, next := 0x96 }
    let u : Unpacker .marked .w8 (Tape .w8) :=
      { source := { words, pos := 2 }, word := 0x96, next := 0x5a, pos := 5 }
    let u' : Unpacker .marked .w8 (Tape .w8) :=
      { source := { words, pos := 3 }, word := 0x5a, next := 0x50, pos := 3, lastBits? := some 6 }
    openMarked { words } = (.ok first, first.source) ∧ (ReadCall.make first (.bits 5)).2 = u ∧
      Reached u ∧ readEach u 6 = (.ok [false, false, true, false, true, false], u') ∧
      ∃ x : Word .w8, u.readBits 6 = (.ok x, u') ∧ x.toNat = 20 := by
  intro words first u u'
  have hopen : openMarked { words } = (.ok first, first.source) := by rfl
  have hmake : (ReadCall.make first (.bits 5)).2 = u := by rfl
  have hu : Reached u := hmake ▸ .make (.bits 5) (.marked hopen)
  have hbits : readEach u 6 = (.ok [false, false, true, false, true, false], u') := by
    dsimp only [u, u', words]
    rfl
  obtain ⟨x, hread, -, hvalue⟩ := readBits_bit_by_bit hu (by decide) hbits
  exact ⟨hopen, hmake, hu, hbits, x, hread, hvalue.trans (by decide)⟩

end Unpacker

end PackedBits
