import PackedBits.EndMark
import PackedBits.Proofs.Word.Bits

/-!
# The field of an end mark

`bitsFor n` is the least number of bits that have `n` values or more (`bitsFor_le_iff`).  The number
of values of a word's position is the width, a power of two, so a count less one takes exactly
`fieldBits w` bits, and a word is divided into the `shift w` bits below the field, the field, and
the top bit (`shift_add_fieldBits`).

`decode x` is one more than the number in the field of `x`, whatever the other bits are
(`decode_eq`, `testBit_decode`, `decode_eq_decode_iff`), and `encode n` has nothing outside the
field (`getLsbD_encode`, `getLsbD_encode_of_not_mem_field`).  Hence a mark can be put beside any
payload that leaves the field clear (`decode_or_encode`), and changes nothing of it
(`field_isolated`).
-/

namespace PackedBits.EndMark

variable {w : Width}

/-! ### How many bits tell values apart -/

theorem bitsFor?_of_pos {n : Nat} (h : 0 < n) : bitsFor? n = .ok (bitsFor n) :=
  if_neg (Nat.ne_of_gt h)

/-- As many bits as `bitsFor n`, and no fewer, have `n` values. -/
theorem bitsFor_le_iff {n f : Nat} : bitsFor n ≤ f ↔ n ≤ 2 ^ f := by
  unfold bitsFor
  split
  case isTrue h =>
    have hpos := Nat.two_pow_pos f
    exact iff_of_true (Nat.zero_le f) (by omega)
  case isFalse h =>
    have hlog : (n - 1).log2 < f ↔ n - 1 < 2 ^ f := Nat.log2_lt (by omega)
    rw [Nat.succ_le_iff, hlog]
    omega

/-! ### The layout -/

/-- The positions of the field: all from `payloadBits w - 1` to `w.bits - 2`. -/
def field (w : Width) : List Nat :=
  List.range' (payloadBits w - 1) (fieldBits w)

theorem bits_eq_two_pow (w : Width) : w.bits = 2 ^ fieldBits w := by cases w <;> decide

theorem shift_add_fieldBits (w : Width) : shift w + fieldBits w + 1 = w.bits := by
  cases w <;> decide

theorem payloadBits_eq (w : Width) : payloadBits w = shift w + 1 := by cases w <;> decide

theorem payloadBits_lt (w : Width) : payloadBits w < w.bits := by cases w <;> decide

theorem mem_field {i : Nat} : i ∈ field w ↔ shift w ≤ i ∧ i < shift w + fieldBits w :=
  List.mem_range'_1

theorem mem_field_iff_le {i : Nat} : i ∈ field w ↔ payloadBits w - 1 ≤ i ∧ i ≤ w.bits - 2 := by
  have hsum := shift_add_fieldBits w
  have hshift := payloadBits_eq w
  have hlt := payloadBits_lt w
  rw [mem_field]
  omega

/-- What is above the bits below the field is a number that a size can hold, for every width. -/
theorem two_pow_fieldBits_succ_le (w : Width) : 2 ^ (fieldBits w + 1) ≤ 2 ^ Width.native.bits := by
  cases w <;> decide

/-! ### Reading the field -/

theorem div_two_pow_shift_lt (x : Word w) : x.toNat / 2 ^ shift w < 2 ^ (fieldBits w + 1) := by
  apply Nat.div_lt_of_lt_mul
  rw [← Nat.pow_add, ← Nat.add_assoc, shift_add_fieldBits]
  exact x.isLt

theorem toSize_ushiftRight (x : Word w) :
    Word.toSize (x >>> shift w) = x.toNat / 2 ^ shift w := by
  have hlt := div_two_pow_shift_lt x
  have hle := two_pow_fieldBits_succ_le w
  rw [Word.toSize, BitVec.toNat_setWidth, BitVec.toNat_ushiftRight, Nat.shiftRight_eq_div_pow]
  exact Nat.mod_eq_of_lt (by omega)

/-- The sum that a count is taken from is in the range of a size. -/
theorem toSize_ushiftRight_succ_lt (x : Word w) :
    Word.toSize (x >>> shift w) + 1 < countLimit := by
  have hlt := div_two_pow_shift_lt x
  have hle : 2 ^ (fieldBits w + 1) < countLimit := by cases w <;> decide
  rw [toSize_ushiftRight]
  omega

/-- The count is one more than the number in the field. -/
theorem decode_eq (x : Word w) : decode x = x.toNat / 2 ^ shift w % w.bits + 1 := by
  have hpos := w.bits_pos
  have hlt := Nat.mod_lt (x.toNat / 2 ^ shift w) hpos
  rw [decode, toSize_ushiftRight, Nat.add_mod, Nat.mod_eq_of_lt (show 1 < w.bits by
    cases w <;> decide)]
  by_cases htop : x.toNat / 2 ^ shift w % w.bits + 1 = w.bits
  · rw [htop, Nat.mod_self]
  · rw [Nat.mod_eq_of_lt (by omega)]

theorem decode_pos (x : Word w) : 0 < decode x := by
  rw [decode_eq]
  exact Nat.succ_pos _

theorem decode_le (x : Word w) : decode x ≤ w.bits := by
  rw [decode_eq]
  exact Nat.mod_lt _ w.bits_pos

/-- The bits of the count less one are those of the field. -/
theorem testBit_decode (x : Word w) {i : Nat} (h : i < fieldBits w) :
    (decode x - 1).testBit i = x.getLsbD (shift w + i) := by
  have hfield : x.toNat / 2 ^ shift w % w.bits = x.toNat / 2 ^ shift w % 2 ^ fieldBits w :=
    congrArg _ (bits_eq_two_pow w)
  rw [decode_eq, Nat.add_sub_cancel, hfield, Nat.testBit_mod_two_pow, decide_eq_true h,
    Bool.true_and, Nat.testBit_div_two_pow, Nat.add_comm i]
  rfl

/-- A count is determined by the bits of its field. -/
theorem decode_eq_of_field {x : Word w} {n : Nat} (hn : 0 < n ∧ n ≤ w.bits)
    (h : ∀ i, i < fieldBits w → x.getLsbD (shift w + i) = (n - 1).testBit i) : decode x = n := by
  have hx := decode_pos x
  have hle := decode_le x
  suffices heq : decode x - 1 = n - 1 by omega
  apply Nat.eq_of_testBit_eq
  intro i
  by_cases hi : i < fieldBits w
  · rw [testBit_decode x hi, h i hi]
  · have hpow : w.bits ≤ 2 ^ i := by
      rw [bits_eq_two_pow w]
      exact Nat.pow_le_pow_right (by decide) (by omega)
    rw [Nat.testBit_lt_two_pow (by omega), Nat.testBit_lt_two_pow (by omega)]

/-- Two words have the same count if and only if they have the same bits in the field. -/
theorem decode_eq_decode_iff {x y : Word w} :
    decode x = decode y ↔ ∀ i ∈ field w, x.getLsbD i = y.getLsbD i := by
  constructor
  · intro heq i hi
    obtain ⟨hle, hlt⟩ := mem_field.mp hi
    obtain ⟨j, rfl⟩ := Nat.exists_eq_add_of_le hle
    have hj : j < fieldBits w := Nat.lt_of_add_lt_add_left hlt
    rw [← testBit_decode x hj, heq, testBit_decode y hj]
  · intro h
    apply decode_eq_of_field ⟨decode_pos y, decode_le y⟩
    intro j hj
    have hmem : shift w + j ∈ field w :=
      mem_field.mpr ⟨Nat.le_add_right _ _, Nat.add_lt_add_left hj _⟩
    rw [h _ hmem, testBit_decode y hj]

/-! ### Writing the field -/

/-- A mark has its count less one in the field, and nothing elsewhere. -/
theorem getLsbD_encode (n i : Nat) :
    (encode n : Word w).getLsbD i
      = (decide (i < w.bits) && (decide (shift w ≤ i) && (n - 1).testBit (i - shift w))) := by
  rw [encode, BitVec.getLsbD_shiftLeft, Word.ofSize, BitVec.getLsbD_ofNat]
  by_cases hi : i < w.bits
  · by_cases hs : i < shift w
    · simp [hi, hs, show ¬shift w ≤ i by omega]
    · simp [hi, hs, show i - shift w < w.bits by omega, show shift w ≤ i by omega]
  · simp [hi]

theorem getLsbD_encode_of_lt_shift (n : Nat) {i : Nat} (h : i < shift w) :
    (encode n : Word w).getLsbD i = false := by
  rw [getLsbD_encode, decide_eq_false (show ¬shift w ≤ i by omega), Bool.false_and, Bool.and_false]

/-- The top bit of a mark is clear. -/
theorem getLsbD_encode_of_top {n : Nat} (hn : n ≤ w.bits) {i : Nat}
    (h : shift w + fieldBits w ≤ i) : (encode n : Word w).getLsbD i = false := by
  have hpow : w.bits ≤ 2 ^ (i - shift w) := by
    rw [bits_eq_two_pow w]
    exact Nat.pow_le_pow_right (by decide) (by omega)
  have hpos := w.bits_pos
  rw [getLsbD_encode, Nat.testBit_lt_two_pow (by omega), Bool.and_false, Bool.and_false]

theorem getLsbD_encode_of_not_mem_field {n : Nat} (hn : n ≤ w.bits) {i : Nat} (h : i ∉ field w) :
    (encode n : Word w).getLsbD i = false := by
  rcases Nat.lt_or_ge i (shift w) with hlt | hle
  · exact getLsbD_encode_of_lt_shift n hlt
  · rcases Nat.lt_or_ge i (shift w + fieldBits w) with hin | htop
    · exact absurd (mem_field.mpr ⟨hle, hin⟩) h
    · exact getLsbD_encode_of_top hn htop

/-- A payload that leaves the field clear does not disturb the mark. -/
theorem decode_or_encode {x : Word w} {n : Nat} (hn : 0 < n ∧ n ≤ w.bits)
    (hx : ∀ i, shift w ≤ i → i < shift w + fieldBits w → x.getLsbD i = false) :
    decode (x ||| encode n) = n := by
  have hsum := shift_add_fieldBits w
  apply decode_eq_of_field hn
  intro i hi
  rw [BitVec.getLsbD_or, hx _ (by omega) (by omega), Bool.false_or, getLsbD_encode,
    decide_eq_true (show shift w + i < w.bits by omega), decide_eq_true (by omega), Bool.true_and,
    Bool.true_and, Nat.add_sub_cancel_left]

/-- The mark of a full word has every bit of the field set, and no payload disturbs it. -/
theorem decode_or_encode_bits (x : Word w) : decode (x ||| encode w.bits) = w.bits := by
  have hsum := shift_add_fieldBits w
  apply decode_eq_of_field ⟨w.bits_pos, Nat.le_refl _⟩
  intro i hi
  have hone : (w.bits - 1).testBit i = true := by
    rw [bits_eq_two_pow w, Nat.testBit_two_pow_sub_one, decide_eq_true hi]
  rw [BitVec.getLsbD_or, getLsbD_encode, Nat.add_sub_cancel_left, hone,
    decide_eq_true (show shift w + i < w.bits by omega), decide_eq_true (by omega), Bool.and_true,
    Bool.and_true, Bool.or_true]

/-- Every count is read back from its mark. -/
theorem decode_encode {n : Nat} (hn : 0 < n ∧ n ≤ w.bits) : decode (encode n : Word w) = n := by
  have h := decode_or_encode (x := 0#w.bits) hn (fun i _ _ => BitVec.getLsbD_zero)
  rwa [BitVec.zero_or] at h

/-- As many bits as there are below the field leave it clear. -/
theorem getLsbD_ofBits_of_mem_field {b : List Bool} (hb : b.length ≤ payloadBits w - 1) {i : Nat}
    (hi : i ∈ field w) : (Word.ofBits b : Word w).getLsbD i = false := by
  have hle := (mem_field_iff_le.mp hi).1
  rw [Word.getLsbD_ofBits, List.getElem?_eq_none (by omega), Option.getD_none, Bool.and_false]

/-! ### The field and the rest of a word -/

/-- **A mark and the rest of its word leave each other alone.** Every count that a word can have is
taken, and its mark can be put beside any word that is clear in the field, whatever that has below
it and at the top: the count is read back, and outside the field the word is unchanged.  A payload
of at most `payloadBits w - 1` bits is such a word.

From any word at all a count is read, without leaving the range of a size, and it is one that a word
can have.  Two words have the same count if and only if they have the same bits in the field.

The field is as wide as it is because `bitsFor n` bits, and no fewer, have `n` values. -/
theorem field_isolated (w : Width) :
    (∀ n, 0 < n ∧ n ≤ w.bits → encode? w n = .ok (encode n) ∧
      ∀ x : Word w, (∀ i ∈ field w, x.getLsbD i = false) →
        decode (encode n ||| x) = n ∧
          ∀ i, i ∉ field w → (encode n ||| x).getLsbD i = x.getLsbD i) ∧
    (∀ b : List Bool, b.length ≤ payloadBits w - 1 →
      ∀ i ∈ field w, (Word.ofBits b : Word w).getLsbD i = false) ∧
    (∀ y : Word w,
      Word.toSize (y >>> shift w) + 1 < countLimit ∧ 0 < decode y ∧ decode y ≤ w.bits) ∧
    (∀ y z : Word w, decode y = decode z ↔ ∀ i ∈ field w, y.getLsbD i = z.getLsbD i) ∧
    ∀ n, 0 < n →
      bitsFor? n = .ok (bitsFor n) ∧ n ≤ 2 ^ bitsFor n ∧ ∀ f, n ≤ 2 ^ f → bitsFor n ≤ f := by
  refine ⟨fun n hn => ⟨encode?_of_le hn, fun x hx => ⟨?_, fun i hi => ?_⟩⟩, fun b hb i hi => ?_,
    fun y => ?_, fun y z => decode_eq_decode_iff, fun n hn => ?_⟩
  · rw [BitVec.or_comm]
    exact decode_or_encode hn fun i hle hlt => hx i (mem_field.mpr ⟨hle, hlt⟩)
  · rw [BitVec.getLsbD_or, getLsbD_encode_of_not_mem_field hn.2 hi, Bool.false_or]
  · exact getLsbD_ofBits_of_mem_field hb hi
  · exact ⟨toSize_ushiftRight_succ_lt y, decode_pos y, decode_le y⟩
  · exact ⟨bitsFor?_of_pos hn, bitsFor_le_iff.mp (Nat.le_refl _), fun f => bitsFor_le_iff.mpr⟩

/-- A mark in the widest word, between a top bit and a payload that are all set. -/
theorem field_isolated_widest :
    let mark : Word .w128 := 0x63000000000000000000000000000000
    let x : Word .w128 := 0x80FFFFFFFFFFFFFFFFFFFFFFFFFFFFFF
    let marked : Word .w128 := 0xE3FFFFFFFFFFFFFFFFFFFFFFFFFFFFFF
    let b := List.replicate 120 true
    (0 < 100 ∧ 100 ≤ Width.w128.bits) ∧ encode? .w128 100 = .ok mark ∧
      (∀ i ∈ field .w128, x.getLsbD i = false) ∧ mark ||| x = marked ∧ decode marked = 100 ∧
      127 ∉ field .w128 ∧ marked.getLsbD 127 = x.getLsbD 127 ∧
      b.length ≤ payloadBits .w128 - 1 ∧ 126 ∈ field .w128 ∧
      (Word.ofBits b : Word .w128).getLsbD 126 = false ∧
      decode marked = decode mark ∧ (∀ i ∈ field .w128, marked.getLsbD i = mark.getLsbD i) ∧
      bitsFor? 100 = .ok 7 ∧ 100 ≤ 2 ^ 7 ∧ 100 ≤ 2 ^ 8 ∧ 7 ≤ 8 := by
  intro mark x marked b
  obtain ⟨hmark, hpayload, -, hsame, hleast⟩ := field_isolated .w128
  have hn : 0 < 100 ∧ 100 ≤ Width.w128.bits := by decide
  have hx : ∀ i ∈ field .w128, x.getLsbD i = false := by decide
  have hb : b.length ≤ payloadBits .w128 - 1 := by decide
  have hfield : ∀ i ∈ field .w128, marked.getLsbD i = mark.getLsbD i := by decide
  have hencode : encode 100 = mark := by decide
  have hor : mark ||| x = marked := by decide
  obtain ⟨htaken, hbeside⟩ := hmark 100 hn
  obtain ⟨hcount, hrest⟩ := hbeside x hx
  obtain ⟨hbits, hle, hmin⟩ := hleast 100 hn.1
  rw [hencode] at htaken
  rw [hencode, hor] at hcount hrest
  exact ⟨hn, htaken, hx, hor, hcount, by decide, hrest 127 (by decide), hb, by decide,
    hpayload b hb 126 (by decide), (hsame marked mark).mpr hfield, hfield, hbits, hle, by decide,
    hmin 8 (by decide)⟩

end PackedBits.EndMark
