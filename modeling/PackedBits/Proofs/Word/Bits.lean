import Mathlib.Algebra.Ring.Nat
import PackedBits.Word

/-!
# The bits of a word

A word is seen as the list of its bits, the lowest first: `lowBits x n` are the `n` lowest bits of
`x`, `bits x` are all of them, and `ofBits` is the word with given bits from the lowest up.  A word
has no room for more than `w.bits` bits, so `ofBits` ignores what comes after those, and where the
list is shorter it fills up with zeros.

The word operations that streams of bits are made of become operations on these lists: putting a
group of bits above others is `++` (`ofBits_append`), shifting right is `List.drop` (`ofBits_drop`),
and masking is `List.take` (`ofBits_lowBits`).  Every one of these laws compares two words bit by
bit, through `getLsbD_ofBits`.
-/

namespace PackedBits.Word

variable {w : Width}

/-- The `n` lowest bits of a word, the lowest first. -/
def lowBits (x : Word w) (n : Nat) : List Bool :=
  (List.range n).map x.getLsbD

/-- All the bits of a word, the lowest first. -/
def bits (x : Word w) : List Bool :=
  x.lowBits w.bits

/-- The word with the given bits from the lowest up. -/
def ofBits (bs : List Bool) : Word w :=
  (BitVec.ofBoolListLE bs).setWidth w.bits

/-- The bits of several words, one word after the other. -/
def joinBits (ws : List (Word w)) : List Bool :=
  ws.flatMap bits

/-! ### From a word to its bits -/

@[simp] theorem length_lowBits (x : Word w) (n : Nat) : (x.lowBits n).length = n := by
  simp [lowBits]

@[simp] theorem length_bits (x : Word w) : x.bits.length = w.bits :=
  length_lowBits x w.bits

/-- A word has no bits behind its last. -/
theorem drop_bits_self_append (x : Word w) (rest : List Bool) :
    x.bits.drop w.bits ++ rest = rest := by
  rw [List.drop_eq_nil_of_le (Nat.le_of_eq (length_bits x)), List.nil_append]

@[simp] theorem getElem?_lowBits (x : Word w) (n i : Nat) :
    (x.lowBits n)[i]? = if i < n then some (x.getLsbD i) else none := by
  by_cases h : i < n
  · simp [lowBits, h]
  · simp only [h, ↓reduceIte, List.getElem?_eq_none_iff, length_lowBits]
    omega

theorem lowBits_eq_nil_iff (x : Word w) (n : Nat) : x.lowBits n = [] ↔ n = 0 := by
  rw [← List.length_eq_zero_iff, length_lowBits]

theorem take_lowBits (x : Word w) {n m : Nat} (h : n ≤ m) : (x.lowBits m).take n = x.lowBits n := by
  rw [lowBits, lowBits, ← List.map_take, List.take_range, Nat.min_eq_left h]

theorem drop_lowBits_eq_cons (x : Word w) {i n : Nat} (h : i < n) :
    (x.lowBits n).drop i = x.getLsbD i :: (x.lowBits n).drop (i + 1) := by
  rw [List.drop_eq_getElem_cons (by rw [length_lowBits]; exact h)]
  congr 1
  simp [lowBits]

@[simp] theorem joinBits_nil : joinBits ([] : List (Word w)) = [] := rfl

@[simp] theorem joinBits_cons (x : Word w) (ws : List (Word w)) :
    joinBits (x :: ws) = x.bits ++ joinBits ws := by
  simp [joinBits]

@[simp] theorem joinBits_append (ws ws' : List (Word w)) :
    joinBits (ws ++ ws') = joinBits ws ++ joinBits ws' := by
  simp [joinBits]

theorem length_joinBits (ws : List (Word w)) : (joinBits ws).length = ws.length * w.bits := by
  induction ws with
  | nil => simp
  | cons x ws ih =>
    rw [joinBits_cons, List.length_append, length_bits, ih, List.length_cons, Nat.succ_mul,
      Nat.add_comm]

/-! ### From bits to a word -/

@[simp] theorem getLsbD_ofBits (bs : List Bool) (i : Nat) :
    (ofBits bs : Word w).getLsbD i = (decide (i < w.bits) && bs[i]?.getD false) := by
  simp [ofBits]

theorem eq_ofBits {x : Word w} {bs : List Bool}
    (h : ∀ i, i < w.bits → x.getLsbD i = bs[i]?.getD false) : x = ofBits bs := by
  apply BitVec.eq_of_getLsbD_eq
  intro i hi
  rw [h i hi, getLsbD_ofBits, decide_eq_true hi, Bool.true_and]

@[simp] theorem ofBits_nil : (ofBits [] : Word w) = 0 := by
  symm
  apply eq_ofBits
  simp

theorem ofBits_singleton (b : Bool) :
    (ofBits [b] : Word w) = if b then BitVec.twoPow w.bits 0 else 0 := by
  symm
  apply eq_ofBits
  intro i hi
  cases b with
  | false => cases i <;> simp
  | true => cases i <;> simp [BitVec.getLsbD_twoPow, w.bits_pos]

/-- Bits put above others. -/
theorem ofBits_append (bs cs : List Bool) :
    (ofBits (bs ++ cs) : Word w) = ofBits bs ||| ofBits cs <<< bs.length := by
  symm
  apply eq_ofBits
  intro i hi
  rw [BitVec.getLsbD_or, BitVec.getLsbD_shiftLeft, getLsbD_ofBits, getLsbD_ofBits,
    List.getElem?_append]
  by_cases hlt : i < bs.length
  · simp [hi, hlt]
  · have hsub : i - bs.length < w.bits := by omega
    simp [hi, hlt, hsub]

/-- A group of bits is put together from its first `k` and the others. -/
theorem ofBits_take_eq_or {bs : List Bool} {k n : Nat} (hk : k ≤ n) (h : k ≤ bs.length) :
    (ofBits (bs.take n) : Word w)
      = ofBits (bs.take k) ||| ofBits ((bs.drop k).take (n - k)) <<< k := by
  have hsplit : bs.take n = bs.take k ++ (bs.drop k).take (n - k) := by
    rw [← List.take_add, Nat.add_sub_cancel' hk]
  have hlen : (bs.take k).length = k := by
    rw [List.length_take]
    omega
  rw [hsplit, ofBits_append, hlen]

theorem ofBits_take (bs : List Bool) : (ofBits (bs.take w.bits) : Word w) = ofBits bs := by
  apply eq_ofBits
  intro i hi
  rw [getLsbD_ofBits, List.getElem?_take_of_lt hi, decide_eq_true hi, Bool.true_and]

/-- What is above a full word of bits does not matter. -/
theorem ofBits_append_of_le {bs : List Bool} (h : w.bits ≤ bs.length) (cs : List Bool) :
    (ofBits (bs ++ cs) : Word w) = ofBits bs := by
  rw [← ofBits_take, List.take_append_of_le_length h, ofBits_take]

/-- Zeros above the bits do not matter. -/
theorem ofBits_append_replicate (bs : List Bool) (n : Nat) :
    (ofBits (bs ++ List.replicate n false) : Word w) = ofBits bs := by
  apply eq_ofBits
  intro i hi
  rw [getLsbD_ofBits, decide_eq_true hi, Bool.true_and, List.getElem?_append]
  by_cases hlt : i < bs.length
  · rw [if_pos hlt]
  · rw [if_neg hlt, List.getElem?_replicate, List.getElem?_eq_none (by omega)]
    split <;> rfl

/-- Shifting right drops the lowest bits. -/
theorem ofBits_drop {bs : List Bool} (h : bs.length ≤ w.bits) (n : Nat) :
    (ofBits (bs.drop n) : Word w) = ofBits bs >>> n := by
  symm
  apply eq_ofBits
  intro i hi
  rw [BitVec.getLsbD_ushiftRight, getLsbD_ofBits, List.getElem?_drop]
  by_cases hlt : n + i < w.bits
  · simp [hlt]
  · -- beyond the word, and hence beyond the list
    have hle : bs.length ≤ n + i := by omega
    simp [hlt, List.getElem?_eq_none hle]

/-! ### There and back -/

@[simp] theorem getLsbD_lowOnes (n i : Nat) :
    (lowOnes n : Word w).getLsbD i = (decide (i < w.bits) && decide (i < n)) := by
  rw [lowOnes, BitVec.getLsbD_not, BitVec.getLsbD_shiftLeft, BitVec.getLsbD_allOnes]
  by_cases hi : i < w.bits
  · have hsub : i - n < w.bits := by omega
    simp [hi, hsub]
  · simp [hi]

/-- The lowest bits of a word are what a mask leaves of it. -/
theorem ofBits_lowBits (x : Word w) (n : Nat) : ofBits (x.lowBits n) = x &&& lowOnes n := by
  symm
  apply eq_ofBits
  intro i hi
  rw [BitVec.getLsbD_and, getLsbD_lowOnes, getElem?_lowBits, decide_eq_true hi, Bool.true_and]
  by_cases hlt : i < n <;> simp [hlt]

/-- As many bits as a mask has are all that it leaves, and its complement leaves nothing. -/
theorem ofBits_and_not_lowOnes {bs : List Bool} {n : Nat} (h : bs.length ≤ n) :
    (ofBits bs : Word w) &&& ~~~lowOnes n = 0 := by
  apply BitVec.eq_of_getLsbD_eq
  intro i hi
  rw [BitVec.getLsbD_and, BitVec.getLsbD_not, getLsbD_lowOnes, getLsbD_ofBits]
  by_cases hlt : i < n
  · simp [hi, hlt]
  · simp [List.getElem?_eq_none (Nat.le_trans h (Nat.not_lt.mp hlt))]

/-- Some bits from the middle of a word. -/
theorem ofBits_take_drop_lowBits (x : Word w) {i n m : Nat} (h : i + n ≤ m) :
    ofBits (((x.lowBits m).drop i).take n) = x >>> i &&& lowOnes n := by
  symm
  apply eq_ofBits
  intro j hj
  rw [BitVec.getLsbD_and, BitVec.getLsbD_ushiftRight, getLsbD_lowOnes, decide_eq_true hj,
    Bool.true_and, List.getElem?_take]
  by_cases hlt : j < n
  · rw [if_pos hlt, List.getElem?_drop, getElem?_lowBits, if_pos (by omega), decide_eq_true hlt,
      Bool.and_true, Option.getD_some]
  · rw [if_neg hlt, decide_eq_false hlt, Bool.and_false, Option.getD_none]

/-- A word is its lowest bits if and only if the others are clear. -/
theorem ofBits_lowBits_eq_iff (x : Word w) (n : Nat) :
    ofBits (x.lowBits n) = x ↔ ∀ i, i < w.bits → n ≤ i → x.getLsbD i = false := by
  constructor
  · intro h i hi hn
    rw [← h, getLsbD_ofBits, getElem?_lowBits, if_neg (by omega), Option.getD_none, Bool.and_false]
  · intro h
    symm
    apply eq_ofBits
    intro i hi
    rw [getElem?_lowBits]
    by_cases hlt : i < n
    · rw [if_pos hlt, Option.getD_some]
    · rw [if_neg hlt, Option.getD_none, h i hi (by omega)]

@[simp] theorem ofBits_bits (x : Word w) : ofBits x.bits = x := by
  symm
  apply eq_ofBits
  intro i hi
  rw [bits, getElem?_lowBits, if_pos hi, Option.getD_some]

/-- A group of the bits of a word from a position on, with others behind them. -/
theorem group_drop_bits_append (x : Word w) {i n : Nat} (h : i + n ≤ w.bits) (rest : List Bool) :
    x >>> i &&& lowOnes n = ofBits ((x.bits.drop i ++ rest).take n) ∧
      (x.bits.drop i ++ rest).drop n = x.bits.drop (i + n) ++ rest := by
  have hlen : n ≤ (x.bits.drop i).length := by
    rw [List.length_drop, length_bits]
    omega
  constructor
  · rw [List.take_append_of_le_length hlen, bits, ofBits_take_drop_lowBits x h]
  · rw [List.drop_append_of_le_length hlen, List.drop_drop]

/-- All of them. -/
theorem shiftRight_drop_bits_append (x : Word w) (i : Nat) (rest : List Bool) :
    x >>> i = ofBits ((x.bits.drop i ++ rest).take (w.bits - i)) ∧
      (x.bits.drop i ++ rest).drop (w.bits - i) = rest := by
  have hlen : (x.bits.drop i).length = w.bits - i := by
    rw [List.length_drop, length_bits]
  constructor
  · rw [List.take_left' hlen, ofBits_drop (Nat.le_of_eq (length_bits x)), ofBits_bits]
  · rw [List.drop_left' hlen]

/-- As many of the bits that were given as a word has are found again, whatever is above them. -/
theorem lowBits_ofBits_append {bs : List Bool} (h : bs.length ≤ w.bits) (cs : List Bool) :
    (ofBits (bs ++ cs) : Word w).lowBits bs.length = bs := by
  apply List.ext_getElem?
  intro i
  rw [getElem?_lowBits]
  by_cases hi : i < bs.length
  · rw [if_pos hi, getLsbD_ofBits, decide_eq_true (by omega), Bool.true_and,
      List.getElem?_append_left hi, List.getElem?_eq_getElem hi, Option.getD_some]
  · rw [if_neg hi, List.getElem?_eq_none (by omega)]

theorem lowBits_ofBits {bs : List Bool} (h : bs.length ≤ w.bits) :
    (ofBits bs : Word w).lowBits bs.length = bs := by
  have happend := lowBits_ofBits_append h []
  rwa [List.append_nil] at happend

/-- A full word of bits is the bits of its word. -/
theorem bits_ofBits {bs : List Bool} (h : bs.length = w.bits) : (ofBits bs : Word w).bits = bs := by
  rw [bits, ← h]
  exact lowBits_ofBits (Nat.le_of_eq h)

/-- Of more bits than a word has it has the first. -/
theorem bits_ofBits_of_le {bs : List Bool} (h : w.bits ≤ bs.length) :
    (ofBits bs : Word w).bits = bs.take w.bits := by
  rw [← ofBits_take]
  exact bits_ofBits (List.length_take_of_le h)

end PackedBits.Word
