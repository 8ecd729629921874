import PackedBits.Proofs.Word.Bits

/-!
# Bits cut into words

`groups b` are the complete words that a list `b` of bits fills, in order, and `remainder w b` are
the fewer than `w.bits` bits behind them.  The cut is the only one there is: a list that is given as
the bits of some words and fewer than `w.bits` more has these words as its groups
(`groups_joinBits`), and every list can be given so (`joinBits_groups`).

What adding bits does to the cut is said by `groups_append` and `groups_append_full`: bits that do
not fill up the word that is begun only lengthen the remainder, and bits that do add one group, as
long as there are not more of them than a word has.  Zeros up to the end of the word make a group of
the remainder (`groups_padded`).
-/

namespace PackedBits.Word

variable {w : Width}

/-- The complete words that the bits fill. -/
def groups (b : List Bool) : List (Word w) :=
  (List.range (b.length / w.bits)).map fun i => ofBits ((b.drop (i * w.bits)).take w.bits)

/-- The bits behind the complete words. -/
def remainder (w : Width) (b : List Bool) : List Bool :=
  b.drop (b.length / w.bits * w.bits)

@[simp] theorem length_remainder (b : List Bool) :
    (remainder w b).length = b.length % w.bits := by
  have h := Nat.div_add_mod b.length w.bits
  rw [Nat.mul_comm] at h
  rw [remainder, List.length_drop]
  omega

theorem length_remainder_lt (b : List Bool) : (remainder w b).length < w.bits := by
  rw [length_remainder]
  exact Nat.mod_lt _ w.bits_pos

/-! ### The cut -/

theorem groups_of_lt {b : List Bool} (h : b.length < w.bits) : (groups b : List (Word w)) = [] := by
  simp [groups, Nat.div_eq_of_lt h]

theorem remainder_of_lt {b : List Bool} (h : b.length < w.bits) : remainder w b = b := by
  simp [remainder, Nat.div_eq_of_lt h]

@[simp] theorem groups_nil : (groups [] : List (Word w)) = [] := groups_of_lt w.bits_pos

theorem length_bits_append_div (x : Word w) (b : List Bool) :
    (x.bits ++ b).length / w.bits = b.length / w.bits + 1 := by
  rw [List.length_append, length_bits, Nat.add_div_left _ w.bits_pos]

theorem drop_bits_append (x : Word w) (b : List Bool) (i : Nat) :
    (x.bits ++ b).drop ((i + 1) * w.bits) = b.drop (i * w.bits) := by
  rw [Nat.succ_mul, Nat.add_comm, ← List.drop_drop]
  congr 1
  exact List.drop_left' (length_bits x)

theorem groups_bits_append (x : Word w) (b : List Bool) :
    groups (x.bits ++ b) = x :: groups b := by
  rw [groups, length_bits_append_div, List.range_succ_eq_map, List.map_cons, List.map_map]
  congr 1
  · rw [Nat.zero_mul, List.drop_zero, List.take_left' (length_bits x), ofBits_bits]
  · rw [groups]
    apply List.map_congr_left
    intro i _
    rw [Function.comp_apply, drop_bits_append]

theorem remainder_bits_append (x : Word w) (b : List Bool) :
    remainder w (x.bits ++ b) = remainder w b := by
  rw [remainder, length_bits_append_div, drop_bits_append, remainder]

/-- Whole words are cut off first. -/
theorem groups_joinBits_append (ws : List (Word w)) (b : List Bool) :
    groups (joinBits ws ++ b) = ws ++ groups b := by
  induction ws with
  | nil => rfl
  | cons x ws ih => rw [joinBits_cons, List.append_assoc, groups_bits_append, ih, List.cons_append]

/-- The words of a list of bits are found again. -/
theorem groups_joinBits (ws : List (Word w)) {r : List Bool} (h : r.length < w.bits) :
    groups (joinBits ws ++ r) = ws := by
  rw [groups_joinBits_append, groups_of_lt h, List.append_nil]

theorem remainder_joinBits (ws : List (Word w)) {r : List Bool} (h : r.length < w.bits) :
    remainder w (joinBits ws ++ r) = r := by
  induction ws with
  | nil => exact remainder_of_lt h
  | cons x ws ih => rw [joinBits_cons, List.append_assoc, remainder_bits_append, ih]

/-- The groups and the remainder are all the bits. -/
theorem joinBits_groups (w : Width) (b : List Bool) :
    joinBits (groups b : List (Word w)) ++ remainder w b = b := by
  by_cases h : b.length < w.bits
  · rw [groups_of_lt h, remainder_of_lt h, joinBits_nil, List.nil_append]
  · -- the first word's worth of bits is split off
    have hpos := w.bits_pos
    have hx : (ofBits (b.take w.bits) : Word w).bits = b.take w.bits :=
      bits_ofBits (by rw [List.length_take]; omega)
    have hb : (ofBits (b.take w.bits) : Word w).bits ++ b.drop w.bits = b := by
      rw [hx, List.take_append_drop]
    have ih := joinBits_groups w (b.drop w.bits)
    conv => lhs; rw [← hb]
    rw [groups_bits_append, remainder_bits_append, joinBits_cons, List.append_assoc, ih, hb]
  termination_by b.length
  decreasing_by
    rw [List.length_drop]
    omega

/-- A list of bits is those of some words and fewer than a word has. -/
theorem exists_joinBits (w : Width) (b : List Bool) :
    ∃ (ws : List (Word w)) (r : List Bool), b = joinBits ws ++ r ∧ r.length < w.bits :=
  ⟨groups b, remainder w b, (joinBits_groups w b).symm, length_remainder_lt b⟩

/-- Nothing but a whole number of words, and no word. -/
theorem eq_nil_of_groups_eq_nil {b : List Bool} (hgroups : (groups b : List (Word w)) = [])
    (hrem : b.length % w.bits = 0) : b = [] := by
  have hlen : (remainder w b).length = 0 := by rw [length_remainder, hrem]
  rw [← joinBits_groups w b, hgroups, List.eq_nil_of_length_eq_zero hlen]
  rfl

/-- The cut behind some words is at the end of the last of them. -/
theorem cut_joinBits (ws : List (Word w)) {r : List Bool} (h : r.length < w.bits) :
    groups (joinBits ws ++ r) = ws ∧ remainder w (joinBits ws ++ r) = r ∧
      (joinBits ws ++ r).length % w.bits = r.length := by
  have hrem := remainder_joinBits ws h
  refine ⟨groups_joinBits ws h, hrem, ?_⟩
  rw [← length_remainder, hrem]

/-! ### Adding bits -/

/-- Bits that are added leave the complete words as they are. -/
theorem exists_groups_append (b c : List Bool) :
    ∃ ws : List (Word w), groups (b ++ c) = groups b ++ ws := by
  refine ⟨groups (remainder w b ++ c), ?_⟩
  conv => lhs; rw [← joinBits_groups w b, List.append_assoc]
  exact groups_joinBits_append _ _

/-- Bits that leave room in the word that is begun. -/
theorem groups_append {b c : List Bool} (h : b.length % w.bits + c.length < w.bits) :
    (groups (b ++ c) : List (Word w)) = groups b ∧ remainder w (b ++ c) = remainder w b ++ c := by
  have hlt : (remainder w b ++ c).length < w.bits := by
    rwa [List.length_append, length_remainder]
  have hb : b ++ c = joinBits (groups b : List (Word w)) ++ (remainder w b ++ c) := by
    rw [← List.append_assoc, joinBits_groups]
  constructor
  · rw [hb, groups_joinBits _ hlt]
  · conv => lhs; rw [hb]
    rw [remainder_joinBits _ hlt]

/-- Bits that fill up the word that is begun. -/
theorem groups_append_full {b c : List Bool} (h : w.bits ≤ b.length % w.bits + c.length)
    (hc : c.length ≤ w.bits) :
    (groups (b ++ c) : List (Word w)) = groups b ++ [ofBits (remainder w b ++ c)] ∧
      remainder w (b ++ c) = c.drop (w.bits - b.length % w.bits) := by
  have hr := length_remainder_lt (w := w) b
  rw [length_remainder] at hr
  have hx : (ofBits (remainder w b ++ c) : Word w).bits = (remainder w b ++ c).take w.bits :=
    bits_ofBits_of_le (by rw [List.length_append, length_remainder]; exact h)
  have hdrop : (remainder w b ++ c).drop w.bits = c.drop (w.bits - b.length % w.bits) := by
    rw [List.drop_append, length_remainder,
      List.drop_eq_nil_of_le (by rw [length_remainder]; omega), List.nil_append]
  have hlt : (c.drop (w.bits - b.length % w.bits)).length < w.bits := by
    rw [List.length_drop]
    omega
  have hb : b ++ c = joinBits (groups b ++ [(ofBits (remainder w b ++ c) : Word w)])
      ++ c.drop (w.bits - b.length % w.bits) := by
    rw [joinBits_append, joinBits_cons, joinBits_nil, List.append_nil, hx, ← hdrop,
      List.append_assoc, List.take_append_drop, ← List.append_assoc, joinBits_groups]
  constructor
  · conv => lhs; rw [hb]
    rw [groups_joinBits _ hlt]
  · conv => lhs; rw [hb]
    rw [remainder_joinBits _ hlt]

/-! ### Filling up with zeros -/

/-- The bits `b` with zeros behind them, up to the next multiple of the width. -/
def padded (w : Width) (b : List Bool) : List Bool :=
  b ++ List.replicate ((w.bits - b.length % w.bits) % w.bits) false

theorem padded_of_mod_eq_zero {b : List Bool} (h : b.length % w.bits = 0) : padded w b = b := by
  rw [padded, h, Nat.sub_zero, Nat.mod_self, List.replicate_zero, List.append_nil]

/-- The zeros complete the word that is begun. -/
theorem groups_padded {b : List Bool} (h : 0 < b.length % w.bits) :
    (groups (padded w b) : List (Word w)) = groups b ++ [ofBits (remainder w b)] ∧
      remainder w (padded w b) = [] := by
  have hr := Nat.mod_lt b.length w.bits_pos
  have hzeros : (w.bits - b.length % w.bits) % w.bits = w.bits - b.length % w.bits :=
    Nat.mod_eq_of_lt (by omega)
  obtain ⟨hg, hrem⟩ := groups_append_full (w := w) (b := b)
    (c := List.replicate (w.bits - b.length % w.bits) false)
    (by rw [List.length_replicate]; omega) (by rw [List.length_replicate]; omega)
  rw [padded, hzeros]
  constructor
  · rw [hg, ofBits_append_replicate]
  · rw [hrem, List.drop_eq_nil_of_le (Nat.le_of_eq List.length_replicate)]

end PackedBits.Word
