import PackedBits.Proofs.EndMark
import PackedBits.Proofs.Word.Groups

/-!
# How a stream of bits is laid out in words

A stream of bits is a list `b` of booleans.  In words it is `layout marked b`: the groups of `b`,
and an `ending` that holds the remainder and, in a marked stream, the mark.  In the other direction
`validBits ws` are the bits that a marked stream of words `ws` stands for, whatever the words are:
the last word says how many bits of it are valid, or, if the count is too great to stand beside a
payload, how many of the word before it.

* `validBits_layout`: the bits laid out are the valid bits.
* `layout_validBits_iff`: the valid bits laid out again are the words if and only if these are
  `Canonical`, which says on the last two words that all that does not count is clear.

Neither direction mentions a packer or an unpacker.  Both are stated of any words, and the case
split is always the one on the last word: `validBits_concat_of_lt` for a mark beside its payload,
`validBits_concat_of_le` for a mark in a word of its own.
-/

namespace PackedBits.Layout

open Word EndMark

variable {w : Width}

/-- The words behind the groups of a stream of bits. -/
def ending (marked : Bool) (b : List Bool) : List (Word w) :=
  let r := b.length % w.bits
  if marked then
    if b = [] then []
    else if r = 0 then [encode w.bits]
    else if r < payloadBits w then [ofBits (remainder w b) ||| encode r]
    else [ofBits (remainder w b), encode r]
  else if r = 0 then []
  else [ofBits (remainder w b)]

/-- The words of a stream of bits. -/
def layout (marked : Bool) (b : List Bool) : List (Word w) :=
  groups b ++ ending marked b

/-- The bits that the words of a marked stream stand for. -/
def validBits (ws : List (Word w)) : List Bool :=
  match ws.reverse with
  | [] => []
  | [x] => x.lowBits (decode x)
  | y :: x :: before =>
    if payloadBits w ≤ decode y then
      joinBits before.reverse ++ x.lowBits (decode y)
    else
      joinBits (x :: before).reverse ++ y.lowBits (decode y)

/-- Whether all that does not count in the words of a marked stream is clear: what is between the
valid bits and the field of a mark that stands beside them, and the top bit above it; or else what
is above the valid bits of the last word but one, and all but the field of a mark in a word of its
own. -/
def Canonical (ws : List (Word w)) : Prop :=
  ∀ last ∈ ws.getLast?,
    (decode last < payloadBits w ∧
      (∀ i, i < payloadBits w - 1 → decode last ≤ i → last.getLsbD i = false) ∧
      last.getLsbD (w.bits - 1) = false) ∨
    (payloadBits w ≤ decode last ∧ last = encode (decode last) ∧
      ∃ prev ∈ ws.dropLast.getLast?,
        ∀ i, i < w.bits → decode last ≤ i → prev.getLsbD i = false)

instance (ws : List (Word w)) : Decidable (Canonical ws) :=
  inferInstanceAs (Decidable (∀ last ∈ ws.getLast?, _))

/-! ### The valid bits -/

@[simp] theorem validBits_nil : validBits ([] : List (Word w)) = [] := rfl

@[simp] theorem validBits_singleton (x : Word w) : validBits [x] = x.lowBits (decode x) := rfl

/-- A mark beside its payload. -/
theorem validBits_concat_of_lt (ws : List (Word w)) {y : Word w}
    (h : decode y < payloadBits w) :
    validBits (ws ++ [y]) = joinBits ws ++ y.lowBits (decode y) := by
  rcases ws.eq_nil_or_concat with rfl | ⟨init, x, rfl⟩
  · rfl
  · simp [validBits, Nat.not_le.mpr h]

/-- A mark in a word of its own. -/
theorem validBits_concat_of_le (ws : List (Word w)) (x : Word w) {y : Word w}
    (h : payloadBits w ≤ decode y) :
    validBits (ws ++ [x, y]) = joinBits ws ++ x.lowBits (decode y) := by
  simp [validBits, h]

/-- The valid bits from the front: a word is full, unless nothing but a word with a mark of its own
comes behind it. -/
theorem validBits_cons_cons (x y : Word w) (ws : List (Word w)) :
    validBits (x :: y :: ws) =
      if ws = [] ∧ payloadBits w ≤ decode y then x.lowBits (decode y)
      else x.bits ++ validBits (y :: ws) := by
  rcases ws.eq_nil_or_concat with rfl | ⟨init, z, rfl⟩
  · by_cases h : payloadBits w ≤ decode y <;> simp [validBits, h]
  · rw [if_neg (by simp)]
    -- the last two words are the same with and without the first one
    obtain ⟨init', u, hu⟩ := (List.eq_nil_or_concat (y :: init)).resolve_left (by simp)
    have hy : y :: init.concat z = init' ++ [u, z] := by
      rw [List.concat_eq_append, ← List.cons_append, hu, List.concat_eq_append, List.append_assoc]
      rfl
    rw [hy]
    by_cases h : payloadBits w ≤ decode z
    · rw [← List.cons_append, validBits_concat_of_le _ _ h, validBits_concat_of_le _ _ h,
        joinBits_cons, List.append_assoc]
    · have h' := Nat.not_le.mp h
      have hz : init' ++ [u, z] = (init' ++ [u]) ++ [z] := by simp
      rw [hz, ← List.cons_append, validBits_concat_of_lt _ h', validBits_concat_of_lt _ h',
        joinBits_cons, List.append_assoc]

theorem joinBits_lowBits_ne_nil (ws : List (Word w)) (x : Word w) {n : Nat} (h : 0 < n) :
    joinBits ws ++ x.lowBits n ≠ [] := by
  apply List.append_ne_nil_of_right_ne_nil
  intro hnil
  exact Nat.ne_of_gt h ((lowBits_eq_nil_iff x n).mp hnil)

/-- There is a valid bit as soon as there is a word, since no mark stands for none. -/
theorem validBits_ne_nil {ws : List (Word w)} (h : ws ≠ []) : validBits ws ≠ [] := by
  obtain ⟨init, y, rfl⟩ := ws.eq_nil_or_concat.resolve_left h
  have hpos := decode_pos y
  rw [List.concat_eq_append]
  rcases Nat.lt_or_ge (decode y) (payloadBits w) with hlt | hle
  · rw [validBits_concat_of_lt _ hlt]
    exact joinBits_lowBits_ne_nil init y hpos
  · rcases init.eq_nil_or_concat with rfl | ⟨init, x, rfl⟩
    · exact joinBits_lowBits_ne_nil [] y hpos
    · rw [List.concat_eq_append, List.append_assoc, List.singleton_append,
        validBits_concat_of_le _ _ hle]
      exact joinBits_lowBits_ne_nil init x hpos

/-! ### The words of a stream that ends in a given word -/

/-- A stream without bits has no words, and no mark either. -/
@[simp] theorem layout_nil (marked : Bool) : layout marked [] = ([] : List (Word w)) := by
  cases marked <;> simp [layout, ending]

/-- Every stream that is not empty ends with the lowest bits of a word that has no others. -/
theorem eq_nil_or_exists_lowBits (w : Width) (b : List Bool) :
    b = [] ∨ ∃ (ws : List (Word w)) (x : Word w) (n : Nat),
      b = joinBits ws ++ x.lowBits n ∧ ofBits (x.lowBits n) = x ∧ 0 < n ∧ n ≤ w.bits := by
  obtain ⟨ws, r, rfl, hr⟩ := exists_joinBits w b
  rcases Nat.eq_zero_or_pos r.length with h0 | hpos
  · obtain rfl := List.eq_nil_of_length_eq_zero h0
    rcases ws.eq_nil_or_concat with rfl | ⟨init, x, rfl⟩
    · exact Or.inl rfl
    · exact Or.inr ⟨init, x, w.bits, by simp [bits], ofBits_bits x, w.bits_pos, Nat.le_refl _⟩
  · refine Or.inr ⟨ws, ofBits r, r.length, ?_, ?_, hpos, Nat.le_of_lt hr⟩
    · rw [lowBits_ofBits (Nat.le_of_lt hr)]
    · rw [lowBits_ofBits (Nat.le_of_lt hr)]

/-- The mark stands beside few bits. -/
theorem layout_beside (ws : List (Word w)) (x : Word w) {n : Nat} (hpos : 0 < n)
    (hlt : n < payloadBits w) :
    layout true (joinBits ws ++ x.lowBits n) = ws ++ [ofBits (x.lowBits n) ||| encode n] := by
  have hne := joinBits_lowBits_ne_nil ws x hpos
  have hlen := length_lowBits x n
  have hn : (x.lowBits n).length < w.bits := by
    rw [hlen]
    exact Nat.lt_trans hlt (payloadBits_lt w)
  obtain ⟨hgroups, hrem, hmod⟩ := cut_joinBits ws hn
  unfold layout ending
  simp only [hgroups, hrem, hmod, hlen, hne, Nat.ne_of_gt hpos, hlt, ↓reduceIte]

/-- The mark stands apart from many bits. -/
theorem layout_apart (ws : List (Word w)) {x : Word w} {n : Nat} (hle : payloadBits w ≤ n)
    (hn : n ≤ w.bits) (hx : ofBits (x.lowBits n) = x) :
    layout true (joinBits ws ++ x.lowBits n) = ws ++ [x, encode n] := by
  have hpos : 0 < n := by
    have hpayload := payloadBits_eq w
    omega
  have hne := joinBits_lowBits_ne_nil ws x hpos
  unfold layout ending
  rcases Nat.lt_or_eq_of_le hn with hlt | rfl
  · have hlen := length_lowBits x n
    obtain ⟨hgroups, hrem, hmod⟩ := cut_joinBits ws (r := x.lowBits n) (by rwa [hlen])
    rw [hgroups, hrem, hx, hmod, hlen]
    simp only [hne, Nat.ne_of_gt hpos, Nat.not_lt.mpr hle, ↓reduceIte]
  · -- a full word is one more group, with nothing behind it
    have hb : joinBits ws ++ x.lowBits w.bits = joinBits (ws ++ [x]) ++ [] := by simp [bits]
    obtain ⟨hgroups, -, hmod⟩ := cut_joinBits (ws ++ [x]) (r := []) w.bits_pos
    rw [hb] at hne ⊢
    rw [hgroups, hmod]
    simp only [hne, List.length_nil, ↓reduceIte, List.append_assoc, List.singleton_append]

theorem lowBits_or_encode (x : Word w) {n : Nat} (h : n < payloadBits w) :
    (x ||| encode n).lowBits n = x.lowBits n := by
  have hshift := payloadBits_eq w
  apply List.map_congr_left
  intro i hi
  have hi' := List.mem_range.mp hi
  rw [BitVec.getLsbD_or, getLsbD_encode_of_lt_shift n (by omega), Bool.or_false]

/-- A word with no bits beyond those that stand beside a mark leaves the field clear. -/
theorem decode_beside {x : Word w} {n : Nat} (hx : ofBits (x.lowBits n) = x) (hpos : 0 < n)
    (hlt : n < payloadBits w) : decode (x ||| encode n) = n := by
  have hshift := payloadBits_eq w
  have hsum := shift_add_fieldBits w
  have hbits := payloadBits_lt w
  apply decode_or_encode ⟨hpos, by omega⟩
  intro i hi hi'
  exact (ofBits_lowBits_eq_iff x n).mp hx i (by omega) (by omega)

/-! ### Laying out and reading -/

/-- The bits laid out in words are the valid bits of the words. -/
theorem validBits_layout (w : Width) (b : List Bool) :
    validBits (layout true b : List (Word w)) = b := by
  rcases eq_nil_or_exists_lowBits w b with rfl | ⟨ws, x, n, rfl, hx, hpos, hn⟩
  · rw [layout_nil, validBits_nil]
  · -- the mark that was written beside the bits or apart from them is found in the same place
    rcases Nat.lt_or_ge n (payloadBits w) with hlt | hle
    · have hdec := decode_beside hx hpos hlt
      rw [layout_beside ws x hpos hlt, hx, validBits_concat_of_lt ws (by rwa [hdec]), hdec,
        lowBits_or_encode x hlt]
    · have hdec := decode_encode (w := w) ⟨hpos, hn⟩
      rw [layout_apart ws hle hn hx, validBits_concat_of_le ws x (by rwa [hdec]), hdec]

/-! ### Marks with other bits beside them

A last word may have more in it than the bits that count.  Where the mark stands apart, or none of
its bits count, that does not matter; where the mark stands beside them, it does as far as it
changes the count. -/

theorem length_validBits_concat (ws : List (Word w)) (y : Word w) :
    (validBits (ws ++ [y])).length
      = (if payloadBits w ≤ decode y then ws.length - 1 else ws.length) * w.bits + decode y := by
  rcases Nat.lt_or_ge (decode y) (payloadBits w) with hlt | hle
  · rw [validBits_concat_of_lt ws hlt, if_neg (Nat.not_le.mpr hlt), List.length_append,
      length_joinBits, length_lowBits]
  · rw [if_pos hle]
    rcases ws.eq_nil_or_concat with rfl | ⟨init, x, rfl⟩
    · simp
    · rw [List.concat_eq_append, List.append_assoc, List.singleton_append,
        validBits_concat_of_le init x hle, List.length_append, length_joinBits, length_lowBits,
        List.length_append, List.length_singleton, Nat.add_sub_cancel]

/-- A full word, and a mark that has any bits beside it. -/
theorem validBits_groups_full {b : List Bool} (hb : b ≠ []) (hr : b.length % w.bits = 0)
    (x : Word w) : validBits (groups b ++ [x ||| encode w.bits]) = b := by
  have hgroups : (groups b : List (Word w)) ≠ [] := fun hnil => hb (eq_nil_of_groups_eq_nil hnil hr)
  have hrem : remainder w b = [] := by
    apply List.eq_nil_of_length_eq_zero
    rw [Word.length_remainder, hr]
  have hjoin := joinBits_groups w b
  have hdec := decode_or_encode_bits x
  obtain ⟨init, y, hinit⟩ := (List.eq_nil_or_concat _).resolve_left hgroups
  rw [List.concat_eq_append] at hinit
  rw [hrem, List.append_nil, hinit] at hjoin
  rw [hinit, List.append_assoc, List.singleton_append,
    validBits_concat_of_le init y (by rw [hdec]; exact Nat.le_of_lt (payloadBits_lt w)), hdec]
  conv => rhs; rw [← hjoin]
  simp [bits]

/-- A word with any bits above those that count, and the mark behind it. -/
theorem validBits_groups_apart {b : List Bool} {x : Word w}
    (hle : payloadBits w ≤ b.length % w.bits)
    (hx : x.lowBits (b.length % w.bits) = remainder w b) :
    validBits (groups b ++ [x, encode (b.length % w.bits)]) = b := by
  have hpayload := payloadBits_eq w
  have hlt := Nat.mod_lt b.length w.bits_pos
  have hdec := decode_encode (w := w) ⟨show 0 < b.length % w.bits by omega, Nat.le_of_lt hlt⟩
  rw [validBits_concat_of_le _ x (by rw [hdec]; exact hle), hdec, hx, joinBits_groups]

/-- A word with any bits above those that count, and the mark among them. -/
theorem validBits_groups_beside_iff {b : List Bool} {x : Word w} (hpos : 0 < b.length % w.bits)
    (hlt : b.length % w.bits < payloadBits w)
    (hx : x.lowBits (b.length % w.bits) = remainder w b) :
    validBits (groups b ++ [x ||| encode (b.length % w.bits)]) = b ↔
      decode (x ||| encode (b.length % w.bits)) = b.length % w.bits := by
  have hjoin := joinBits_groups w b
  constructor
  · intro h
    have hcount := decode_le (x ||| encode (b.length % w.bits))
    have hbits := congrArg List.length hjoin
    rw [List.length_append, length_joinBits, Word.length_remainder] at hbits
    have hlen := congrArg List.length h
    rw [length_validBits_concat] at hlen
    split at hlen
    · -- a count that refers to the word before falls short by more than it can make up for
      rcases hgroups : (groups b : List (Word w)).length with _ | m
      · rw [hgroups] at hlen hbits
        omega
      · rw [hgroups, Nat.succ_mul] at hbits
        rw [hgroups, Nat.add_sub_cancel] at hlen
        omega
    · omega
  · intro hdec
    rw [validBits_concat_of_lt _ (by rw [hdec]; exact hlt), hdec, lowBits_or_encode x hlt, hx,
      hjoin]

/-- What is laid out is canonical. -/
theorem canonical_layout (w : Width) (b : List Bool) :
    Canonical (layout true b : List (Word w)) := by
  have hshift := payloadBits_eq w
  have hsum := shift_add_fieldBits w
  have hfield := payloadBits_lt w
  rcases eq_nil_or_exists_lowBits w b with rfl | ⟨ws, x, n, rfl, hx, hpos, hn⟩
  · simp [Canonical]
  · have hclear := (ofBits_lowBits_eq_iff x n).mp hx
    intro last hlast
    rcases Nat.lt_or_ge n (payloadBits w) with hlt | hle
    · have hdec := decode_beside hx hpos hlt
      rw [layout_beside ws x hpos hlt, hx, List.getLast?_concat, Option.mem_some] at hlast
      subst hlast
      rw [hdec]
      refine Or.inl ⟨hlt, ?_, ?_⟩
      -- neither the bits nor the mark reach into the gap or the top
      · intro i hi hni
        rw [BitVec.getLsbD_or, hclear i (by omega) hni, Bool.false_or,
          getLsbD_encode_of_lt_shift n (by omega)]
      · rw [BitVec.getLsbD_or, hclear _ (by omega) (by omega), Bool.false_or,
          getLsbD_encode_of_top hn (by omega)]
    · have hdec := decode_encode (w := w) ⟨hpos, hn⟩
      have hsplit : ws ++ [x, encode n] = (ws ++ [x]) ++ [encode n] := by simp
      rw [layout_apart ws hle hn hx, hsplit] at hlast ⊢
      rw [List.getLast?_concat, Option.mem_some] at hlast
      subst hlast
      rw [hdec, List.dropLast_concat, List.getLast?_concat]
      exact Or.inr ⟨hle, rfl, x, rfl, hclear⟩

/-- A word with a mark beside its payload that is canonical is made of the two. -/
theorem eq_or_encode_of_clear {x : Word w} (hlt : decode x < payloadBits w)
    (hclear : ∀ i, i < payloadBits w - 1 → decode x ≤ i → x.getLsbD i = false)
    (htop : x.getLsbD (w.bits - 1) = false) :
    x = ofBits (x.lowBits (decode x)) ||| encode (decode x) := by
  have hshift := payloadBits_eq w
  have hsum := shift_add_fieldBits w
  have hfield := payloadBits_lt w
  apply BitVec.eq_of_getLsbD_eq
  intro i hi
  rw [BitVec.getLsbD_or, getLsbD_ofBits, getElem?_lowBits, decide_eq_true hi, Bool.true_and]
  -- from below: the valid bits, those between them and the field, the field, the top bit
  rcases Nat.lt_or_ge i (decode x) with hi1 | hi1
  · rw [if_pos hi1, Option.getD_some, getLsbD_encode_of_lt_shift _ (by omega), Bool.or_false]
  rw [if_neg (Nat.not_lt.mpr hi1), Option.getD_none, Bool.false_or]
  rcases Nat.lt_or_ge i (shift w) with hi2 | hi2
  · rw [hclear i (by omega) hi1, getLsbD_encode_of_lt_shift _ hi2]
  rcases Nat.lt_or_ge i (shift w + fieldBits w) with hi3 | hi3
  · rw [getLsbD_encode, decide_eq_true hi, decide_eq_true hi2, Bool.true_and, Bool.true_and,
      testBit_decode x (by omega), Nat.add_sub_cancel' hi2]
  · rw [getLsbD_encode_of_top (decode_le x) hi3, show i = w.bits - 1 by omega, htop]

/-- The valid bits of canonical words are laid out as these words. -/
theorem layout_validBits {ws : List (Word w)} (h : Canonical ws) :
    layout true (validBits ws) = ws := by
  rcases ws.eq_nil_or_concat with rfl | ⟨init, y, rfl⟩
  · rw [validBits_nil, layout_nil]
  rw [List.concat_eq_append] at h ⊢
  -- the two forms of a canonical end are the two ways to write a mark
  rcases h y List.getLast?_concat with ⟨hlt, hclear, htop⟩ | ⟨hle, hmark, x, hx, hclear⟩
  · rw [validBits_concat_of_lt init hlt, layout_beside init y (decode_pos y) hlt,
      ← eq_or_encode_of_clear hlt hclear htop]
  · rw [List.dropLast_concat] at hx
    obtain ⟨init', rfl⟩ := List.getLast?_eq_some_iff.mp hx
    have hsplit : init' ++ [x] ++ [y] = init' ++ [x, y] := by simp
    rw [hsplit, validBits_concat_of_le init' x hle, layout_apart init' hle (decode_le y)
      ((ofBits_lowBits_eq_iff x _).mpr hclear), ← hmark]

/-- The valid bits are laid out as the words they were read from exactly if these are canonical. -/
theorem layout_validBits_iff (ws : List (Word w)) :
    layout true (validBits ws) = ws ↔ Canonical ws := by
  constructor
  · intro h
    rw [← h]
    exact canonical_layout w (validBits ws)
  · exact layout_validBits

end PackedBits.Layout
