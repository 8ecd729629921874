import Mathlib.Data.List.Basic
import PackedBits.Json.Token

/-!
# Reading back what is written in JSON

What is written in this library is made of marks, plain strings and numerals, in ASCII.  Each of
them is read back as one token, whatever follows it, and so the tokens of a text that is written are
known piece by piece:

  * the bytes of an ASCII text are those of its characters (`toUTF8_of_ascii`);
  * a numeral stands for its number (`natOfDigits_numeral`), is all digits and has no zero in front
    of other digits, and so is one token if what follows cannot go on with it (`tokens_numeral`);
  * a string without quotes, backslashes and control characters says what is between its quotes
    (`tokens_quoted`).
-/

namespace PackedBits.Json

/-! ### The bytes of a text -/

theorem toList_byteArray_loop (bytes : ByteArray) (i : Nat) (front : List UInt8) :
    ByteArray.toList.loop bytes i front = front.reverse ++ bytes.data.toList.drop i := by
  fun_induction ByteArray.toList.loop bytes i front with
  | case1 i front hlt ih =>
    have hi : i < bytes.data.toList.length := hlt
    rw [ih, List.reverse_cons, List.append_assoc, List.singleton_append,
      List.drop_eq_getElem_cons hi]
    congr 2
    exact getElem!_pos bytes.data i hlt
  | case2 i front hge =>
    rw [List.drop_eq_nil_of_le (Nat.not_lt.mp hge), List.append_nil]

theorem toList_byteArray (bytes : ByteArray) : bytes.toList = bytes.data.toList :=
  toList_byteArray_loop bytes 0 []

theorem toUTF8_append (s t : String) :
    (s ++ t).toUTF8.toList = s.toUTF8.toList ++ t.toUTF8.toList := by
  rw [toList_byteArray, toList_byteArray, toList_byteArray, String.toUTF8_eq_toByteArray,
    String.toByteArray_append, ByteArray.data_append, Array.toList_append]
  rfl

/-- The bytes of an ASCII text are those of its characters. -/
theorem toUTF8_of_ascii {s : String} (hs : s.toList.all fun c => c.utf8Size == 1) :
    s.toUTF8.toList = s.toList.map byte := by
  rw [toList_byteArray, String.toUTF8_eq_toByteArray, ← String.utf8Encode_toList, List.utf8Encode,
    List.toList_data_toByteArray, List.map_eq_flatMap]
  refine List.flatMap_congr fun c hc => ?_
  exact String.utf8EncodeChar_eq_singleton (beq_iff_eq.mp (List.all_eq_true.mp hs c hc))

/-! ### Numerals -/

/-- The decimal digits of a number. -/
def numeral (n : Nat) : List UInt8 :=
  (Nat.toDigits 10 n).map byte

theorem numeral_of_lt {n : Nat} (h : n < 10) : numeral n = [byte n.digitChar] := by
  rw [numeral, Nat.toDigits_of_lt_base h]
  rfl

theorem numeral_of_le {n : Nat} (h : 10 ≤ n) :
    numeral n = numeral (n / 10) ++ [byte (n % 10).digitChar] := by
  rw [numeral, Nat.toDigits_of_base_le (by decide) h, List.map_append]
  rfl

theorem toUTF8_toString (n : Nat) : (toString n).toUTF8.toList = numeral n := by
  rw [Nat.toString_eq_ofList_toDigits, toUTF8_of_ascii, String.toList_ofList]
  · rfl
  · rw [String.toList_ofList, List.all_eq_true]
    intro c hc
    have hdigit :=
      Char.isDigit_iff_toNat.mp (Nat.isDigit_of_mem_toDigits (by decide) (by decide) hc)
    exact beq_iff_eq.mpr (Char.utf8Size_eq_one_iff.mpr (Nat.le_trans hdigit.2 (by decide)))

/-- The digits of a numeral, one by one. -/
theorem digit_digitChar {n : Nat} (h : n < 10) :
    isDigit (byte n.digitChar) = true ∧ digitValue (byte n.digitChar) = n := by
  revert n
  decide

theorem isDigit_of_mem_numeral {n : Nat} {b : UInt8} (hb : b ∈ numeral n) : isDigit b = true := by
  induction n using Nat.strongRecOn with
  | ind n ih =>
    rcases Nat.lt_or_ge n 10 with hlt | hge
    · rw [numeral_of_lt hlt, List.mem_singleton] at hb
      rw [hb]
      exact (digit_digitChar hlt).1
    · rw [numeral_of_le hge, List.mem_append, List.mem_singleton] at hb
      rcases hb with hb | rfl
      · exact ih (n / 10) (by omega) hb
      · exact (digit_digitChar (Nat.mod_lt n (by decide))).1

theorem natOfDigits_concat (digits : List UInt8) (d : UInt8) :
    NumberParts.natOfDigits (digits ++ [d])
      = 10 * NumberParts.natOfDigits digits + digitValue d := by
  rw [NumberParts.natOfDigits, List.foldl_append]
  rfl

/-- A numeral stands for its number. -/
theorem natOfDigits_numeral (n : Nat) : NumberParts.natOfDigits (numeral n) = n := by
  induction n using Nat.strongRecOn with
  | ind n ih =>
    rcases Nat.lt_or_ge n 10 with hlt | hge
    · rw [numeral_of_lt hlt]
      show 10 * 0 + digitValue _ = n
      rw [(digit_digitChar hlt).2, Nat.mul_zero, Nat.zero_add]
    · rw [numeral_of_le hge, natOfDigits_concat, ih (n / 10) (by omega),
        (digit_digitChar (Nat.mod_lt n (by decide))).2, Nat.div_add_mod]

theorem numeral_ne_nil (n : Nat) : numeral n ≠ [] := by
  rw [numeral, Ne, List.map_eq_nil_iff]
  exact Nat.toDigits_ne_nil

/-- Only zero begins with a zero. -/
theorem length_numeral_of_head {n : Nat} (h : (numeral n).head? = some (byte '0')) :
    (numeral n).length = 1 := by
  induction n using Nat.strongRecOn with
  | ind n ih =>
    rcases Nat.lt_or_ge n 10 with hlt | hge
    · rw [numeral_of_lt hlt, List.length_singleton]
    · -- the digit in front is that of a smaller number, which would have to be zero
      rw [numeral_of_le hge, List.head?_append_of_ne_nil _ (numeral_ne_nil _)] at h
      have hone := ih (n / 10) (by omega) h
      rcases Nat.lt_or_ge (n / 10) 10 with hsmall | hlarge
      · rw [numeral_of_lt hsmall, List.head?_cons, Option.some_inj] at h
        have hvalue := (digit_digitChar hsmall).2
        rw [h, show digitValue (byte '0') = 0 from rfl] at hvalue
        omega
      · have hlen : 0 < (numeral (n / 10 / 10)).length := List.length_pos_iff.mpr (numeral_ne_nil _)
        rw [numeral_of_le hlarge, List.length_append, List.length_singleton] at hone
        omega

/-! ### Tokens -/

theorem tokens_cons {b : UInt8} {rest : List UInt8} {t : Token} {n : Nat}
    (hblank : isBlank b = false) (htoken : tokenAt b rest = (t, some n)) :
    tokens (b :: rest) = t :: tokens (rest.drop n) := by
  rw [tokens, hblank, htoken]
  rfl

/-! A number ends in front of what is neither a digit nor the beginning of a fraction or an
exponent. -/

/-- Whether a number does not go on with a byte. -/
def EndsNumber (b : UInt8) : Prop :=
  isDigit b = false ∧ b ≠ byte '.' ∧ b ≠ byte 'e' ∧ b ≠ byte 'E'

instance (b : UInt8) : Decidable (EndsNumber b) :=
  inferInstanceAs (Decidable (isDigit b = false ∧ b ≠ byte '.' ∧ b ≠ byte 'e' ∧ b ≠ byte 'E'))

theorem takeDigits_numeral (n : Nat) {b : UInt8} (hb : isDigit b = false) (rest : List UInt8) :
    takeDigits (numeral n ++ b :: rest) = .ok (numeral n, b :: rest) := by
  have hdigits : ∀ d ∈ numeral n, isDigit d = true := fun d hd => isDigit_of_mem_numeral hd
  have hwhole : (numeral n ++ b :: rest).takeWhile isDigit = numeral n := by
    rw [List.takeWhile_append_of_pos hdigits, List.takeWhile_cons_of_neg (by simp [hb]),
      List.append_nil]
  have hrest : (numeral n ++ b :: rest).dropWhile isDigit = b :: rest := by
    rw [List.dropWhile_append_of_pos hdigits, List.dropWhile_cons_of_neg (by simp [hb])]
  unfold takeDigits
  rw [hwhole, hrest]
  split
  · next hnil => exact absurd hnil (numeral_ne_nil n)
  · rfl

theorem takeNumber_numeral (n : Nat) {b : UInt8} (hb : EndsNumber b) (rest : List UInt8) :
    takeNumber false (numeral n ++ b :: rest)
      = .ok ({ negative := false, whole := numeral n }, b :: rest) := by
  obtain ⟨hdigit, hpoint, hlower, hupper⟩ := hb
  have hzeros : ¬((numeral n).head? = some (byte '0') ∧ 1 < (numeral n).length) := by
    rintro ⟨hhead, hlen⟩
    rw [length_numeral_of_head hhead] at hlen
    exact absurd hlen (by decide)
  have hfraction : takeFraction (b :: rest) = .ok (none, b :: rest) := if_neg hpoint
  have hexponent : takeExponent (b :: rest) = .ok (none, b :: rest) :=
    if_neg (not_or.mpr ⟨hlower, hupper⟩)
  unfold takeNumber
  rw [takeDigits_numeral n hdigit]
  simp only [bind, Except.bind, if_neg hzeros, hfraction, hexponent]
  rfl

theorem ne_of_isDigit {b c : UInt8} (hb : isDigit b = true) (hc : isDigit c = false) : b ≠ c := by
  rintro rfl
  rw [hb] at hc
  exact absurd hc (by decide)

theorem isBlank_of_isDigit {b : UInt8} (hb : isDigit b = true) : isBlank b = false := by
  unfold isBlank
  rw [decide_eq_false (ne_of_isDigit hb (by decide)),
    decide_eq_false (ne_of_isDigit hb (by decide)),
    decide_eq_false (ne_of_isDigit hb (by decide)),
    decide_eq_false (ne_of_isDigit hb (by decide))]
  rfl

/-- A digit begins a number. -/
theorem tokenAt_of_isDigit {b : UInt8} (hb : isDigit b = true) {rest : List UInt8}
    {parts : NumberParts} {behind : List UInt8}
    (hnumber : takeNumber false (b :: rest) = .ok (parts, behind)) :
    tokenAt b rest = (.number (.ok parts), some (rest.length - behind.length)) := by
  have hne : ∀ {c : UInt8}, isDigit c = false → b ≠ c := ne_of_isDigit hb
  unfold tokenAt
  rw [if_neg (hne (by decide)), if_neg (hne (by decide)), if_neg (hne (by decide)),
    if_neg (hne (by decide)), if_neg (hne (by decide)), if_neg (hne (by decide)),
    if_neg (hne (by decide)), if_pos (.inr hb), if_neg (hne (by decide)), hnumber]

/-- A numeral is one token. -/
theorem tokens_numeral (n : Nat) {b : UInt8} (hb : EndsNumber b) (rest : List UInt8) :
    tokens (numeral n ++ b :: rest)
      = .number (.ok { negative := false, whole := numeral n }) :: tokens (b :: rest) := by
  have hnumber := takeNumber_numeral n hb rest
  have hdigits : ∀ d ∈ numeral n, isDigit d = true := fun d hd => isDigit_of_mem_numeral hd
  cases hnumeral : numeral n with
  | nil => exact absurd hnumeral (numeral_ne_nil n)
  | cons d digits =>
    rw [hnumeral] at hnumber hdigits
    have hd : isDigit d = true := hdigits d List.mem_cons_self
    rw [List.cons_append] at hnumber ⊢
    rw [tokens_cons (isBlank_of_isDigit hd) (tokenAt_of_isDigit hd hnumber), List.length_append,
      Nat.add_sub_cancel, List.drop_left]

/-! A string ends at the first quote behind bytes that stand for themselves. -/

/-- Whether a byte stands for itself in a string. -/
def Plain (b : UInt8) : Prop :=
  b ≠ byte '"' ∧ b ≠ byte '\\' ∧ 0x20 ≤ b

instance (b : UInt8) : Decidable (Plain b) :=
  inferInstanceAs (Decidable (b ≠ byte '"' ∧ b ≠ byte '\\' ∧ 0x20 ≤ b))

theorem bodyLength_plain {body : List UInt8} (hbody : ∀ b ∈ body, Plain b) (rest : List UInt8) :
    bodyLength (body ++ byte '"' :: rest) = .ok (body.length + 1) := by
  induction body with
  | nil =>
    cases rest with
    | nil => rfl
    | cons e rest =>
      unfold bodyLength
      exact if_pos rfl
  | cons b body ih =>
    obtain ⟨⟨hquote, hescape, hcontrol⟩, hrest⟩ := List.forall_mem_cons.mp hbody
    -- there is a byte behind `b`, if only the quote
    obtain ⟨e, more, heq⟩ : ∃ e more, body ++ byte '"' :: rest = e :: more := by
      cases body with
      | nil => exact ⟨_, _, rfl⟩
      | cons e body => exact ⟨_, _, rfl⟩
    rw [List.cons_append, heq]
    unfold bodyLength
    rw [if_neg hquote, if_neg hescape, if_pos hcontrol, ← heq, ih hrest]
    rfl

theorem decodeBodyIn_plain {body : List UInt8} (hbody : ∀ b ∈ body, Plain b) (rest : List UInt8)
    {fuel : Nat} (hfuel : body.length < fuel) :
    decodeBodyIn fuel (body ++ byte '"' :: rest) = .ok body := by
  induction body generalizing fuel with
  | nil =>
    obtain ⟨fuel, rfl⟩ := Nat.exists_eq_add_one.mpr hfuel
    rfl
  | cons b body ih =>
    obtain ⟨⟨hquote, hescape, hcontrol⟩, hrest⟩ := List.forall_mem_cons.mp hbody
    obtain ⟨fuel, rfl⟩ := Nat.exists_eq_add_one.mpr (Nat.zero_lt_of_lt hfuel)
    rw [List.cons_append]
    unfold decodeBodyIn
    rw [if_neg hquote, if_neg hescape, if_pos hcontrol, ih hrest (Nat.lt_of_succ_lt_succ hfuel)]
    rfl

/-- A plain string is one token. -/
theorem tokens_quoted {body : List UInt8} (hbody : ∀ b ∈ body, Plain b) (rest : List UInt8) :
    tokens (byte '"' :: (body ++ byte '"' :: rest))
      = .string (.ok body) (.ok ()) :: tokens rest := by
  have hdecode : decodeBody (body ++ byte '"' :: rest) = .ok body :=
    decodeBodyIn_plain hbody rest (by rw [List.length_append]; omega)
  have htoken : tokenAt (byte '"') (body ++ byte '"' :: rest)
      = (.string (.ok body) (.ok ()), some (body.length + 1)) := by
    unfold tokenAt
    rw [if_neg (by decide), if_neg (by decide), if_neg (by decide), if_neg (by decide),
      if_neg (by decide), if_neg (by decide), if_pos rfl, bodyLength_plain hbody, hdecode]
  rw [tokens_cons (by decide) htoken, ← List.drop_drop, List.drop_left]
  rfl

end PackedBits.Json
