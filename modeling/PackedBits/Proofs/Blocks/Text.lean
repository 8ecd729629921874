import PackedBits.Blocks.Text
import PackedBits.Proofs.Json.Token

/-!
# The text of a block shape is read back

The text of a shape is nine tokens (`BlockShape.tokens_toText`).  Reading them, each field takes its
name, a colon and its number, and is refused only for a number that is not a count
(`BlockShape.takeField_bytes`).  So a shape is read back from its text exactly if both of its
numbers are counts (`BlockShape.ofText_toText`).
-/

namespace PackedBits

open Json

/-! ### Names -/

namespace BlockField

/-- The name of a field in UTF-8. -/
def bytes (field : BlockField) : List UInt8 :=
  field.name.toList.map byte

theorem toUTF8_name (field : BlockField) : field.name.toUTF8.toList = field.bytes := by
  cases field with
  | size => exact toUTF8_of_ascii (by decide)
  | overlap => exact toUTF8_of_ascii (by decide)

theorem plain_of_mem_bytes {field : BlockField} : ∀ b ∈ field.bytes, Plain b := by
  have hall : field.bytes.all (fun b => decide (Plain b)) = true := by
    cases field with
    | size => decide
    | overlap => decide
  intro b hb
  exact of_decide_eq_true (List.all_eq_true.mp hall b hb)

theorem ofName?_bytes (field : BlockField) : ofName? field.bytes = some field := by
  unfold ofName?
  simp only [toUTF8_name]
  cases field with
  | size => rfl
  | overlap => rfl

end BlockField

namespace BlockShape

/-! ### Writing -/

theorem toUTF8_toText (s : BlockShape) :
    s.toText.toUTF8.toList =
      byte '\x7b' :: byte '"' :: (BlockField.size.bytes ++ byte '"' :: byte ':' ::
        (numeral s.size ++ byte ',' :: byte '"' :: (BlockField.overlap.bytes ++ byte '"' ::
          byte ':' :: (numeral s.overlap ++ [byte '\x7d'])))) := by
  have hopen : "\x7b\"".toUTF8.toList = [byte '\x7b', byte '"'] := toUTF8_of_ascii (by decide)
  have hcolon : (toString "\":").toUTF8.toList = [byte '"', byte ':'] :=
    toUTF8_of_ascii (s := "\":") (by decide)
  have hcomma : (toString ",\"").toUTF8.toList = [byte ',', byte '"'] :=
    toUTF8_of_ascii (s := ",\"") (by decide)
  have hclose : "\x7d".toUTF8.toList = [byte '\x7d'] := toUTF8_of_ascii (by decide)
  have hsize : s!"\":{s.size},\"".toUTF8.toList
      = [byte '"', byte ':'] ++ numeral s.size ++ [byte ',', byte '"'] := by
    rw [toUTF8_append, toUTF8_append, toUTF8_toString, hcolon, hcomma]
  have hoverlap : s!"\":{s.overlap}".toUTF8.toList = [byte '"', byte ':'] ++ numeral s.overlap := by
    rw [toUTF8_append, toUTF8_toString, hcolon]
  unfold toText
  rw [toUTF8_append, toUTF8_append, toUTF8_append, toUTF8_append, toUTF8_append,
    BlockField.toUTF8_name, BlockField.toUTF8_name, hopen, hclose, hsize, hoverlap]
  simp only [List.append_assoc, List.cons_append, List.nil_append]

/-- The token of a count. -/
def count (n : Nat) : Token :=
  .number (.ok { negative := false, whole := numeral n })

/-- The token of the name of a field. -/
def fieldName (field : BlockField) : Token :=
  .string (.ok field.bytes) (.ok ())

/-- The text of a shape is nine tokens. -/
theorem tokens_toText (s : BlockShape) :
    tokens s.toText.toUTF8.toList =
      [.openObject, fieldName .size, .colon, count s.size, .comma, fieldName .overlap, .colon,
        count s.overlap, .closeObject] := by
  have hmark : ∀ {b : UInt8} {t : Token} (rest : List UInt8), isBlank b = false →
      tokenAt b rest = (t, some 0) → tokens (b :: rest) = t :: tokens rest :=
    fun _ hblank htoken => tokens_cons hblank htoken
  have hcomma : EndsNumber (byte ',') := by decide
  have hclose : EndsNumber (byte '\x7d') := by decide
  rw [toUTF8_toText, hmark _ (by decide) rfl, tokens_quoted BlockField.plain_of_mem_bytes,
    hmark _ (by decide) rfl, tokens_numeral _ hcomma, hmark _ (by decide) rfl,
    tokens_quoted BlockField.plain_of_mem_bytes, hmark _ (by decide) rfl, tokens_numeral _ hclose,
    hmark _ (by decide) rfl, tokens]
  rfl

/-! ### Reading -/

theorem takeCount_count (n : Nat) (ts : List Token) :
    takeCount (count n :: ts) =
      if n < countLimit then .ok (n, ts) else .error (refusal (count n)) := by
  show (if _ ∧ _ ∧ NumberParts.natOfDigits (numeral n) < countLimit then
    Except.ok (NumberParts.natOfDigits (numeral n), ts) else _) = _
  rw [natOfDigits_numeral]
  simp [NumberParts.isPlain, count]

theorem takeField_bytes {fields : Fields} {field : BlockField} (hnew : fields.get field = none)
    (n : Nat) (ts : List Token) :
    takeField fields field.bytes (.colon :: count n :: ts) =
      if n < countLimit then .ok (fields.set field n, ts) else .error (refusal (count n)) := by
  have hunread : ¬(fields.get field).isSome = true := by
    rw [hnew]
    decide
  unfold takeField
  rw [BlockField.ofName?_bytes]
  by_cases hn : n < countLimit
  · simp only [if_neg hunread, takeColon, bind, Except.bind, takeCount_count, if_pos hn]
    rfl
  · simp only [if_neg hunread, takeColon, bind, Except.bind, takeCount_count, if_neg hn]

/-- What stands in front of a field. -/
def separator (first : Bool) : List Token :=
  if first then [] else [.comma]

theorem takeName_fieldName (first : Bool) (field : BlockField) (ts : List Token) :
    takeName first (separator first ++ fieldName field :: ts) = .ok (some field.bytes, ts) := by
  cases first with
  | false => rfl
  | true => rfl

/-- A field that has not been read takes its number, if that is a count. -/
theorem takeFieldsIn_field {fields : Fields} {field : BlockField} (hnew : fields.get field = none)
    (fuel : Nat) (first : Bool) (n : Nat) (ts : List Token) :
    takeFieldsIn (fuel + 1) first fields
        (separator first ++ fieldName field :: .colon :: count n :: ts) =
      if n < countLimit then takeFieldsIn fuel false (fields.set field n) ts
      else .error (refusal (count n)) := by
  rw [takeFieldsIn]
  by_cases hn : n < countLimit
  · simp only [takeName_fieldName, takeField_bytes hnew, bind, Except.bind, if_pos hn]
  · simp only [takeName_fieldName, takeField_bytes hnew, bind, Except.bind, if_neg hn]

/-- The size is judged first, and then the overlap. -/
theorem takeFields_both (n m : Nat) :
    takeFields [fieldName .size, .colon, count n, .comma, fieldName .overlap, .colon, count m,
        .closeObject] =
      if n < countLimit then
        if m < countLimit then .ok ({ size := some n, overlap := some m }, [])
        else .error (refusal (count m))
      else .error (refusal (count n)) := by
  have hsize : Fields.get {} .size = none := rfl
  have hoverlap : Fields.get { size := some n } .overlap = none := rfl
  refine (takeFieldsIn_field hsize 8 true n
    [.comma, fieldName .overlap, .colon, count m, .closeObject]).trans ?_
  by_cases hn : n < countLimit
  · rw [if_pos hn, if_pos hn]
    exact takeFieldsIn_field hoverlap 7 false m [.closeObject]
  · rw [if_neg hn, if_neg hn]

/-- **A shape and its text.** The text of a shape is read as that shape exactly if its size and its
overlap are counts. -/
theorem ofText_toText (s : BlockShape) :
    ofText s.toText = .ok s ↔ s.size < countLimit ∧ s.overlap < countLimit := by
  unfold ofText
  rw [tokens_toText, takeShape, takeFields_both]
  by_cases hsize : s.size < countLimit
  · by_cases hoverlap : s.overlap < countLimit
    · rw [if_pos hsize, if_pos hoverlap]
      exact iff_of_true rfl ⟨hsize, hoverlap⟩
    · rw [if_pos hsize, if_neg hoverlap]
      exact iff_of_false (fun h => nomatch h) fun h => hoverlap h.2
  · rw [if_neg hsize]
    exact iff_of_false (fun h => nomatch h) fun h => hsize h.1

end BlockShape

end PackedBits
