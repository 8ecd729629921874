import PackedBits.Proofs.WordStream.Attempts

/-!
# Sinks with room for so many words

Not every sink takes every word.  A row of fixed length is full at some point, and bytes in memory
are limited in number.  Such sinks take words as long as there is room (a `RoomView`), and so words
for which there is room are all written (`RoomView.attempt`).  Of more words those are written for
which there is room, and what the sink answers to the next is what the attempt comes to
(`RoomView.attempt_of_lt`).

A row is `Filled` from its front, and refuses the first word behind its end
(`Tape.Filled.attempt_of_lt`).
-/

namespace PackedBits

variable {w : Width}

section View

variable {κ : Type} [WordSink κ w]

/-- A relation between sinks and the words that were written to them, under which a word is taken as
long as there are fewer than `room`. -/
structure RoomView (room : Nat) (R : κ → List (Word w) → Prop) : Prop where
  write {s : κ} {ws : List (Word w)} (x : Word w) : R s ws → ws.length < room →
    ∃ s', WordSink.write s x = (.ok (), s') ∧ R s' (ws ++ [x])

variable {room : Nat} {R : κ → List (Word w) → Prop} {s : κ} {ws : List (Word w)}

/-- Words for which there is room are written. -/
theorem RoomView.attempt (hR : RoomView room R) (h : R s ws) (xs : List (Word w))
    (hle : (ws ++ xs).length ≤ room) :
    ∃ s', SinkCall.attempt s (xs.map .write) = (.ok (), s') ∧ R s' (ws ++ xs) := by
  induction xs generalizing s ws with
  | nil => exact ⟨s, rfl, by rwa [List.append_nil]⟩
  | cons x xs ih =>
    rw [List.length_append, List.length_cons] at hle
    obtain ⟨s₁, hwrite, hs₁⟩ := hR.write x h (by omega)
    have hmade : SinkCall.make s (.write x) = (.ok (), s₁) := hwrite
    have hrest :=
      ih hs₁ (by simp only [List.length_append, List.length_cons, List.length_nil]; omega)
    rw [List.append_assoc, List.singleton_append] at hrest
    rw [List.map_cons, SinkCall.attempt_cons_ok _ hmade]
    exact hrest

/-- Words for which there is no room: the first of them is the last call that is made. -/
theorem RoomView.attempt_of_lt (hR : RoomView room R) (h : R s ws) (hle : ws.length ≤ room)
    (xs : List (Word w)) (hlt : room < (ws ++ xs).length) :
    ∃ s' x, R s' ((ws ++ xs).take room) ∧
      ∀ (after : List (SinkCall w)) (failure : Failure StreamError) (s'' : κ),
        WordSink.write s' x = (.error failure, s'') →
        SinkCall.attempt s (xs.map .write ++ after) = (.error failure, s'') := by
  have hroom : room - ws.length < xs.length := by
    rw [List.length_append] at hlt
    omega
  -- the words for which there is room, the next one, and the others
  have hsplit : xs = xs.take (room - ws.length) ++
      xs[room - ws.length] :: xs.drop (room - ws.length + 1) := by
    rw [← List.drop_eq_getElem_cons hroom, List.take_append_drop]
  obtain ⟨s', hattempt, hs'⟩ := hR.attempt h (xs.take (room - ws.length)) (by
    rw [List.length_append, List.length_take]
    omega)
  refine ⟨s', xs[room - ws.length], ?_, ?_⟩
  · rwa [List.take_append, List.take_of_length_le hle]
  · intro after failure s'' hwrite
    have hmade : SinkCall.make s' (.write xs[room - ws.length]) = (.error failure, s'') := hwrite
    rw [hsplit, List.map_append, List.append_assoc, SinkCall.attempt_append_ok _ hattempt,
      List.map_cons, List.cons_append]
    exact SinkCall.attempt_cons_error _ hmade

end View

/-! ### Filling a row -/

namespace Tape

variable {row ws : List (Word w)} {t : Tape w}

/-- Whether the words `ws` have been written to the front of a row, and the rest of it is as it
was. -/
structure Filled (row ws : List (Word w)) (t : Tape w) : Prop where
  words : t.words = ws ++ row.drop ws.length
  pos : t.pos = ws.length
  le : ws.length ≤ row.length

theorem Filled.new (row : List (Word w)) : Filled row [] ({ words := row } : Tape w) :=
  ⟨rfl, rfl, Nat.zero_le _⟩

theorem Filled.length (h : Filled row ws t) : t.length = row.length := by
  have hle := h.le
  rw [Tape.length, h.words, List.length_append, List.length_drop]
  omega

/-- A row with room takes a word. -/
theorem Filled.write_of_lt (h : Filled row ws t) (hlt : ws.length < row.length) (x : Word w) :
    ∃ t', WordSink.write t x = (.ok (), t') ∧ Filled row (ws ++ [x]) t' := by
  have hroom : t.pos < t.length := by rwa [h.pos, h.length]
  refine ⟨{ words := t.words.set t.pos x, pos := t.pos + 1 }, ?_, ?_, ?_, ?_⟩
  · show t.write x = _
    rw [Tape.write, if_pos hroom]
  · rw [h.words, h.pos, List.set_append_right _ _ (Nat.le_refl _), Nat.sub_self,
      List.drop_eq_getElem_cons hlt, List.set_cons_zero, List.append_assoc, List.singleton_append,
      List.length_append, List.length_singleton]
  · rw [h.pos, List.length_append, List.length_singleton]
  · rw [List.length_append, List.length_singleton]
    exact hlt

theorem Filled.roomView (row : List (Word w)) :
    RoomView row.length fun (t : Tape w) ws => Filled row ws t where
  write x h hlt := h.write_of_lt hlt x

/-- A full row refuses it. -/
theorem Filled.write_of_full (h : Filled row ws t) (hfull : ws.length = row.length) (x : Word w) :
    WordSink.write t x = (.error (.refused (.endOfWords row.length)), t) := by
  show t.write x = _
  rw [Tape.write, if_neg (by rw [h.pos, h.length]; omega), h.pos, hfull]

theorem Filled.words_of_full (h : Filled row ws t) (hfull : ws.length = row.length) :
    t.words = ws := by
  rw [h.words, hfull, List.drop_length, List.append_nil]

/-- Words for which there is no room fill the row. -/
theorem Filled.attempt_of_lt (h : Filled row ws t) (xs : List (Word w)) (after : List (SinkCall w))
    (hlt : row.length < (ws ++ xs).length) :
    ∃ t', SinkCall.attempt t (xs.map .write ++ after)
        = (.error (.refused (.endOfWords row.length)), t') ∧
      t'.words = (ws ++ xs).take row.length := by
  obtain ⟨t', x, ht', hstop⟩ := (roomView row).attempt_of_lt h h.le xs hlt
  have hfull : ((ws ++ xs).take row.length).length = row.length :=
    List.length_take_of_le (Nat.le_of_lt hlt)
  exact ⟨t', hstop _ _ _ (ht'.write_of_full hfull x), ht'.words_of_full hfull⟩

end Tape

end PackedBits
