import PackedBits.ByteStream.Memory
import PackedBits.ByteStream.Script

/-!
# Bytes that are taken

A sink of bytes takes them in pieces, and what counts is the bytes of all pieces, one after the
other.  An `Intake` is a relation between sinks and these bytes that every write keeps, as long as
the bytes stay below a limit.

Bytes in memory take what they are given (`ByteBuffer.intake`), a cursor at the end of a list that
grows up to the number of bytes that can be allocated (`ByteCursor.intake`).  A scripted sink may
portion a piece in any way and be interrupted in between: as long as each write takes some bytes or
is interrupted, the piece is taken, every byte once and in order (`ScriptSink.offer_of_proceeds`).
-/

namespace PackedBits

/-- A relation between sinks and the bytes that they were given, under which all of a piece is taken
as long as the bytes are fewer than `limit`. -/
structure Intake {κ : Type} [ByteSink κ] (limit : Nat) (R : κ → List UInt8 → Prop) : Prop where
  writeAll {s : κ} {bytes : List UInt8} (piece : List UInt8) :
    R s bytes → bytes.length + piece.length < limit →
    ∃ s', ByteSink.writeAll s piece = (.ok (), s') ∧ R s' (bytes ++ piece)

theorem ByteBuffer.intake (limit : Nat) :
    Intake limit fun (b : ByteBuffer) bytes => b.bytes.toList = bytes where
  writeAll {b bytes} piece h _ := by
    refine ⟨b.append piece, rfl, ?_⟩
    rw [← h, ByteBuffer.append, Array.toList_appendList]

/-! ### At the end of a list -/

theorem ByteCursor.splice_length (bytes piece : List UInt8) :
    splice bytes bytes.length piece = bytes ++ piece := by
  rw [splice, List.take_length, Nat.sub_self, List.replicate_zero, List.append_nil,
    List.drop_eq_nil_of_le (Nat.le_add_right _ _), List.append_nil]

/-- A cursor at the end of a list that grows. -/
theorem ByteCursor.intake :
    Intake offsetLimit fun (c : ByteCursor .growing) bytes =>
      c.bytes = bytes ∧ c.pos = bytes.length where
  writeAll {c bytes} piece h hlt := by
    obtain ⟨rfl, hpos⟩ := h
    refine ⟨c.put piece, ?_, ?_, ?_⟩
    · show c.writeAll piece = _
      rw [ByteCursor.writeAll, hpos]
      exact if_pos hlt
    · rw [ByteCursor.put, hpos, splice_length]
    · rw [ByteCursor.put, hpos, List.length_append]

/-- Bytes that cannot be allocated are not written. -/
theorem ByteCursor.writeAll_of_le {c : ByteCursor .growing} {piece : List UInt8}
    (h : offsetLimit ≤ c.pos + piece.length) :
    c.writeAll piece = (.error (.fault .capacity), c) := by
  rw [ByteCursor.writeAll]
  exact if_neg (Nat.not_lt.mpr h)

/-! ### In portions -/

/-- Whether a write takes some bytes, or is interrupted. -/
def WriteEvent.Proceeds : WriteEvent → Prop
  | take count => 0 < count
  | fail e => e.kind = .interrupted

instance WriteEvent.decidableProceeds : DecidablePred Proceeds
  | take count => inferInstanceAs (Decidable (0 < count))
  | fail e => inferInstanceAs (Decidable (e.kind = .interrupted))

namespace ScriptSink

/-- In whatever portions a piece is taken, it is taken as a whole, and the writes to come are as
before. -/
theorem offer_of_proceeds (bytes : Array UInt8) {events : List WriteEvent}
    (h : ∀ event ∈ events, event.Proceeds) (piece : List UInt8) :
    ∃ events', offer bytes events piece = (.ok (), bytes ++ piece, events') ∧
      ∀ event ∈ events', event.Proceeds := by
  fun_induction offer bytes events piece with
  | case1 bytes events => exact ⟨events, by rw [Array.appendList_nil], h⟩
  | case2 bytes piece _ => exact ⟨[], rfl, h⟩
  | case3 bytes events piece _ => exact absurd (h _ List.mem_cons_self) (Nat.lt_irrefl 0)
  | case4 bytes count events piece _ _ ih =>
    -- a portion, and the rest of the piece behind it
    obtain ⟨events', hoffer, hevents'⟩ :=
      ih fun event hevent => h event (List.mem_cons_of_mem _ hevent)
    have hall : bytes ++ piece.take count ++ piece.drop count = bytes ++ piece := by
      rw [← Array.toList_inj]
      simp only [Array.toList_appendList, List.append_assoc, List.take_append_drop]
    exact ⟨events', by rw [hoffer, hall], hevents'⟩
  | case5 bytes e events piece _ _ ih =>
    exact ih fun event hevent => h event (List.mem_cons_of_mem _ hevent)
  | case6 bytes e events piece _ hkind => exact absurd (h _ List.mem_cons_self) hkind

theorem intake (limit : Nat) (flushes : List (Option IoError)) :
    Intake limit fun (s : ScriptSink) bytes =>
      s.bytes.toList = bytes ∧ s.flushes = flushes ∧ ∀ event ∈ s.writes, event.Proceeds where
  writeAll {s bytes} piece h _ := by
    obtain ⟨rfl, hflushes, hwrites⟩ := h
    obtain ⟨events, hoffer, hevents⟩ := offer_of_proceeds s.bytes hwrites piece
    refine ⟨{ s with bytes := s.bytes ++ piece, writes := events }, ?_, ?_, hflushes, hevents⟩
    · show s.writeAll piece = _
      rw [ScriptSink.writeAll, hoffer]
    · exact Array.toList_appendList

/-- A flush leaves the bytes. -/
theorem flush_bytes (s : ScriptSink) : s.flush.2.bytes = s.bytes := by
  unfold flush
  split <;> rfl

/-- If no flush is to fail, none does. -/
theorem flush_ok {s : ScriptSink} (h : ∀ outcome ∈ s.flushes, outcome = none) :
    s.flush.1 = .ok () := by
  unfold flush
  split
  · rfl
  · rfl
  · next e flushes hflushes =>
    have he := h (some e) (by rw [hflushes]; exact List.mem_cons_self)
    exact absurd he (by simp)

end ScriptSink

end PackedBits
