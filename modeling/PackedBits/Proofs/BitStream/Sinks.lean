import PackedBits.Proofs.BitStream.Room
import PackedBits.Proofs.WordStream.Wire

/-!
# Sinks that are given the same words

A sink with room for certain words comes to have them in it, whether they are written one after the
other or by a packer that makes them out of its bits (`RoomView.finish`).  What is seen of them is
their image, and that is all that there is to know of a sink (`Receives`, `Takes`).

Words in a buffer, in a row that is just long enough, and as bytes in a buffer, at a cursor and in
whatever portions a sink takes them: all of these have room for the words, and what they then have
in them is the words or their bytes.  The theorem is `sinks_agree`.
-/

namespace PackedBits

open Word Layout

variable {w : Width} {κ α : Type} [WordSink κ w]

/-! ### What is in a sink -/

/-- What is in a sink when the words `ws` were written to it, and when a packer was ended over it
that has made them out of its bits: the `image` of these words, and no write has failed. -/
structure Receives (content : κ → α) (s : κ) (ws : List (Word w)) (image : α) : Prop where
  written : ∃ s', SinkCall.attempt s (ws.map .write) = (.ok (), s') ∧ content s' = image
  packed (marked : Bool) (calls : List (WriteCall w)) (e : Packer.Closing) :
    (∀ c ∈ calls, c.InRange) → layout marked (WriteCall.stream calls) = ws →
    let done := WriteCall.run ({ sink := s, marked } : Packer w κ) calls
    done.1 = calls.map (fun c => .ok c.value?) ∧ content (done.2.finish e).2 = image

/-- And the packer has been ended without a failure. -/
structure Takes (content : κ → α) (s : κ) (ws : List (Word w)) (image : α) : Prop
    extends Receives content s ws image where
  ended (marked : Bool) (calls : List (WriteCall w)) (e : Packer.Closing) :
    (∀ c ∈ calls, c.InRange) → layout marked (WriteCall.stream calls) = ws →
    ((WriteCall.run ({ sink := s, marked } : Packer w κ) calls).2.finish e).1 = .ok ()

section Image

variable {R : κ → List (Word w) → Prop} {content : κ → α} {s : κ} {ws : List (Word w)} {image : α}

/-- A packer that makes the words comes to a flush of a sink that has them, in whatever way it is
ended. -/
theorem RoomView.finish (hR : RoomView ws.length R) (hs : R s []) {marked : Bool}
    {calls : List (WriteCall w)} (hcalls : ∀ c ∈ calls, c.InRange)
    (hws : layout marked (WriteCall.stream calls) = ws) :
    let done := WriteCall.run ({ sink := s, marked } : Packer w κ) calls
    done.1 = calls.map (fun c => .ok c.value?) ∧
      ∃ s', R s' ws ∧ done.2.close.1 = (WordSink.flush s').1 ∧
        ∀ e : Packer.Closing, (done.2.finish e).2 = (WordSink.flush s').2 := by
  intro done
  have hnew : Packer.Packs (Packer.Wrote R) marked [] 0 ({ sink := s, marked } : Packer w κ) :=
    Packer.packs_new hs marked
  have hgroups : (groups (calls.foldl WriteCall.extend []) : List (Word w)).length ≤ ws.length := by
    rw [← hws, layout, List.length_append]
    exact Nat.le_add_right _ _
  obtain ⟨m, p, hrun, hp⟩ := hnew.run_room hR hcalls hgroups
  obtain ⟨s', hs', hclose⟩ := hp.close_room hR (Nat.le_of_eq (congrArg List.length hws))
  have hdone : done = (calls.map (fun c => .ok c.value?), p) := hrun
  rw [hdone]
  refine ⟨rfl, s', hws ▸ hs', congrArg Prod.fst hclose, ?_⟩
  intro e
  rw [Packer.finish_sink]
  exact congrArg Prod.snd hclose

/-- Where any sink that has the words has their image, before the flush and after it. -/
theorem RoomView.receives (hR : RoomView ws.length R) (hs : R s [])
    (himage : ∀ s', R s' ws → content s' = image ∧ content (WordSink.flush s').2 = image) :
    Receives content s ws image where
  written := by
    obtain ⟨s', hattempt, hs'⟩ := hR.attempt hs ws (Nat.le_of_eq (by rw [List.nil_append]))
    exact ⟨s', hattempt, (himage s' hs').1⟩
  packed marked calls e hcalls hws := by
    obtain ⟨hrun, s', hs', -, hfinish⟩ := hR.finish hs hcalls hws
    refine ⟨hrun, ?_⟩
    rw [hfinish e]
    exact (himage s' hs').2

/-- And where the flush succeeds. -/
theorem RoomView.takes (hR : RoomView ws.length R) (hs : R s [])
    (himage : ∀ s', R s' ws → content s' = image ∧ content (WordSink.flush s').2 = image)
    (hflush : ∀ s', R s' ws → (WordSink.flush s').1 = .ok ()) : Takes content s ws image where
  toReceives := hR.receives hs himage
  ended marked calls e hcalls hws := by
    obtain ⟨-, s', hs', hclose, -⟩ := hR.finish hs hcalls hws
    rw [hflush s' hs'] at hclose
    rw [Packer.finish_eq (Prod.ext hclose rfl) e]

end Image

/-! ### The sinks -/

/-- Words in a buffer. -/
theorem WordBuffer.takes (ws : List (Word w)) :
    Takes (fun b : WordBuffer w => b.words.toList) {} ws ws := by
  have hR : RoomView ws.length fun (b : WordBuffer w) ws => b.words.toList = ws :=
    ⟨fun {b ws} x h _ => ⟨b.push x, rfl, by rw [← h]; exact Array.toList_push⟩⟩
  exact hR.takes rfl (fun _ h => ⟨h, h⟩) fun _ _ => rfl

/-- Words in a row with a place for each. -/
theorem Tape.takes {ws row : List (Word w)} (hrow : row.length = ws.length) :
    Takes Tape.words { words := row } ws ws := by
  have hR := hrow ▸ Filled.roomView row
  apply hR.takes (.new row)
  · intro t h
    exact ⟨h.words_of_full hrow.symm, h.words_of_full hrow.symm⟩
  · exact fun _ _ => rfl

namespace Wire

/-- Bytes in a buffer. -/
theorem buffer_takes (ws : List (Word w)) :
    Takes (fun x : Wire w ByteBuffer => x.bytes.bytes.toList) { bytes := {} } ws
      (ws.flatMap Word.toBytes) :=
  (roomView (ByteBuffer.intake _) (Nat.lt_succ_self _)).takes rfl (fun _ h => ⟨h, h⟩) fun _ _ => rfl

/-- Bytes at a cursor, at the start of an empty list. -/
theorem cursor_takes {ws : List (Word w)} (hlt : (ws.flatMap Word.toBytes).length < offsetLimit) :
    Takes (fun x : Wire w (ByteCursor .growing) => x.bytes.bytes) { bytes := { bytes := [] } } ws
      (ws.flatMap Word.toBytes) := by
  rw [Word.length_flatMap_toBytes] at hlt
  exact (roomView ByteCursor.intake hlt).takes ⟨rfl, rfl⟩ (fun _ h => ⟨h.1, h.1⟩) fun _ _ => rfl

/-- More of them than can be allocated. -/
theorem cursor_of_le {ws : List (Word w)} (hle : offsetLimit ≤ (ws.flatMap Word.toBytes).length) :
    (SinkCall.attempt ({ bytes := { bytes := [] } } : Wire w (ByteCursor .growing))
      (ws.map .write)).1 = .error (.fault .capacity) := by
  have hbytes := w.bytes_pos
  -- this many words have fewer bytes, and with one more there are too many
  let room := (offsetLimit - 1) / w.bytes
  have hdiv := Nat.div_add_mod (offsetLimit - 1) w.bytes
  have hmod := Nat.mod_lt (offsetLimit - 1) hbytes
  have hlimit : 0 < offsetLimit := by decide
  have hroom : w.bytes * room < offsetLimit := by
    show w.bytes * ((offsetLimit - 1) / w.bytes) < offsetLimit
    omega
  rw [Word.length_flatMap_toBytes] at hle
  have hlong : room < ws.length := Nat.lt_of_mul_lt_mul_left (Nat.lt_of_lt_of_le hroom hle)
  let start : Wire w (ByteCursor .growing) := { bytes := { bytes := [] } }
  have hstart : start.bytes.bytes = [].flatMap (Word.toBytes (w := w)) ∧ start.bytes.pos = 0 :=
    ⟨rfl, rfl⟩
  obtain ⟨x, y, ⟨-, hpos⟩, hstop⟩ :=
    (roomView ByteCursor.intake hroom).attempt_of_lt hstart (Nat.zero_le room) ws hlong
  have hfull : offsetLimit ≤ x.bytes.pos + y.toBytes.length := by
    rw [hpos, Word.length_flatMap_toBytes, Word.length_toBytes, List.nil_append,
      List.length_take_of_le (Nat.le_of_lt hlong)]
    show offsetLimit ≤ w.bytes * ((offsetLimit - 1) / w.bytes) + w.bytes
    omega
  have hattempt := hstop [] _ _ (write_of_writeAll_error (ByteCursor.writeAll_of_le hfull))
  rw [List.append_nil] at hattempt
  rw [hattempt]
  rfl

section Script

variable {writes : List WriteEvent} {flushes : List (Option IoError)}

theorem flush_script_bytes (x : Wire w ScriptSink) :
    (WordSink.flush x).2.bytes.bytes = x.bytes.bytes :=
  x.bytes.flush_bytes

/-- Bytes in the portions that a sink takes. -/
theorem script_receives (ws : List (Word w)) (hwrites : ∀ event ∈ writes, event.Proceeds) :
    Receives (fun x : Wire w ScriptSink => x.bytes.bytes.toList) { bytes := { writes, flushes } } ws
      (ws.flatMap Word.toBytes) := by
  apply (roomView (ScriptSink.intake _ flushes) (Nat.lt_succ_self _)).receives ⟨rfl, rfl, hwrites⟩
  intro x h
  exact ⟨h.1, by rw [flush_script_bytes]; exact h.1⟩

/-- And its flushes do not fail. -/
theorem script_takes (ws : List (Word w)) (hwrites : ∀ event ∈ writes, event.Proceeds)
    (hflushes : ∀ outcome ∈ flushes, outcome = none) :
    Takes (fun x : Wire w ScriptSink => x.bytes.bytes.toList) { bytes := { writes, flushes } } ws
      (ws.flatMap Word.toBytes) := by
  apply (roomView (ScriptSink.intake _ flushes) (Nat.lt_succ_self _)).takes ⟨rfl, rfl, hwrites⟩
  · intro x h
    exact ⟨h.1, by rw [flush_script_bytes]; exact h.1⟩
  · intro x h
    show x.flush.1 = .ok ()
    have hok : (ByteSink.flush x.bytes).1 = .ok () := ScriptSink.flush_ok (h.2.1 ▸ hflushes)
    rw [Wire.flush, hok]
    rfl

end Script

end Wire

/-- **Sinks agree.** Whatever words are written one after the other, or made by a packer out of its
bits that is then ended in any way: all of them are taken, and the sink has them in it, or their
bytes.  This holds of a buffer and of a row with a place for each word; of a buffer of bytes; of a
cursor in an empty list, if the bytes can be allocated, which is a fault otherwise; and of a sink
that takes at least one byte each time it is not interrupted.  If this sink refuses the flush behind
the words, it has their bytes all the same. -/
theorem sinks_agree (ws : List (Word w)) {row : List (Word w)} (hrow : row.length = ws.length)
    {writes : List WriteEvent} (hwrites : ∀ event ∈ writes, event.Proceeds)
    (flushes : List (Option IoError)) :
    let bytes := ws.flatMap Word.toBytes
    let cursor : Wire w (ByteCursor .growing) := { bytes := { bytes := [] } }
    let script : Wire w ScriptSink := { bytes := { writes, flushes } }
    Takes (fun b : WordBuffer w => b.words.toList) {} ws ws ∧
      Takes Tape.words { words := row } ws ws ∧
      Takes (fun x : Wire w ByteBuffer => x.bytes.bytes.toList) { bytes := {} } ws bytes ∧
      (bytes.length < offsetLimit → Takes (fun x => x.bytes.bytes) cursor ws bytes) ∧
      (offsetLimit ≤ bytes.length →
        (SinkCall.attempt cursor (ws.map .write)).1 = .error (.fault .capacity)) ∧
      Receives (fun x => x.bytes.bytes.toList) script ws bytes ∧
      ((∀ outcome ∈ flushes, outcome = none) →
        Takes (fun x => x.bytes.bytes.toList) script ws bytes) := by
  intro bytes cursor script
  exact ⟨WordBuffer.takes ws, Tape.takes hrow, Wire.buffer_takes ws, Wire.cursor_takes,
    Wire.cursor_of_le, Wire.script_receives ws hwrites, Wire.script_takes ws hwrites⟩

/-- Words of two bytes that are taken one byte, after an interruption three bytes at most, and then
in full; and the same words made by a packer. -/
theorem sinks_agree_two_words :
    let ws : List (Word .w16) := [0xcafe, 0x1005]
    let writes : List WriteEvent := [.take 1, .fail (.own .interrupted ""), .take 3, .take 1]
    let calls : List (WriteCall .w16) := [.bits 0xcafe 16, .bits 0x5 3]
    let done := WriteCall.run
      ({ sink := { bytes := { writes } } } : Packer .w16 (Wire .w16 ScriptSink)) calls
    ([0, 0] : List (Word .w16)).length = ws.length ∧ (∀ event ∈ writes, event.Proceeds) ∧
      (∃ x, SinkCall.attempt ({ bytes := { writes } } : Wire .w16 ScriptSink) (ws.map .write)
        = (.ok (), x) ∧ x.bytes.bytes.toList = [0xca, 0xfe, 0x10, 0x05]) ∧
      (done.2.finish .close).2.bytes.bytes.toList = [0xca, 0xfe, 0x10, 0x05] := by
  intro ws writes calls done
  have hrow : ([0, 0] : List (Word .w16)).length = ws.length := rfl
  have hwrites : ∀ event ∈ writes, event.Proceeds := by decide
  obtain ⟨-, -, -, -, -, hscript, -⟩ := sinks_agree ws hrow hwrites []
  have hlayout : layout true (WriteCall.stream calls) = ws := by decide
  have hbytes : ws.flatMap Word.toBytes = [0xca, 0xfe, 0x10, 0x05] := by decide
  rw [hbytes] at hscript
  exact ⟨hrow, hwrites, hscript.written, (hscript.packed true calls .close (by decide) hlayout).2⟩

end PackedBits
