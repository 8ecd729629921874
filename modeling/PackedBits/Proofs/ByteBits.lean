import PackedBits.ByteBits
import PackedBits.Proofs.BitStream.Packer
import PackedBits.Proofs.BitStream.Unpacker
import PackedBits.Proofs.File.Range

/-!
# Bits between other bytes

A list of fields, each a value and a number of bits, is written to a buffer that already has some
bytes, and more bytes are added behind it.  What lies between is the layout of the bits of the
fields, word by word in its bytes, so every source that supplies just these bytes gives the fields
back, and finds its end behind the last of them (`BitField.Reads.of_supplies`).  The bytes in
between are such a source, and so is the range of a file with the whole content.  The theorem is
`embedded_fields`.
-/

namespace PackedBits

open Word Layout Packer Unpacker

/-- The lowest bits of a word are its value modulo a power of two. -/
theorem Word.ofBits_lowBits_eq_ofNat {w : Width} (x : Word w) (n : Nat) :
    (ofBits (x.lowBits n) : Word w) = BitVec.ofNat w.bits (x.toNat % 2 ^ n) := by
  symm
  apply eq_ofBits
  intro i hi
  rw [BitVec.getLsbD_ofNat, Nat.testBit_mod_two_pow, BitVec.testBit_toNat, getElem?_lowBits,
    decide_eq_true hi, Bool.true_and]
  by_cases hlt : i < n <;> simp [hlt]

/-! ### Fields -/

/-- A value and the number of its bits that count. -/
abbrev BitField : Type := Word .native × Nat

namespace BitField

/-- Whether a word has as many bits as count, and one of them counts. -/
def InRange (f : BitField) : Prop :=
  0 < f.2 ∧ f.2 ≤ 64

instance (f : BitField) : Decidable f.InRange :=
  inferInstanceAs (Decidable (0 < f.2 ∧ f.2 ≤ 64))

/-- The call that writes a field. -/
def write (f : BitField) : WriteCall .native :=
  .bits f.1 f.2

/-- The call that reads a field of that width. -/
def read (f : BitField) : ReadCall :=
  .bits f.2

/-- What the reads of fields answer: each the value of the field without the bits that do not count,
and whether it is the last. -/
def answers : List BitField → List (Outcome StreamError (ReadValue .native) × Bool)
  | [] => []
  | f :: fields =>
    (.ok (.bits (BitVec.ofNat 64 (f.1.toNat % 2 ^ f.2))), fields.isEmpty) :: answers fields

/-- The bits of fields, one field after the other. -/
def bits (fields : List BitField) : List Bool :=
  fields.flatMap fun f => f.1.lowBits f.2

@[simp] theorem bits_nil : bits [] = [] := rfl

@[simp] theorem bits_cons (f : BitField) (fields : List BitField) :
    bits (f :: fields) = f.1.lowBits f.2 ++ bits fields :=
  List.flatMap_cons ..

variable {fields : List BitField}

theorem stream_map_write (fields : List BitField) :
    WriteCall.stream (fields.map write) = bits fields := by
  have hfold : ∀ b : List Bool, (fields.map write).foldl WriteCall.extend b = b ++ bits fields := by
    induction fields with
    | nil => simp
    | cons f fields ih =>
      intro b
      rw [List.map_cons, List.foldl_cons, ih, bits_cons, ← List.append_assoc]
      rfl
  exact hfold []

theorem sum_map_width (fields : List BitField) :
    ((fields.map read).map ReadCall.width).sum = (bits fields).length := by
  induction fields with
  | nil => rfl
  | cons f fields ih =>
    rw [bits_cons, List.length_append, length_lowBits, ← ih]
    rfl

theorem isEmpty_bits (h : ∀ f ∈ fields, f.InRange) : (bits fields).isEmpty = fields.isEmpty := by
  cases fields with
  | nil => rfl
  | cons f fields =>
    have hpos := (h f List.mem_cons_self).1
    rw [bits_cons, List.isEmpty_cons, List.isEmpty_eq_false_iff, ← List.length_pos_iff,
      List.length_append, length_lowBits]
    omega

/-- Reading the widths of fields from their bits gives the fields. -/
theorem answers_bits (h : ∀ f ∈ fields, f.InRange) :
    ReadCall.answers (bits fields) (fields.map read) = answers fields := by
  induction fields with
  | nil => rfl
  | cons f fields ih =>
    have hrest : ∀ f' ∈ fields, f'.InRange := fun f' hf' => h f' (List.mem_cons_of_mem f hf')
    have hlen := length_lowBits f.1 f.2
    have hvalue : ReadCall.value (w := .native) (bits (f :: fields)) f.read
        = .bits (BitVec.ofNat 64 (f.1.toNat % 2 ^ f.2)) := by
      show ReadValue.bits (ofBits ((bits (f :: fields)).take f.2)) = _
      rw [bits_cons, List.take_left' hlen, ofBits_lowBits_eq_ofNat]
      rfl
    have hdrop : (bits (f :: fields)).drop f.read.width = bits fields := by
      rw [bits_cons]
      exact List.drop_left' hlen
    rw [List.map_cons, ReadCall.answers, hvalue, hdrop, isEmpty_bits hrest, ih hrest, answers]

/-- Whether a source of bytes opens as a stream of bits that are these fields, and is at its end
behind the last of them and not before. -/
def Reads {σ : Type} [ByteSource σ] (s : σ) (fields : List BitField) : Prop :=
  ∃ (u : Unpacker .marked .native (Wire .native σ)) (t : Wire .native σ), bitsFrom s = (.ok u, t) ∧
    BitReader.atEnd u = fields.isEmpty ∧ (ReadCall.run u (fields.map read)).1 = answers fields

/-- A source that supplies the words of the fields. -/
theorem Reads.of_supplies {σ : Type} [ByteSource σ] {s : σ} (h : ∀ f ∈ fields, f.InRange)
    (hs : Supplies s
      ((layout true (bits fields) : List (Word .native)).flatMap Word.toBytes)) :
    Reads s fields := by
  obtain ⟨u, t, hopen, hu⟩ := remains_openMarked (Wire.serves hs)
  rw [validBits_layout] at hu
  have hrange : ∀ c ∈ fields.map read, c.InRange .native := by
    intro c hc
    obtain ⟨f, hf, rfl⟩ := List.mem_map.mp hc
    exact h f hf
  have hend : BitReader.atEnd u = (bits fields).isEmpty := hu.atEnd
  refine ⟨u, t, hopen, by rw [hend, isEmpty_bits h], ?_⟩
  rw [hu.run hrange (Nat.le_of_eq (sum_map_width fields)), answers_bits h]

end BitField

/-! ### Writing between other bytes -/

/-- What is written to a buffer, and ended, is the layout of the bits, in bytes behind those there
were. -/
theorem bytes_finish_run_bitsTo (before : List UInt8) {calls : List (WriteCall .native)}
    (hcalls : ∀ c ∈ calls, c.InRange) (e : Closing) :
    let written := WriteCall.run (bitsTo ({ bytes := before.toArray } : ByteBuffer)) calls
    written.1 = calls.map (fun c => .ok c.value?) ∧ (written.2.finish e).1 = .ok () ∧
      (written.2.finish e).2.bytes.bytes.toList
        = before ++ (layout true (WriteCall.stream calls) : List (Word .native)).flatMap
            Word.toBytes := by
  intro written
  have hnew : Packs (Wire.Carries before) true [] 0
      (bitsTo ({ bytes := before.toArray } : ByteBuffer)) :=
    packs_new (by simp [Wire.Carries]) true
  obtain ⟨houtcomes, hpacks⟩ := hnew.run (Wire.sinkView before) hcalls
  obtain ⟨p', hclose, hsink⟩ := hpacks.close (Wire.sinkView before)
  refine ⟨houtcomes, ?_⟩
  rw [finish_eq hclose e]
  refine ⟨rfl, ?_⟩
  have hbytes : p'.sink.bytes.bytes.toList = _ := hsink
  rw [hbytes, List.filterMap_append, SinkCall.filterMap_word?_map_write]
  simp [SinkCall.word?, WriteCall.stream]

/-- The bytes between others are cut out by their span, which lies inside the whole. -/
theorem Span.slice_between (before mid after : List UInt8) :
    let span : Span := { start := before.length, stop := before.length + mid.length }
    span.clamp (before ++ mid ++ after).length = span ∧
      span.slice (before ++ mid ++ after) = mid := by
  intro span
  have hstop : min span.stop (before ++ mid ++ after).length = span.stop := by
    simp only [span, List.length_append]
    omega
  have hstart : min span.start span.stop = span.start := Nat.min_eq_left (Nat.le_add_right _ _)
  have hlength : span.length = mid.length := Nat.add_sub_cancel_left ..
  constructor
  · rw [Span.clamp, hstop, hstart]
  · rw [Span.slice, hlength, List.append_assoc, List.drop_left, List.take_left]

/-- **Embedded streams.** Fields that are written to a buffer, and ended in any way, leave the bytes
that were there and add whole words behind them.  When any bytes have been added behind those, the
slice in between, and the range of a file with the whole content, both open as a stream of bits; it
is at its end if there are no fields, and reading their widths gives each field modulo its power of
two, and the end behind the last of them and not before. -/
theorem embedded_fields (before after : List UInt8) (fields : List BitField)
    (hfields : ∀ f ∈ fields, f.InRange) (e : Closing) :
    let written := WriteCall.run (bitsTo ({ bytes := before.toArray } : ByteBuffer))
      (fields.map BitField.write)
    let ended := written.2.finish e
    written.1 = fields.map (fun f => .ok (some f.2)) ∧ ended.1 = .ok () ∧
      ∃ ws : List (Word .native),
        ended.2.bytes.bytes.toList = before ++ ws.flatMap Word.toBytes ∧
        let content := ended.2.bytes.bytes.toList ++ after
        let span : Span := { start := before.length, stop := before.length + 8 * ws.length }
        BitField.Reads ({ bytes := span.slice content } : ByteQueue) fields ∧
        ∃ r, FileRange.openSpan (some content) span = .ok r ∧ BitField.Reads r fields := by
  intro written ended
  have hcalls : ∀ c ∈ fields.map BitField.write, c.InRange := by
    intro c hc
    obtain ⟨f, hf, rfl⟩ := List.mem_map.mp hc
    exact hfields f hf
  obtain ⟨houtcomes, hended, hbytes⟩ := bytes_finish_run_bitsTo before hcalls e
  rw [BitField.stream_map_write] at hbytes
  refine ⟨?_, hended, layout true (BitField.bits fields), hbytes, ?_⟩
  · rw [houtcomes, List.map_map]
    rfl
  · intro content span
    have hlen := length_flatMap_toBytes (layout true (BitField.bits fields) : List (Word .native))
    obtain ⟨hclamp, hslice⟩ := Span.slice_between before
      ((layout true (BitField.bits fields) : List (Word .native)).flatMap Word.toBytes) after
    rw [← hbytes, hlen] at hclamp hslice
    have hinside : span.clamp content.length = span := hclamp
    have hbetween : span.slice content = _ := hslice
    refine ⟨.of_supplies hfields ?_, _, rfl, .of_supplies hfields ?_⟩
    · rw [hbetween]
      exact ByteQueue.supplies _
    · -- the span lies inside the file, so it is not clamped
      have hshows : FileRange.Shows (.ofContent content span FileRange.defaultCapacity) _ :=
        FileRange.shows_ofContent content span (by decide) (by decide)
      rw [hinside, hbetween] at hshows
      exact ⟨_, FileRange.supply, hshows⟩

/-- Two fields in one word between a byte and another, the first with a bit that does not count. -/
theorem embedded_fields_two :
    let fields : List BitField := [(0x1ff, 8), (5, 3)]
    let content : List UInt8 := [0xff, 0x14, 0, 0, 0, 0, 0, 0x05, 0xff, 0xff]
    (∀ f ∈ fields, f.InRange) ∧
      BitField.answers fields = [(.ok (.bits 0xff), false), (.ok (.bits 5), true)] ∧
      BitField.Reads ({ bytes := [0x14, 0, 0, 0, 0, 0, 0x05, 0xff] } : ByteQueue) fields ∧
      ∃ r, FileRange.openSpan (some content) { start := 1, stop := 9 } = .ok r ∧
        BitField.Reads r fields := by
  intro fields content
  have hfields : ∀ f ∈ fields, f.InRange := by decide
  obtain ⟨-, -, ws, hbytes, hslice, hrange⟩ := embedded_fields [0xff] [0xff] fields hfields .close
  have hwritten : ((WriteCall.run (bitsTo ({ bytes := [0xff].toArray } : ByteBuffer))
      (fields.map BitField.write)).2.finish .close).2.bytes.bytes.toList
        = [0xff, 0x14, 0, 0, 0, 0, 0, 0x05, 0xff] := by decide
  have hone : ws.length = 1 := by
    have hlen : 9 = 1 + (ws.flatMap Word.toBytes).length :=
      (congrArg List.length (hwritten.symm.trans hbytes)).trans List.length_append
    have hbytes : Width.native.bytes = 8 := rfl
    rw [length_flatMap_toBytes, hbytes] at hlen
    omega
  rw [hwritten, hone] at hslice hrange
  exact ⟨hfields, by decide, hslice, hrange⟩

end PackedBits
