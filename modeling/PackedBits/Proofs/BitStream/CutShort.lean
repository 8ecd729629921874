import PackedBits.Proofs.BitStream.Pace
import PackedBits.Proofs.File.Range
import PackedBits.Proofs.WordStream.Agreement
import PackedBits.Proofs.WordStream.Breaking

/-!
# Bits of words that break off

A marked unpacker reads one word ahead, and makes a word the current one only when it has asked for
the word behind it.  If the words of its source break off, then this fails for the last of them, and
so its bits are not given out: what can be read are the bits of the words in front of it, all of
them as they are, since no word was seen to be the last and so none was taken for one with a mark.

`Unbroken S u bs` says that the unpacker `u` is to give out the bits `bs` in this way.  It is a
`View` (`Unbroken.view`), under which the end is never reached (`Unbroken.atEnd`).  A read that
needs more bits than are left has to advance to the last word, and is refused
(`Unbroken.make_error`).

Words break off where bytes end inside a word, in whatever way these are stored (`detects_cut`).
-/

namespace PackedBits.Unpacker

open Word

variable {w : Width} {σ : Type}

/-- The bits that are left of an unpacker whose source gives words as `S` says until they break off:
those of the current word, and those of the words that are followed by another one. -/
structure Unbroken (S : σ → List (Word w) → Prop) (u : Unpacker .marked w σ) (bs : List Bool) :
    Prop where
  pos_le : u.pos ≤ w.bits
  endless : u.lastBits? = none
  split : ∃ ws, S u.source ws ∧ bs = u.word.bits.drop u.pos ++ joinBits (u.next :: ws).dropLast

variable [WordSource σ w] {e : StreamError} {S : σ → List (Word w) → Prop} {s : σ}

/-! ### Opening -/

/-- Where there is no word. -/
theorem openMarked_error_of_breaks (hS : BreakView e S) (h : S s []) :
    ∃ t, openMarked s = (.error (.refused e), t) := by
  obtain ⟨s₁, hend, hs₁⟩ := hS.atEnd h
  obtain ⟨s₂, hread⟩ := hS.read_nil hs₁
  exact ⟨s₂, openMarked_of_read_error hend hread⟩

/-- The first word is read ahead. -/
theorem unbroken_openMarked (hS : BreakView e S) {ws : List (Word w)} (h : S s ws) (hne : ws ≠ []) :
    ∃ u t, openMarked s = (.ok u, t) ∧ Unbroken S u (joinBits ws.dropLast) := by
  obtain ⟨x, ws, rfl⟩ := List.exists_cons_of_ne_nil hne
  obtain ⟨s₁, hend, hs₁⟩ := hS.atEnd h
  obtain ⟨s₂, hread, hs₂⟩ := hS.read hs₁
  exact ⟨_, s₂, openMarked_of_read hend hread, Nat.le_refl _, rfl, ws, hs₂,
    (drop_bits_self_append 0 _).symm⟩

namespace Unbroken

variable {u : Unpacker .marked w σ} {bs : List Bool}

omit [WordSource σ w] in
theorem atEnd (h : Unbroken S u bs) : u.atEnd = false := by
  rw [Unpacker.atEnd, h.endless, Option.any_none]

/-! ### Advancing -/

/-- Bits that are not in the current word are in the word read ahead, and another one is behind
it. -/
theorem advance (hS : BreakView e S) (h : Unbroken S u bs) (hn : w.bits - u.pos < bs.length) :
    ∃ u', u.advance = (.ok (), u') ∧ u'.pos = 0 ∧
      u.word >>> u.pos = ofBits (bs.take (w.bits - u.pos)) ∧
      Unbroken S u' (bs.drop (w.bits - u.pos)) := by
  obtain ⟨ws, hs, rfl⟩ := h.split
  obtain ⟨hlow, hrest⟩ :=
    shiftRight_drop_bits_append u.word u.pos (joinBits (u.next :: ws).dropLast)
  cases ws with
  | nil =>
    rw [List.length_append, List.length_drop, length_bits] at hn
    exact absurd hn (by simp)
  | cons y ws =>
    obtain ⟨s₁, hend₁, hs₁⟩ := hS.atEnd hs
    obtain ⟨s₂, hread, hs₂⟩ := hS.read hs₁
    obtain ⟨s₃, hend₃, hs₃⟩ := hS.atEnd hs₂
    refine ⟨_, advance_of_read h.endless hend₁ hread hend₃, rfl, hlow, Nat.zero_le _, rfl, ws, hs₃,
      ?_⟩
    rw [hrest, List.dropLast_cons_cons, joinBits_cons]
    rfl

/-- The last word is not made the current one without one behind it. -/
theorem advance_error (hS : BreakView e S) (hlast : u.lastBits? = none) (hs : S u.source []) :
    ∃ u', u.advance = (.error (.refused e), u') ∧ u'.atEnd = false := by
  obtain ⟨s₁, hend, hs₁⟩ := hS.atEnd hs
  obtain ⟨s₂, hread⟩ := hS.read_nil hs₁
  refine ⟨_, advance_of_read_error hlast hend hread, ?_⟩
  rw [Unpacker.atEnd, hlast, Option.any_none]

/-! ### Reads -/

theorem view (hS : BreakView e S) : View .marked (Unbroken (w := w) S) where
  pos_le h := h.pos_le
  atEnd h _ := h.atEnd
  group {u bs n} h _ _ hw := by
    obtain ⟨ws, hs, rfl⟩ := h.split
    obtain ⟨hgroup, hrest⟩ := group_drop_bits_append u.word hw (joinBits (u.next :: ws).dropLast)
    exact ⟨hgroup, hw, h.endless, ws, hs, hrest⟩
  advance h hn := h.advance hS hn

omit [WordSource σ w] in
/-- If fewer bits are left than a word has, then the source has come to where the words break
off. -/
theorem broken (h : Unbroken S u bs) (hn : bs.length < w.bits) :
    S u.source [] ∧ bs.length = w.bits - u.pos := by
  obtain ⟨ws, hs, rfl⟩ := h.split
  rw [List.length_append, List.length_drop, length_bits, length_joinBits, List.length_dropLast,
    List.length_cons, Nat.add_sub_cancel] at hn ⊢
  cases ws with
  | nil => exact ⟨hs, by rw [List.length_nil, Nat.zero_mul, Nat.add_zero]⟩
  | cons y ws =>
    rw [List.length_cons, Nat.succ_mul] at hn
    omega

/-- A read of more bits than are left. -/
theorem make_error (hS : BreakView e S) (h : Unbroken S u bs) {c : ReadCall} (hc : c.InRange w)
    (hn : bs.length < c.width) :
    ∃ u', c.make u = (.error (.refused e), u') ∧ u'.atEnd = false := by
  obtain ⟨hs, hlen⟩ := h.broken (Nat.lt_of_lt_of_le hn hc.width_le)
  have hpos := h.pos_le
  obtain ⟨u', hadvance, hend⟩ := advance_error hS h.endless hs
  exact ⟨u', make_of_advance_error hc h.atEnd hpos (by omega) hadvance, hend⟩

end Unbroken

/-! ### Any reads -/

/-- Whether a source stops short of the last of the words `ws`: if there are no words, then it is
not opened; and if there are, then any reads give the bits of all but the last, and as soon as they
ask for more bits they are refused, without the end being seen at any time. -/
structure StopsShort (e : StreamError) (s : σ) (ws : List (Word w)) : Prop where
  unopened : ws = [] → ∃ t, openMarked s = (.error (.refused e), t)
  opened : ws ≠ [] → ∃ u t, openMarked s = (.ok u, t) ∧ BitReader.atEnd u = false ∧
    ∀ calls : List ReadCall, (∀ c ∈ calls, c.InRange w) →
      (calls.map ReadCall.width).sum ≤ (ws.length - 1) * w.bits →
        let done := ReadCall.run u calls
        done.1 = (ReadCall.answers (joinBits ws.dropLast) calls).map
          (fun answer => (answer.1, false)) ∧
        ∀ c : ReadCall, c.InRange w →
          (ws.length - 1) * w.bits < (calls.map ReadCall.width).sum + c.width →
            ∃ u', c.make done.2 = (.error (.refused e), u') ∧ BitReader.atEnd u' = false

theorem StopsShort.of_breaksOff {ws : List (Word w)} (h : BreaksOff e s ws) :
    StopsShort e s ws := by
  obtain ⟨S, hS, hs⟩ := h
  constructor
  · rintro rfl
    exact openMarked_error_of_breaks hS hs
  · intro hne
    obtain ⟨u, t, hopen, hu⟩ := unbroken_openMarked hS hs hne
    refine ⟨u, t, hopen, hu.atEnd, fun calls hcalls hsum => ?_⟩
    rw [← List.length_dropLast, ← length_joinBits] at hsum ⊢
    refine ⟨(Unbroken.view hS).run_eq_answers Unbroken.atEnd hu hcalls hsum, fun c hc hmore => ?_⟩
    have hleft := (Unbroken.view hS).run hu hcalls hsum
    exact hleft.make_error hS hc (by rw [List.length_drop]; omega)

/-- **A cut is detected.** Bytes end inside a word, and are read as words from a list, from a cursor
in front of them, from the span of a file that has them, whatever the size of its buffer, or from
any chunks that are not empty.  If they do not make a single word, then they are not opened;
otherwise any reads give the bits of all words but the last, and the first that asks for more is
refused.  In each case the error is that of an early end, and the end of the bits is not seen at any
time. -/
theorem detects_cut (w : Width) (d : List UInt8) (hcut : 0 < d.length % w.bytes) :
    let ws : List (Word w) := AssembledWords.wordsOf d
    let error := IoError.partialWord w.bytes none
    error.kind = .unexpectedEnd ∧ ws.length = d.length / w.bytes ∧
      StopsShort (.io error) ({ bytes := { bytes := d } } : Wire w ByteQueue) ws ∧
      (∀ (extent : Extent) (c : ByteCursor extent), c.pos ≤ c.length → c.bytes.drop c.pos = d →
        StopsShort (.io error) ({ bytes := c } : Wire w (ByteCursor extent)) ws) ∧
      (∀ (content : List UInt8) (span : Span) (capacity : Nat), 0 < capacity →
        (span.clamp content.length).slice content = d →
          (capacity < offsetLimit → ∃ r, FileRange.openWith (some content) span capacity = .ok r) ∧
          ∀ r, FileRange.openWith (some content) span capacity = .ok r →
            StopsShort (.io error) ({ bytes := r } : Wire w FileRange) ws) ∧
      ∀ s : ScriptReader, s.bytes = d → .chunk [] ∉ s.events → (∀ e, .fail e ∉ s.events) →
        StopsShort (.io error) ({ bytes := s } : Wire w ScriptReader) ws := by
  intro ws error
  refine ⟨rfl, AssembledWords.length_wordsOf d, ?_, ?_, ?_, ?_⟩
  · exact .of_breaksOff (Wire.breaksOff (ByteQueue.closedSupply _) rfl hcut)
  · intro extent c hle hdrop
    exact .of_breaksOff (Wire.breaksOff (ByteCursor.closedSupply _ extent) ⟨hle, hdrop⟩ hcut)
  · intro content span capacity hpos hslice
    refine ⟨fun hlt => ⟨_, if_pos hlt⟩, fun r hopen => ?_⟩
    have hshows : FileRange.Shows r d := hslice ▸ FileRange.shows_of_openWith hpos hopen
    exact .of_breaksOff (Wire.breaksOff (FileRange.closedSupply _) hshows hcut)
  · intro s hbytes hnonempty hquiet
    have hwithin : ∀ event ∈ s.events, event.Within fun _ => False := by
      intro event hevent
      cases event with
      | chunk _ => trivial
      | fail e => exact absurd hevent (hquiet e)
    exact .of_breaksOff (Wire.breaksOff (ScriptReader.closedSupply fun _ => False.elim)
      ⟨hbytes, hwithin, hnonempty⟩ hcut)

/-- Two words of two bytes and half of a third one, in chunks that end inside the words: the bits of
the first word can be read, and then no bit more. -/
theorem detects_cut_five_bytes :
    let d : List UInt8 := [0x12, 0x34, 0x56, 0x78, 0x9a]
    let s : ScriptReader := { events := [.chunk [0x12], .chunk [0x34, 0x56, 0x78, 0x9a]] }
    let calls : List ReadCall := [.bits 12, .bits 4]
    0 < d.length % Width.w16.bytes ∧ s.bytes = d ∧ .chunk [] ∉ s.events ∧
      (∀ e, .fail e ∉ s.events) ∧
      ∃ (u : Unpacker .marked .w16 (Wire .w16 ScriptReader)) (t : Wire .w16 ScriptReader),
        openMarked { bytes := s } = (.ok u, t) ∧
        (ReadCall.run u calls).1 = [(.ok (.bits 0x234), false), (.ok (.bits 0x1), false)] ∧
        ∃ u', ReadCall.make (ReadCall.run u calls).2 .bit
            = (.error (.refused (.io (.partialWord 2 none))), u') ∧ BitReader.atEnd u' = false := by
  intro d s calls
  have hcut : 0 < d.length % Width.w16.bytes := by decide
  have hnonempty : .chunk [] ∉ s.events := by decide
  have hquiet : ∀ e, .fail e ∉ s.events := by simp [s]
  have hwords : (AssembledWords.wordsOf d : List (Word .w16)) = [0x1234, 0x5678] := by decide
  obtain ⟨-, -, -, -, -, hchunks⟩ := detects_cut .w16 d hcut
  have hshort := hchunks s rfl hnonempty hquiet
  rw [hwords] at hshort
  obtain ⟨u, t, hopen, -, hreads⟩ := hshort.opened (by decide)
  obtain ⟨hanswers, hmore⟩ := hreads calls (by decide) (by decide)
  exact ⟨hcut, rfl, hnonempty, hquiet, u, t, hopen, hanswers.trans (by rfl),
    hmore .bit (by decide) (by decide)⟩

end PackedBits.Unpacker
