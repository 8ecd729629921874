import PackedBits.Proofs.WordStream.Assembled

/-!
# Words that break off

The bytes behind the last word may be too few for another one.  A source on their wire does not know
this before it has read them: as long as they are there it is not at its end, and to read them is
refused.  So after the last word the end is not seen, and still there is no word (`BreakView`).

This is the wire of any source of bytes that is closed, and the words in front are those that the
bytes make (`Wire.breaksOff`).
-/

namespace PackedBits

variable {w : Width}

section Sources

variable {σ : Type} [WordSource σ w]

/-- A relation between sources and the words that they are still to give, which every call keeps,
where something comes behind the words that is none: no source is at its end, and when no words are
left the next read is refused with the error `e`. -/
structure BreakView (e : StreamError) (R : σ → List (Word w) → Prop) : Prop where
  atEnd {s : σ} {ws : List (Word w)} :
    R s ws → ∃ s', WordSource.atEnd s = (.ok false, s') ∧ R s' ws
  read {s : σ} {x : Word w} {ws : List (Word w)} :
    R s (x :: ws) → ∃ s', WordSource.read s = (.ok x, s') ∧ R s' ws
  read_nil {s : σ} : R s [] → ∃ s', WordSource.read s = (.error (.refused e), s')

/-- Whether a source gives the words `ws`, and is then refused another one with the error `e`
without having been at its end. -/
def BreaksOff (e : StreamError) (s : σ) (ws : List (Word w)) : Prop :=
  ∃ R : σ → List (Word w) → Prop, BreakView e R ∧ R s ws

end Sources

namespace Wire

variable {σ : Type} [ByteSource σ] {R : σ → List UInt8 → Prop}

/-- The bytes of words, and some more that are too few for a word. -/
theorem breakView (hR : ClosedSupply (fun _ => False) R) {rest : List UInt8}
    (hpos : 0 < rest.length) (hlt : rest.length < w.bytes) :
    BreakView (.io (.partialWord w.bytes none))
      fun (x : Wire w σ) ws => R x.bytes (ws.flatMap Word.toBytes ++ rest) where
  atEnd {x ws} h := by
    have hmore : (ws.flatMap Word.toBytes ++ rest).isEmpty = false := by
      rw [List.isEmpty_eq_false_iff]
      exact List.append_ne_nil_of_right_ne_nil _ (List.ne_nil_of_length_pos hpos)
    obtain ⟨s', hs', heq | ⟨e, hnever, -⟩⟩ := hR.atEnd h
    · refine ⟨{ bytes := s' }, ?_, hs'⟩
      show x.atEnd = _
      rw [Wire.atEnd, heq, hmore]
    · exact absurd hnever id
  read h := by
    rw [List.flatMap_cons, List.append_assoc] at h
    exact read_append hR.readExact h
  read_nil h := by
    obtain ⟨x', heq, -⟩ := read_of_length_lt hR h hlt
    exact ⟨x', heq⟩

/-- Bytes that end inside a word. -/
theorem breaksOff (hR : ClosedSupply (fun _ => False) R) {s : σ} {d : List UInt8} (h : R s d)
    (hcut : 0 < d.length % w.bytes) :
    BreaksOff (.io (.partialWord w.bytes none)) ({ bytes := s } : Wire w σ)
      (AssembledWords.wordsOf d) := by
  obtain ⟨rest, hsplit, hlen⟩ := AssembledWords.flatMap_toBytes_wordsOf_append (w := w) d
  have hlt := Nat.mod_lt d.length w.bytes_pos
  rw [← hlen] at hcut hlt
  refine ⟨_, breakView hR hcut hlt, ?_⟩
  rwa [hsplit]

end Wire

end PackedBits
