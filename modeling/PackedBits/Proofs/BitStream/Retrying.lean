import PackedBits.Proofs.BitStream.Courses
import PackedBits.Proofs.BitStream.Packer
import PackedBits.Proofs.BitStream.Unpacker
import PackedBits.Proofs.WordStream.Faltering

/-!
# Reading from a source that falters

A client may make a call again that its source has refused (`BitReader.insist`).  Whether it then
reads what it would have read without the refusal depends on where the unpacker was when it was
refused, since the word that was read ahead becomes the current one before the source is asked for
the word behind it.

Over a source that `Falters` a client that insists always gets to the end, on one of the courses
that there are (`Poised.completes`).  The current word is given out without asking the source
(`obtains_of_le_valid`); then the unpacker advances, and each of the ways in which that turns out is
one step of a `Course`.  What these have in common is the theorem about packed bits,
`reads_amid_refusals`: no bit is lost, and none is added if the refusals are where they do not
matter.
-/

namespace PackedBits

open Word EndMark Layout

/-! ### A client that insists -/

section Insist

variable {w : Width} {ρ : Type} [BitReader ρ w]

/-- Reads bit by bit up to the end, in at most `max` calls, and makes calls that were refused
again. -/
def BitReader.insist (r : ρ) : Nat → (List Bool × Stop) × ρ
  | 0 => (([], .enough), r)
  | max + 1 =>
    if atEnd r then
      (([], .atEnd), r)
    else
      match readBit r with
      | (.error (.fault fault), r) => (([], .failed (.fault fault)), r)
      | (.error (.refused _), r) => insist r max
      | (.ok bit, r) =>
        let rest := insist r max
        ((bit :: rest.1.1, rest.1.2), rest.2)

variable {r r₁ r' : ρ} {k : Nat} {bits : List Bool}

/-- A client that has got to the end has no use for more calls. -/
theorem insist_add {max : Nat} (h : (BitReader.insist r max).1.2 = .atEnd) (more : Nat) :
    BitReader.insist r (max + more) = BitReader.insist r max := by
  induction max generalizing r with
  | zero => simp [BitReader.insist] at h
  | succ max ih =>
    rw [Nat.succ_add, BitReader.insist]
    rw [BitReader.insist] at h ⊢
    by_cases hend : BitReader.atEnd r = true
    · rw [if_pos hend, if_pos hend]
    · simp only [hend, Bool.false_eq_true, ↓reduceIte] at h ⊢
      rcases hread : BitReader.readBit r with ⟨(error | fault) | bit, r₁⟩
      · rw [hread] at h
        exact ih h
      · rfl
      · rw [hread] at h
        have hrest := ih h
        dsimp only
        rw [hrest]

/-- Whether a client that insists gets the bits `bits` and then the end, in `k` calls. -/
def Obtains (r : ρ) (k : Nat) (bits : List Bool) (r' : ρ) : Prop :=
  ∀ max, k < max → BitReader.insist r max = ((bits, .atEnd), r')

/-- Readers that are not at their end and give the same at the next call give the same
altogether. -/
theorem insist_congr (hend : BitReader.atEnd r = false) (hend₁ : BitReader.atEnd r₁ = false)
    (hread : BitReader.readBit r = BitReader.readBit r₁) (max : Nat) :
    BitReader.insist r (max + 1) = BitReader.insist r₁ (max + 1) := by
  rw [BitReader.insist, if_neg (Bool.eq_false_iff.mp hend), hread]
  symm
  rw [BitReader.insist, if_neg (Bool.eq_false_iff.mp hend₁)]

namespace Obtains

theorem done (hend : BitReader.atEnd r = true) : Obtains r 0 [] r := by
  intro max hmax
  obtain ⟨m, rfl⟩ := Nat.exists_eq_succ_of_ne_zero (Nat.ne_of_gt hmax)
  rw [BitReader.insist, if_pos hend]

theorem bit {x : Bool} (hend : BitReader.atEnd r = false)
    (hread : BitReader.readBit r = (.ok x, r₁)) (h : Obtains r₁ k bits r') :
    Obtains r (k + 1) (x :: bits) r' := by
  intro max hmax
  obtain ⟨m, rfl⟩ := Nat.exists_eq_succ_of_ne_zero (Nat.ne_of_gt (Nat.zero_lt_of_lt hmax))
  rw [BitReader.insist, if_neg (Bool.eq_false_iff.mp hend), hread]
  dsimp only
  rw [h m (Nat.lt_of_succ_lt_succ hmax)]

theorem again {error : StreamError} (hend : BitReader.atEnd r = false)
    (hread : BitReader.readBit r = (.error (.refused error), r₁)) (h : Obtains r₁ k bits r') :
    Obtains r (k + 1) bits r' := by
  intro max hmax
  obtain ⟨m, rfl⟩ := Nat.exists_eq_succ_of_ne_zero (Nat.ne_of_gt (Nat.zero_lt_of_lt hmax))
  rw [BitReader.insist, if_neg (Bool.eq_false_iff.mp hend), hread]
  dsimp only
  rw [h m (Nat.lt_of_succ_lt_succ hmax)]

end Obtains

end Insist

namespace Unpacker

variable {w : Width} {σ : Type} [WordSource σ w]

/-! ### One word -/

section OneWord

variable {u u₁ u' : Unpacker .marked w σ} {k : Nat} {bits : List Bool}

omit [WordSource σ w] in
theorem atEnd_of_lt_valid (hvalid : u.pos < u.valid) : u.atEnd = false := by
  unfold valid at hvalid
  unfold atEnd
  cases hlast : u.lastBits? with
  | none => rfl
  | some n =>
    rw [hlast, Option.getD_some] at hvalid
    rw [Option.any_some, decide_eq_false (Nat.not_le.mpr hvalid)]

/-- Bits of the current word need no source. -/
theorem obtains_of_le_valid {i : Nat} (hi : u.pos + i ≤ u.valid) (hvalid : u.valid ≤ w.bits)
    (h : Obtains { u with pos := u.pos + i } k bits u') :
    Obtains u (k + i) ((u.word.lowBits (u.pos + i)).drop u.pos ++ bits) u' := by
  -- one bit is given out at a time, from the lowest of those that are left
  induction i generalizing u with
  | zero =>
    have hnone : (u.word.lowBits (u.pos + 0)).drop u.pos = [] :=
      List.drop_eq_nil_of_le (by rw [length_lowBits, Nat.add_zero])
    rw [hnone]
    exact h
  | succ i ih =>
    have hpos : u.pos < u.valid := by omega
    have hassoc : u.pos + (i + 1) = u.pos + 1 + i := by omega
    have hrest : Obtains { u with pos := u.pos + 1 } (k + i)
        ((u.word.lowBits (u.pos + 1 + i)).drop (u.pos + 1) ++ bits) u' := by
      refine ih (u := { u with pos := u.pos + 1 }) ?_ hvalid ?_
      · show u.pos + 1 + i ≤ u.valid
        omega
      · show Obtains { u with pos := u.pos + 1 + i } k bits u'
        rw [← hassoc]
        exact h
    rw [hassoc, drop_lowBits_eq_cons u.word (by omega)]
    exact hrest.bit (atEnd_of_lt_valid hpos)
      (readBit_of_lt (atEnd_of_lt_valid hpos) (Nat.lt_of_lt_of_le hpos hvalid))

/-- All the bits of the current word, and what comes behind it. -/
theorem obtains_word (hpos : u.pos = 0) (hlast : u.lastBits? = none)
    (h : Obtains { u with pos := w.bits } k bits u') :
    Obtains u (k + w.bits) (u.word.bits ++ bits) u' := by
  have hvalid : u.valid = w.bits := by
    rw [valid, hlast, Option.getD_none]
  have hword : Obtains u (k + w.bits) ((u.word.lowBits (u.pos + w.bits)).drop u.pos ++ bits) u' :=
    obtains_of_le_valid (by omega) (by omega) (by rwa [hpos, Nat.zero_add])
  rwa [hpos, Nat.zero_add, List.drop_zero] at hword

/-- The valid bits of the current word, if it is the last. -/
theorem obtains_last {n : Nat} (hpos : u.pos = 0) (hlast : u.lastBits? = some n) (hn : n ≤ w.bits) :
    Obtains u n (u.word.lowBits n) { u with pos := n } := by
  have hvalid : u.valid = n := by
    rw [valid, hlast, Option.getD_some]
  have hend : ({ u with pos := n } : Unpacker .marked w σ).atEnd = true := by
    simp [atEnd, hlast]
  have hword := obtains_of_le_valid (u := u) (i := n) (by omega) (by omega)
    (by rw [hpos, Nat.zero_add]; exact Obtains.done hend)
  rwa [hpos, Nat.zero_add, List.drop_zero, List.append_nil] at hword

/-- A word that was advanced to is read as if it had been there. -/
theorem obtains_of_advance (hend : u.atEnd = false) (hpos : w.bits ≤ u.pos)
    (hadvance : u.advance = (.ok (), u₁)) (hpos₁ : u₁.pos < u₁.valid) (hvalid : u₁.valid ≤ w.bits)
    (h : Obtains u₁ k bits u') : Obtains u k bits u' := by
  intro max hmax
  obtain ⟨m, rfl⟩ := Nat.exists_eq_succ_of_ne_zero (Nat.ne_of_gt (Nat.zero_lt_of_lt hmax))
  have hend₁ := atEnd_of_lt_valid hpos₁
  have hread : BitReader.readBit u = BitReader.readBit u₁ := by
    have hread₁ := readBit_of_lt hend₁ (Nat.lt_of_lt_of_le hpos₁ hvalid)
    exact (readBit_of_advance hend hpos hadvance).trans hread₁.symm
  rw [insist_congr hend hend₁ hread]
  exact h (m + 1) hmax

end OneWord

/-! ### Reading on -/

/-- Whether an unpacker has given out its current word, has read `x` ahead, and has a source that
gives `ws` and refuses at most `n` calls. -/
structure Poised (u : Unpacker .marked w (Watched σ)) (n : Nat) (x : Word w) (ws : List (Word w)) :
    Prop where
  pos : u.pos = w.bits
  last : u.lastBits? = none
  next : u.next = x
  source : Falters u.source.source n ws

/-- Whether a client that insists gets to the end, on one of the courses that there are, and makes
no more calls than there are bits and refusals. -/
def Completes (u : Unpacker .marked w (Watched σ)) (n : Nat) (x : Word w) (ws : List (Word w)) :
    Prop :=
  ∃ asked bits k u', Course x ws asked bits ∧ Obtains u k bits u' ∧ k ≤ bits.length + n ∧
    u'.source.refused = u.source.refused ++ asked

section Advance

variable {u u₁ : Unpacker .marked w (Watched σ)} {n : Nat} {x y : Word w} {ws ws' : List (Word w)}
  {new : List Bool}

theorem Poised.atEnd (h : Poised u n x ws) : u.atEnd = false := by
  rw [Unpacker.atEnd, h.last, Option.any_none]

/-- A word that is given out whole, and another course behind it. -/
theorem Completes.extend {m d : Nat}
    (hobtains : ∀ {k bits u'}, Obtains { u₁ with pos := w.bits } k bits u' →
      Obtains u (k + w.bits + d) (x.bits ++ bits) u')
    (hrefused : u₁.source.refused = u.source.refused ++ new)
    (hcourse :
      ∀ {asked bits}, Course y ws' asked bits → Course x ws (new ++ asked) (x.bits ++ bits))
    (hrest : Completes { u₁ with pos := w.bits } m y ws') : Completes u (m + d) x ws := by
  obtain ⟨asked, bits, k, u', hc, hread, hk, hend⟩ := hrest
  refine ⟨new ++ asked, x.bits ++ bits, _, u', hcourse hc, hobtains hread, ?_, ?_⟩
  · rw [List.length_append, length_bits]
    omega
  · rw [hend, ← List.append_assoc, ← hrefused]

/-- Advancing is refused, with the word that was read ahead as the current one. -/
theorem Completes.of_refused {error : StreamError} (h : Poised u (n + 1) x ws)
    (hadvance : u.advance = (.error (.refused error), u₁)) (hword : u₁.word = x) (hpos : u₁.pos = 0)
    (hlast : u₁.lastBits? = none) (hrefused : u₁.source.refused = u.source.refused ++ new)
    (hcourse :
      ∀ {asked bits}, Course y ws' asked bits → Course x ws (new ++ asked) (x.bits ++ bits))
    (hrest : Completes { u₁ with pos := w.bits } n y ws') : Completes u (n + 1) x ws := by
  refine .extend ?_ hrefused hcourse hrest
  intro k bits u' hobtains
  have hread := readBit_of_advance_error h.atEnd (Nat.le_of_eq h.pos.symm) hadvance
  have hall := (obtains_word hpos hlast hobtains).again (r := u) h.atEnd hread
  rwa [hword] at hall

/-- Advancing succeeds, and the word is not the last. -/
theorem Completes.of_ok (h : Poised u n x ws) (hadvance : u.advance = (.ok (), u₁))
    (hword : u₁.word = x) (hpos : u₁.pos = 0) (hlast : u₁.lastBits? = none)
    (hrefused : u₁.source.refused = u.source.refused ++ new)
    (hcourse :
      ∀ {asked bits}, Course y ws' asked bits → Course x ws (new ++ asked) (x.bits ++ bits))
    (hrest : Completes { u₁ with pos := w.bits } n y ws') : Completes u n x ws := by
  refine .extend (d := 0) ?_ hrefused hcourse hrest
  intro k bits u' hobtains
  have hbits := w.bits_pos
  have hvalid : u₁.valid = w.bits := by
    rw [valid, hlast, Option.getD_none]
  have hall := obtains_of_advance h.atEnd (Nat.le_of_eq h.pos.symm) hadvance
    (by rw [hpos, hvalid]; exact hbits) (Nat.le_of_eq hvalid) (obtains_word hpos hlast hobtains)
  rwa [hword] at hall

/-- Advancing succeeds, and the word is the last. -/
theorem Completes.of_last {m : Nat} (h : Poised u n x ws) (hadvance : u.advance = (.ok (), u₁))
    (hword : u₁.word = x) (hpos : u₁.pos = 0) (hlast : u₁.lastBits? = some m)
    (hm : 0 < m ∧ m ≤ w.bits) (hrefused : u₁.source.refused = u.source.refused ++ new)
    (hcourse : Course x ws new (x.lowBits m)) : Completes u n x ws := by
  have hvalid : u₁.valid = m := by
    rw [valid, hlast, Option.getD_some]
  have hall := obtains_of_advance h.atEnd (Nat.le_of_eq h.pos.symm) hadvance
    (by rw [hpos, hvalid]; exact hm.1) (by rw [hvalid]; exact hm.2) (obtains_last hpos hlast hm.2)
  rw [hword] at hall
  refine ⟨new, x.lowBits m, m, _, hcourse, hall, ?_, hrefused⟩
  rw [length_lowBits]
  exact Nat.le_add_right m n

end Advance

/-- Whatever the source refuses, a client that insists gets to the end. -/
theorem Poised.completes {u : Unpacker .marked w (Watched σ)} {n : Nat} {x : Word w}
    {ws : List (Word w)} (h : Poised u n x ws) : Completes u n x ws := by
  have hnone : ¬u.lastBits?.isSome = true := by simp [h.last]
  have hshift : u.advance = u.shift := rfl
  unfold shift at hshift
  rw [if_neg hnone, h.next] at hshift
  rcases Watched.atEnd_falters h.source with
    ⟨t₁, hend₁, hlog₁, hs₁⟩ | ⟨e, t₁, m, hend₁, hlog₁, rfl, hs₁⟩
  · simp only [hend₁] at hshift
    cases ws with
    | nil => exact .of_last h hshift rfl rfl rfl ⟨decode_pos x, decode_le x⟩ hlog₁ .last
    | cons y ws =>
      rcases Watched.read_falters hs₁ with
        ⟨t₂, hread, hlog₂, hs₂⟩ | ⟨e, t₂, m, hread, hlog₂, rfl, hs₂⟩
      · simp only [List.isEmpty_cons, hread] at hshift
        rcases Watched.atEnd_falters hs₂ with
          ⟨t₃, hend₃, hlog₃, hs₃⟩ | ⟨e, t₃, m, hend₃, hlog₃, rfl, hs₃⟩
        · -- nothing is refused, and the word behind is looked at
          have hlog : t₃.refused = u.source.refused ++ [false, false, false] := by
            rw [hlog₃, hlog₂, hlog₁, List.append_assoc, List.append_assoc]
            rfl
          simp only [hend₃] at hshift
          by_cases hmark : ws = [] ∧ payloadBits w ≤ decode y
          · obtain ⟨rfl, hle⟩ := hmark
            simp only [List.isEmpty_nil, hle, ↓reduceIte] at hshift
            exact .of_last h hshift rfl rfl rfl ⟨decode_pos y, decode_le y⟩ hlog (.apart hle)
          · have hmore : u.advance = (.ok (),
                { u with source := t₃, word := x, next := y, pos := 0 }) := by
              rw [hshift]
              cases ws with
              | nil =>
                have hlt : ¬payloadBits w ≤ decode y := fun hle => hmark ⟨rfl, hle⟩
                simp only [List.isEmpty_nil, hlt, ↓reduceIte]
              | cons z ws => rfl
            exact .of_ok h hmore rfl rfl h.last hlog (.onward hmark)
              (Poised.completes ⟨rfl, h.last, rfl, hs₃⟩)
        · -- the word behind has been read, and is ahead now
          have hlog : t₃.refused = u.source.refused ++ [false, false, true] := by
            rw [hlog₃, hlog₂, hlog₁, List.append_assoc, List.append_assoc]
            rfl
          simp only [hend₃] at hshift
          exact .of_refused h hshift rfl rfl h.last hlog .third
            (Poised.completes ⟨rfl, h.last, rfl, hs₃⟩)
      · -- the word is current and still ahead
        have hlog : t₂.refused = u.source.refused ++ [false, true] := by
          rw [hlog₂, hlog₁, List.append_assoc]
          rfl
        simp only [List.isEmpty_cons, hread] at hshift
        exact .of_refused h hshift rfl rfl h.last hlog .second
          (Poised.completes ⟨rfl, h.last, rfl, hs₂⟩)
  · -- and so it is here
    simp only [hend₁] at hshift
    exact .of_refused h hshift rfl rfl h.last hlog₁ .first
      (Poised.completes ⟨rfl, h.last, rfl, hs₁⟩)
  termination_by ws.length + n

theorem poised_of_openMarked {t : σ} {n : Nat} {ws : List (Word w)} (ht : Falters t n ws)
    {u : Unpacker .marked w (Watched σ)} {t' : Watched σ}
    (hopen : openMarked ({ source := t } : Watched σ) = (.ok u, t')) :
    (ws = [] ∧ u.atEnd = true) ∨ ∃ x ws', ws = x :: ws' ∧ Poised u n x ws' := by
  unfold openMarked at hopen
  rcases Watched.atEnd_falters (t := { source := t }) ht with
    ⟨t₁, hend, -, hs₁⟩ | ⟨e, t₁, m, hend, -⟩
  · rw [hend] at hopen
    cases ws with
    | nil =>
      simp only [List.isEmpty_nil, Prod.mk.injEq, Except.ok.injEq] at hopen
      rw [← hopen.1]
      exact Or.inl ⟨rfl, by simp [Unpacker.atEnd]⟩
    | cons x ws =>
      rcases Watched.read_falters hs₁ with ⟨t₂, hread, -, hs₂⟩ | ⟨e, t₂, m, hread, -⟩
      · simp only [List.isEmpty_cons, hread, Prod.mk.injEq, Except.ok.injEq] at hopen
        rw [← hopen.1]
        exact Or.inr ⟨x, ws, rfl, rfl, rfl, rfl, hs₂⟩
      · simp [hread] at hopen
  · simp [hend] at hopen

open Packer in
/-- **Reading amid refusals.** A packer's words come from a source that refuses calls, any finite
number of them and at any points, once it has been opened.  A client that makes refused calls again
always gets to the end, and loses no bit.  What it gets besides are whole words, and it gets none
exactly if of the calls on the source only third ones are refused, and not the one that would find
the mark apart. -/
theorem reads_amid_refusals {κ : Type} [WordSink κ w] {s : κ} (hs : Unfailing s)
    (calls : List (WriteCall w)) (hcalls : ∀ c ∈ calls, c.InRange) (e : Closing) {t : σ} {n : Nat}
    (ht : Falters t n ((WriteCall.run (recording w true s) calls).2.finish e).2.words)
    {u : Unpacker .marked w (Watched σ)} {t' : Watched σ}
    (hopen : openMarked ({ source := t } : Watched σ) = (.ok u, t')) :
    let b := WriteCall.stream calls
    ∃ bits asked u',
      (∀ max, bits.length + n < max → BitReader.insist u max = ((bits, .atEnd), u')) ∧
      u'.source.refused = u.source.refused ++ asked ∧ b.Sublist bits ∧
      (∃ k, bits.length = b.length + k * w.bits) ∧
      (bits = b ↔
        OnlyThird (steadyCalls ((WriteCall.run (recording w true s) calls).2.finish e).2.words)
          asked) := by
  intro b
  have hwords : ((WriteCall.run (recording w true s) calls).2.finish e).2.words = layout true b :=
    words_finish_run_recording hs true hcalls e
  rw [hwords] at ht ⊢
  have hvalid := validBits_layout w b
  rcases poised_of_openMarked ht hopen with ⟨hnil, hend⟩ | ⟨x, ws, hcons, hpoised⟩
  · -- no words and no bits
    rw [hnil, validBits_nil] at hvalid
    rw [hnil, ← hvalid]
    refine ⟨[], [], u, fun max hmax => Obtains.done hend max (by omega), by simp,
      List.Sublist.refl _, ⟨0, by simp⟩, iff_of_true rfl ?_⟩
    intro i hi
    simp at hi
  · obtain ⟨asked, bits, k, u', hcourse, hobtains, hk, hasked⟩ := hpoised.completes
    rw [hcons] at hvalid ⊢
    rw [← hvalid]
    exact ⟨bits, asked, u', fun max hmax => hobtains max (by omega), hasked, hcourse.sublist,
      hcourse.length_eq, hcourse.eq_iff⟩

/-- Eleven bits, and the question behind the second word refused: nothing is added. -/
theorem reads_amid_late_refusal :
    let calls : List (WriteCall .w8) := [.bits 0xa5 8, .bits 0x5 3]
    let words := ((WriteCall.run (Packer.recording .w8 true ({} : WordBuffer .w8)) calls).2.finish
      .close).2.words
    let t : Refusing (Tape .w8) :=
      { source := { words }, plan := [none, none, none, none, some (.endOfWords 0)] }
    (∀ c ∈ calls, c.InRange) ∧ Unfailing ({} : WordBuffer .w8) ∧ Falters t 5 words ∧
      ∃ (u : Unpacker .marked .w8 (Watched (Refusing (Tape .w8)))) (t' : Watched _),
        openMarked ({ source := t } : Watched _) = (.ok u, t') ∧
        ∃ asked u', BitReader.insist u 100 = ((WriteCall.stream calls, .atEnd), u') ∧
          u'.source.refused = u.source.refused ++ asked ∧ asked[2]? = some true ∧
          OnlyThird (steadyCalls words) asked := by
  intro calls words t
  have hcalls : ∀ c ∈ calls, c.InRange := by decide
  have ht : Falters t 5 words := Refusing.falters (Tape.serves words) _
  -- the words behind the one that is read ahead, and what is left of the plan
  let u : Unpacker .marked .w8 (Watched (Refusing (Tape .w8))) :=
    { source := { source := { source := { words, pos := 1 },
                              plan := [none, none, some (.endOfWords 0)] },
                  refused := [false, false] },
      next := 0xa5 }
  have hopen : openMarked ({ source := t } : Watched _) = (.ok u, u.source) := by rfl
  obtain ⟨bits, asked, u', hread, hasked, -, -, hiff⟩ :=
    reads_amid_refusals (WordBuffer.unfailing {}) calls hcalls .close ht hopen
  have hrun : (BitReader.insist u 100).1 = (WriteCall.stream calls, .atEnd) ∧
      (BitReader.insist u 100).2.source.refused = [false, false, false, false, true, false] := by
    decide
  -- what a hundred calls have read, more calls read as well
  have hall := hread (100 + (bits.length + 5)) (by omega)
  rw [insist_add (congrArg Prod.snd hrun.1)] at hall
  rw [hall, Prod.mk.injEq] at hrun
  obtain ⟨⟨rfl, -⟩, hrefused⟩ := hrun
  have hsuffix : [false, false] ++ asked = [false, false] ++ [false, false, true, false] :=
    hasked.symm.trans hrefused
  refine ⟨hcalls, WordBuffer.unfailing _, ht, u, _, hopen, asked, u', hall, hasked, ?_,
    hiff.mp rfl⟩
  rw [List.append_cancel_left hsuffix]
  rfl

/-- Three bits, and the question for more words interrupted: the word is given out whole, with the
mark in it, and then its bits again. -/
theorem reads_amid_interruption_wrong :
    let calls : List (WriteCall .w8) := [.bits 0x5 3]
    let words := ((WriteCall.run (Packer.recording .w8 true ({} : WordBuffer .w8)) calls).2.finish
      .close).2.words
    let t : Wire .w8 ScriptReader :=
      { bytes := { events := [.chunk [0x25], .fail (.own .interrupted "signal")] } }
    WriteCall.stream calls = [true, false, true] ∧ Falters t 1 words ∧
      ∃ (u : Unpacker .marked .w8 (Wire .w8 ScriptReader)) (t' : Wire .w8 ScriptReader),
        openMarked t = (.ok u, t') ∧
        (BitReader.insist u 100).1
          = ([true, false, true, false, false, true, false, false, true, false, true], .atEnd) := by
  intro calls words t
  have hwords : words = [0x25] := by decide
  have hportions : ScriptReader.Portions t.bytes 1 [(0x25 : Word .w8)] :=
    .portion (x := (0x25 : Word .w8)) (.fail .done)
  -- the chunk is at hand when it is read
  let left : List ReadEvent := [.fail (.own .interrupted "signal")]
  have hread : ByteSource.readExact ({ chunk := [0x25], events := left } : ScriptReader) 1
      = (.ok [0x25], { events := left }) :=
    ScriptReader.readExact_of_fill (x := (0x25 : Word .w8)) rfl
  have hopen : openMarked t = (.ok { source := { bytes := { events := left } }, next := 0x25 },
      { bytes := { events := left } }) := by
    have hend : WordSource.atEnd t
        = (.ok false, { bytes := { chunk := [0x25], events := left } }) := rfl
    have hword : (WordSource.read ({ bytes := { chunk := [0x25], events := left } } :
        Wire .w8 ScriptReader)) = (.ok 0x25, { bytes := { events := left } }) := by
      simp only [WordSource.read, Wire.read, Width.bytes, hread]
      rfl
    exact openMarked_of_read hend hword
  refine ⟨by rfl, ?_, _, _, hopen, by decide⟩
  rw [hwords]
  exact Wire.falters_portions hportions

end Unpacker

end PackedBits
