import PackedBits.ByteStream.Script
import PackedBits.Proofs.ByteStream.Gather
import PackedBits.Proofs.WordStream.Reliable
import PackedBits.WordStream.Wire

/-!
# Sources that falter

A source `Falters` if it serves words as one that keeps its word does, except that some of its calls
are refused, each without a word being lost.  There are finitely many refusals, at most `n`, and
they may come at any time and for any reason: the refusals of a device that is interrupted or not
ready.

Bytes that arrive in portions, a word at a time, with errors in between, falter as words
(`Wire.falters_portions`).  What is asked of such a source, and which of it is refused, is seen in a
`Watched` one.
-/

namespace PackedBits

variable {w : Width} {σ : Type}

section Falters

variable [WordSource σ w]

/-- A relation between sources, the number of refusals still to come at most, and the words still to
be given, which every call keeps. -/
structure FalterView (R : σ → Nat → List (Word w) → Prop) : Prop where
  atEnd {s : σ} {n : Nat} {ws : List (Word w)} :
    R s n ws → (∃ s', WordSource.atEnd s = (.ok ws.isEmpty, s') ∧ R s' n ws) ∨
      ∃ error s' m, WordSource.atEnd s = (.error (.refused error), s') ∧ n = m + 1 ∧ R s' m ws
  read {s : σ} {n : Nat} {x : Word w} {ws : List (Word w)} :
    R s n (x :: ws) → (∃ s', WordSource.read s = (.ok x, s') ∧ R s' n ws) ∨
      ∃ error s' m, WordSource.read s = (.error (.refused error), s') ∧ n = m + 1 ∧ R s' m (x :: ws)

/-- Whether a source gives the words `ws` but refuses at most `n` calls. -/
def Falters (s : σ) (n : Nat) (ws : List (Word w)) : Prop :=
  ∃ R : σ → Nat → List (Word w) → Prop, FalterView R ∧ R s n ws

namespace Falters

variable {s : σ} {n : Nat} {ws : List (Word w)}

theorem atEnd (h : Falters s n ws) :
    (∃ s', WordSource.atEnd s = (.ok ws.isEmpty, s') ∧ Falters s' n ws) ∨
      ∃ error s' m, WordSource.atEnd s = (.error (.refused error), s') ∧ n = m + 1 ∧
        Falters s' m ws := by
  obtain ⟨R, hR, hs⟩ := h
  rcases hR.atEnd hs with ⟨s', heq, hs'⟩ | ⟨error, s', m, heq, hm, hs'⟩
  · exact Or.inl ⟨s', heq, R, hR, hs'⟩
  · exact Or.inr ⟨error, s', m, heq, hm, R, hR, hs'⟩

theorem read {x : Word w} (h : Falters s n (x :: ws)) :
    (∃ s', WordSource.read s = (.ok x, s') ∧ Falters s' n ws) ∨
      ∃ error s' m, WordSource.read s = (.error (.refused error), s') ∧ n = m + 1 ∧
        Falters s' m (x :: ws) := by
  obtain ⟨R, hR, hs⟩ := h
  rcases hR.read hs with ⟨s', heq, hs'⟩ | ⟨error, s', m, heq, hm, hs'⟩
  · exact Or.inl ⟨s', heq, R, hR, hs'⟩
  · exact Or.inr ⟨error, s', m, heq, hm, R, hR, hs'⟩

end Falters

end Falters

/-! ### Watched sources -/

/-- A source and, for each call that was made on it, whether it was refused. -/
structure Watched (σ : Type) where
  source : σ
  refused : List Bool := []

namespace Watched

variable [WordSource σ w]

/-- Notes whether a call is refused. -/
def note {α : Type} (t : Watched σ) (answer : Outcome StreamError α × σ) :
    Outcome StreamError α × Watched σ :=
  (answer.1, { source := answer.2, refused := t.refused ++ [!answer.1.isOk] })

instance : WordSource (Watched σ) w where
  read t := t.note (WordSource.read t.source)
  atEnd t := t.note (WordSource.atEnd t.source)

variable {t : Watched σ} {n : Nat} {ws : List (Word w)}

theorem atEnd_falters (h : Falters t.source n ws) :
    (∃ t' : Watched σ, WordSource.atEnd t = (.ok ws.isEmpty, t') ∧
      t'.refused = t.refused ++ [false] ∧ Falters t'.source n ws) ∨
    ∃ (error : StreamError) (t' : Watched σ) (m : Nat),
      WordSource.atEnd t = (.error (.refused error), t') ∧
      t'.refused = t.refused ++ [true] ∧ n = m + 1 ∧ Falters t'.source m ws := by
  have hnote : WordSource.atEnd t = t.note (WordSource.atEnd t.source) := rfl
  rw [hnote]
  rcases h.atEnd with ⟨s', heq, hs'⟩ | ⟨error, s', m, heq, hm, hs'⟩
  · rw [heq]
    exact Or.inl ⟨_, rfl, rfl, hs'⟩
  · rw [heq]
    exact Or.inr ⟨error, _, m, rfl, rfl, hm, hs'⟩

theorem read_falters {x : Word w} (h : Falters t.source n (x :: ws)) :
    (∃ t' : Watched σ, WordSource.read t = (.ok x, t') ∧
      t'.refused = t.refused ++ [false] ∧ Falters t'.source n ws) ∨
    ∃ (error : StreamError) (t' : Watched σ) (m : Nat),
      WordSource.read t = (.error (.refused error), t') ∧
      t'.refused = t.refused ++ [true] ∧ n = m + 1 ∧ Falters t'.source m (x :: ws) := by
  have hnote : WordSource.read t = t.note (WordSource.read t.source) := rfl
  rw [hnote]
  rcases h.read with ⟨s', heq, hs'⟩ | ⟨error, s', m, heq, hm, hs'⟩
  · rw [heq]
    exact Or.inl ⟨_, rfl, rfl, hs'⟩
  · rw [heq]
    exact Or.inr ⟨error, _, m, rfl, rfl, hm, hs'⟩

end Watched

/-! ### Sources that refuse by plan -/

/-- A source that refuses the calls for which its plan has an error, and makes the others. -/
structure Refusing (σ : Type) where
  source : σ
  plan : List (Option StreamError) := []

namespace Refusing

variable [WordSource σ w]

/-- Goes by the plan. -/
def follow {α : Type} (t : Refusing σ) (call : σ → Outcome StreamError α × σ) :
    Outcome StreamError α × Refusing σ :=
  match t.plan with
  | some error :: plan => (.error (.refused error), { t with plan })
  | none :: plan => let answer := call t.source; (answer.1, { source := answer.2, plan })
  | [] => let answer := call t.source; (answer.1, { source := answer.2 })

instance : WordSource (Refusing σ) w where
  read t := t.follow WordSource.read
  atEnd t := t.follow WordSource.atEnd

/-- A call is made or refused, and in the second case the plan has become shorter. -/
theorem follow_cases {α : Type} (t : Refusing σ) (call : σ → Outcome StreamError α × σ) :
    (∃ plan, t.follow call = ((call t.source).1, { source := (call t.source).2, plan }) ∧
      plan.length ≤ t.plan.length) ∨
    ∃ error plan, t.follow call = (.error (.refused error), { t with plan }) ∧
      plan.length + 1 = t.plan.length := by
  obtain ⟨source, plan⟩ := t
  -- the plan has ended, lets the call through, or has an error for it
  rcases plan with _ | ⟨_ | error, plan⟩
  · exact Or.inl ⟨[], rfl, Nat.le_refl _⟩
  · exact Or.inl ⟨plan, rfl, Nat.le_succ _⟩
  · exact Or.inr ⟨error, plan, rfl, rfl⟩

/-- A source that serves words falters if it goes by a plan. -/
theorem falters {t : σ} {ws : List (Word w)} (h : Serves t ws) (plan : List (Option StreamError)) :
    Falters ({ source := t, plan } : Refusing σ) plan.length ws := by
  refine ⟨fun t n ws => Serves t.source ws ∧ t.plan.length ≤ n, ?_, h, Nat.le_refl _⟩
  constructor
  · rintro t n ws ⟨ht, hn⟩
    obtain ⟨s', heq, hs'⟩ := ht.atEnd
    rcases t.follow_cases WordSource.atEnd with ⟨plan, hmade, hlen⟩ | ⟨error, plan, hrefused, hlen⟩
    · rw [heq] at hmade
      exact Or.inl ⟨_, hmade, hs', Nat.le_trans hlen hn⟩
    · have hfewer : plan.length ≤ n - 1 := by omega
      exact Or.inr ⟨error, _, n - 1, hrefused, by omega, ht, hfewer⟩
  · rintro t n x ws ⟨ht, hn⟩
    obtain ⟨s', heq, hs'⟩ := ht.read
    rcases t.follow_cases WordSource.read with ⟨plan, hmade, hlen⟩ | ⟨error, plan, hrefused, hlen⟩
    · rw [heq] at hmade
      exact Or.inl ⟨_, hmade, hs', Nat.le_trans hlen hn⟩
    · have hfewer : plan.length ≤ n - 1 := by omega
      exact Or.inr ⟨error, _, n - 1, hrefused, by omega, ht, hfewer⟩

end Refusing

/-! ### Bytes in portions -/

namespace ScriptReader

open ByteReader

/-- Whether a script has the bytes of words, each in a portion of its own, and `n` errors between
the portions.  The first word may be at hand. -/
inductive Portions : ScriptReader → Nat → List (Word w) → Prop where
  | done : Portions { events := [] } 0 []
  | fail {n : Nat} {e : IoError} {events : List ReadEvent} {ws : List (Word w)} :
    Portions { events } n ws → Portions { events := .fail e :: events } (n + 1) ws
  | portion {n : Nat} {x : Word w} {events : List ReadEvent} {ws : List (Word w)} :
    Portions { events } n ws → Portions { events := .chunk x.toBytes :: events } n (x :: ws)
  | begun {n : Nat} {x : Word w} {events : List ReadEvent} {ws : List (Word w)} :
    Portions { events } n ws → Portions { chunk := x.toBytes, events } n (x :: ws)

theorem exists_toBytes_eq_cons (x : Word w) : ∃ byte rest, x.toBytes = byte :: rest := by
  have hlen := Word.length_toBytes x
  have hbytes := w.bytes_pos
  cases hx : x.toBytes with
  | nil =>
    rw [hx, List.length_nil] at hlen
    omega
  | cons byte rest => exact ⟨byte, rest, rfl⟩

/-- A word that is at hand stays at hand. -/
theorem fill_toBytes (x : Word w) (events : List ReadEvent) :
    fill { chunk := x.toBytes, events } = (.ok x.toBytes, { chunk := x.toBytes, events }) := by
  obtain ⟨byte, rest, hcons⟩ := exists_toBytes_eq_cons x
  rw [hcons, fill]

/-- Bytes that are at hand, and no fewer than are wanted, are gathered at once. -/
theorem readExact_of_fill {s : ScriptReader} {x : Word w} {events : List ReadEvent}
    (h : s.fill = (.ok x.toBytes, { chunk := x.toBytes, events })) :
    readExact s w.bytes = (.ok x.toBytes, { events }) := by
  have hlen := Word.length_toBytes x
  have hbytes := w.bytes_pos
  have hread : ByteReader.read s w.bytes = (.ok x.toBytes, { events }) := by
    show s.read w.bytes = _
    unfold read
    rw [h]
    simp only [← hlen, List.take_length, List.drop_length]
  unfold readExact
  rw [gather_of_full (Nat.ne_of_gt hbytes) hread hlen]

/-- An error in front of a portion: an interruption is passed over, any other ends the reading. -/
theorem readExact_fail (e : IoError) (events : List ReadEvent) {n : Nat} (hn : n ≠ 0) :
    readExact ({ events := .fail e :: events } : ScriptReader) n =
      if e.kind = .interrupted then readExact ({ events } : ScriptReader) n
      else (.error e, { events }) := by
  have hread : ByteReader.read ({ events := .fail e :: events } : ScriptReader) n
      = (.error e, { events }) := rfl
  unfold readExact
  by_cases hkind : e.kind = .interrupted
  · rw [if_pos hkind, gather_of_interrupted hn hread hkind]
  · rw [if_neg hkind, gather_of_error hn hread hkind]

theorem Portions.readExact {s : ScriptReader} {n : Nat} {x : Word w} {ws : List (Word w)}
    (h : Portions s n (x :: ws)) :
    (∃ s' m, ByteReader.readExact s w.bytes = (.ok x.toBytes, s') ∧ m ≤ n ∧ Portions s' m ws) ∨
      ∃ e s' m, ByteReader.readExact s w.bytes = (.error e, s') ∧ m < n ∧
        Portions s' m (x :: ws) := by
  generalize hall : x :: ws = all at h
  induction h with
  | done => exact absurd hall (List.cons_ne_nil x ws)
  | @fail n e events all h ih =>
    subst hall
    rw [readExact_fail e events (Nat.ne_of_gt w.bytes_pos)]
    by_cases hkind : e.kind = .interrupted
    · -- the bytes are asked for again within the same call
      rw [if_pos hkind]
      rcases ih rfl with ⟨s', m, heq, hm, hs'⟩ | ⟨e', s', m, heq, hm, hs'⟩
      · exact Or.inl ⟨s', m, heq, Nat.le_succ_of_le hm, hs'⟩
      · exact Or.inr ⟨e', s', m, heq, Nat.lt_succ_of_lt hm, hs'⟩
    · rw [if_neg hkind]
      exact Or.inr ⟨e, _, n, rfl, Nat.lt_succ_self n, h⟩
  | @portion n y events ws' h ih =>
    obtain ⟨rfl, rfl⟩ := List.cons.inj hall
    exact Or.inl ⟨_, n, readExact_of_fill rfl, Nat.le_refl n, h⟩
  | @begun n y events ws' h ih =>
    obtain ⟨rfl, rfl⟩ := List.cons.inj hall
    exact Or.inl ⟨_, n, readExact_of_fill (fill_toBytes x events), Nat.le_refl n, h⟩

/-- Asking for the end looks at the next portion, and leaves it there. -/
theorem Portions.atEnd {s : ScriptReader} {n : Nat} {ws : List (Word w)} (h : Portions s n ws) :
    (∃ s', ByteSource.atEnd s = (.ok ws.isEmpty, s') ∧ Portions s' n ws) ∨
      ∃ e s' m, ByteSource.atEnd s = (.error e, s') ∧ m < n ∧ Portions s' m ws := by
  cases h with
  | done => exact Or.inl ⟨_, rfl, .done⟩
  | @fail n e events ws h => exact Or.inr ⟨e, _, n, rfl, Nat.lt_succ_self n, h⟩
  | @portion n x events ws h =>
    obtain ⟨byte, rest, hcons⟩ := exists_toBytes_eq_cons x
    refine Or.inl ⟨{ chunk := x.toBytes, events }, ?_, .begun h⟩
    rw [hcons]
    rfl
  | @begun n x events ws h =>
    refine Or.inl ⟨{ chunk := x.toBytes, events }, ?_, .begun h⟩
    obtain ⟨byte, rest, hcons⟩ := exists_toBytes_eq_cons x
    rw [hcons]
    rfl

end ScriptReader

/-- Words that arrive one by one, with errors in between, are served with no more refusals than
there are errors. -/
theorem Wire.falters_portions {s : ScriptReader} {n : Nat} {ws : List (Word w)}
    (h : s.Portions n ws) : Falters ({ bytes := s } : Wire w ScriptReader) n ws := by
  -- a call may pass over several errors, so their number is only bounded
  refine ⟨fun t n ws => ∃ m, m ≤ n ∧ t.bytes.Portions m ws, ?_, n, Nat.le_refl n, h⟩
  constructor
  · rintro t n ws ⟨m, hm, ht⟩
    rcases ht.atEnd with ⟨s', heq, hs'⟩ | ⟨e, s', m', heq, hm', hs'⟩
    · exact Or.inl ⟨{ bytes := s' }, by simp only [WordSource.atEnd, Wire.atEnd, heq], m, hm, hs'⟩
    · exact Or.inr ⟨.io e, { bytes := s' }, n - 1, by simp only [WordSource.atEnd, Wire.atEnd, heq],
        by omega, m', by omega, hs'⟩
  · rintro t n x ws ⟨m, hm, ht⟩
    rcases ht.readExact with ⟨s', m', heq, hm', hs'⟩ | ⟨e, s', m', heq, hm', hs'⟩
    · refine Or.inl ⟨{ bytes := s' }, ?_, m', by omega, hs'⟩
      have hread : ByteSource.readExact t.bytes w.bytes = (.ok x.toBytes, s') := heq
      simp only [WordSource.read, Wire.read, hread, Word.ofBytes_toBytes]
    · refine Or.inr ⟨.io (e.insideWord w.bytes), { bytes := s' }, n - 1, ?_, by omega, m',
        by omega, hs'⟩
      have hread : ByteSource.readExact t.bytes w.bytes = (.error e, s') := heq
      simp only [WordSource.read, Wire.read, hread]

end PackedBits
