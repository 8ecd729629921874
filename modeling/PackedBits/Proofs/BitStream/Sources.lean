import Mathlib
import PackedBits.Proofs.BitStream.Unpacker
import PackedBits.Proofs.Runs
import PackedBits.Proofs.WordStream.Agreement

/-!
# Unpacking from sources that give the same words

Two sources are `Indistinct` if a relation holds of them that every call keeps, and under which the
answers are the same up to the error of a refusal.  An unpacker knows of its source only what these
calls answer.  So two unpackers that agree in everything but their indistinct sources
(`Unpacker.Like`) still do so after any call, and their answers are the same up to the error of a
refusal as well.  This is shown of each part of an unpacker in turn, and nothing is asked of the
words or of the marks.

An unbounded unpacker never asks for the end, so that its sources need to agree in what is read and
no more.  Hence interruptions, which only the question for the end may meet, are not seen by it.
-/

namespace PackedBits

variable {w : Width} {σ τ : Type}

/-! ### Answers up to the error of a refusal -/

/-- Whether two calls have the same answer up to the error of a refusal, and leave states that a
relation holds of. -/
structure Same {α : Type} (Q : σ → τ → Prop) (a : Outcome StreamError α × σ)
    (b : Outcome StreamError α × τ) : Prop where
  answer : bare a.1 = bare b.1
  state : Q a.2 b.2

namespace Same

variable {α : Type} {Q : σ → τ → Prop} {a : Outcome StreamError α × σ}
  {b : Outcome StreamError α × τ}

/-- Both have the same value, or both fail. -/
theorem cases (h : Same Q a b) :
    (∃ x s t, a = (.ok x, s) ∧ b = (.ok x, t) ∧ Q s t) ∨
      ∃ f g s t, a = (.error f, s) ∧ b = (.error g, t) ∧
        f.map (fun _ => ()) = g.map (fun _ => ()) ∧ Q s t := by
  obtain ⟨a | a, s⟩ := a
  · obtain ⟨b | b, t⟩ := b
    · exact .inr ⟨a, b, s, t, rfl, rfl, Except.error.inj h.answer, h.state⟩
    · have hanswer := h.answer
      simp [bare, Except.mapError] at hanswer
  · obtain ⟨b | b, t⟩ := b
    · have hanswer := h.answer
      simp [bare, Except.mapError] at hanswer
    · obtain rfl : a = b := Except.ok.inj h.answer
      exact .inl ⟨a, s, t, rfl, rfl, h.state⟩

end Same

/-! ### Sources -/

/-- A relation between sources that cannot be told apart by the calls of a mode, but by the error of
a refusal. -/
structure Indistinct [WordSource σ w] [WordSource τ w] (mode : EndMode) (Q : σ → τ → Prop) :
    Prop where
  read {s : σ} {t : τ} : Q s t → Same Q (WordSource.read s) (WordSource.read t)
  atEnd {s : σ} {t : τ} :
    mode = .marked → Q s t → Same Q (WordSource.atEnd s) (WordSource.atEnd t)

/-- Sources of the same words. -/
theorem ClosedView.indistinct [WordSource σ w] [WordSource τ w] {P P' : StreamError → Prop}
    {e e' : StreamError} {R : σ → List (Word w) → Prop} {R' : τ → List (Word w) → Prop}
    (hR : ClosedView P e R) (hR' : ClosedView P' e' R') {mode : EndMode}
    (hmode : mode = .marked → ∀ error, ¬P error ∧ ¬P' error) :
    Indistinct mode fun s t => ∃ ws, R s ws ∧ R' t ws where
  read {s t} h := by
    obtain ⟨ws, hs, ht⟩ := h
    cases ws with
    | nil =>
      obtain ⟨s', heq, hs'⟩ := hR.read_nil hs
      obtain ⟨t', heq', ht'⟩ := hR'.read_nil ht
      rw [heq, heq']
      exact ⟨rfl, [], hs', ht'⟩
    | cons x ws =>
      obtain ⟨s', heq, hs'⟩ := hR.read hs
      obtain ⟨t', heq', ht'⟩ := hR'.read ht
      rw [heq, heq']
      exact ⟨rfl, ws, hs', ht'⟩
  atEnd {s t} hmarked h := by
    obtain ⟨ws, hs, ht⟩ := h
    have hnever := hmode hmarked
    obtain ⟨s', heq, hs'⟩ := (hR.sourceView fun error => (hnever error).1).atEnd hs
    obtain ⟨t', heq', ht'⟩ := (hR'.sourceView fun error => (hnever error).2).atEnd ht
    rw [heq, heq']
    exact ⟨rfl, ws, hs', ht'⟩

/-! ### Unpackers -/

namespace Unpacker

variable {mode : EndMode}

/-- Whether two unpackers agree in everything but their sources, and a relation holds of these. -/
structure Like (Q : σ → τ → Prop) (u : Unpacker mode w σ) (v : Unpacker mode w τ) : Prop where
  source : Q u.source v.source
  word : u.word = v.word
  next : u.next = v.next
  pos : u.pos = v.pos
  lastBits : u.lastBits? = v.lastBits?

variable {Q : σ → τ → Prop} {u : Unpacker mode w σ} {v : Unpacker mode w τ}

theorem Like.atEnd (h : Like Q u v) : u.atEnd = v.atEnd := by
  rw [Unpacker.atEnd, Unpacker.atEnd, h.lastBits, h.pos]

variable [WordSource σ w] [WordSource τ w]

theorem Like.fetch (hQ : Indistinct mode Q) (h : Like Q u v) : Same (Like Q) u.fetch v.fetch := by
  unfold Unpacker.fetch
  rcases (hQ.read h.source).cases with ⟨x, s, t, heq, heq', hst⟩ | ⟨f, g, s, t, heq, heq', hfg, hst⟩
  · rw [heq, heq']
    exact ⟨rfl, hst, rfl, h.next, rfl, h.lastBits⟩
  · rw [heq, heq']
    exact ⟨congrArg Except.error hfg, hst, h.word, h.next, h.pos, h.lastBits⟩

theorem Like.shift {u : Unpacker .marked w σ} {v : Unpacker .marked w τ} (hQ : Indistinct .marked Q)
    (h : Like Q u v) : Same (Like Q) u.shift v.shift := by
  unfold Unpacker.shift
  rw [h.lastBits]
  by_cases hlast : v.lastBits?.isSome = true
  · rw [if_pos hlast, if_pos hlast]
    exact ⟨rfl, h⟩
  · rw [if_neg hlast, if_neg hlast]
    dsimp only
    -- the end, the word and the end behind it are asked for in turn, and each answer is the same
    rcases (hQ.atEnd rfl h.source).cases with
      ⟨ended, s₁, t₁, heq, heq', hst⟩ | ⟨f, g, s₁, t₁, heq, heq', hfg, hst⟩
    · rw [heq, heq']
      cases ended with
      | true => exact ⟨rfl, hst, h.next, h.next, rfl, by rw [h.next]⟩
      | false =>
        dsimp only
        rcases (hQ.read hst).cases with
          ⟨x, s₂, t₂, heq, heq', hst⟩ | ⟨f, g, s₂, t₂, heq, heq', hfg, hst⟩
        · rw [heq, heq']
          dsimp only
          rcases (hQ.atEnd rfl hst).cases with
            ⟨ended, s₃, t₃, heq, heq', hst⟩ | ⟨f, g, s₃, t₃, heq, heq', hfg, hst⟩
          · rw [heq, heq']
            cases ended with
            | true =>
              dsimp only
              split
              · exact ⟨rfl, hst, h.next, rfl, rfl, rfl⟩
              · exact ⟨rfl, hst, h.next, rfl, rfl, rfl⟩
            | false => exact ⟨rfl, hst, h.next, rfl, rfl, rfl⟩
          · rw [heq, heq']
            exact ⟨congrArg Except.error hfg, hst, h.next, rfl, rfl, rfl⟩
        · rw [heq, heq']
          exact ⟨congrArg Except.error hfg, hst, h.next, h.next, rfl, rfl⟩
    · rw [heq, heq']
      exact ⟨congrArg Except.error hfg, hst, h.next, h.next, rfl, rfl⟩

theorem Like.advance (hQ : Indistinct mode Q) (h : Like Q u v) :
    Same (Like Q) u.advance v.advance := by
  cases mode with
  | marked => exact h.shift hQ
  | unbounded => exact h.fetch hQ

theorem Like.readBit (hQ : Indistinct mode Q) (h : Like Q u v) :
    Same (Like Q) u.readBit v.readBit := by
  unfold Unpacker.readBit
  rw [h.atEnd, h.pos]
  by_cases hend : v.atEnd = true
  · rw [if_pos hend, if_pos hend]
    exact ⟨rfl, h⟩
  · rw [if_neg hend, if_neg hend]
    -- where the next bit is
    have hplace : Same (Like Q) (if w.bits ≤ v.pos then u.advance else (.ok (), u))
        (if w.bits ≤ v.pos then v.advance else (.ok (), v)) := by
      split
      · exact h.advance hQ
      · exact ⟨rfl, h⟩
    rcases hplace.cases with ⟨x, u', v', heq, heq', huv⟩ | ⟨f, g, u', v', heq, heq', hfg, huv⟩
    · rw [heq, heq']
      dsimp only
      rw [huv.word, huv.pos]
      exact ⟨rfl, huv.source, rfl, huv.next, rfl, huv.lastBits⟩
    · rw [heq, heq']
      exact ⟨congrArg Except.error hfg, huv⟩

theorem Like.readBits (hQ : Indistinct mode Q) (h : Like Q u v) (n : Nat) :
    Same (Like Q) (u.readBits n) (v.readBits n) := by
  unfold Unpacker.readBits
  rw [h.atEnd, h.pos, h.word]
  by_cases hrange : 0 < n ∧ n ≤ w.bits
  · rw [if_neg (not_not_intro hrange), if_neg (not_not_intro hrange)]
    by_cases hend : v.atEnd = true
    · rw [if_pos hend, if_pos hend]
      exact ⟨rfl, h⟩
    · rw [if_neg hend, if_neg hend]
      by_cases hpos : w.bits < v.pos
      · rw [if_pos hpos, if_pos hpos]
        exact ⟨rfl, h⟩
      · rw [if_neg hpos, if_neg hpos]
        dsimp only
        by_cases hfit : n ≤ w.bits - v.pos
        · rw [if_pos hfit, if_pos hfit]
          exact ⟨rfl, h.source, rfl, h.next, rfl, h.lastBits⟩
        · rw [if_neg hfit, if_neg hfit]
          rcases (h.advance hQ).cases with
            ⟨x, u', v', heq, heq', huv⟩ | ⟨f, g, u', v', heq, heq', hfg, huv⟩
          · rw [heq, heq']
            dsimp only
            rw [huv.word]
            exact ⟨rfl, huv.source, rfl, huv.next, rfl, huv.lastBits⟩
          · rw [heq, heq']
            exact ⟨congrArg Except.error hfg, huv⟩
  · rw [if_pos hrange, if_pos hrange]
    exact ⟨rfl, h⟩

/-! ### Whole readings -/

/-- What is seen of an unpacker: whether it is at its end at first, and then after each call the
value and whether it is at its end. -/
def seen (u : Unpacker mode w σ) (calls : List ReadCall) :
    Bool × List (Outcome Unit (ReadValue w) × Bool) :=
  (u.atEnd, (ReadCall.run u calls).1.map fun outcome => (bare outcome.1, outcome.2))

/-- What is seen of a source when it is unpacked in a mode: whether it is opened, and then what is
seen of the unpacker. -/
def reading (mode : EndMode) (s : σ) (calls : List ReadCall) :
    Outcome Unit (Bool × List (Outcome Unit (ReadValue w) × Bool)) :=
  match mode with
  | .marked => (bare (openMarked s).1).map fun u => u.seen calls
  | .unbounded => .ok ((openUnbounded s).seen calls)

theorem Like.make (hQ : Indistinct mode Q) (h : Like Q u v) (call : ReadCall) :
    Same (Like Q) (call.make u) (call.make v) := by
  cases call with
  | bit =>
    have hread := h.readBit hQ
    exact ⟨bare_map hread.answer _, hread.state⟩
  | bits n =>
    have hread := h.readBits hQ n
    exact ⟨bare_map hread.answer _, hread.state⟩

theorem Like.seen (hQ : Indistinct mode Q) (h : Like Q u v) (calls : List ReadCall) :
    u.seen calls = v.seen calls := by
  let shown (outcome : Outcome StreamError (ReadValue w) × Bool) := (bare outcome.1, outcome.2)
  have hmake : ∀ {u : Unpacker mode w σ} {v : Unpacker mode w τ} {call : ReadCall},
      Like Q u v → True →
      shown (call.perform u).1 = shown (call.perform v).1 ∧
        Like Q (call.perform u).2 (call.perform v).2 := by
    intro u v call h _
    have hmade := h.make hQ call
    exact ⟨Prod.ext hmade.answer hmade.state.atEnd, hmade.state⟩
  obtain ⟨hrun, -⟩ := runAll_alike ReadCall.perform ReadCall.perform shown shown hmake
    (admitted_of_forall fun _ _ _ => trivial) h
  rw [Unpacker.seen, Unpacker.seen, h.atEnd]
  exact congrArg (Prod.mk v.atEnd) hrun

/-- Indistinct sources are opened alike, if at all. -/
theorem like_openMarked {s : σ} {t : τ} (hQ : Indistinct .marked Q) (hst : Q s t) :
    (∃ u v s' t', openMarked s = (.ok u, s') ∧ openMarked t = (.ok v, t') ∧ Like Q u v) ∨
      ∃ f g s' t', openMarked s = (.error f, s') ∧ openMarked t = (.error g, t') ∧
        f.map (fun _ => ()) = g.map (fun _ => ()) := by
  unfold openMarked
  rcases (hQ.atEnd rfl hst).cases with
    ⟨ended, s₁, t₁, heq, heq', hst⟩ | ⟨f, g, s₁, t₁, heq, heq', hfg, -⟩
  · rw [heq, heq']
    cases ended with
    | true => exact .inl ⟨_, _, s₁, t₁, rfl, rfl, hst, rfl, rfl, rfl, rfl⟩
    | false =>
      dsimp only
      rcases (hQ.read hst).cases with
        ⟨x, s₂, t₂, heq, heq', hst⟩ | ⟨f, g, s₂, t₂, heq, heq', hfg, -⟩
      · rw [heq, heq']
        exact .inl ⟨_, _, s₂, t₂, rfl, rfl, hst, rfl, rfl, rfl, rfl⟩
      · rw [heq, heq']
        exact .inr ⟨f, g, s₂, t₂, rfl, rfl, hfg⟩
  · rw [heq, heq']
    exact .inr ⟨f, g, s₁, t₁, rfl, rfl, hfg⟩

/-- Indistinct sources are read alike. -/
theorem reading_eq {s : σ} {t : τ} (hQ : Indistinct mode Q) (hst : Q s t) (calls : List ReadCall) :
    reading mode s calls = reading mode t calls := by
  cases mode with
  | marked =>
    rcases like_openMarked hQ hst with
      ⟨u, v, s', t', heq, heq', huv⟩ | ⟨f, g, s', t', heq, heq', hfg⟩
    · rw [reading, reading, heq, heq']
      exact congrArg Except.ok (huv.seen hQ calls)
    · rw [reading, reading, heq, heq']
      exact congrArg Except.error hfg
  | unbounded =>
    have hopen : Like Q (openUnbounded s : Unpacker .unbounded w σ) (openUnbounded t) :=
      ⟨hst, rfl, rfl, rfl, rfl⟩
    exact congrArg Except.ok (hopen.seen hQ calls)

/-- **Sources agree.** Let the bytes of words be cut into chunks, none of them empty, with any
number of interruptions in between.  Whatever calls are made on the words in memory, on those made
of the list of the bytes, on the wire of a cursor at the front of the bytes and on the wire of the
chunks, the answers are those of the list of words, and when its words have been read each source
goes on to refuse with its own error.  Only the question whether the chunks are at their end may be
refused instead, with an interruption.  Hence an unbounded unpacker reads alike from all of them,
and a marked one if there are no interruptions: the same bits, the same end, and success or failure
of the same calls. -/
theorem sources_agree (ws : List (Word w)) (extent : Extent) {events : List ReadEvent}
    (hbytes : events.flatMap ReadEvent.bytes = ws.flatMap Word.toBytes)
    (hnonempty : .chunk [] ∉ events) (hharmless : ∀ event ∈ events, event.Harmless) :
    let tape : Tape w := { words := ws }
    let assembled : AssembledWords w := .ofBytes (ws.flatMap Word.toBytes)
    let cursor : Wire w (ByteCursor extent) := { bytes := { bytes := ws.flatMap Word.toBytes } }
    let chunks : Wire w ScriptReader := { bytes := { events } }
    let noMore := StreamError.endOfWords ws.length
    let noBytes := StreamError.io (.partialWord w.bytes none)
    let interruption := fun error => ∃ e : IoError, e.kind = .interrupted ∧ error = StreamError.io e
    (∀ calls : List SourceCall,
      (SourceCall.run tape calls).1 = SourceCall.answers noMore ws calls ∧
      (SourceCall.run assembled calls).1 = SourceCall.answers noMore ws calls ∧
      (SourceCall.run cursor calls).1 = SourceCall.answers noBytes ws calls ∧
      List.Forall₂ (SourceAnswer.Agrees interruption) (SourceCall.run chunks calls).1
        (SourceCall.answers noBytes ws calls) ∧
      ((∀ e, .fail e ∉ events) →
        (SourceCall.run chunks calls).1 = SourceCall.answers noBytes ws calls)) ∧
    ∀ (mode : EndMode) (calls : List ReadCall),
      reading mode assembled calls = reading mode tape calls ∧
      reading mode cursor calls = reading mode tape calls ∧
      ((mode = .marked → ∀ e, .fail e ∉ events) →
        reading mode chunks calls = reading mode tape calls) := by
  intro tape assembled cursor chunks noMore noBytes interruption
  -- what each source is to give at first
  have htape := Tape.closedView (w := w) (fun _ => False) ws.length
  have hassembled := AssembledWords.closedView (w := w) (fun _ => False) ws.length [] w.bytes_pos
  have hcursor := Wire.closedView (w := w) (ByteCursor.closedSupply (fun _ => False) extent)
  have hchunks := Wire.closedView (w := w)
    (ScriptReader.closedSupply (P := fun e => e.kind = .interrupted) fun _ => id)
  have hquiet := Wire.closedView (w := w)
    (ScriptReader.closedSupply (P := fun _ => False) fun _ => False.elim)
  have htape₀ : tape.length = ws.length ∧ tape.pos ≤ tape.length ∧ tape.words.drop tape.pos = ws :=
    ⟨rfl, Nat.zero_le _, rfl⟩
  have hassembled₀ :
      (assembled.next?, assembled.bytes)
          = AssembledWords.assemble (ws.flatMap Word.toBytes ++ []) ∧
        assembled.count + ws.length = ws.length := by
    rw [List.append_nil]
    exact ⟨rfl, Nat.zero_add _⟩
  have hcursor₀ : cursor.bytes.pos ≤ cursor.bytes.length ∧
      cursor.bytes.bytes.drop cursor.bytes.pos = ws.flatMap Word.toBytes := ⟨Nat.zero_le _, rfl⟩
  have hchunks₀ : chunks.bytes.bytes = ws.flatMap Word.toBytes := hbytes
  have hwithin : (∀ e, .fail e ∉ events) → ∀ event ∈ events, event.Within fun _ => False := by
    intro hnone event hevent
    cases event with
    | chunk _ => trivial
    | fail e => exact absurd hevent (hnone e)
  have hnever : ∀ error, ¬∃ e, False ∧ error = StreamError.io e := by simp
  refine ⟨fun calls => ⟨?_, ?_, ?_, ?_, ?_⟩, fun mode calls => ⟨?_, ?_, ?_⟩⟩
  · exact htape.run_eq (fun _ => id) htape₀ calls
  · exact hassembled.run_eq (fun _ => id) hassembled₀ calls
  · exact hcursor.run_eq hnever hcursor₀ calls
  · exact hchunks.run ⟨hchunks₀, hharmless, hnonempty⟩ calls
  · intro hnone
    exact hquiet.run_eq hnever ⟨hchunks₀, hwithin hnone, hnonempty⟩ calls
  · apply reading_eq (hassembled.indistinct htape fun _ error => ⟨id, id⟩)
    exact ⟨ws, hassembled₀, htape₀⟩
  · apply reading_eq (hcursor.indistinct htape fun _ error => ⟨hnever error, id⟩)
    exact ⟨ws, hcursor₀, htape₀⟩
  · intro hnone
    cases mode with
    | marked =>
      apply reading_eq (hquiet.indistinct htape fun _ error => ⟨hnever error, id⟩)
      exact ⟨ws, ⟨hchunks₀, hwithin (hnone rfl), hnonempty⟩, htape₀⟩
    | unbounded =>
      apply reading_eq (hchunks.indistinct htape fun hmarked => absurd hmarked (by decide))
      exact ⟨ws, ⟨hchunks₀, hharmless, hnonempty⟩, htape₀⟩

/-- Two words of two bytes, in chunks that end inside the words and with an interruption inside the
first of them. -/
theorem sources_agree_inside_words :
    let ws : List (Word .w16) := [0x1234, 0x5678]
    let events : List ReadEvent :=
      [.chunk [0x12], .fail (.own .interrupted "signal"), .chunk [0x34, 0x56], .chunk [0x78]]
    let tape : Tape .w16 := { words := ws }
    let chunks : Wire .w16 ScriptReader := { bytes := { events } }
    events.flatMap ReadEvent.bytes = ws.flatMap Word.toBytes ∧ .chunk [] ∉ events ∧
      (∀ event ∈ events, event.Harmless) ∧
      (SourceCall.run tape [.read, .atEnd, .read, .atEnd, .read]).1
        = [.word (.ok 0x1234), .atEnd (.ok false), .word (.ok 0x5678), .atEnd (.ok true),
          .word (.error (.refused (.endOfWords 2)))] ∧
      reading .unbounded chunks [.bits 12, .bits 12]
        = .ok (false, [(.ok (.bits 0x234), false), (.ok (.bits 0x781), false)]) := by
  intro ws events tape chunks
  have hbytes : events.flatMap ReadEvent.bytes = ws.flatMap Word.toBytes := by decide
  have hnonempty : .chunk [] ∉ events := by decide
  have hharmless : ∀ event ∈ events, event.Harmless := by decide
  obtain ⟨hcalls, hreadings⟩ := sources_agree ws .fixed hbytes hnonempty hharmless
  obtain ⟨htape, -⟩ := hcalls [.read, .atEnd, .read, .atEnd, .read]
  obtain ⟨-, -, hchunks⟩ := hreadings .unbounded [.bits 12, .bits 12]
  refine ⟨hbytes, hnonempty, hharmless, htape, ?_⟩
  rw [hchunks fun hmarked => absurd hmarked (by decide)]
  cbv

end Unpacker

end PackedBits
