import PackedBits.Proofs.Word.Bytes
import PackedBits.WordStream.Assembled
import PackedBits.WordStream.Memory
import PackedBits.WordStream.Observed

/-!
# Streams of words that keep their word

What is said of packing and unpacking is said of any sink that takes every word and of any source
that gives certain words.  Both are properties of a state and of all the calls that may follow, so
each is the greatest of its kind: a source `Serves` the words `ws` if some relation between sources
and words holds of the two and is kept by every call (a `SourceView`), and a sink is `Unfailing` if
some invariant holds of it under which every call succeeds and which every call keeps.

A `Tape` serves the words behind its position (`Tape.serves`), a list of bytes the words it is made
of (`AssembledWords.serves`), and a `WordBuffer` never fails (`WordBuffer.unfailing`).  A recorder
on an unfailing sink has a record of exactly the calls that were made (`Recorded.sinkView`).

What a source answers when its words have been read is not part of serving them.  Of most sources it
is known as well: they refuse to be read, always with the same error (a `ClosedView`).
-/

namespace PackedBits

/-! ### Sources -/

section Sources

variable {w : Width} {σ : Type} [WordSource σ w]

/-- A relation between sources and the words that they are still to give, which every call keeps. -/
structure SourceView (R : σ → List (Word w) → Prop) : Prop where
  /-- A source knows whether there are words left. -/
  atEnd {s : σ} {ws : List (Word w)} :
    R s ws → ∃ s', WordSource.atEnd s = (.ok ws.isEmpty, s') ∧ R s' ws
  /-- A source gives the first of the words that are left. -/
  read {s : σ} {x : Word w} {ws : List (Word w)} :
    R s (x :: ws) → ∃ s', WordSource.read s = (.ok x, s') ∧ R s' ws

/-- A relation between sources and the words that they are still to give, which every call keeps,
and of which all answers are known: once no words are left, reads are refused with the error `e`.
The question whether words are left may be refused as well, but only with errors that `P` holds
of. -/
structure ClosedView (P : StreamError → Prop) (e : StreamError) (R : σ → List (Word w) → Prop) :
    Prop where
  atEnd {s : σ} {ws : List (Word w)} : R s ws →
    ∃ s', R s' ws ∧ (WordSource.atEnd s = (.ok ws.isEmpty, s') ∨
      ∃ error, P error ∧ WordSource.atEnd s = (.error (.refused error), s'))
  read {s : σ} {x : Word w} {ws : List (Word w)} :
    R s (x :: ws) → ∃ s', WordSource.read s = (.ok x, s') ∧ R s' ws
  read_nil {s : σ} :
    R s [] → ∃ s', WordSource.read s = (.error (.refused e), s') ∧ R s' []

/-- If the question for the end is never refused, the words are served. -/
theorem ClosedView.sourceView {P : StreamError → Prop} {e : StreamError}
    {R : σ → List (Word w) → Prop} (hR : ClosedView P e R) (hP : ∀ error, ¬P error) :
    SourceView R where
  atEnd {s ws} h := by
    obtain ⟨s', hs', heq | ⟨error, herror, -⟩⟩ := hR.atEnd h
    · exact ⟨s', heq, hs'⟩
    · exact absurd herror (hP error)
  read h := hR.read h

/-- Whether a source gives the words `ws`, one after the other, and then knows that it is at its
end, in whatever order it is asked. -/
def Serves (s : σ) (ws : List (Word w)) : Prop :=
  ∃ R : σ → List (Word w) → Prop, SourceView R ∧ R s ws

namespace Serves

theorem atEnd {s : σ} {ws : List (Word w)} (h : Serves s ws) :
    ∃ s', WordSource.atEnd s = (.ok ws.isEmpty, s') ∧ Serves s' ws := by
  obtain ⟨R, hR, hs⟩ := h
  obtain ⟨s', heq, hs'⟩ := hR.atEnd hs
  exact ⟨s', heq, R, hR, hs'⟩

theorem read {s : σ} {x : Word w} {ws : List (Word w)} (h : Serves s (x :: ws)) :
    ∃ s', WordSource.read s = (.ok x, s') ∧ Serves s' ws := by
  obtain ⟨R, hR, hs⟩ := h
  obtain ⟨s', heq, hs'⟩ := hR.read hs
  exact ⟨s', heq, R, hR, hs'⟩

end Serves

end Sources

variable {w : Width}

namespace Tape

theorem read_of_drop {t : Tape w} {x : Word w} {ws : List (Word w)}
    (h : t.words.drop t.pos = x :: ws) :
    t.read = (.ok x, { t with pos := t.pos + 1 }) ∧ t.pos < t.length ∧
      t.words.drop (t.pos + 1) = ws := by
  have hget : t.words[t.pos]? = some x := by
    rw [← List.head?_drop, h, List.head?_cons]
  refine ⟨?_, (List.getElem?_eq_some_iff.mp hget).1, ?_⟩
  · unfold read
    rw [hget]
  · rw [← List.tail_drop, h, List.tail_cons]

/-- Behind its last word a row refuses to be read. -/
theorem read_of_length_le {t : Tape w} (h : t.length ≤ t.pos) :
    t.read = (.error (.refused (.endOfWords t.pos)), t) := by
  unfold read
  rw [List.getElem?_eq_none h]

/-- A row of `n` words serves those from its position on. -/
theorem closedView (P : StreamError → Prop) (n : Nat) :
    ClosedView P (.endOfWords n) fun (t : Tape w) ws =>
      t.length = n ∧ t.pos ≤ t.length ∧ t.words.drop t.pos = ws where
  atEnd {t ws} h := by
    obtain ⟨hlen, hle, rfl⟩ := h
    refine ⟨t, ⟨hlen, hle, rfl⟩, .inl ?_⟩
    have hend : t.atEnd = (t.words.drop t.pos).isEmpty := by
      rw [atEnd, Bool.eq_iff_iff, decide_eq_true_iff, List.isEmpty_iff, List.drop_eq_nil_iff]
      rfl
    simp only [WordSource.atEnd, hend]
  read {t x ws} h := by
    obtain ⟨hlen, hle, hdrop⟩ := h
    obtain ⟨hread, hlt, hrest⟩ := read_of_drop hdrop
    exact ⟨_, hread, hlen, hlt, hrest⟩
  read_nil {t} h := by
    obtain ⟨hlen, hle, hdrop⟩ := h
    have hend : t.length ≤ t.pos := List.drop_eq_nil_iff.mp hdrop
    have hread := read_of_length_le hend
    rw [Nat.le_antisymm hle hend, hlen] at hread
    exact ⟨t, hread, hlen, hle, hdrop⟩

/-- A row of words that is read from its front serves these words. -/
theorem serves (ws : List (Word w)) : Serves ({ words := ws } : Tape w) ws :=
  ⟨_, (closedView (fun _ => False) ws.length).sourceView (fun _ => id), rfl, Nat.zero_le _, rfl⟩

end Tape

namespace AssembledWords

theorem assemble_toBytes_append (x : Word w) (bytes : List UInt8) :
    assemble (x.toBytes ++ bytes) = (some x, bytes) := by
  have hlen := Word.length_toBytes x
  rw [assemble, if_pos (by rw [List.length_append, hlen]; omega), List.take_left' hlen,
    List.drop_left' hlen, Word.ofBytes_toBytes]

theorem pop_eq {a : AssembledWords w} {x : Word w} (h : a.next? = some x) :
    a.pop = (some x, { (ofBytes a.bytes : AssembledWords w) with count := a.count + 1 }) := by
  rw [pop, h]
  rfl

/-- Words made of bytes are one word ahead of the bytes that are left. Those handed out and those
left are `n` in all. -/
theorem closedView (P : StreamError → Prop) (n : Nat) (rest : List UInt8)
    (h : rest.length < w.bytes) :
    ClosedView P (.endOfWords n) fun (a : AssembledWords w) ws =>
      (a.next?, a.bytes) = assemble (ws.flatMap Word.toBytes ++ rest) ∧
      a.count + ws.length = n where
  atEnd {a ws} ha := by
    refine ⟨a, ha, .inl ?_⟩
    have hnext : a.next? = (assemble (ws.flatMap Word.toBytes ++ rest)).1 := congrArg Prod.fst ha.1
    have hend : a.atEnd = ws.isEmpty := by
      rw [atEnd, hnext]
      cases ws with
      | nil => simp [assemble, Nat.not_le.mpr h]
      | cons x ws => rw [List.flatMap_cons, List.append_assoc, assemble_toBytes_append]; rfl
    simp only [WordSource.atEnd, hend]
  read {a x ws} ha := by
    obtain ⟨ha, hcount⟩ := ha
    rw [List.flatMap_cons, List.append_assoc, assemble_toBytes_append] at ha
    obtain ⟨hnext, hbytes⟩ := Prod.mk.inj ha
    refine ⟨{ (ofBytes a.bytes : AssembledWords w) with count := a.count + 1 }, ?_, ?_, ?_⟩
    · simp only [WordSource.read, read, pop_eq hnext]
    · rw [hbytes]
      rfl
    · rw [← hcount, List.length_cons, Nat.add_assoc, Nat.add_comm 1]
  read_nil {a} ha := by
    have hnext : a.next? = none := by
      have hfew : ¬w.bytes ≤ rest.length := Nat.not_le.mpr h
      have hnext : a.next? = (assemble rest).1 := congrArg Prod.fst ha.1
      rw [hnext, assemble, if_neg hfew]
    have hcount : a.count = n := ha.2
    refine ⟨a, ?_, ha⟩
    simp only [WordSource.read, read, pop, hnext, hcount]

/-- The bytes of words, and fewer bytes than a word has, serve these words. -/
theorem serves (ws : List (Word w)) (rest : List UInt8) (h : rest.length < w.bytes) :
    Serves (ofBytes (ws.flatMap Word.toBytes ++ rest) : AssembledWords w) ws :=
  ⟨_, (closedView (fun _ => False) ws.length rest h).sourceView (fun _ => id), rfl, Nat.zero_add _⟩

end AssembledWords

namespace Tallied

variable {σ : Type} [WordSource σ w]

/-- Whether a source has been read once for each of the words that are not left of `ws`. -/
def Counts (ws : List (Word w)) (t : Tallied σ) (left : List (Word w)) : Prop :=
  Serves t.source left ∧ left = ws.drop t.reads ∧ t.reads ≤ ws.length

/-- A count shows the words that were given. -/
theorem sourceView (ws : List (Word w)) : SourceView (Counts (σ := σ) ws) where
  atEnd {t left} h := by
    obtain ⟨hs, hleft⟩ := h
    obtain ⟨s', heq, hs'⟩ := hs.atEnd
    refine ⟨{ t with source := s' }, ?_, hs', hleft⟩
    simp only [WordSource.atEnd, atEnd] at heq ⊢
    rw [heq]
  read {t x left} h := by
    obtain ⟨hs, hleft, -⟩ := h
    obtain ⟨s', heq, hs'⟩ := hs.read
    have hlt : t.reads < ws.length := by
      rw [← Nat.not_le, ← List.drop_eq_nil_iff, ← hleft]
      exact List.cons_ne_nil x left
    refine ⟨{ source := s', reads := t.reads + 1 }, ?_, hs', ?_, hlt⟩
    · simp only [WordSource.read, read] at heq ⊢
      rw [heq]
    · rw [← List.tail_drop, ← hleft, List.tail_cons]

theorem counts_new {s : σ} {ws : List (Word w)} (hs : Serves s ws) : Counts ws { source := s } ws :=
  ⟨hs, rfl, Nat.zero_le _⟩

end Tallied

/-! ### Sinks -/

section Sinks

variable {κ : Type} [WordSink κ w]

/-- A relation between sinks and the calls that were made on them, under which every call
succeeds. -/
structure SinkView (R : κ → List (SinkCall w) → Prop) : Prop where
  write {s : κ} {calls : List (SinkCall w)} (x : Word w) :
    R s calls → ∃ s', WordSink.write s x = (.ok (), s') ∧ R s' (calls ++ [.write x])
  flush {s : κ} {calls : List (SinkCall w)} :
    R s calls → ∃ s', WordSink.flush s = (.ok (), s') ∧ R s' (calls ++ [.flush])

/-- Whether no call on a sink fails, neither now nor after other calls. -/
def Unfailing (s : κ) : Prop :=
  ∃ R : κ → List (SinkCall w) → Prop, SinkView R ∧ ∃ calls, R s calls

theorem Unfailing.write {s : κ} (h : Unfailing s) (x : Word w) :
    ∃ s', WordSink.write s x = (.ok (), s') ∧ Unfailing s' := by
  obtain ⟨R, hR, calls, hs⟩ := h
  obtain ⟨s', heq, hs'⟩ := hR.write x hs
  exact ⟨s', heq, R, hR, _, hs'⟩

end Sinks

theorem WordBuffer.unfailing (b : WordBuffer w) : Unfailing b :=
  ⟨fun _ _ => True, ⟨fun _ _ => ⟨_, rfl, trivial⟩, fun _ => ⟨_, rfl, trivial⟩⟩, [], trivial⟩

namespace SinkCall

/-- The word that is written by a call. -/
def word? : SinkCall w → Option (Word w)
  | write x => some x
  | flush => none

@[simp] theorem filterMap_word?_map_write (ws : List (Word w)) :
    (ws.map write).filterMap word? = ws := by
  rw [List.filterMap_map]
  exact List.filterMap_some

end SinkCall

namespace Recorded

variable {κ : Type} [WordSink κ w]

/-- The words written to a sink, in order. -/
def words (r : Recorded w κ) : List (Word w) :=
  r.calls.toList.filterMap SinkCall.word?

/-- Whether `calls` are the calls on a sink that does not fail. -/
def Keeps (r : Recorded w κ) (calls : List (SinkCall w)) : Prop :=
  r.calls.toList = calls ∧ Unfailing r.sink

/-- The record of an unfailing sink is what was called. -/
theorem sinkView : SinkView (Keeps (w := w) (κ := κ)) where
  write {r calls} x h := by
    obtain ⟨rfl, R, hR, before, hs⟩ := h
    obtain ⟨s', heq, hs'⟩ := hR.write x hs
    refine ⟨{ sink := s', calls := r.calls.push (.write x) }, ?_, ?_, R, hR, _, hs'⟩
    · simp only [WordSink.write, write] at heq ⊢
      rw [heq]
    · exact Array.toList_push
  flush {r calls} h := by
    obtain ⟨rfl, R, hR, before, hs⟩ := h
    obtain ⟨s', heq, hs'⟩ := hR.flush hs
    refine ⟨{ sink := s', calls := r.calls.push .flush }, ?_, ?_, R, hR, _, hs'⟩
    · simp only [WordSink.flush, flush] at heq ⊢
      rw [heq]
    · exact Array.toList_push

theorem unfailing {s : κ} (hs : Unfailing s) (calls : Array (SinkCall w)) :
    Unfailing ({ sink := s, calls } : Recorded w κ) :=
  ⟨_, sinkView, _, rfl, hs⟩

end Recorded

end PackedBits
