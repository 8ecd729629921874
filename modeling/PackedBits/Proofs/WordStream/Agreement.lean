import PackedBits.Proofs.ByteStream.Delivery
import PackedBits.Proofs.Runs
import PackedBits.Proofs.WordStream.Wire

/-!
# Sources that give the same words

Whatever calls are made on a source of which all answers are known, in any order, the answers are
those of the list of its words: a read takes the first of them, or is refused if there is none, and
the end is there when none is left (`SourceCall.answers`).  Two sources of the same words can
therefore only be told apart by the error with which they refuse.  A source that may also refuse to
say whether there are words left still answers all reads in the same way (`ClosedView.run`).

Bytes that arrive in chunks, with interruptions in between, are such a source: an interruption in
the middle of a word is passed over, and only the question for the end may meet one
(`ScriptReader.closedSupply`).
-/

namespace PackedBits

variable {w : Width}

/-! ### Calls on a source -/

/-- A call on a source. -/
inductive SourceCall where
  | read
  | atEnd
  deriving DecidableEq, Repr

/-- What a call on a source answers. -/
inductive SourceAnswer (w : Width) where
  | word (answer : Outcome StreamError (Word w))
  | atEnd (answer : Outcome StreamError Bool)

namespace SourceAnswer

/-- Whether an answer is a certain one, or a question for the end that is refused with an error that
`P` holds of. -/
inductive Agrees (P : StreamError → Prop) : SourceAnswer w → SourceAnswer w → Prop where
  | same (a : SourceAnswer w) : Agrees P a a
  | refused {error : StreamError} {ended : Bool} :
    P error → Agrees P (atEnd (.error (.refused error))) (atEnd (.ok ended))

theorem Agrees.eq {P : StreamError → Prop} {a b : SourceAnswer w} (h : Agrees P a b)
    (hP : ∀ error, ¬P error) : a = b := by
  cases h with
  | same => rfl
  | refused herror => exact absurd herror (hP _)

end SourceAnswer

namespace SourceCall

/-- The answers of a list of words: each read takes the first that is left, and is refused with `e`
when none is. -/
def answers (e : StreamError) : List (Word w) → List SourceCall → List (SourceAnswer w)
  | _, [] => []
  | ws, atEnd :: calls => .atEnd (.ok ws.isEmpty) :: answers e ws calls
  | x :: ws, read :: calls => .word (.ok x) :: answers e ws calls
  | [], read :: calls => .word (.error (.refused e)) :: answers e [] calls

/-- The answer of a list of words to one call. -/
def takeFrom (e : StreamError) : List (Word w) → SourceCall → SourceAnswer w × List (Word w)
  | ws, atEnd => (.atEnd (.ok ws.isEmpty), ws)
  | x :: ws, read => (.word (.ok x), ws)
  | [], read => (.word (.error (.refused e)), [])

theorem fst_runAll_takeFrom (e : StreamError) (ws : List (Word w)) (calls : List SourceCall) :
    (runAll (takeFrom e) ws calls).1 = answers e ws calls := by
  induction ws, calls using answers.induct with
  | case1 ws => rfl
  | case2 ws calls ih => rw [runAll, takeFrom, ih, answers]
  | case3 x ws calls ih => rw [runAll, takeFrom, ih, answers]
  | case4 calls ih => rw [runAll, takeFrom, ih, answers]

variable {σ : Type} [WordSource σ w]

/-- Makes a call. -/
def make (s : σ) : SourceCall → SourceAnswer w × σ
  | read => let made := WordSource.read s; (.word made.1, made.2)
  | atEnd => let made := WordSource.atEnd s; (.atEnd made.1, made.2)

/-- Makes calls one after the other. -/
def run (s : σ) (calls : List SourceCall) : List (SourceAnswer w) × σ :=
  runAll make s calls

end SourceCall

namespace ClosedView

open SourceCall

variable {σ : Type} [WordSource σ w] {P : StreamError → Prop} {e : StreamError}
  {R : σ → List (Word w) → Prop} {s : σ} {ws : List (Word w)}

/-- One call: the answer is that of the words, but for a question for the end that is refused. -/
theorem make (hR : ClosedView P e R) (h : R s ws) (call : SourceCall) :
    SourceAnswer.Agrees P (call.make s).1 (call.takeFrom e ws).1 ∧
      R (call.make s).2 (call.takeFrom e ws).2 := by
  cases call with
  | atEnd =>
    obtain ⟨s', hs', heq | ⟨error, herror, heq⟩⟩ := hR.atEnd h
    · simp only [SourceCall.make, heq]
      exact ⟨.same _, hs'⟩
    · simp only [SourceCall.make, heq]
      exact ⟨.refused herror, hs'⟩
  | read =>
    cases ws with
    | nil =>
      obtain ⟨s', heq, hs'⟩ := hR.read_nil h
      simp only [SourceCall.make, heq]
      exact ⟨.same _, hs'⟩
    | cons x ws =>
      obtain ⟨s', heq, hs'⟩ := hR.read h
      simp only [SourceCall.make, heq]
      exact ⟨.same _, hs'⟩

/-- Any calls. -/
theorem run (hR : ClosedView P e R) (h : R s ws) (calls : List SourceCall) :
    List.Forall₂ (SourceAnswer.Agrees P) (SourceCall.run s calls).1 (answers e ws calls) := by
  rw [← fst_runAll_takeFrom]
  exact (runAll_forall₂ SourceCall.make (takeFrom e) (fun h _ => hR.make h _)
    (admitted_of_forall fun _ _ _ => trivial) h).1

/-- If the question for the end is never refused, all answers are those of the words. -/
theorem run_eq (hR : ClosedView P e R) (hP : ∀ error, ¬P error) (h : R s ws)
    (calls : List SourceCall) : (SourceCall.run s calls).1 = answers e ws calls := by
  have hall := (hR.run h calls).imp fun a b hab => hab.eq hP
  rwa [List.forall₂_eq_eq_eq] at hall

end ClosedView

/-! ### Bytes in chunks -/

namespace ScriptReader

/-- Chunks that have bytes, with interruptions that `P` holds of in between. -/
theorem closedSupply {P : IoError → Prop} (hP : ∀ e, P e → e.kind = .interrupted) :
    ClosedSupply P fun (s : ScriptReader) bytes => s.bytes = bytes ∧
      (∀ event ∈ s.events, event.Within P) ∧ .chunk [] ∉ s.events where
  atEnd {s bytes} h := by
    obtain ⟨rfl, hwithin, hnonempty⟩ := h
    rcases hfill : s.fill with ⟨e | atHand, s'⟩
    · obtain ⟨hevents, hbytes⟩ := fill_of_error hfill
      rw [hevents, List.forall_mem_cons] at hwithin
      rw [hevents, List.mem_cons, not_or] at hnonempty
      refine ⟨s', ⟨hbytes, hwithin.2, hnonempty.2⟩, .inr ⟨e, hwithin.1, ?_⟩⟩
      simp only [ByteSource.atEnd, hfill]
    · obtain ⟨hchunk, hbytes, hsub, -, hend⟩ := fill_of_ok hfill
      refine ⟨s', ⟨hbytes, fun event hevent => hwithin event (hsub hevent),
        fun hmem => hnonempty (hsub hmem)⟩, .inl ?_⟩
      have hempty : atHand.isEmpty = s.bytes.isEmpty := by
        rw [Bool.eq_iff_iff, List.isEmpty_iff, List.isEmpty_iff]
        constructor
        · intro hnil
          exact (hend hnil).resolve_right hnonempty
        · intro hnil
          rw [← hbytes, bytes, hchunk] at hnil
          exact (List.append_eq_nil_iff.mp hnil).1
      simp only [ByteSource.atEnd, hfill, hempty]
  readExact h hn := (delivery_within hP).readExact h hn
  readExact_short h hn := (delivery_within hP).readExact_short h hn

end ScriptReader

end PackedBits
