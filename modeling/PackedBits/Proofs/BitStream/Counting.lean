import PackedBits.BitStream.Counted
import PackedBits.Proofs.BitStream.Repeating
import PackedBits.Proofs.BitStream.Together

/-!
# What a counted stream counts

A counted stream answers as the stream beneath it (`Counted.mirrors_reader`,
`Counted.mirrors_writer`), so counting makes no difference to any history.  What is counted are
single calls, also those that a copy is made of.  To see these a stream is `Traced`: each call is
kept, with the stream that it was made on, and tracing makes no difference either.

The count is the bits of the calls that have passed.  A packer has a count of its own, which is
raised before the sink is asked.  So a call on it has one of three outcomes (`Packer.Settles`): it
is done and counted by both, it is rejected and counted by neither, or it is lost at the sink, and
counted by the packer alone.
-/

namespace PackedBits

variable {w : Width}

/-! ### Tracing single calls -/

/-- A stream and the calls that have been made on it, each with the stream as it was before. -/
structure Traced (C α : Type) where
  inner : α
  calls : List (α × C) := []

namespace Traced

variable {ρ ω : Type} [BitReader ρ w] [BitWriter ω w]

/-- Keeps a call that has left the stream as it is now. -/
def after {C α : Type} (t : Traced C α) (c : C) (inner : α) : Traced C α :=
  { inner, calls := t.calls ++ [(t.inner, c)] }

instance : BitReader (Traced ReadCall ρ) w where
  readBit t := let made := BitReader.readBit t.inner; (made.1, t.after .bit made.2)
  readBits t n := let made := BitReader.readBits t.inner n; (made.1, t.after (.bits n) made.2)
  posInWord t := BitReader.posInWord t.inner
  atEnd t := BitReader.atEnd t.inner

instance : BitWriter (Traced (WriteCall w) ω) w where
  writeBit t bit := let made := BitWriter.writeBit t.inner bit; (made.1, t.after (.bit bit) made.2)
  writeBits t x n :=
    let made := BitWriter.writeBits t.inner x n; (made.1, t.after (.bits x n) made.2)
  flush t := let made := BitWriter.flush t.inner; (made.1, t.after .flush made.2)
  posInWord t := BitWriter.posInWord t.inner
  bitsWritten t := BitWriter.bitsWritten t.inner

/-- Tracing a reader makes no difference to it. What every call keeps holds of it and the calls so
far. -/
theorem mirrors_reader (Inv : ρ → List (ρ × ReadCall) → Prop)
    (hmake : ∀ (r : ρ) (calls : List (ρ × ReadCall)) (c : ReadCall), Inv r calls →
      Inv (c.make r).2 (calls ++ [(r, c)])) :
    BitReader.Mirrors fun (t : Traced ReadCall ρ) r => t.inner = r ∧ Inv r t.calls where
  readBit := by
    rintro t _ ⟨rfl, h⟩
    exact ⟨rfl, rfl, hmake t.inner t.calls .bit h⟩
  readBits := by
    rintro t _ n ⟨rfl, h⟩
    exact ⟨rfl, rfl, hmake t.inner t.calls (.bits n) h⟩
  posInWord := by
    rintro t _ ⟨rfl, -⟩
    rfl
  atEnd := by
    rintro t _ ⟨rfl, -⟩
    rfl

/-- Tracing a writer makes no difference to it either. -/
theorem mirrors_writer (Inv : ω → List (ω × WriteCall w) → Prop)
    (hmake : ∀ (s : ω) (calls : List (ω × WriteCall w)) (c : WriteCall w), Inv s calls →
      Inv (c.make s).2 (calls ++ [(s, c)])) :
    BitWriter.Mirrors (fun _ _ _ => True)
      fun (t : Traced (WriteCall w) ω) s => t.inner = s ∧ Inv s t.calls where
  writeBit := by
    rintro t _ bit ⟨rfl, h⟩
    exact ⟨rfl, rfl, hmake t.inner t.calls (.bit bit) h⟩
  writeBits := by
    rintro t _ x n - ⟨rfl, h⟩
    exact ⟨rfl, rfl, hmake t.inner t.calls (.bits x n) h⟩
  flush := by
    rintro t _ ⟨rfl, h⟩
    exact ⟨rfl, rfl, hmake t.inner t.calls .flush h⟩
  posInWord := by
    rintro t _ ⟨rfl, -⟩
    rfl
  bitsWritten := by
    rintro t _ ⟨rfl, -⟩
    rfl

end Traced

/-- The bits of those calls that are of a kind. -/
def bitsOf {C α : Type} (width : C → Nat) (kind : α × C → Bool) (calls : List (α × C)) : Nat :=
  ((calls.filter kind).map fun call => width call.2).sum

section BitsOf

variable {C α : Type} {width : C → Nat} {kind : α × C → Bool} {calls : List (α × C)}

theorem bitsOf_concat (call : α × C) :
    bitsOf width kind (calls ++ [call])
      = bitsOf width kind calls + if kind call then width call.2 else 0 := by
  unfold bitsOf
  rw [List.filter_append, List.map_append, List.sum_append]
  cases hkind : kind call with
  | true => simp [hkind]
  | false => simp [hkind]

theorem bitsOf_eq_zero_iff :
    bitsOf width kind calls = 0 ↔ ∀ call ∈ calls, kind call = true → width call.2 = 0 := by
  unfold bitsOf
  rw [List.sum_eq_zero_iff_forall_eq_nat]
  simp only [List.mem_map, List.mem_filter]
  constructor
  · exact fun h call hmem hkind => h _ ⟨call, ⟨hmem, hkind⟩, rfl⟩
  · rintro h _ ⟨call, ⟨hmem, hkind⟩, rfl⟩
    exact h call hmem hkind

end BitsOf

/-! ### Kinds of calls -/

/-- Whether an answer is a refusal. -/
def isRefusal {α : Type} : Outcome StreamError α → Bool
  | .error (.refused _) => true
  | _ => false

/-- Whether an answer is a fault, which has come behind other failures. -/
def isFaultBehind {α : Type} (before after : List (Failure StreamError)) :
    Outcome StreamError α → Bool
  | .error (.fault fault) => after = before ++ [.fault fault]
  | _ => false

/-- Whether a read has passed. -/
def ReadCall.passed {ρ : Type} [BitReader ρ w] (call : ρ × ReadCall) : Bool :=
  (call.2.make call.1).1.isOk

namespace WriteCall

variable {ω : Type} [BitWriter ω w]

/-- Whether a write has passed. -/
def passed (call : ω × WriteCall w) : Bool :=
  (call.2.make call.1).1.isOk

/-- Whether a write was refused. -/
def refused (call : ω × WriteCall w) : Bool :=
  isRefusal (call.2.make call.1).1

/-- Whether a write was at fault because the sink was. -/
def broke {κ : Type} [WordSink κ w] (call : Counted (Packer w (Logged w κ)) × WriteCall w) : Bool :=
  let made := call.2.make call.1
  isFaultBehind call.1.inner.sink.failures made.2.inner.sink.failures made.1

end WriteCall

/-! ### One call on a packer -/

namespace Logged

variable {κ : Type} [WordSink κ w] {l l' : Logged w κ} {x : Word w}

theorem failures_write_ok (h : WordSink.write l x = (.ok (), l')) : l'.failures = l.failures := by
  rw [failures, log_write h, List.filterMap_append]
  exact List.append_nil _

theorem failures_write_error {failure : Failure StreamError}
    (h : WordSink.write l x = (.error failure, l')) :
    l'.failures = l.failures ++ [failure] := by
  rw [failures, log_write h, List.filterMap_append]
  rfl

end Logged

namespace Packer

variable {κ : Type} [WordSink κ w]

/-- The ways in which a call turns out. -/
inductive Settles (p : Packer w (Logged w κ)) (c : WriteCall w) :
    Outcome StreamError (Option Nat) × Packer w (Logged w κ) → Prop where
  /-- It is done. -/
  | done {q : Packer w (Logged w κ)} : q.written = p.written + c.width →
    q.sink.failures = p.sink.failures → Settles p c (.ok c.value?, q)
  /-- It has broken the contract. -/
  | rejected {fault : Fault} : Settles p c (.error (.fault fault), p)
  /-- The sink has failed. -/
  | lost {failure : Failure StreamError} {x : Word w} {q : Packer w (Logged w κ)} :
    (c ≠ .flush → 0 < c.width) → q.written = p.written + c.width →
    WordSink.write p.sink x = (.error failure, q.sink) →
    Settles p c (.error failure, q)

/-- Any call, whatever the packer is like. -/
theorem settles (p : Packer w (Logged w κ)) (c : WriteCall w) : Settles p c (c.make p) := by
  cases c with
  | bit bit =>
    show Settles p (.bit bit) ((p.writeBit bit).1.map _, (p.writeBit bit).2)
    unfold writeBit
    split
    · exact .rejected
    split
    · exact .rejected
    dsimp only
    split
    · -- the word is full, and its bits are counted before it is emitted
      rcases hwrite :
          WordSink.write p.sink (if bit then p.word ||| BitVec.twoPow w.bits p.pos else p.word)
        with ⟨failure | _, l⟩
      · rw [emit_of_error (by exact hwrite)]
        exact .lost (fun _ => Nat.one_pos) rfl hwrite
      · rw [emit_of_ok (by exact hwrite)]
        exact .done rfl (Logged.failures_write_ok hwrite)
    · exact .done rfl rfl
  | bits x n =>
    show Settles p (.bits x n) ((p.writeBits x n).1.map some, (p.writeBits x n).2)
    have hwrites := writes p x n
    rcases hmade : p.writeBits x n with ⟨answer, q⟩
    rw [hmade] at hwrites
    cases hwrites with
    | range | closed | excess | beyond => exact .rejected
    | done _ hwritten hsink =>
      rcases hsink with hsink | ⟨y, hwrite⟩
      · exact .done hwritten (congrArg Logged.failures hsink)
      · exact .done hwritten (Logged.failures_write_ok hwrite)
    | lost hpos hwritten hwrite => exact .lost (fun _ => hpos) hwritten hwrite
  | flush =>
    show Settles p .flush (p.flush.1.map _, p.flush.2)
    unfold flush
    split
    · rcases hwrite : WordSink.write p.sink p.word with ⟨failure | _, l⟩
      · rw [emit_of_error hwrite]
        exact .lost (absurd rfl) rfl hwrite
      · rw [emit_of_ok hwrite]
        exact .done rfl (Logged.failures_write_ok hwrite)
    · exact .done rfl rfl

end Packer

/-! ### One call on a counted stream -/

namespace Counted

variable {α ρ ω : Type} [BitReader ρ w] [BitWriter ω w]

@[simp] theorem note_inner (c : Counted α) (n : Note) : (c.note n).inner = c.inner := by
  unfold note
  split <;> rfl

@[simp] theorem note_count (c : Counted α) (n : Note) : (c.note n).count = c.count := by
  unfold note
  split <;> rfl

/-- A counted reader answers as the one beneath it. -/
theorem mirrors_reader : BitReader.Mirrors fun (c : Counted ρ) r => c.inner = r where
  readBit := by
    rintro c _ rfl
    show (c.readBit).1 = _ ∧ (c.readBit).2.inner = _
    unfold readBit
    rcases BitReader.readBit c.inner with ⟨failure | bit, inner⟩
    · exact ⟨rfl, rfl⟩
    · exact ⟨rfl, note_inner _ _⟩
  readBits := by
    rintro c _ n rfl
    show (c.readBits n).1 = _ ∧ (c.readBits n).2.inner = _
    unfold readBits
    rcases BitReader.readBits c.inner n with ⟨failure | value, inner⟩
    · exact ⟨rfl, rfl⟩
    · exact ⟨rfl, note_inner _ _⟩
  posInWord := by
    rintro c _ rfl
    rfl
  atEnd := by
    rintro c _ rfl
    rfl

/-- A counted writer answers as the one beneath it. -/
theorem mirrors_writer :
    BitWriter.Mirrors (fun _ _ _ => True) fun (c : Counted ω) s => c.inner = s where
  writeBit := by
    rintro c _ bit rfl
    show (c.writeBit bit).1 = _ ∧ (c.writeBit bit).2.inner = _
    unfold writeBit
    rcases BitWriter.writeBit c.inner bit with ⟨failure | _, inner⟩
    · exact ⟨rfl, rfl⟩
    · exact ⟨rfl, note_inner _ _⟩
  writeBits := by
    rintro c _ x n - rfl
    show (c.writeBits x n).1 = _ ∧ (c.writeBits x n).2.inner = _
    unfold writeBits
    rcases BitWriter.writeBits c.inner x n with ⟨failure | written, inner⟩
    · exact ⟨rfl, rfl⟩
    · exact ⟨rfl, note_inner _ _⟩
  flush := by
    rintro c _ rfl
    show (c.flush).1 = _ ∧ (c.flush).2.inner = _
    unfold flush
    simp only [note_inner]
    exact ⟨trivial, trivial⟩
  posInWord := by
    rintro c _ rfl
    rfl
  bitsWritten := by
    rintro c _ rfl
    rfl

/-- A read that passes is counted. -/
theorem count_read (c : Counted ρ) (call : ReadCall) :
    (call.make c).2.count = c.count + if ReadCall.passed (c, call) then call.width else 0 := by
  unfold ReadCall.passed
  cases call with
  | bit =>
    show (c.readBit).2.count = c.count + if ((c.readBit).1.map ReadValue.bit).isOk then 1 else 0
    unfold readBit
    rcases BitReader.readBit c.inner with ⟨failure | bit, inner⟩
    · rfl
    · exact note_count _ _
  | bits n =>
    show (c.readBits n).2.count
      = c.count + if ((c.readBits n).1.map ReadValue.bits).isOk then n else 0
    unfold readBits
    rcases BitReader.readBits c.inner n with ⟨failure | value, inner⟩
    · rfl
    · exact note_count _ _

section Packers

variable {κ : Type} [WordSink κ w]

/-- A write that passes is counted. -/
theorem count_write (c : Counted (Packer w (Logged w κ))) (call : WriteCall w) :
    (call.make c).2.count = c.count + if WriteCall.passed (c, call) then call.width else 0 := by
  unfold WriteCall.passed
  cases call with
  | bit bit =>
    show (c.writeBit bit).2.count
      = c.count + if ((c.writeBit bit).1.map fun _ => none).isOk then 1 else 0
    unfold writeBit
    rcases BitWriter.writeBit c.inner bit with ⟨failure | _, inner⟩
    · rfl
    · exact note_count _ _
  | bits x n =>
    show (c.writeBits x n).2.count = c.count + if ((c.writeBits x n).1.map some).isOk then n else 0
    unfold writeBits
    rcases hmade : BitWriter.writeBits c.inner x n with ⟨failure | m, inner⟩
    · rfl
    · -- the number that is answered is the width
      have hsettles := Packer.settles c.inner (.bits x n)
      have hmake : (WriteCall.bits x n).make c.inner = (.ok (some m), inner) := by
        show ((BitWriter.writeBits c.inner x n).1.map some, (BitWriter.writeBits c.inner x n).2) = _
        rw [hmade]
        rfl
      rw [hmake] at hsettles
      cases hsettles with
      | done => exact note_count _ _
  | flush =>
    show (c.flush).2.count = c.count + if _ then 0 else 0
    rw [ite_self]
    exact note_count _ _

/-- What has become of a write on a counted packer, seen on the packer itself. -/
theorem kinds (c : Counted (Packer w (Logged w κ))) (call : WriteCall w) :
    let made := call.make c.inner
    (call.make c).2.inner = made.2 ∧ WriteCall.passed (c, call) = made.1.isOk ∧
      WriteCall.refused (c, call) = isRefusal made.1 ∧
      WriteCall.broke (c, call)
        = isFaultBehind c.inner.sink.failures made.2.sink.failures made.1 := by
  obtain ⟨hanswer, hinner⟩ :=
    WriteCall.make_mirrors mirrors_writer (rfl : c.inner = c.inner) (c := call)
      fun _ _ _ => trivial
  refine ⟨hinner, congrArg Except.isOk hanswer, congrArg isRefusal hanswer, ?_⟩
  show isFaultBehind _ (call.make c).2.inner.sink.failures (call.make c).1 = _
  rw [hanswer, hinner]

/-- The ways in which a write on a counted packer turns out. -/
inductive Settled (c : Counted (Packer w (Logged w κ))) (call : WriteCall w) : Prop where
  /-- It passes. -/
  | passed : WriteCall.passed (c, call) = true → WriteCall.refused (c, call) = false →
    WriteCall.broke (c, call) = false →
    (call.make c).2.inner.written = c.inner.written + call.width → Settled c call
  /-- It has broken the contract. -/
  | rejected : WriteCall.passed (c, call) = false → WriteCall.refused (c, call) = false →
    WriteCall.broke (c, call) = false → (call.make c).2.inner.written = c.inner.written →
    Settled c call
  /-- The sink has refused. -/
  | refused : WriteCall.passed (c, call) = false → WriteCall.refused (c, call) = true →
    WriteCall.broke (c, call) = false →
    (call.make c).2.inner.written = c.inner.written + call.width →
    (call ≠ .flush → 0 < call.width) → Settled c call
  /-- The sink was at fault. -/
  | broke {x : Word w} {fault : Fault} : WriteCall.passed (c, call) = false →
    WriteCall.refused (c, call) = false → WriteCall.broke (c, call) = true →
    (call.make c).2.inner.written = c.inner.written + call.width →
    (call ≠ .flush → 0 < call.width) →
    (WordSink.write c.inner.sink.sink x).1 = .error (.fault fault) → Settled c call

theorem settled (c : Counted (Packer w (Logged w κ))) (call : WriteCall w) : Settled c call := by
  obtain ⟨hinner, hpassed, hrefused, hbroke⟩ := kinds c call
  have hsettles := Packer.settles c.inner call
  rcases hmade : call.make c.inner with ⟨answer, q⟩
  rw [hmade] at hinner hpassed hrefused hbroke hsettles
  cases hsettles with
  | done hwritten => exact .passed hpassed hrefused hbroke (hinner ▸ hwritten)
  | @rejected fault =>
    refine .rejected hpassed hrefused ?_ (congrArg Packer.written hinner)
    -- nothing has been put behind the failures of the sink
    rw [hbroke]
    simp [isFaultBehind]
  | @lost failure x _ hpos hwritten hwrite =>
    cases failure with
    | refused error => exact .refused hpassed hrefused hbroke (hinner ▸ hwritten) hpos
    | fault fault =>
      refine .broke hpassed hrefused ?_ (hinner ▸ hwritten) hpos (congrArg Prod.fst hwrite)
      rw [hbroke]
      simp [isFaultBehind, Logged.failures_write_error hwrite]

/-- A packer counts the writes that pass, and also those that are lost at the sink. -/
theorem written_write (c : Counted (Packer w (Logged w κ))) (call : WriteCall w) :
    (call.make c).2.inner.written
      = c.inner.written + (if WriteCall.passed (c, call) then call.width else 0)
        + (if WriteCall.refused (c, call) then call.width else 0)
        + if WriteCall.broke (c, call) then call.width else 0 := by
  cases settled c call with
  | passed hpassed hrefused hbroke hwritten => simp [hpassed, hrefused, hbroke, hwritten]
  | rejected hpassed hrefused hbroke hwritten => simp [hpassed, hrefused, hbroke, hwritten]
  | refused hpassed hrefused hbroke hwritten => simp [hpassed, hrefused, hbroke, hwritten]
  | broke hpassed hrefused hbroke hwritten => simp [hpassed, hrefused, hbroke, hwritten]

/-- A write that fails at the sink has bits. -/
theorem width_pos {c : Counted (Packer w (Logged w κ))} {call : WriteCall w}
    (h : WriteCall.refused (c, call) = true ∨ WriteCall.broke (c, call) = true)
    (hflush : call ≠ .flush) : 0 < call.width := by
  cases settled c call with
  | passed _ hrefused hbroke => simp [hrefused, hbroke] at h
  | rejected _ hrefused hbroke => simp [hrefused, hbroke] at h
  | refused _ _ _ _ hpos => exact hpos hflush
  | broke _ _ _ _ hpos => exact hpos hflush

/-- A sink that is never at fault breaks no write. -/
theorem broke_eq_false
    (hsink : ∀ (s : κ) (x : Word w) (fault : Fault), (WordSink.write s x).1 ≠ .error (.fault fault))
    (c : Counted (Packer w (Logged w κ))) (call : WriteCall w) :
    WriteCall.broke (c, call) = false := by
  cases settled c call with
  | passed _ _ hbroke => exact hbroke
  | rejected _ _ hbroke => exact hbroke
  | refused _ _ hbroke => exact hbroke
  | broke _ _ _ _ _ hfault => exact absurd hfault (hsink _ _ _)

/-- The sum over all writes that have failed at the sink. -/
theorem lost_eq_zero_iff (writes : List (Counted (Packer w (Logged w κ)) × WriteCall w)) :
    bitsOf WriteCall.width WriteCall.refused writes
        + bitsOf WriteCall.width WriteCall.broke writes = 0 ↔
      ∀ write ∈ writes, write.2 ≠ .flush →
        WriteCall.refused write = false ∧ WriteCall.broke write = false := by
  rw [Nat.add_eq_zero_iff, bitsOf_eq_zero_iff, bitsOf_eq_zero_iff]
  constructor
  · rintro ⟨hrefused, hbroke⟩ write hmem hflush
    have hnone : ¬(WriteCall.refused write = true ∨ WriteCall.broke write = true) := by
      intro hfailed
      have hpos := Nat.ne_of_gt (width_pos hfailed hflush)
      rcases hfailed with hkind | hkind
      · exact hpos (hrefused write hmem hkind)
      · exact hpos (hbroke write hmem hkind)
    simpa using hnone
  · intro h
    have hflush : ∀ write ∈ writes, WriteCall.refused write = true ∨ WriteCall.broke write = true →
        write.2.width = 0 := by
      intro write hmem hfailed
      by_cases heq : write.2 = .flush
      · rw [heq]
        rfl
      · obtain ⟨hrefused, hbroke⟩ := h write hmem heq
        simp [hrefused, hbroke] at hfailed
    exact ⟨fun write hmem hkind => hflush write hmem (.inl hkind),
      fun write hmem hkind => hflush write hmem (.inr hkind)⟩

/-! ### All calls -/

/-- Whether the count is the bits of the reads that have passed. -/
def TalliesReads (c : Counted ρ) (calls : List (Counted ρ × ReadCall)) : Prop :=
  c.count = bitsOf ReadCall.width ReadCall.passed calls

/-- Whether the count is the bits of the writes that have passed, and what a packer has counted
since it had counted `start` bits is these and those that were lost at the sink. -/
structure TalliesWrites (start : Nat) (c : Counted (Packer w (Logged w κ)))
    (calls : List (Counted (Packer w (Logged w κ)) × WriteCall w)) : Prop where
  count : c.count = bitsOf WriteCall.width WriteCall.passed calls
  written : c.inner.written
    = start + c.count + bitsOf WriteCall.width WriteCall.refused calls
      + bitsOf WriteCall.width WriteCall.broke calls

theorem TalliesReads.make {c : Counted ρ} {calls : List (Counted ρ × ReadCall)}
    (h : TalliesReads c calls) (call : ReadCall) :
    TalliesReads (call.make c).2 (calls ++ [(c, call)]) := by
  rw [TalliesReads, count_read, bitsOf_concat, ← h]

theorem TalliesWrites.make {start : Nat} {c : Counted (Packer w (Logged w κ))}
    {calls : List (Counted (Packer w (Logged w κ)) × WriteCall w)} (h : TalliesWrites start c calls)
    (call : WriteCall w) : TalliesWrites start (call.make c).2 (calls ++ [(c, call)]) where
  count := by rw [count_write, bitsOf_concat, ← h.count]
  written := by
    rw [written_write, count_write, bitsOf_concat, bitsOf_concat, h.written]
    dsimp only
    omega

end Packers

end Counted

open Counted

variable {ρ κ : Type} [BitReader ρ w] [WordSink κ w]

/-- **Counting.** Let a reader and a packer be used together, whatever the sink of the packer does.
If either or both are counted, with notes or without, then the answers are the same, and so are the
streams beneath, with all calls on the sink.  The counts are the bits of those single calls that
have passed, also within copies.  The packer has in this time counted as many bits, and those of the
writes that were refused, and those of the writes that were at fault because the sink was.  So it
has counted the same exactly if there were none of these. -/
theorem counts_what_passes (r : ρ) (p : Packer w (Logged w κ)) (reading writing : Bool)
    (calls : List (PairCall w)) :
    let reader : Counted ρ := { inner := r, noting := reading }
    let writer : Counted (Packer w (Logged w κ)) := { inner := p, noting := writing }
    let bare := PairCall.run (r, p) calls
    let counted := PairCall.run (reader, writer) calls
    let traced := PairCall.run (({ inner := reader } : Traced ReadCall (Counted ρ)),
      ({ inner := writer } : Traced (WriteCall w) (Counted (Packer w (Logged w κ))))) calls
    let reads := traced.2.1.calls
    let writes := traced.2.2.calls
    counted.1 = bare.1 ∧ counted.2.1.inner = bare.2.1 ∧ counted.2.2.inner = bare.2.2 ∧
      PairCall.run (reader, p) calls = (bare.1, counted.2.1, bare.2.2) ∧
      PairCall.run (r, writer) calls = (bare.1, bare.2.1, counted.2.2) ∧
      traced.1 = counted.1 ∧ traced.2.1.inner = counted.2.1 ∧ traced.2.2.inner = counted.2.2 ∧
      counted.2.1.count = bitsOf ReadCall.width ReadCall.passed reads ∧
      counted.2.2.count = bitsOf WriteCall.width WriteCall.passed writes ∧
      bare.2.2.written
          = p.written + counted.2.2.count + bitsOf WriteCall.width WriteCall.refused writes
        + bitsOf WriteCall.width WriteCall.broke writes ∧
      (bare.2.2.written = p.written + counted.2.2.count ↔
        ∀ write ∈ writes, write.2 ≠ .flush →
          WriteCall.refused write = false ∧ WriteCall.broke write = false) ∧
      ((∀ (s : κ) (x : Word w) (fault : Fault), (WordSink.write s x).1 ≠ .error (.fault fault)) →
        bitsOf WriteCall.width WriteCall.broke writes = 0) := by
  intro reader writer bare counted traced reads writes
  have hadmitted : ∀ {ρ' ω' : Type} [BitReader ρ' w] [BitWriter ω' w] (streams : ρ' × ω'),
      Admitted PairCall.make (fun _ c => ∀ (x : Word w) n, c = .write (.bits x n) → True)
        streams calls :=
    fun _ => admitted_of_forall fun _ _ _ _ _ _ => trivial
  obtain ⟨hanswers, hreader, hwriter⟩ :=
    PairCall.run_mirrors mirrors_reader mirrors_writer (fun _ _ => trivial)
      (reader, writer) (r, p) (hadmitted _) ⟨rfl, rfl⟩
  -- counters around the writer alone, around the reader alone, and traced around both
  obtain ⟨hanswers₁, hreader₁, hwriter₁⟩ := PairCall.run_mirrors BitReader.mirrors_eq mirrors_writer
    (fun _ _ => trivial) (reader, writer) (reader, p) (hadmitted _) ⟨rfl, rfl⟩
  obtain ⟨hanswers₂, hreader₂, hwriter₂⟩ := PairCall.run_mirrors mirrors_reader
    (BitWriter.mirrors_eq fun _ _ _ => True) (fun _ _ => trivial) (reader, writer) (r, writer)
    (hadmitted _) ⟨rfl, rfl⟩
  obtain ⟨hanswers₃, ⟨hreader₃, hreads⟩, ⟨hwriter₃, hwrites⟩⟩ := PairCall.run_mirrors
    (Traced.mirrors_reader TalliesReads fun _ _ call h => h.make call)
    (Traced.mirrors_writer (TalliesWrites p.written) fun _ _ call h => h.make call)
    (fun _ _ => trivial)
    (({ inner := reader } : Traced ReadCall (Counted ρ)),
      ({ inner := writer } : Traced (WriteCall w) (Counted (Packer w (Logged w κ)))))
    (reader, writer) (hadmitted _) ⟨⟨rfl, rfl⟩, rfl, rfl, rfl⟩
  have hwritten : bare.2.2.written
      = p.written + counted.2.2.count + bitsOf WriteCall.width WriteCall.refused writes
        + bitsOf WriteCall.width WriteCall.broke writes := by
    rw [← hwrites.written]
    exact congrArg Packer.written hwriter.symm
  refine ⟨hanswers, hreader, hwriter, ?_, ?_, hanswers₃, hreader₃, hwriter₃, hreads, hwrites.count,
    hwritten, ?_, ?_⟩
  · exact Prod.ext (hanswers₁.symm.trans hanswers)
      (Prod.ext hreader₁.symm (hwriter₁.symm.trans hwriter))
  · exact Prod.ext (hanswers₂.symm.trans hanswers)
      (Prod.ext (hreader₂.symm.trans hreader) hwriter₂.symm)
  · rw [hwritten, ← lost_eq_zero_iff]
    omega
  · intro hsink
    refine bitsOf_eq_zero_iff.mpr ?_
    intro write _ hbroke
    rw [broke_eq_false hsink] at hbroke
    exact absurd hbroke Bool.false_ne_true

/-- Two bits and six that are copied fill the only word that there is room for. Eight more are
refused: they are the difference between the two counts. -/
theorem counts_what_passes_one_word :
    let r : Unpacker .unbounded .w8 (Tape .w8) := Unpacker.openUnbounded { words := [0xb5, 0x03] }
    let p : Packer .w8 (Logged .w8 (Tape .w8)) := { sink := { sink := { words := [0] } } }
    let calls : List (PairCall .w8) :=
      [.write (.bits 0x3 2), .sendTo 6, .read .bit, .write (.bits 0xff 8)]
    let reader : Counted (Unpacker .unbounded .w8 (Tape .w8)) := { inner := r, noting := true }
    let writer : Counted (Packer .w8 (Logged .w8 (Tape .w8))) := { inner := p, noting := false }
    let bare := PairCall.run (r, p) calls
    let counted := PairCall.run (reader, writer) calls
    let traced := PairCall.run (({ inner := reader } : Traced ReadCall (Counted _)),
      ({ inner := writer } : Traced (WriteCall .w8) (Counted _))) calls
    (∀ (s : Tape .w8) (x : Word .w8) (fault : Fault),
        (WordSink.write s x).1 ≠ .error (.fault fault)) ∧
      counted.1 = bare.1 ∧ bare.2.2.written = 16 ∧ counted.2.2.count = 8 ∧ counted.2.1.count = 7 ∧
      bitsOf WriteCall.width WriteCall.broke traced.2.2.calls = 0 ∧
      bitsOf WriteCall.width WriteCall.refused traced.2.2.calls = 8 := by
  intro r p calls reader writer bare counted traced
  have hsink : ∀ (s : Tape .w8) (x : Word .w8) (fault : Fault),
      (WordSink.write s x).1 ≠ .error (.fault fault) := by
    intro s x fault
    show (s.write x).1 ≠ _
    unfold Tape.write
    split
    · simp
    · simp
  obtain ⟨hanswers, -, -, -, -, -, -, -, -, -, hwritten, -, hbroke⟩ :=
    counts_what_passes r p true false calls
  have hbits : bare.2.2.written = 16 := by decide +kernel
  have hcount : counted.2.2.count = 8 := by decide +kernel
  have hnone : bitsOf WriteCall.width WriteCall.broke traced.2.2.calls = 0 := hbroke hsink
  refine ⟨hsink, hanswers, hbits, hcount, by decide +kernel, hnone, ?_⟩
  have hsum : bare.2.2.written
      = 0 + counted.2.2.count + bitsOf WriteCall.width WriteCall.refused traced.2.2.calls
        + bitsOf WriteCall.width WriteCall.broke traced.2.2.calls := hwritten
  omega

end PackedBits
