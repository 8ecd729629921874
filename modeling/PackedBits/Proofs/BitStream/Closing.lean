import PackedBits.Proofs.BitStream.Packer
import PackedBits.Proofs.WordStream.Attempts

/-!
# Closing a packer, once

What a packer passes to its sink when it is closed is settled before the sink is asked: at most two
words (`closingWords`), and then a flush.  Closing is an attempt to make just these calls
(`close_eq_attempt`).  The one exception is a packer that owes a mark and whose position is beyond
its word, which can only be after a failed emission: it emits the word, and then there is no mark
for so many bits (`close_of_lt`).

Since a packer counts as closed before it makes the first of these calls, no history of calls,
whatever has failed in it, makes a second attempt.  The theorem is `ends_once`.
-/

namespace PackedBits.Packer

open EndMark Layout Word

variable {w : Width} {κ : Type} [WordSink κ w]

/-! ### Being closed -/

theorem writeBit_closed (p : Packer w κ) (bit : Bool) : (p.writeBit bit).2.closed = p.closed := by
  unfold writeBit
  split
  · rfl
  split
  · rfl
  dsimp only
  split
  · rw [emit_closed]
  · rfl

theorem writeBits_closed (p : Packer w κ) (x : Word w) (n : Nat) :
    (p.writeBits x n).2.closed = p.closed := by
  have hemit : ∀ q : Packer w κ, q.emit.2.closed = q.closed := emit_closed
  unfold writeBits
  split
  · rfl
  split
  · rfl
  split
  · rfl
  split
  · rfl
  split
  · rfl
  dsimp only
  split
  · rfl
  have hq := hemit { p with word := p.word ||| (x &&& Word.lowOnes n) <<< p.pos,
                            written := p.written + n }
  split
  · rename_i q heq
    rwa [heq] at hq
  · rename_i q heq
    rw [heq] at hq
    split
    · exact hq
    · exact hq

theorem make_closed (p : Packer w κ) (c : WriteCall w) : (c.make p).2.closed = p.closed := by
  cases c with
  | bit x => exact writeBit_closed p x
  | bits x n => exact writeBits_closed p x n
  | flush => exact flush_closed p

theorem writeBit_of_closed {p : Packer w κ} (h : p.closed = true) (bit : Bool) :
    p.writeBit bit = (.error (.fault .closed), p) := by
  unfold writeBit
  rw [if_pos h]

/-- The width is looked at first. -/
theorem writeBits_of_closed {p : Packer w κ} (h : p.closed = true) (x : Word w) (n : Nat) :
    p.writeBits x n
      = (.error (.fault (if 0 < n ∧ n ≤ w.bits then .closed else .writeWidth w.bits n)), p) := by
  unfold writeBits
  by_cases hn : 0 < n ∧ n ≤ w.bits
  · rw [if_neg (not_not_intro hn), if_pos h, if_pos hn]
  · rw [if_pos hn, if_neg hn]

/-- What is asked of a packer that is still in use. -/
inductive Act (w : Width) where
  | write (c : WriteCall w)
  | close
  deriving DecidableEq

/-- Does what is asked. -/
def Act.perform (p : Packer w κ) : Act w → Packer w κ
  | write c => (c.make p).2
  | close => p.close.2

/-- A packer is closed exactly if it has been asked to close. -/
theorem closed_foldl_perform (p : Packer w κ) (acts : List (Act w)) :
    (acts.foldl Act.perform p).closed = (p.closed || decide (.close ∈ acts)) := by
  induction acts generalizing p with
  | nil => simp
  | cons a acts ih =>
    rw [List.foldl_cons, ih]
    cases a with
    | write c => simp [Act.perform, make_closed]
    | close => simp [Act.perform, close_closed]

/-! ### The calls made in closing -/

/-- The words that closing passes to the sink. -/
def closingWords (p : Packer w κ) : List (Word w) :=
  if p.marked then
    if 0 < p.pos ∨ p.emitted then
      let mark := encode (if 0 < p.pos then p.pos else w.bits)
      if payloadBits w ≤ p.pos then [p.word, mark] else [p.word ||| mark]
    else []
  else if 0 < p.pos then [p.word] else []

omit [WordSink κ w] in
theorem length_closingWords_le (p : Packer w κ) : p.closingWords.length ≤ 2 := by
  unfold closingWords
  split
  · split
    · dsimp only
      split <;> simp
    · simp
  · split <;> simp

omit [WordSink κ w] in
/-- They are the ending of the bits that the packer has got. -/
theorem Packs.closingWords_eq {R : κ → List (SinkCall w) → Prop} {marked : Bool} {b : List Bool}
    {n : Nat} {p : Packer w κ} (h : Packs R marked b n p) : p.closingWords = ending marked b := by
  have hpayload := payloadBits_eq w
  have hword := h.word
  unfold closingWords ending
  rw [h.marked, h.pos]
  rcases Nat.eq_zero_or_pos (b.length % w.bits) with h0 | hpos
  · have hrem : remainder w b = [] := by
      apply List.eq_nil_of_length_eq_zero
      rw [length_remainder, h0]
    rw [hrem, ofBits_nil] at hword
    by_cases hb : b = []
    · simp [hb, h.emitted]
    · -- the word before is full, and the mark is beside nothing
      have hemitted : p.emitted = true :=
        h.emitted.mpr fun hgroups => hb (eq_nil_of_groups_eq_nil hgroups h0)
      simp [h0, hb, hemitted, hword, hpayload]
  · have hb : b ≠ [] := by
      rintro rfl
      simp at hpos
    by_cases hle : payloadBits w ≤ b.length % w.bits
    · simp [hpos, hb, hle, hword, Nat.ne_of_gt hpos, Nat.not_lt.mpr hle]
    · simp [hpos, hb, hle, hword, Nat.ne_of_gt hpos, Nat.not_le.mp hle]

theorem emit_eq_make (p : Packer w κ) :
    (p.emit.1, p.emit.2.sink) = SinkCall.make p.sink (.write p.word) := by
  show _ = WordSink.write p.sink p.word
  rcases hwrite : WordSink.write p.sink p.word with ⟨failure | _, s⟩
  · rw [emit_of_error hwrite]
  · rw [emit_of_ok hwrite]

/-- The mark that is owed, where the position is one that it can record. -/
theorem mark_eq_attempt {p : Packer w κ} (hmarked : p.marked = true) (hpos : p.pos ≤ w.bits) :
    (p.mark.1, p.mark.2.sink) = SinkCall.attempt p.sink (p.closingWords.map .write) := by
  have hbits := w.bits_pos
  have hvalid : 0 < (if 0 < p.pos then p.pos else w.bits) ∧
      (if 0 < p.pos then p.pos else w.bits) ≤ w.bits := by
    split <;> omega
  unfold mark closingWords
  by_cases hbegun : 0 < p.pos ∨ p.emitted = true
  · simp only [hmarked, hbegun, encode?_of_le hvalid, ↓reduceIte]
    by_cases happart : payloadBits w ≤ p.pos
    · -- the word, and the mark in a word of its own
      simp only [happart, ↓reduceIte]
      rcases hwrite : SinkCall.make p.sink (.write p.word) with ⟨failure | _, s⟩
      · rw [emit_of_error (p := p) hwrite]
        exact (SinkCall.attempt_cons_error _ hwrite).symm
      · simp only [emit_of_ok (p := p) hwrite, emit_eq_make, BitVec.ofNat_eq_ofNat, BitVec.zero_or]
        rw [← SinkCall.attempt_singleton]
        exact (SinkCall.attempt_cons_ok _ hwrite).symm
    · simp only [happart, ↓reduceIte, emit_eq_make]
      exact (SinkCall.attempt_singleton _ _).symm
  · simp only [hmarked, hbegun, ↓reduceIte]
    rfl

theorem flush_eq_attempt {p : Packer w κ} (hmarked : p.marked = false) :
    (p.flush.1, p.flush.2.sink) = SinkCall.attempt p.sink (p.closingWords.map .write) := by
  unfold flush closingWords
  by_cases hpos : 0 < p.pos
  · simp only [hmarked, hpos, Bool.false_eq_true, ↓reduceIte, emit_eq_make]
    exact (SinkCall.attempt_singleton _ _).symm
  · simp only [hmarked, hpos, Bool.false_eq_true, ↓reduceIte]
    rfl

/-- Closing is an attempt to write the closing words and to flush. -/
theorem close_eq_attempt {p : Packer w κ} (hopen : p.closed = false)
    (hpos : p.marked = true → p.pos ≤ w.bits) :
    (p.close.1, p.close.2.sink)
      = SinkCall.attempt p.sink (p.closingWords.map .write ++ [.flush]) := by
  have hflush : ∀ q : Packer w κ, (q.flushSink.1, q.flushSink.2.sink)
      = SinkCall.attempt q.sink [.flush] := fun q => (SinkCall.attempt_singleton q.sink .flush).symm
  -- what is done before the sink is flushed, the packer counting as closed already
  let q : Packer w κ := { p with closed := true }
  have hend : ∃ ended : Outcome StreamError Unit × Packer w κ,
      (if p.marked then q.mark else q.flush) = ended ∧
        (ended.1, ended.2.sink) = SinkCall.attempt p.sink (p.closingWords.map .write) := by
    refine ⟨_, rfl, ?_⟩
    by_cases hmarked : p.marked = true
    · rw [if_pos hmarked]
      exact mark_eq_attempt (p := q) hmarked (hpos hmarked)
    · rw [if_neg hmarked]
      exact flush_eq_attempt (p := q) (Bool.eq_false_iff.mpr hmarked)
  obtain ⟨ended, hmade, hattempt⟩ := hend
  unfold close
  simp only [hopen, Bool.false_eq_true, ↓reduceIte, hmade, q]
  rcases ended with ⟨failure | _, p'⟩
  · -- the flush is not reached
    exact (SinkCall.attempt_append_error _ hattempt.symm).symm
  · rw [SinkCall.attempt_append_ok _ hattempt.symm]
    exact hflush p'

theorem mark_of_lt {p : Packer w κ} (hpos : w.bits < p.pos) :
    p.mark = (p.emit.1.bind fun _ => .error (.fault (.validBits w.bits p.pos)), p.emit.2) := by
  have hbegun : 0 < p.pos := by omega
  have happart : payloadBits w ≤ p.pos := by
    have hlt := payloadBits_lt w
    omega
  have hvalid : encode? w p.pos = .error (.validBits w.bits p.pos) := by
    unfold encode?
    rw [if_neg (by omega)]
  unfold mark
  simp only [hbegun, happart, true_or, ↓reduceIte, hvalid]
  rcases p.emit with ⟨failure | _, q⟩
  · rfl
  · rfl

/-- Behind a mark that fails nothing is flushed. -/
theorem close_of_mark_error {p q : Packer w κ} {failure : Failure StreamError}
    (hopen : p.closed = false) (hmarked : p.marked = true)
    (hmark : ({ p with closed := true } : Packer w κ).mark = (.error failure, q)) :
    p.close = (.error failure, q) := by
  unfold close
  rw [if_neg (Bool.eq_false_iff.mp hopen)]
  dsimp only
  rw [if_pos hmarked, hmark]

/-- A packer that owes a mark for more bits than a word has. It emits the word, and that is all. -/
theorem close_of_lt {p : Packer w κ} (hopen : p.closed = false) (hmarked : p.marked = true)
    (hpos : w.bits < p.pos) :
    p.close.2.sink = (SinkCall.attempt p.sink [.write p.word]).2 ∧
      p.close.1 = (SinkCall.attempt p.sink [.write p.word]).1.bind
        fun _ => .error (.fault (.validBits w.bits p.pos)) := by
  have hmark := mark_of_lt (p := { p with closed := true }) hpos
  have hemit : _ = SinkCall.make p.sink (.write p.word) := emit_eq_make { p with closed := true }
  rw [SinkCall.attempt_singleton, ← hemit]
  rcases hmade : ({ p with closed := true } : Packer w κ).emit with ⟨failure | _, q⟩
  · rw [hmade] at hmark
    rw [close_of_mark_error hopen hmarked hmark]
    exact ⟨rfl, rfl⟩
  · rw [hmade] at hmark
    rw [close_of_mark_error hopen hmarked hmark]
    exact ⟨rfl, rfl⟩

/-! ### The three ways of ending -/

theorem finish_sink (p : Packer w κ) (e : Closing) : (p.finish e).2 = p.close.2.sink := by
  have hdiscard : ∀ q : Packer w κ, q.discard.2 = q.close.2.sink := by
    intro q
    unfold discard
    rcases q.close with ⟨(_ | _) | _, q'⟩
    · rfl
    · rfl
    · rfl
  cases e with
  | close =>
    have hagain := close_of_closed (close_closed p)
    show p.close.2.discard.2 = _
    rw [hdiscard, hagain]
  | intoSink => rfl
  | discard => exact hdiscard p

theorem finish_answer (p : Packer w κ) {e : Closing} (he : e ≠ .discard) :
    (p.finish e).1 = p.close.1 := by
  cases e with
  | close => rfl
  | intoSink => rfl
  | discard => exact absurd rfl he

/-- A packer that is dropped has no one to tell of a refusal. -/
theorem finish_discard_answer (p : Packer w κ) :
    (∀ error, (p.finish .discard).1 ≠ .error (.refused error)) ∧
      ∀ fault, (p.finish .discard).1 = .error (.fault fault) ↔
        p.close.1 = .error (.fault fault) := by
  show (∀ error, p.discard.1 ≠ _) ∧ ∀ fault, p.discard.1 = _ ↔ _
  unfold discard
  rcases p.close with ⟨(_ | _) | _, q⟩
  · simp
  · simp
  · simp

/-! ### Once -/

/-- What closing leaves in the log of a sink, and when it fails. -/
theorem close_log {p : Packer w (Logged w κ)} (hopen : p.closed = false) :
    ∃ (ws : List (Word w)) (log : List (SinkCall w × Outcome StreamError Unit)),
      ws.length ≤ 2 ∧ p.close.2.sink.log = p.sink.log ++ log ∧
      log.map Prod.fst <+: ws.map .write ++ [.flush] ∧
      (∀ entry ∈ log.dropLast, entry.2 = .ok ()) ∧
      ∀ failure, p.close.1 = .error failure ↔ (∃ c, (c, .error failure) ∈ log) ∨
        (p.marked = true ∧ w.bits < p.pos ∧ failure = .fault (.validBits w.bits p.pos) ∧
          ∀ entry ∈ log, entry.2 = .ok ()) := by
  by_cases hbeyond : p.marked = true ∧ w.bits < p.pos
  · -- one word is attempted, and if the sink takes it there is no mark to follow
    obtain ⟨hmarked, hpos⟩ := hbeyond
    obtain ⟨hsink, hanswer⟩ := close_of_lt hopen hmarked hpos
    obtain ⟨log, hlog, hprefix, hok, hfail⟩ := Logged.attempt_log p.sink [.write p.word]
    have hall := Logged.attempt_log_ok hfail
    refine ⟨[p.word], log, by simp, by rw [hsink, hlog], hprefix.trans ⟨[.flush], rfl⟩, hok, ?_⟩
    intro failure
    rw [hanswer, ← hfail failure, ← hall]
    rcases (SinkCall.attempt p.sink [.write p.word]).1 with failure' | _
    · simp [Except.bind]
    · simp [Except.bind, hmarked, hpos, eq_comm]
  · -- there is no other fault, and closing is one attempt at its words and a flush
    have hattempt := close_eq_attempt hopen fun hmarked =>
      Nat.not_lt.mp fun hpos => hbeyond ⟨hmarked, hpos⟩
    obtain ⟨log, hlog, hprefix, hok, hfail⟩ :=
      Logged.attempt_log p.sink (p.closingWords.map .write ++ [.flush])
    rw [← hattempt] at hlog hfail
    refine ⟨p.closingWords, log, length_closingWords_le p, hlog, hprefix, hok, ?_⟩
    intro failure
    rw [← hfail failure]
    constructor
    · exact Or.inl
    · rintro (hanswer | ⟨hmarked, hpos, -⟩)
      · exact hanswer
      · exact absurd ⟨hmarked, hpos⟩ hbeyond

/-- **A stream is ended once.** Whatever has been asked of a packer and whatever has failed, the
first ending makes calls out of at most two writes and a flush behind them, each only if those
before it have succeeded, and fails exactly if one of them does; a packer that is dropped passes
over a refusal, and one that owes a mark for more bits than a word has is at fault when it has
emitted the word.  Behind the first ending there is no other: ending again succeeds and calls
nothing, and a write is a fault that changes nothing. -/
theorem ends_once (s : κ) (marked strict : Bool) (acts : List (Act w)) :
    let p := acts.foldl Act.perform
      ({ sink := { sink := s }, marked, strict } : Packer w (Logged w κ))
    (.close ∉ acts → ∀ e : Closing,
      ∃ (ws : List (Word w)) (log : List (SinkCall w × Outcome StreamError Unit)),
        ws.length ≤ 2 ∧ (p.finish e).2.log = p.sink.log ++ log ∧
        log.map Prod.fst <+: ws.map .write ++ [.flush] ∧
        (∀ entry ∈ log.dropLast, entry.2 = .ok ()) ∧
        (∀ error, (p.finish e).1 = .error (.refused error) ↔
          e ≠ .discard ∧ ∃ c, (c, .error (.refused error)) ∈ log) ∧
        ∀ fault, (p.finish e).1 = .error (.fault fault) ↔
          (∃ c, (c, .error (.fault fault)) ∈ log) ∨
          (p.marked = true ∧ w.bits < p.pos ∧ fault = .validBits w.bits p.pos ∧
            ∀ entry ∈ log, entry.2 = .ok ())) ∧
    (.close ∈ acts →
      p.close = (.ok (), p) ∧ (∀ e : Closing, p.finish e = (.ok (), p.sink)) ∧
      (∀ bit, p.writeBit bit = (.error (.fault .closed), p)) ∧
      ∀ x n, p.writeBits x n
        = (.error (.fault (if 0 < n ∧ n ≤ w.bits then .closed else .writeWidth w.bits n)), p)) := by
  intro p
  have hclosed : p.closed = decide (.close ∈ acts) := by
    rw [closed_foldl_perform, Bool.false_or]
  constructor
  · intro hacts e
    -- the packer is open, and all ways of ending go through its close
    have hopen : p.closed = false := by rw [hclosed, decide_eq_false hacts]
    obtain ⟨ws, log, hws, hlog, hprefix, hok, hfail⟩ := close_log hopen
    refine ⟨ws, log, hws, by rw [finish_sink, hlog], hprefix, hok, ?_, ?_⟩
    · intro error
      by_cases he : e = .discard
      · subst he
        simp [(finish_discard_answer p).1 error]
      · rw [finish_answer p he, hfail]
        simp [he]
    · intro fault
      have hanswer :
          (p.finish e).1 = .error (.fault fault) ↔ p.close.1 = .error (.fault fault) := by
        by_cases he : e = .discard
        · subst he
          exact (finish_discard_answer p).2 fault
        · rw [finish_answer p he]
      rw [hanswer, hfail]
      simp
  · -- it is closed, whatever the sink answered
    intro hacts
    have hdone : p.closed = true := by rw [hclosed, decide_eq_true hacts]
    have hclose := close_of_closed hdone
    exact ⟨hclose, fun e => finish_eq hclose e, writeBit_of_closed hdone, writeBits_of_closed hdone⟩

/-- Six bits, and a row with room for one word: the mark is refused, and the row is never
flushed. -/
theorem ends_once_short_row :
    let new : Packer .w8 (Logged .w8 (Tape .w8)) := { sink := { sink := { words := [0] } } }
    let acts : List (Act .w8) := [.write (.bits 0x36 6)]
    Act.close ∉ acts ∧
      (∃ log, ((acts.foldl Act.perform new).finish .intoSink).2.log = log ∧
        log.map Prod.fst = [.write 0x36, .write 0x50] ∧
        ∃ c, (c, .error (.refused (.endOfWords 1))) ∈ log) ∧
      Act.close ∈ acts ++ [.close] ∧
      let closed := (acts ++ [Act.close]).foldl Act.perform new
      closed.finish .discard = (.ok (), closed.sink) := by
  intro new acts
  have hacts : Act.close ∉ acts := by decide
  have hclose : Act.close ∈ acts ++ [.close] := by decide
  have hlog : ((acts.foldl Act.perform new).finish .intoSink).2.log.map Prod.fst
      = [.write 0x36, .write 0x50] := by decide
  have hanswer : ((acts.foldl Act.perform new).finish .intoSink).1
      = .error (.refused (.endOfWords 1)) := by rfl
  obtain ⟨hfirst, -⟩ := ends_once ({ words := [0] } : Tape .w8) true false acts
  obtain ⟨-, hlater⟩ := ends_once ({ words := [0] } : Tape .w8) true false (acts ++ [.close])
  obtain ⟨ws, log, -, heq, -, -, hrefused, -⟩ := hfirst hacts .intoSink
  obtain ⟨-, hfailure⟩ := (hrefused (.endOfWords 1)).mp hanswer
  have hnew : (acts.foldl Act.perform new).sink.log = [] := by rfl
  rw [hnew, List.nil_append] at heq
  refine ⟨hacts, ⟨log, heq, ?_, hfailure⟩, hclose, (hlater hclose).2.1 .discard⟩
  rw [← heq]
  exact hlog

end PackedBits.Packer
