import Mathlib.Data.List.Chain
import PackedBits.Proofs.BitStream.Refusals

/-!
# Making refused calls again

A client whose group or flush is refused makes the same call again, until it is taken.  It then need
not care that anything was refused: the sink takes the words that it would have taken otherwise, and
no others.

Between a refusal and the next attempt the packer is not what it was before.  The bits of the group
are in its word as far as there is room for them, and they have been counted.  So what carries the
proof is not a description of that packer but of the call that comes next: it does what it would do
on a packer that has just the bits of the calls that succeeded (`Owes`).  A flush puts no bits; a
group finds its own where it puts them (`Packs.writeBits_again`).  A single bit is different,
because a refusal leaves the position behind it.

The attempts that fail are therefore seen in two places only: in the number of bits written, which
counts every attempt, and in the failures of the sink, which the client is told one by one
(`repeats_until_taken`).
-/

namespace PackedBits

open Word Layout

variable {w : Width} {κ : Type} [WordSink κ w]

namespace Logged

/-- The failures of a sink, in order. -/
def failures (l : Logged w κ) : List (Failure StreamError) :=
  l.log.filterMap fun
    | (_, .error failure) => some failure
    | (_, .ok _) => none

/-- Whether a sink has taken the words that the calls write, and its failures are `fs`. -/
def TookAmid (fs : List (Failure StreamError)) (l : Logged w κ) (calls : List (SinkCall w)) :
    Prop :=
  l.Took calls ∧ l.failures = fs

variable {fs : List (Failure StreamError)} {l l' : Logged w κ} {calls : List (SinkCall w)}
  {x : Word w}

theorem TookAmid.write_ok (h : l.TookAmid fs calls) (hwrite : WordSink.write l x = (.ok (), l')) :
    l'.TookAmid fs (calls ++ [.write x]) := by
  refine ⟨h.1.call_ok hwrite, ?_⟩
  rw [failures, log_write hwrite, List.filterMap_append, ← h.2]
  exact List.append_nil _

theorem TookAmid.write_error {failure : Failure StreamError} (h : l.TookAmid fs calls)
    (hwrite : WordSink.write l x = (.error failure, l')) : l'.TookAmid (fs ++ [failure]) calls := by
  refine ⟨h.1.call_error hwrite, ?_⟩
  rw [failures, log_write hwrite, List.filterMap_append, ← h.2]
  rfl

end Logged

/-- Whether a call may be made again when it was refused: a flush, or a group of a width in
range. -/
def WriteCall.Repeatable : WriteCall w → Prop
  | bit _ => False
  | bits _ n => 0 < n ∧ n ≤ w.bits
  | flush => True

instance (c : WriteCall w) : Decidable c.Repeatable :=
  match c with
  | .bit _ => isFalse id
  | .bits _ n => inferInstanceAs (Decidable (0 < n ∧ n ≤ w.bits))
  | .flush => isTrue trivial

theorem WriteCall.Repeatable.inRange {c : WriteCall w} (h : c.Repeatable) : c.InRange := by
  cases c with
  | bit x => trivial
  | bits x n => exact h
  | flush => trivial

namespace Packer

open Logged

/-! ### Attempts -/

/-- Whether an attempt that failed is followed by the same call. -/
def Insists (m m' : Made w) : Prop :=
  m.2.isOk = true ∨ m'.1 = m.1

instance (m m' : Made w) : Decidable (Insists m m') :=
  inferInstanceAs (Decidable (_ ∨ _))

/-- The failure of an attempt. -/
def failure? : Made w → Option (Failure StreamError)
  | (_, .ok _) => none
  | (_, .error failure) => some failure

/-- The call of an attempt that failed. -/
def repelled? : Made w → Option (WriteCall w)
  | (_, .ok _) => none
  | (c, .error _) => some c

omit [WordSink κ w] in
/-- What is attempted is what succeeds and what fails. -/
theorem sum_width_made (made : List (Made w)) :
    (made.map fun m => m.1.width).sum
      = ((made.filterMap granted?).map WriteCall.width).sum
        + ((made.filterMap repelled?).map WriteCall.width).sum := by
  induction made with
  | nil => rfl
  | cons m made ih =>
    obtain ⟨c, failure | value⟩ := m
    · simp only [List.map_cons, List.sum_cons, granted?, repelled?, List.filterMap_cons]
      omega
    · simp only [List.map_cons, List.sum_cons, granted?, repelled?, List.filterMap_cons]
      omega

omit [WordSink κ w] in
theorem mem_of_mem_granted {attempts : List (WriteCall w)}
    {outcomes : List (Outcome StreamError (Option Nat))} {c : WriteCall w}
    (h : c ∈ (attempts.zip outcomes).filterMap granted?) : c ∈ attempts := by
  obtain ⟨⟨c', failure | value⟩, hmem, hc⟩ := List.mem_filterMap.mp h
  · simp [granted?] at hc
  · obtain rfl : c' = c := Option.some.inj hc
    exact (List.of_mem_zip hmem).1

/-- An open packer that has got the bits `b`, where `m` is the last attempt and the sink has failed
with `fs`. If the attempt has failed then the same call does what it does without the bits left
behind. -/
inductive Owes (marked : Bool) (b : List Bool) (n : Nat) (fs : List (Failure StreamError)) :
    Made w → Packer w (Logged w κ) → Prop where
  | nothing {c : WriteCall w} {value : Option Nat} {p : Packer w (Logged w κ)} :
    Packs (TookAmid fs) marked b n p → Owes marked b n fs (c, .ok value) p
  | again {c : WriteCall w} {failure : Failure StreamError} {p q : Packer w (Logged w κ)} :
    Packs (TookAmid fs) marked b n q → p.sink = q.sink → c.make p = c.make q →
      Owes marked b n fs (c, .error failure) p

section OneAttempt

variable {marked : Bool} {b : List Bool} {n : Nat} {fs : List (Failure StreamError)}
  {p p' : Packer w (Logged w κ)} {failure : Failure StreamError}

/-- A group that fails. -/
theorem Packs.owes_bits (h : Packs (TookAmid fs) marked b n p) {x : Word w} {k : Nat}
    (hk : 0 < k ∧ k ≤ w.bits) (hmake : (WriteCall.bits x k).make p = (.error failure, p')) :
    Owes marked b (n + k) (fs ++ [failure]) (.bits x k, .error failure) p' := by
  have hstrict : ¬(p.strict = true ∧ x &&& ~~~lowOnes k ≠ 0) := by simp [h.strict]
  have hwrites :
      WriteCall.make p (.bits x k) = ((p.writeBits x k).1.map some, (p.writeBits x k).2) :=
    rfl
  rw [hwrites] at hmake
  by_cases hroom : p.pos + k < w.bits
  · -- nothing is asked of the sink
    rw [writeBits_of_room h.closed hstrict hk hroom] at hmake
    exact absurd (congrArg Prod.fst hmake) (by simp [Except.map])
  have hfull := Nat.not_lt.mp hroom
  rw [writeBits_of_full h.closed hstrict hk h.pos_lt hfull] at hmake
  rcases hwrite : WordSink.write p.sink (p.word ||| ofBits (x.lowBits k) <<< p.pos)
    with ⟨failure' | _, l'⟩
  · rw [emit_of_error (p := { p with word := p.word ||| ofBits (x.lowBits k) <<< p.pos,
                                     written := p.written + k }) hwrite] at hmake
    obtain ⟨hfailure, rfl⟩ := Prod.mk.inj hmake
    obtain rfl : failure' = failure := Except.error.inj hfailure
    have hpacks := h.resink (h.sink.write_error hwrite) (p.written + k)
    rw [h.written] at hpacks
    refine .again hpacks rfl ?_
    simp only [WriteCall.make, BitWriter.writeBits, ← hpacks.writeBits_again hk hfull, h.written]
  · rw [emit_of_ok (p := { p with word := p.word ||| ofBits (x.lowBits k) <<< p.pos,
                                  written := p.written + k }) hwrite] at hmake
    exact absurd (congrArg Prod.fst hmake) (by simp [Except.map])

/-- A flush that fails. -/
theorem Packs.owes_flush (h : Packs (TookAmid fs) marked b n p)
    (hmake : WriteCall.flush.make p = (.error failure, p')) :
    Owes marked b n (fs ++ [failure]) (.flush, .error failure) p' := by
  have hflushes : WriteCall.flush.make p = (p.flush.1.map fun _ => none, p.flush.2) := rfl
  rw [hflushes] at hmake
  rcases Nat.eq_zero_or_pos p.pos with h0 | hpos
  · rw [flush_of_zero h0] at hmake
    exact absurd (congrArg Prod.fst hmake) (by simp [Except.map])
  rw [flush_of_pos hpos] at hmake
  rcases hwrite : WordSink.write p.sink p.word with ⟨failure' | _, l'⟩
  · rw [emit_of_error hwrite] at hmake
    obtain ⟨hfailure, rfl⟩ := Prod.mk.inj hmake
    obtain rfl : failure' = failure := Except.error.inj hfailure
    have hpacks := h.resink (h.sink.write_error hwrite) p.written
    rw [h.written] at hpacks
    refine .again hpacks rfl ?_
    rw [← h.written]
  · rw [emit_of_ok hwrite] at hmake
    exact absurd (congrArg Prod.fst hmake) (by simp [Except.map])

/-- Any attempt: it succeeds, with the bits of the call, or fails as the sink does and owes the
call. -/
theorem Packs.owes (h : Packs (TookAmid fs) marked b n p) {c : WriteCall w} (hc : c.Repeatable) :
    ∃ outcome p', c.make p = (outcome, p') ∧ (outcome.isOk = true → outcome = .ok c.value?) ∧
      Owes marked (if outcome.isOk then c.extend b else b) (n + c.width)
        (fs ++ (failure? (c, outcome)).toList) (c, outcome) p' := by
  rcases hmake : c.make p with ⟨failure | value, p'⟩
  · refine ⟨_, _, rfl, by simp [Except.isOk, Except.toBool], ?_⟩
    cases c with
    | bit x => exact absurd hc id
    | bits x k => exact h.owes_bits hc hmake
    | flush => exact h.owes_flush hmake
  · have hok : value = c.value? ∧ Packs (TookAmid fs) marked (c.extend b) (n + c.width) p' := by
      rcases h.make_asksOnce hc.inRange with ⟨-, q, hq, hpacks⟩ | ⟨x, -, hok, herror⟩
      · rw [hmake, Prod.mk.injEq, Except.ok.injEq] at hq
        obtain ⟨rfl, rfl⟩ := hq
        exact ⟨rfl, hpacks⟩
      · rcases hwrite : WordSink.write p.sink x with ⟨failure | _, l'⟩
        · obtain ⟨q, hq, -⟩ := herror failure l' hwrite
          simp [hmake] at hq
        · obtain ⟨q, hq, hpacks⟩ := hok l' hwrite (h.sink.write_ok hwrite)
          rw [hmake, Prod.mk.injEq, Except.ok.injEq] at hq
          obtain ⟨rfl, rfl⟩ := hq
          exact ⟨rfl, hpacks⟩
    obtain ⟨rfl, hpacks⟩ := hok
    refine ⟨_, _, rfl, fun _ => rfl, ?_⟩
    rw [failure?, Option.toList_none, List.append_nil]
    exact .nothing hpacks

/-- The next attempt is that of a packer that has just the bits. -/
theorem Owes.make_eq {m : Made w} (h : Owes marked b n fs m p) {c : WriteCall w}
    (hc : m.2.isOk = true ∨ c = m.1) :
    ∃ q, Packs (TookAmid fs) marked b n q ∧ c.make p = c.make q := by
  cases h with
  | nothing h => exact ⟨p, h, rfl⟩
  | again h _ heq =>
    rcases hc with hok | rfl
    · simp [Except.isOk, Except.toBool] at hok
    · exact ⟨_, h, heq⟩

/-- And so are all that follow. -/
theorem Owes.run {m : Made w} (h : Owes marked b n fs m p) {attempts : List (WriteCall w)}
    (hcalls : ∀ c ∈ attempts, c.Repeatable)
    (hinsists : (m :: attempts.zip (WriteCall.run p attempts).1).IsChain Insists) :
    (∀ m' ∈ attempts.zip (WriteCall.run p attempts).1, m'.2.isOk = true → m'.2 = .ok m'.1.value?) ∧
      Owes marked
        (((attempts.zip (WriteCall.run p attempts).1).filterMap granted?).foldl WriteCall.extend b)
        (n + ((attempts.zip (WriteCall.run p attempts).1).map fun m' => m'.1.width).sum)
        (fs ++ (attempts.zip (WriteCall.run p attempts).1).filterMap failure?)
        ((attempts.zip (WriteCall.run p attempts).1).getLastD m) (WriteCall.run p attempts).2 := by
  -- the last attempt so far goes along with the bits
  induction attempts generalizing b n fs m p with
  | nil =>
    refine ⟨by simp, ?_⟩
    rw [List.zip_nil_left, List.filterMap_nil, List.filterMap_nil, List.append_nil]
    exact h
  | cons c attempts ih =>
    have hc : m.2.isOk = true ∨ c = m.1 := (List.isChain_cons_cons.mp hinsists).1
    obtain ⟨q, hq, heq⟩ := h.make_eq hc
    obtain ⟨outcome, p', hmake, hvalue, howes⟩ := hq.owes (hcalls c List.mem_cons_self)
    rw [WriteCall.run_cons (heq.trans hmake)] at hinsists ⊢
    obtain ⟨hvalues, hrest⟩ := ih howes (fun c' hc' => hcalls c' (List.mem_cons_of_mem c hc'))
      (List.isChain_cons_cons.mp hinsists).2
    refine ⟨?_, ?_⟩
    · intro m' hm'
      rcases List.mem_cons.mp hm' with rfl | hm'
      · exact hvalue
      · exact hvalues m' hm'
    · rw [Nat.add_assoc, List.append_assoc] at hrest
      rw [List.zip_cons_cons, List.getLastD_cons]
      cases outcome with
      | ok value => exact hrest
      | error failure => exact hrest

theorem Owes.failures_eq {m : Made w} (h : Owes marked b n fs m p) : p.sink.failures = fs := by
  cases h with
  | nothing h => exact h.sink.2
  | again h hsink _ => exact hsink ▸ h.sink.2

theorem Owes.packs {m : Made w} (h : Owes marked b n fs m p) (hm : m.2.isOk = true) :
    Packs (TookAmid fs) marked b n p := by
  cases h with
  | nothing h => exact h
  | again => simp [Except.isOk, Except.toBool] at hm

end OneAttempt

/-! ### All attempts -/

/-- A close during which the sink does not fail. -/
theorem Packs.finish_taken {marked : Bool} {b : List Bool} {n : Nat}
    {fs : List (Failure StreamError)} {p : Packer w (Logged w κ)}
    (h : Packs (TookAmid fs) marked b n p) (e : Closing) :
    ∃ log, (p.finish e).2.log = p.sink.log ++ log ∧ ((∀ entry ∈ log, entry.2 = .ok ()) →
      (p.finish e).1 = .ok () ∧ (p.finish e).2.taken = layout marked b) := by
  have hattempt := close_eq_attempt h.closed fun _ => Nat.le_of_lt h.pos_lt
  obtain ⟨log, hlog, -, -, hfail⟩ :=
    attempt_log p.sink (p.closingWords.map .write ++ [.flush])
  have hall := attempt_log_ok hfail
  rw [← hattempt] at hlog hall
  refine ⟨log, by rw [finish_sink, hlog], ?_⟩
  intro hok
  have hclose : p.close = (.ok (), p.close.2) := Prod.ext (hall.mpr hok) rfl
  rw [finish_eq hclose e]
  refine ⟨rfl, ?_⟩
  rw [taken_close h.closed (Nat.le_of_lt h.pos_lt) h.sink.1 hclose, h.closingWords_eq]
  rfl

/-- **Refused calls may be made again.** A client makes groups and flushes, and each that fails it
makes again.  Whatever sink there is and however often it fails, what the client is told are the
failures of the sink, and none of the packer's own.  Whenever the last attempt has succeeded, the
sink has taken the words that one takes which never fails, the position is the same, and the number
of bits written is larger by the widths of the attempts that failed; and if the sink does not fail
while the packer is closed, then closing succeeds, and the sink has taken the same words at the
end. -/
theorem repeats_until_taken {τ : Type} [WordSink τ w] {t : τ} (ht : Unfailing t) (s : κ)
    (marked : Bool) (attempts : List (WriteCall w)) (hcalls : ∀ c ∈ attempts, c.Repeatable) :
    let done := WriteCall.run ({ sink := { sink := s }, marked } : Packer w (Logged w κ)) attempts
    let made := attempts.zip done.1
    let steady := WriteCall.run (recording w marked t) (made.filterMap granted?)
    made.IsChain Insists →
      made.filterMap failure? = done.2.sink.failures ∧
      (∀ m ∈ made, m.2.isOk = true → m.2 = .ok m.1.value?) ∧
      ((∀ m ∈ made.getLast?, m.2.isOk = true) →
        done.2.sink.taken = steady.2.sink.words ∧
        BitWriter.posInWord done.2 = BitWriter.posInWord steady.2 ∧
        BitWriter.bitsWritten done.2
          = BitWriter.bitsWritten steady.2 + ((made.filterMap repelled?).map WriteCall.width).sum ∧
        ∀ e : Closing, ∃ log, (done.2.finish e).2.log = done.2.sink.log ++ log ∧
          ((∀ entry ∈ log, entry.2 = .ok ()) →
            (done.2.finish e).1 = .ok () ∧
            (done.2.finish e).2.taken = (steady.2.finish e).2.words)) := by
  intro done made steady hinsists
  -- before the first attempt nothing is owed
  let before : Made w := (.flush, .ok none)
  have hnew : Owes marked [] 0 [] before
      ({ sink := { sink := s }, marked } : Packer w (Logged w κ)) :=
    .nothing (packs_new ⟨rfl, rfl⟩ marked)
  have hbefore : (before :: made).IsChain Insists :=
    List.isChain_cons.mpr ⟨fun _ _ => .inl rfl, hinsists⟩
  obtain ⟨hvalues, hrun⟩ := hnew.run hcalls hbefore
  have howes : Owes marked (WriteCall.stream (made.filterMap granted?))
      (made.map fun m => m.1.width).sum (made.filterMap failure?)
      (made.getLastD before) done.2 := by
    rwa [Nat.zero_add, List.nil_append] at hrun
  refine ⟨howes.failures_eq.symm, hvalues, fun hlast => ?_⟩
  have hpacks := howes.packs (by
    rw [List.getLastD_eq_getLast?]
    cases hmade : made.getLast? with
    | none => rfl
    | some m => exact hlast m hmade)
  have hgranted : ∀ c ∈ made.filterMap granted?, c.InRange :=
    fun c hc => (hcalls c (mem_of_mem_granted hc)).inRange
  obtain ⟨-, hsteady⟩ := packs_run_recording ht marked hgranted
  refine ⟨?_, ?_, ?_, ?_⟩
  · have htook : done.2.sink.Took _ := hpacks.sink.1
    rw [Took, SinkCall.filterMap_word?_map_write] at htook
    rw [htook, Recorded.words, hsteady.sink.1, SinkCall.filterMap_word?_map_write]
  · exact hpacks.pos.trans hsteady.pos.symm
  · show done.2.written = steady.2.written + _
    rw [hpacks.written, hsteady.written, sum_width_made]
  · intro e
    obtain ⟨log, hlog, hclosed⟩ := hpacks.finish_taken e
    refine ⟨log, hlog, fun hok => ⟨(hclosed hok).1, ?_⟩⟩
    rw [(hclosed hok).2, words_finish_run_recording ht marked hgranted e]

/-- A group across the first word's end, made three times on a device that is busy twice. -/
theorem repeats_until_taken_busy :
    let attempts : List (WriteCall .w8) :=
      [.bits 0x16 5, .bits 0x3f 6, .bits 0x3f 6, .bits 0x3f 6, .flush]
    let done := WriteCall.run ({ sink := { sink := busy 2 } } : Packer .w8 (Logged .w8 _)) attempts
    let made := attempts.zip done.1
    let steady := WriteCall.run (recording .w8 true ({} : WordBuffer .w8)) (made.filterMap granted?)
    Unfailing ({} : WordBuffer .w8) ∧ (∀ c ∈ attempts, c.Repeatable) ∧ made.IsChain Insists ∧
      (∀ m ∈ made.getLast?, m.2.isOk = true) ∧ done.2.sink.failures.length = 2 ∧
      BitWriter.bitsWritten done.2 = BitWriter.bitsWritten steady.2 + 12 ∧
      (done.2.finish .close).1 = .ok () ∧
      (done.2.finish .close).2.taken = (steady.2.finish .close).2.words ∧
      (steady.2.finish .close).2.words = [0xf6, 0x07, 0x70] := by
  intro attempts done made steady
  have hcalls : ∀ c ∈ attempts, c.Repeatable := by decide
  have hinsists : made.IsChain Insists := by decide
  have hlast : ∀ m ∈ made.getLast?, m.2.isOk = true := by decide
  have hrepelled : ((made.filterMap repelled?).map WriteCall.width).sum = 12 := by rfl
  obtain ⟨hfailures, -, hsame⟩ :=
    repeats_until_taken (WordBuffer.unfailing {}) (busy 2) true attempts hcalls hinsists
  obtain ⟨-, -, hwritten, hfinish⟩ := hsame hlast
  obtain ⟨log, hlog, hclosed⟩ := hfinish .close
  -- the mark in a word of its own, and the flush
  have hends : log = [(.write 0x70, .ok ()), (.flush, .ok ())] := by
    have hboth : done.2.sink.log ++ [(.write 0x70, .ok ()), (.flush, .ok ())]
        = done.2.sink.log ++ log := by
      rw [← hlog]
      decide
    exact (List.append_cancel_left hboth).symm
  obtain ⟨hok, htaken⟩ := hclosed (by rw [hends]; decide)
  exact ⟨WordBuffer.unfailing _, hcalls, hinsists, hlast, by rw [← hfailures]; rfl,
    by rw [hwritten, hrepelled], hok, htaken, by decide⟩

end Packer

end PackedBits
