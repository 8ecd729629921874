import PackedBits.ByteStream.Script
import PackedBits.Proofs.BitStream.Closing
import PackedBits.Proofs.BitStream.Unpacker
import PackedBits.WordStream.Wire

/-!
# Writing to a sink that refuses

A write that fills up the current word has put its bits there before it asks the sink, and a refusal
leaves them there.  What that means for the stream depends on what is called next.

* The same group again finds its own bits in place, and puts them there again: nothing is changed by
  the refusals, however many there were.  A flush that is refused has put nothing, and neither has a
  group of a width out of range.
* Any other call mixes its bits with those left behind, and a single bit that was refused is in the
  stream as if it had been accepted.

So a client may repeat the group that was refused until it is taken; histories of this kind are
`Patient`.  After such a history the packer `Stands` where it would without the refusals, but for
what the very last call may have left behind, and a close that succeeds makes a correct stream
exactly if that is `Harmless` (`close_after_refusals`).  Without patience the stream is not what was
accepted, even though the close succeeds (`close_after_refusal_wrong`).
-/

namespace PackedBits.Packer

open Word EndMark Layout Logged

variable {w : Width}

/-! ### Histories with refusals -/

/-- A call and its outcome. -/
abbrev Made (w : Width) : Type := WriteCall w × Outcome StreamError (Option Nat)

/-- The call, if it succeeded. -/
def granted? : Made w → Option (WriteCall w)
  | (c, .ok _) => some c
  | (_, .error _) => none

/-- The call, if it failed and may have put bits into the current word. -/
def pending? : Made w → Option (WriteCall w)
  | (.bit x, .error _) => some (.bit x)
  | (.bits x n, .error _) => if 0 < n ∧ n ≤ w.bits then some (.bits x n) else none
  | _ => none

/-- What is pending after some calls. -/
def pendingAfter (before : Option (WriteCall w)) (made : List (Made w)) : Option (WriteCall w) :=
  made.foldl (fun _ m => pending? m) before

/-- Whether a call may follow what is pending: a group is to be made again. -/
def Resumes : Option (WriteCall w) → WriteCall w → Prop
  | none, _ => True
  | some (.bits x n), c => c = .bits x n
  | some _, _ => False

instance (before : Option (WriteCall w)) (c : WriteCall w) : Decidable (Resumes before c) :=
  match before with
  | none => isTrue trivial
  | some (.bits x n) => inferInstanceAs (Decidable (c = .bits x n))
  | some (.bit _) => isFalse id
  | some .flush => isFalse id

/-- Whether every call may follow what those before it have left pending. -/
def Patient : Option (WriteCall w) → List (Made w) → Prop
  | _, [] => True
  | before, m :: made => Resumes before m.1 ∧ Patient (pending? m) made

instance decidablePatient (before : Option (WriteCall w)) :
    (made : List (Made w)) → Decidable (Patient before made)
  | [] => isTrue trivial
  | m :: made =>
    have := decidablePatient (pending? m) made
    inferInstanceAs (Decidable (Resumes before m.1 ∧ Patient (pending? m) made))

/-- Whether closing leaves out what is pending behind the bits `b`.  A group does not show where no
bits of the last word count, or where the mark stands apart from them, or where the group leaves the
field of the mark as it is. -/
def Harmless (b : List Bool) : Option (WriteCall w) → Prop
  | none => True
  | some (.bits x n) =>
    let r := b.length % w.bits
    r = 0 ∨ payloadBits w ≤ r ∨
      decode (ofBits (remainder w b ++ x.lowBits n) ||| encode r : Word w) = r
  | some _ => False

variable {κ : Type} [WordSink κ w]

/-- An open packer of a marked stream that has got the bits `b`, but for what the call that is
pending has left behind: the bits of a group above those of the current word, or a single bit at its
top. -/
inductive Stands (b : List Bool) : Option (WriteCall w) → Packer w (Logged w κ) → Prop where
  | clear {n : Nat} {p : Packer w (Logged w κ)} : Packs Took true b n p → Stands b none p
  | group {n : Nat} {p : Packer w (Logged w κ)} {x : Word w} {k : Nat} :
    Packs Took true b n p → 0 < k ∧ k ≤ w.bits → w.bits ≤ p.pos + k →
      Stands b (some (.bits x k)) { p with word := p.word ||| ofBits (x.lowBits k) <<< p.pos }
  | bit {n : Nat} {p : Packer w (Logged w κ)} {x : Bool} :
    Packs Took true b n p → p.pos + 1 = w.bits →
      Stands b (some (.bit x))
        { p with word := p.word ||| ofBits [x] <<< p.pos, pos := w.bits }

/-! ### One call -/

section OneCall

variable {b : List Bool} {n : Nat} {p : Packer w (Logged w κ)}

/-- A packer whose sink has been called for nothing, and which may have counted bits. -/
theorem Packs.resink {κ κ' : Type} {R : κ → List (SinkCall w) → Prop}
    {R' : κ' → List (SinkCall w) → Prop} {marked : Bool} {p : Packer w κ} (h : Packs R marked b n p)
    {s' : κ'} (hs' : R' s' ((groups b).map .write)) (m : Nat) :
    Packs R' marked b m { p with sink := s', written := m } where
  word := h.word
  pos := h.pos
  emitted := h.emitted
  sink := hs'
  closed := h.closed
  strict := h.strict
  marked := h.marked
  written := rfl

theorem Packs.stands_bit (h : Packs Took true b n p) (x : Bool) :
    ∃ outcome p', (WriteCall.bit x).make p = (outcome, p') ∧
      Stands (if outcome.isOk then b ++ [x] else b) (pending? (.bit x, outcome)) p' := by
  have hmake : (WriteCall.bit x).make p = ((p.writeBit x).1.map fun _ => none, (p.writeBit x).2) :=
    rfl
  rw [hmake, writeBit_of_lt h.closed h.pos_lt]
  by_cases hfull : p.pos + 1 = w.bits
  · simp only [hfull, ↓reduceIte]
    rcases hwrite : WordSink.write p.sink (p.word ||| ofBits [x] <<< p.pos) with ⟨failure | _, l'⟩
    · rw [emit_of_error (p := { p with word := p.word ||| ofBits [x] <<< p.pos, pos := w.bits,
                                       written := p.written + 1 }) hwrite]
      -- the bit is in the word, which is full and yet not emitted
      exact ⟨_, _, rfl, .bit (h.resink (h.sink.call_error hwrite) (p.written + 1)) hfull⟩
    · rw [emit_of_ok (p := { p with word := p.word ||| ofBits [x] <<< p.pos, pos := w.bits,
                                    written := p.written + 1 }) hwrite]
      -- the word has been emitted, and nothing is left over
      have hspace : w.bits - p.pos = 1 := by omega
      have hpacks := h.put_full (c := [x]) 1 (by simp; omega) w.bits_pos (h.sink.call_ok hwrite)
      rw [hspace] at hpacks
      simp only [List.length_singleton, List.drop_succ_cons, List.drop_nil, ofBits_nil,
        Nat.sub_self] at hpacks
      exact ⟨_, _, rfl, .clear hpacks⟩
  · simp only [hfull, ↓reduceIte]
    exact ⟨_, _, rfl, .clear (h.put 1 (by rw [List.length_singleton]; have := h.pos_lt; omega))⟩

theorem Packs.stands_bits (h : Packs Took true b n p) (x : Word w) (k : Nat) :
    ∃ outcome p', (WriteCall.bits x k).make p = (outcome, p') ∧
      Stands (if outcome.isOk then b ++ x.lowBits k else b) (pending? (.bits x k, outcome)) p' := by
  have hmake : (WriteCall.bits x k).make p = ((p.writeBits x k).1.map some, (p.writeBits x k).2) :=
    rfl
  have hlen := length_lowBits x k
  have hpos := h.pos_lt
  rw [hmake]
  by_cases hk : 0 < k ∧ k ≤ w.bits
  · by_cases hroom : p.pos + k < w.bits
    · rw [writeBits_of_room h.closed (by simp [h.strict]) hk hroom]
      have hput := h.put (c := x.lowBits k) k (by omega)
      rw [hlen] at hput
      exact ⟨_, _, rfl, .clear hput⟩
    · have hfull := Nat.not_lt.mp hroom
      rw [writeBits_of_full h.closed (by simp [h.strict]) hk hpos hfull]
      rcases hwrite : WordSink.write p.sink (p.word ||| ofBits (x.lowBits k) <<< p.pos)
        with ⟨failure | _, l'⟩
      · rw [emit_of_error (p := { p with word := p.word ||| ofBits (x.lowBits k) <<< p.pos,
                                         written := p.written + k }) hwrite]
        -- what the word has room for is in it, and the position is where it was
        refine ⟨_, _, rfl, ?_⟩
        have hpending : pending? (WriteCall.bits x k, .error failure) = some (.bits x k) :=
          if_pos hk
        show Stands b (pending? (WriteCall.bits x k, .error failure)) _
        rw [hpending]
        exact .group (h.resink (h.sink.call_error hwrite) (p.written + k)) hk hfull
      · rw [emit_of_ok (p := { p with word := p.word ||| ofBits (x.lowBits k) <<< p.pos,
                                      written := p.written + k }) hwrite]
        have hpacks := h.put_full k (c := x.lowBits k) (by omega) (by omega)
          (h.sink.call_ok hwrite)
        rw [hlen] at hpacks
        exact ⟨_, _, rfl, .clear hpacks⟩
  · -- the width is a fault, and nothing is put
    have hfault : p.writeBits x k = (.error (.fault (.writeWidth w.bits k)), p) := by
      unfold Packer.writeBits
      rw [if_pos hk]
    have hpending : pending? (WriteCall.bits x k, .error (.fault (.writeWidth w.bits k)))
        = (none : Option (WriteCall w)) := if_neg hk
    rw [hfault]
    refine ⟨_, _, rfl, ?_⟩
    show Stands b (pending? (WriteCall.bits x k, .error (.fault (.writeWidth w.bits k)))) p
    rw [hpending]
    exact .clear h

theorem Packs.stands_flush (h : Packs Took true b n p) :
    ∃ outcome p', WriteCall.flush.make p = (outcome, p') ∧
      Stands (if outcome.isOk then padded w b else b) (pending? (.flush, outcome)) p' := by
  have hmake : WriteCall.flush.make p = ((p.flush).1.map fun _ => none, (p.flush).2) := rfl
  rw [hmake]
  rcases Nat.eq_zero_or_pos p.pos with h0 | hpos
  · rw [flush_of_zero h0]
    refine ⟨_, _, rfl, .clear (n := n) ?_⟩
    have hmod : b.length % w.bits = 0 := by rw [← h.pos, h0]
    show Packs Took true (padded w b) n p
    rwa [padded_of_mod_eq_zero hmod]
  · rw [flush_of_pos hpos]
    rcases hwrite : WordSink.write p.sink p.word with ⟨failure | _, l'⟩
    · -- a flush puts nothing, and so its refusal leaves nothing behind
      rw [emit_of_error hwrite]
      exact ⟨_, _, rfl, .clear (h.resink (h.sink.call_error hwrite) p.written)⟩
    · rw [emit_of_ok hwrite]
      exact ⟨_, _, rfl, .clear ⟨h.pad hpos (h.sink.call_ok hwrite), h.closed, h.strict, h.marked,
        h.written⟩⟩

/-- A group that is made again does what it would have done without what it has left behind. -/
theorem Packs.writeBits_again {κ : Type} [WordSink κ w] {R : κ → List (SinkCall w) → Prop}
    {marked : Bool} {p : Packer w κ} (h : Packs R marked b n p) {x : Word w} {k : Nat}
    (hk : 0 < k ∧ k ≤ w.bits) (hfull : w.bits ≤ p.pos + k) :
    ({ p with word := p.word ||| ofBits (x.lowBits k) <<< p.pos } : Packer w κ).writeBits x k
      = p.writeBits x k := by
  have hpos := h.pos_lt
  have hvalue : ¬(p.strict = true ∧ x &&& ~~~lowOnes k ≠ 0) := by simp [h.strict]
  rw [writeBits_of_full h.closed hvalue hk hpos hfull,
    writeBits_of_full (p := { p with word := p.word ||| ofBits (x.lowBits k) <<< p.pos }) h.closed
      hvalue hk hpos hfull]
  -- its bits are in place already
  dsimp only
  rw [BitVec.or_assoc, BitVec.or_self]

/-- A call that may follow what is pending. -/
theorem Stands.make {before : Option (WriteCall w)} (h : Stands b before p) {c : WriteCall w}
    (hc : Resumes before c) :
    ∃ outcome p', c.make p = (outcome, p') ∧
      Stands (if outcome.isOk then c.extend b else b) (pending? (c, outcome)) p' := by
  cases h with
  | clear h =>
    cases c with
    | bit x => exact h.stands_bit x
    | bits x k => exact h.stands_bits x k
    | flush => exact h.stands_flush
  | @group n p x k h hk hfull =>
    have hsame : c = .bits x k := hc
    subst hsame
    obtain ⟨outcome, p', hmake, hp'⟩ := h.stands_bits x k
    refine ⟨outcome, p', ?_, hp'⟩
    rw [← hmake]
    simp only [WriteCall.make, BitWriter.writeBits, h.writeBits_again hk hfull]
  | bit h hfull =>
    -- nothing may follow a single bit that was refused
    exact absurd hc id

/-- And so does any number of calls. -/
theorem Stands.run {before : Option (WriteCall w)} (h : Stands b before p)
    {calls : List (WriteCall w)} (hpatient : Patient before (calls.zip (WriteCall.run p calls).1)) :
    Stands (((calls.zip (WriteCall.run p calls).1).filterMap granted?).foldl WriteCall.extend b)
      (pendingAfter before (calls.zip (WriteCall.run p calls).1)) (WriteCall.run p calls).2 := by
  -- what is pending goes along with the bits
  induction calls generalizing b before p with
  | nil => exact h
  | cons c calls ih =>
    have hc : Resumes before c := hpatient.1
    obtain ⟨outcome, p', hmake, hp'⟩ := h.make hc
    rw [WriteCall.run_cons hmake] at hpatient ⊢
    have hstands := ih hp' hpatient.2
    cases outcome with
    | ok value => exact hstands
    | error failure => exact hstands

end OneCall

/-! ### Closing -/

/-- The words taken by a sink when a close succeeds. -/
theorem taken_close {b : List Bool} {p p' : Packer w (Logged w κ)} (hopen : p.closed = false)
    (hpos : p.pos ≤ w.bits) (hsink : p.sink.Took ((groups b).map .write))
    (hclose : p.close = (.ok (), p')) : p'.sink.taken = groups b ++ p.closingWords := by
  have hattempt := close_eq_attempt hopen fun _ => hpos
  rw [hclose] at hattempt
  have htook := hsink.attempt_ok hattempt.symm
  rw [Took, List.filterMap_append, List.filterMap_append, SinkCall.filterMap_word?_map_write,
    SinkCall.filterMap_word?_map_write] at htook
  rw [htook]
  simp [SinkCall.word?]

omit [WordSink κ w] in
/-- What closing makes of a current word that has other bits above those that count. -/
theorem validBits_closingWords {b c : List Bool} {p : Packer w (Logged w κ)}
    (hword : p.word = ofBits (remainder w b ++ c)) (hpos : p.pos = b.length % w.bits)
    (hemitted : p.emitted = true ↔ (groups b : List (Word w)) ≠ []) (hmarked : p.marked = true) :
    validBits (groups b ++ p.closingWords) = b ↔
      p.pos = 0 ∨ payloadBits w ≤ p.pos ∨ decode (p.word ||| encode p.pos) = p.pos := by
  have hrem : (remainder w b).length = b.length % w.bits := Word.length_remainder b
  have hlt := Nat.mod_lt b.length w.bits_pos
  have hlow : p.word.lowBits (b.length % w.bits) = remainder w b := by
    rw [hword, ← hrem]
    exact lowBits_ofBits_append (by omega) c
  have hpayload := payloadBits_eq w
  unfold closingWords
  rw [if_pos hmarked, hpos]
  rcases Nat.eq_zero_or_pos (b.length % w.bits) with h0 | hpos'
  · -- none of the bits of the current word count
    refine iff_of_true ?_ (Or.inl h0)
    by_cases hgroups : (groups b : List (Word w)) = []
    · have hb := eq_nil_of_groups_eq_nil hgroups h0
      subst hb
      simp [hemitted]
    · have hb : b ≠ [] := by
        rintro rfl
        exact hgroups groups_nil
      have hbegun := hemitted.mpr hgroups
      rw [if_pos (Or.inr hbegun), if_neg (by omega), if_neg (by omega)]
      exact validBits_groups_full hb h0 p.word
  · simp only [hpos', true_or, ↓reduceIte]
    by_cases hle : payloadBits w ≤ b.length % w.bits
    · rw [if_pos hle]
      exact iff_of_true (validBits_groups_apart hle hlow) (Or.inr (Or.inl hle))
    · rw [if_neg hle, validBits_groups_beside_iff hpos' (Nat.not_le.mp hle) hlow]
      simp [hle, Nat.ne_of_gt hpos']

/-- A close that succeeds makes a correct stream exactly if what is pending is harmless. -/
theorem Stands.close {b : List Bool} {before : Option (WriteCall w)} {p p' : Packer w (Logged w κ)}
    (h : Stands b before p) (hclose : p.close = (.ok (), p')) :
    validBits p'.sink.taken = b ↔ Harmless b before := by
  cases h with
  | clear h =>
    rw [taken_close h.closed (Nat.le_of_lt h.pos_lt) h.sink hclose,
      validBits_closingWords (c := []) (by rw [List.append_nil, h.word]) h.pos h.emitted h.marked]
    refine iff_of_true ?_ trivial
    rcases Nat.eq_zero_or_pos p.pos with h0 | hpos
    · exact Or.inl h0
    rcases Nat.lt_or_ge p.pos (payloadBits w) with hlt | hle
    · -- nothing but the remainder is beside the mark
      have hlow : p.word.lowBits p.pos = remainder w b := by
        rw [h.word, ← h.length_remainder]
        exact lowBits_ofBits (Nat.le_of_lt (length_remainder_lt b))
      exact Or.inr (Or.inr (decode_beside (by rw [hlow, h.word]) hpos hlt))
    · exact Or.inr (Or.inl hle)
  | @group n p x k h hk hfull =>
    have htaken := taken_close
      (p := { p with word := p.word ||| ofBits (x.lowBits k) <<< p.pos }) h.closed
      (Nat.le_of_lt h.pos_lt) h.sink hclose
    have hvalid := validBits_closingWords
      (p := { p with word := p.word ||| ofBits (x.lowBits k) <<< p.pos }) (h.word_or _) h.pos
      h.emitted h.marked
    rw [htaken, hvalid]
    dsimp only
    rw [h.word_or, h.pos]
    rfl
  | @bit n p x h hfull =>
    have htaken := taken_close
      (p := { p with word := p.word ||| ofBits [x] <<< p.pos, pos := w.bits }) h.closed
      (Nat.le_refl _) h.sink hclose
    have hwords : closingWords ({ p with word := p.word ||| ofBits [x] <<< p.pos, pos := w.bits } :
        Packer w (Logged w κ)) = [ofBits (remainder w b ++ [x]), encode w.bits] := by
      have hmarked := h.marked
      unfold closingWords
      simp only [hmarked, w.bits_pos, true_or, ↓reduceIte, Nat.le_of_lt (payloadBits_lt w),
        h.word_or]
    -- the word counts in full, and the bit that was refused with it
    have hdec := decode_encode (w := w) ⟨w.bits_pos, Nat.le_refl _⟩
    have hlen : (remainder w b ++ [x]).length = w.bits := by
      rw [List.length_append, h.length_remainder, List.length_singleton, hfull]
    have hbits :
        (ofBits (remainder w b ++ [x]) : Word w).lowBits w.bits = remainder w b ++ [x] := by
      rw [← hlen]
      exact lowBits_ofBits (Nat.le_of_eq hlen)
    have hvalid : validBits p'.sink.taken = b ++ [x] := by
      rw [htaken, hwords,
        validBits_concat_of_le _ _ (by rw [hdec]; exact Nat.le_of_lt (payloadBits_lt w)), hdec,
        hbits, ← List.append_assoc, joinBits_groups]
    rw [hvalid]
    exact iff_of_false (by simp) id

/-- **Closing after refusals.** Whatever the sink refuses, as long as a group that was refused is
made again until it is taken, and a single bit that was refused is the last call: if closing
succeeds, then the words that the sink has taken read back as the bits of the calls that succeeded
if and only if what is pending is harmless, and in particular if nothing is. -/
theorem close_after_refusals (s : κ) (calls : List (WriteCall w)) :
    let done := WriteCall.run ({ sink := { sink := s } } : Packer w (Logged w κ)) calls
    let made := calls.zip done.1
    Patient none made → done.2.close.1 = .ok () →
      (Unpacker.Gives ({ words := done.2.close.2.sink.taken } : Tape w)
          (WriteCall.stream (made.filterMap granted?)) ↔
        Harmless (WriteCall.stream (made.filterMap granted?)) (pendingAfter none made)) := by
  intro done made hpatient hclose
  have htook : Took ({ sink := s } : Logged w κ) [] := rfl
  have hnew := packs_new htook true
  have hstands :
      Stands (WriteCall.stream (made.filterMap granted?)) (pendingAfter none made) done.2 :=
    Stands.run (.clear hnew) hpatient
  have hclosed : done.2.close = (.ok (), done.2.close.2) := Prod.ext hclose rfl
  rw [← hstands.close hclosed]
  have hgives := Unpacker.Gives.of_serves (Tape.serves done.2.close.2.sink.taken)
  constructor
  · exact fun h => hgives.unique h
  · intro h
    rwa [h] at hgives

/-- A device that refuses so many words at first, being busy. -/
def busy (refusals : Nat) : Wire .w8 ScriptSink where
  bytes := { writes := .replicate refusals (.fail (.own (.named "WouldBlock") "later")) }

/-- A group that is made three times, twice refused, is in the stream once. -/
theorem close_after_two_refusals :
    let calls : List (WriteCall .w8) := [.bit true, .bits 0x3f 8, .bits 0x3f 8, .bits 0x3f 8]
    let done := WriteCall.run ({ sink := { sink := busy 2 } } : Packer .w8 (Logged .w8 _)) calls
    Patient none (calls.zip done.1) ∧ done.2.close.1 = .ok () ∧
      Unpacker.Gives ({ words := done.2.close.2.sink.taken } : Tape .w8)
        [true, true, true, true, true, true, true, false, false] := by
  intro calls done
  have hpatient : Patient none (calls.zip done.1) := by decide
  have hclose : done.2.close.1 = .ok () := by rfl
  have hstream : WriteCall.stream ((calls.zip done.1).filterMap granted?)
      = [true, true, true, true, true, true, true, false, false] := by rfl
  refine ⟨hpatient, hclose, ?_⟩
  rw [← hstream]
  exact (close_after_refusals (busy 2) calls hpatient hclose).mpr trivial

/-- A group that was refused is given up, and the close behind it succeeds.  The one bit that was
accepted is read back as eight, since the group is where the mark should be. -/
theorem close_after_refusal_wrong :
    let calls : List (WriteCall .w8) := [.bit true, .bits 0xff 8]
    let done := WriteCall.run ({ sink := { sink := busy 1 } } : Packer .w8 (Logged .w8 _)) calls
    WriteCall.stream ((calls.zip done.1).filterMap granted?) = [true] ∧ done.2.close.1 = .ok () ∧
      Unpacker.Gives ({ words := done.2.close.2.sink.taken } : Tape .w8) (List.replicate 8 true) ∧
      ¬Unpacker.Gives ({ words := done.2.close.2.sink.taken } : Tape .w8) [true] := by
  intro calls done
  have hgives := Unpacker.Gives.of_serves (Tape.serves done.2.close.2.sink.taken)
  have hread : validBits done.2.close.2.sink.taken = List.replicate 8 true := by decide
  rw [hread] at hgives
  refine ⟨by rfl, by rfl, hgives, ?_⟩
  intro hone
  exact absurd (hgives.unique hone) (by decide)

end PackedBits.Packer
