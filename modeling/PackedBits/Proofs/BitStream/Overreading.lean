import PackedBits.Proofs.BitStream.Pace
import PackedBits.Proofs.BitStream.Packer

/-!
# Reading behind the last bit

A marked unpacker knows where its bits end, but a group is only looked at word by word.  If fewer
bits are left than a group asks for, then it depends on the place of the last bit whether the group
is given out.

* The last word has positions for all of the group.  Then it is given out, and what comes behind the
  last bit are other bits of that word.
* It has not.  Then another word would have to begin, and there is none: the group is a fault, found
  before anything has been changed.

A group that begins in the word before the last is always of the first kind.  So what decides is
where the word of the last bit ends: a group is given out up to there, which is `w.bits` times the
number of words that the bits need, wherever the mark is (`Measured.overread`).

After a group of the first kind the unpacker is at its end, and every further read is a fault that
changes nothing; so whatever has been read, an unpacker is either still inside its bits or at its
end (`Stage`).
-/

namespace PackedBits

open Word EndMark Layout

variable {w : Width}

/-- The lowest bits of a group are among those of a larger one. -/
theorem Word.lowBits_and_lowOnes (x : Word w) {k n : Nat} (h : k ≤ n) :
    (x &&& lowOnes n).lowBits k = x.lowBits k := by
  apply List.ext_getElem?
  intro i
  rw [getElem?_lowBits, getElem?_lowBits]
  by_cases hi : i < k
  · rw [if_pos hi, if_pos hi, BitVec.getLsbD_and, getLsbD_lowOnes]
    by_cases hw : i < w.bits
    · simp [hw, Nat.lt_of_lt_of_le hi h]
    · simp [BitVec.getLsbD_of_ge x i (Nat.not_lt.mp hw)]
  · rw [if_neg hi, if_neg hi]

namespace Unpacker

variable {σ : Type} [WordSource σ w]

/-! ### At the end -/

section AtEnd

variable {mode : EndMode} {u : Unpacker mode w σ}

theorem readBit_of_atEnd (h : u.atEnd = true) : u.readBit = (.error (.fault .pastEnd), u) := by
  unfold readBit
  rw [if_pos h]

theorem readBits_of_not_range {n : Nat} (hn : ¬(0 < n ∧ n ≤ w.bits)) :
    u.readBits n = (.error (.fault (.readWidth w.bits n)), u) := by
  unfold readBits
  rw [if_pos hn]

/-- The width is looked at first. -/
theorem readBits_of_atEnd (h : u.atEnd = true) (n : Nat) :
    u.readBits n
      = (.error (.fault (if 0 < n ∧ n ≤ w.bits then .pastEnd else .readWidth w.bits n)), u) := by
  by_cases hn : 0 < n ∧ n ≤ w.bits
  · unfold readBits
    rw [if_neg (not_not_intro hn), if_pos h, if_pos hn]
  · rw [readBits_of_not_range hn, if_neg hn]

end AtEnd

variable {u : Unpacker .marked w σ} {bs : List Bool} {n total : Nat}

/-! ### The last word -/

/-- Bits that the current word has positions for are all that it has, and it is the last. -/
theorem Remains.last_of_le (h : Remains u bs) (hbs : bs ≠ []) (hfit : u.pos + bs.length ≤ w.bits) :
    u.lastBits? = some (u.pos + bs.length) := by
  have hvalid := h.valid_le
  obtain ⟨rest, hrest, rfl⟩ := h.split
  cases hrest with
  | @last n hlast =>
    have hn : u.valid = n := by rw [valid, hlast, Option.getD_some]
    have hlt : u.pos < n := by
      rw [List.append_nil, Ne, List.drop_eq_nil_iff, length_lowBits] at hbs
      omega
    rw [hlast, List.append_nil, List.length_drop, length_lowBits, hn]
    congr 1
    omega
  | @more ws hlast hs =>
    have hn : u.valid = w.bits := by rw [valid, hlast, Option.getD_none]
    have hpos := h.pos_le
    have hmore := List.length_pos_iff.mpr (validBits_ne_nil (List.cons_ne_nil u.next ws))
    rw [List.length_append, List.length_drop, length_lowBits, hn] at hfit
    omega

/-- What is above the position are these bits, and others above them. -/
theorem Remains.lowBits_of_le (h : Remains u bs) (hbs : bs ≠ [])
    (hfit : u.pos + bs.length ≤ w.bits) : Word.lowBits (u.word >>> u.pos) bs.length = bs := by
  have hlen := List.length_pos_iff.mpr hbs
  obtain ⟨hgroup, -⟩ := h.group hlen (Nat.le_refl _) hfit
  rw [List.take_length] at hgroup
  rw [← lowBits_and_lowOnes (u.word >>> u.pos) (Nat.le_refl bs.length), hgroup]
  exact lowBits_ofBits (by omega)

/-! ### A group that asks for more -/

/-- The last word has positions for the group. -/
theorem Remains.overread_of_le (h : Remains u bs) (hbs : bs ≠ []) (hn : bs.length ≤ n)
    (hfit : u.pos + n ≤ w.bits) :
    ∃ x u', u.readBits n = (.ok x, u') ∧ x.lowBits bs.length = bs ∧ u'.atEnd = true := by
  have hlen := List.length_pos_iff.mpr hbs
  have hend : u.atEnd = false := Remains.view.atEnd h hbs
  refine ⟨_, _, readBits_of_le ⟨by omega, by omega⟩ hend hfit, ?_, ?_⟩
  · rw [lowBits_and_lowOnes _ hn, h.lowBits_of_le hbs (by omega)]
  · rw [Unpacker.atEnd, h.last_of_le hbs (by omega), Option.any_some, decide_eq_true_iff]
    dsimp only
    omega

/-- The group begins in the word before the last. -/
theorem Remains.overread_of_lt (h : Remains u bs) (hn : bs.length ≤ n) (hw : n ≤ w.bits)
    (hmore : w.bits < u.pos + bs.length) :
    ∃ x u', u.readBits n = (.ok x, u') ∧ x.lowBits bs.length = bs ∧ u'.atEnd = true := by
  have hpos := h.pos_le
  have hbs : bs ≠ [] := by
    rintro rfl
    rw [List.length_nil] at hmore
    omega
  have hend : u.atEnd = false := Remains.view.atEnd h hbs
  have hlow : (bs.take (w.bits - u.pos)).length = w.bits - u.pos := by
    rw [List.length_take]
    omega
  have hlen : (bs.drop (w.bits - u.pos)).length = bs.length - (w.bits - u.pos) := List.length_drop
  obtain ⟨u', hadvance, hpos', hvalue, hu'⟩ := h.advance (by omega)
  have hrest : bs.drop (w.bits - u.pos) ≠ [] := List.ne_nil_of_length_pos (by omega)
  have hread := readBits_of_advance ⟨by omega, hw⟩ hend hpos (by omega) hadvance
  refine ⟨_, _, hread, ?_, ?_⟩
  · -- the value has the bits of both words, and then some of the last
    have hhigh := hu'.lowBits_of_le hrest (by rw [hpos', hlen]; omega)
    rw [hpos', BitVec.ushiftRight_zero, ← take_lowBits u'.word
      (m := n - (w.bits - u.pos)) (by rw [hlen]; omega)] at hhigh
    have hsplit := List.take_append_drop (bs.drop (w.bits - u.pos)).length
      (u'.word.lowBits (n - (w.bits - u.pos)))
    rw [hhigh] at hsplit
    have hall := ofBits_append (w := w) (bs.take (w.bits - u.pos))
      (u'.word.lowBits (n - (w.bits - u.pos)))
    rw [hlow, ← hvalue, ofBits_lowBits, ← hsplit, ← List.append_assoc,
      List.take_append_drop] at hall
    rw [← hall]
    exact lowBits_ofBits_append (by omega) _
  · have hlast := hu'.last_of_le hrest (by rw [hpos', hlen]; omega)
    rw [Unpacker.atEnd, hlast, Option.any_some, decide_eq_true_iff, hpos', hlen]
    dsimp only
    omega

/-- The last word has no positions for the group. -/
theorem Remains.overread_error (h : Remains u bs) (hbs : bs ≠ []) (hn : 0 < n ∧ n ≤ w.bits)
    (hlast : u.pos + bs.length ≤ w.bits) (hcross : w.bits < u.pos + n) :
    u.readBits n = (.error (.fault .pastEnd), u) := by
  have hend : u.atEnd = false := Remains.view.atEnd h hbs
  have hadvance := advance_of_last (h.last_of_le hbs hlast)
  exact readBits_of_advance_error hn hend h.pos_le hcross hadvance

/-! ### The words that the bits need -/

/-- The bits that are left of `total`, with the words begun that the others have needed. -/
def Measured (total : Nat) (u : Unpacker .marked w σ) (bs : List Bool) : Prop :=
  Remains u bs ∧ ∃ a, a * w.bits + u.pos + bs.length = total + w.bits

theorem Measured.view (total : Nat) : View .marked (Measured (w := w) (σ := σ) total) := by
  have htracked := Remains.view.tracked (w := w) (σ := σ) (P := fun _ _ => True)
    (fun _ _ => trivial) total
  simp only [true_and] at htracked
  exact htracked

/-- A group is given out exactly if it ends in the words that the bits need. -/
theorem Measured.overread (h : Measured total u bs) (hbs : bs ≠ []) (hn : 0 < n ∧ n ≤ w.bits)
    (hfew : bs.length ≤ n) :
    (w.bits * ((total + (w.bits - 1)) / w.bits) + bs.length < total + n →
      u.readBits n = (.error (.fault .pastEnd), u)) ∧
    (total + n ≤ w.bits * ((total + (w.bits - 1)) / w.bits) + bs.length →
      ∃ x u', u.readBits n = (.ok x, u') ∧ x.lowBits bs.length = bs ∧ u'.atEnd = true) := by
  obtain ⟨hu, a, hplace⟩ := h
  have hpos := hu.pos_le
  have hlen := List.length_pos_iff.mpr hbs
  rcases Nat.lt_or_ge w.bits (u.pos + bs.length) with hmore | hlast
  · -- the last bit is in a word that has not been begun
    have hplace' : (a + 1) * w.bits + (u.pos + bs.length - w.bits) = total + w.bits := by
      rw [Nat.succ_mul]
      omega
    have hneed := words_begun hplace' (by omega) (by omega)
    rw [hneed, Nat.mul_comm, Nat.succ_mul]
    refine ⟨fun hlimit => ?_, fun _ => hu.overread_of_lt hfew hn.2 hmore⟩
    omega
  · rw [Nat.add_assoc] at hplace
    have hneed := words_begun hplace (by omega) hlast
    rw [hneed, Nat.mul_comm]
    refine ⟨fun hlimit => ?_, fun hlimit => ?_⟩
    · exact hu.overread_error hbs hn hlast (by omega)
    · exact hu.overread_of_le hbs hfew (by omega)

/-! ### Whatever was read -/

/-- Where an unpacker of the bits `b` is when `c` bits have been read: inside them, or at its
end. -/
inductive Stage (b : List Bool) (c : Nat) (u : Unpacker .marked w σ) : Prop where
  | inside : c ≤ b.length → Measured b.length u (b.drop c) → Stage b c u
  | ended : b.length ≤ c → u.atEnd = true → Stage b c u

namespace Stage

variable {b : List Bool} {c : Nat}

theorem atEnd_iff (h : Stage b c u) : u.atEnd = true ↔ b.length ≤ c := by
  cases h with
  | inside hle hu => rw [hu.1.atEnd, List.isEmpty_iff, List.drop_eq_nil_iff]
  | ended hle hend => exact iff_of_true hend hle

/-- Where bits are left. -/
theorem measured (h : Stage b c u) (hlt : c < b.length) :
    Measured b.length u (b.drop c) ∧ b.drop c ≠ [] := by
  have hne : b.drop c ≠ [] := by
    rw [Ne, List.drop_eq_nil_iff]
    omega
  cases h with
  | inside _ hu => exact ⟨hu, hne⟩
  | ended hle _ => omega

/-- A group of more bits than are left. -/
theorem make_overread (h : Stage b c u) (hlt : c < b.length) {n : Nat} (hn : 0 < n ∧ n ≤ w.bits)
    (hfew : b.length < c + n) :
    (ReadCall.bits n).make u = (.error (.fault .pastEnd), u) ∨
      ∃ value u', (ReadCall.bits n).make u = (.ok value, u') ∧ Stage b (c + n) u' := by
  obtain ⟨hu, hne⟩ := h.measured hlt
  have hlen : (b.drop c).length = b.length - c := List.length_drop
  have hmake : (ReadCall.bits n).make u = ((u.readBits n).1.map .bits, (u.readBits n).2) := rfl
  obtain ⟨hfault, hgiven⟩ := hu.overread hne hn (by omega)
  rw [hmake]
  rcases Nat.lt_or_ge (w.bits * ((b.length + (w.bits - 1)) / w.bits) + (b.drop c).length)
    (b.length + n) with hlimit | hlimit
  · rw [hfault hlimit]
    exact .inl rfl
  · obtain ⟨x, u', hread, -, hend⟩ := hgiven hlimit
    rw [hread]
    exact .inr ⟨_, u', rfl, .ended (Nat.le_of_lt hfew) hend⟩

/-- Any call leads to a later stage, or fails and changes nothing. -/
theorem make (h : Stage b c u) (call : ReadCall) :
    (∃ failure, call.make u = (.error failure, u)) ∨
      ∃ value u', call.make u = (.ok value, u') ∧ Stage b (c + call.width) u' := by
  by_cases hrange : call.InRange w
  · rcases Nat.lt_or_ge c b.length with hlt | hge
    · have hlen : (b.drop c).length = b.length - c := List.length_drop
      rcases Nat.lt_or_ge b.length (c + call.width) with hfew | hall
      · -- the bits run out inside the call, which must be for a group
        cases call with
        | bit =>
          have hone : b.length < c + 1 := hfew
          omega
        | bits n => exact (h.make_overread hlt hrange hfew).imp_left fun hfault => ⟨_, hfault⟩
      · obtain ⟨hu, -⟩ := h.measured hlt
        obtain ⟨u', heq, hu'⟩ := (Measured.view b.length).make hu hrange (by omega)
        rw [List.drop_drop] at hu'
        exact .inr ⟨_, u', heq, .inside hall hu'⟩
    · have hend := h.atEnd_iff.mpr hge
      left
      cases call with
      | bit =>
        simp only [ReadCall.make, BitReader.readBit, readBit_of_atEnd hend]
        exact ⟨_, rfl⟩
      | bits n =>
        simp only [ReadCall.make, BitReader.readBits, readBits_of_atEnd hend]
        exact ⟨_, rfl⟩
  · cases call with
    | bit => exact absurd trivial hrange
    | bits n =>
      simp only [ReadCall.make, BitReader.readBits, readBits_of_not_range hrange]
      exact .inl ⟨_, rfl⟩

/-- Any calls. -/
theorem run (h : Stage b c u) (calls : List ReadCall) :
    Stage b (c + ReadCall.bitsRead calls (ReadCall.run u calls).1) (ReadCall.run u calls).2 := by
  induction calls generalizing c u with
  | nil => exact h
  | cons call calls ih =>
    rcases h.make call with ⟨failure, heq⟩ | ⟨value, u', heq, hu'⟩
    · rw [ReadCall.run_cons heq]
      exact ih h
    · rw [ReadCall.run_cons heq]
      show Stage b (c + (call.width + _)) _
      rw [← Nat.add_assoc]
      exact ih hu'

end Stage

open Packer in
/-- **Reading behind the last bit.** A packer has written the bits `b`, and `c` of them have been
read in any way.  A group of `n` more that is not all there is a fault exactly if it ends behind the
words that `b` needs, with `w.bits` bits each.  Then unpacker and source are what they were, and the
bits that are left can be read.  Otherwise these are the low bits of the group, and the end has been
reached.  At the end all reads are faults, and leave unpacker and source, of whatever kind that is,
as they were. -/
theorem overreads {κ : Type} [WordSink κ w] {s : κ} (hs : Unfailing s) (calls : List (WriteCall w))
    (hcalls : ∀ call ∈ calls, call.InRange) (e : Closing) {t : σ}
    (ht : Serves t ((WriteCall.run (recording w true s) calls).2.finish e).2.words) :
    let b := WriteCall.stream calls
    let limit := w.bits * ((b.length + (w.bits - 1)) / w.bits)
    ∃ u t', openMarked t = (.ok u, t') ∧ ∀ reads : List ReadCall,
      let done := ReadCall.run u reads
      let c := ReadCall.bitsRead reads done.1
      (c < b.length → ∀ n, 0 < n ∧ n ≤ w.bits → b.length < c + n →
        ((BitReader.readBits done.2 n).1 = .error (.fault .pastEnd) ↔ limit < c + n) ∧
        (limit < c + n → BitReader.readBits done.2 n = (.error (.fault .pastEnd), done.2) ∧
          ∀ more : List ReadCall, (∀ call ∈ more, call.InRange w) →
            (more.map ReadCall.width).sum ≤ b.length - c →
              (ReadCall.run done.2 more).1 = ReadCall.answers (b.drop c) more) ∧
        (c + n ≤ limit → ∃ x u', BitReader.readBits done.2 n = (.ok x, u') ∧
          x.lowBits (b.length - c) = b.drop c ∧ BitReader.atEnd u' = true)) ∧
      (BitReader.atEnd done.2 = true ↔ b.length ≤ c) ∧
      (BitReader.atEnd done.2 = true →
        BitReader.readBit done.2 = (.error (.fault .pastEnd), done.2) ∧
        ∀ n, BitReader.readBits done.2 n = (.error (.fault
          (if 0 < n ∧ n ≤ w.bits then .pastEnd else .readWidth w.bits n)), done.2)) := by
  intro b limit
  have hwords : ((WriteCall.run (recording w true s) calls).2.finish e).2.words = layout true b :=
    words_finish_run_recording hs true hcalls e
  rw [hwords] at ht
  obtain ⟨u, t', hopen, hu⟩ := remains_openMarked ht
  rw [validBits_layout] at hu
  refine ⟨u, t', hopen, ?_⟩
  intro reads done c
  -- every read leads from stage to stage, and a stage knows what is left of `b`
  have hnew : Stage b 0 u :=
    .inside (Nat.zero_le _) ⟨hu, 0, by rw [pos_of_openMarked hopen, List.drop_zero]; omega⟩
  have hstage : Stage b c done.2 := by
    have hrun := hnew.run reads
    rwa [Nat.zero_add] at hrun
  refine ⟨?_, hstage.atEnd_iff, fun hend => ⟨readBit_of_atEnd hend, readBits_of_atEnd hend⟩⟩
  intro hlt n hn hfew
  obtain ⟨hleft, hne⟩ := hstage.measured hlt
  have hlen : (b.drop c).length = b.length - c := List.length_drop
  obtain ⟨hfault, hgiven⟩ := hleft.overread hne hn (by omega)
  rw [hlen] at hfault hgiven
  have herror : limit < c + n → done.2.readBits n = (.error (.fault .pastEnd), done.2) :=
    fun hlimit => hfault (by show limit + _ < _; omega)
  have hok : c + n ≤ limit → ∃ x u', done.2.readBits n = (.ok x, u') ∧
      x.lowBits (b.length - c) = b.drop c ∧ u'.atEnd = true :=
    fun hlimit => hgiven (by show _ ≤ limit + _; omega)
  refine ⟨⟨fun hpast => ?_, fun hlimit => congrArg Prod.fst (herror hlimit)⟩, fun hlimit => ?_, hok⟩
  · by_contra hlimit
    obtain ⟨x, u', hread, -⟩ := hok (Nat.not_lt.mp hlimit)
    have hgave : (done.2.readBits n).1 = .error (.fault .pastEnd) := hpast
    rw [hread] at hgave
    exact absurd hgave (by simp)
  · exact ⟨herror hlimit, fun more hmore hsum => hleft.1.run hmore (by omega)⟩

open Packer in
/-- Eleven bits in two words, nine of which have been read: a group of eight would end behind the
second word, and one of seven has the other two as its low bits. -/
theorem overreads_eleven_bits :
    let calls : List (WriteCall .w8) := [.bits 0xa5 8, .bits 0x5 3]
    let words : List (Word .w8) := [0xa5, 0x25]
    let u : Unpacker .marked .w8 (Tape .w8) := { source := { words, pos := 1 }, next := 0xa5 }
    let done := ReadCall.run u [.bits 5, .bits 4]
    Unfailing ({} : WordBuffer .w8) ∧ (∀ call ∈ calls, call.InRange) ∧
      ((WriteCall.run (recording .w8 true ({} : WordBuffer .w8)) calls).2.finish .close).2.words
          = words ∧
      Serves ({ words } : Tape .w8) words ∧ openMarked { words } = (.ok u, u.source) ∧
      BitReader.readBits done.2 8 = (.error (.fault .pastEnd), done.2) ∧
      ∃ x u', BitReader.readBits done.2 7 = (.ok x, u') ∧ x.lowBits 2 = [false, true] ∧
        BitReader.atEnd u' = true := by
  intro calls words u done
  have hcalls : ∀ call ∈ calls, call.InRange := by decide
  have hwords :
      ((WriteCall.run (recording .w8 true ({} : WordBuffer .w8)) calls).2.finish .close).2.words
        = words := by decide
  have hserves : Serves ({ words } : Tape .w8) words := Tape.serves words
  have hopen : openMarked { words } = (.ok u, u.source) := by rfl
  obtain ⟨v, t', hopen', hreads⟩ :=
    overreads (t := ({ words } : Tape .w8)) (WordBuffer.unfailing {}) calls hcalls .close
      (by rw [hwords]; exact hserves)
  rw [hopen, Prod.mk.injEq, Except.ok.injEq] at hopen'
  obtain ⟨rfl, -⟩ := hopen'
  have hread : ReadCall.bitsRead [.bits 5, .bits 4] done.1 = 9 := by rfl
  obtain ⟨hmore, -⟩ := hreads [.bits 5, .bits 4]
  rw [hread] at hmore
  obtain ⟨-, hfault, -⟩ := hmore (by decide) 8 (by decide) (by decide)
  obtain ⟨-, -, hgiven⟩ := hmore (by decide) 7 (by decide) (by decide)
  exact ⟨WordBuffer.unfailing _, hcalls, hwords, hserves, hopen, (hfault (by decide)).1,
    hgiven (by decide)⟩

end Unpacker

end PackedBits
