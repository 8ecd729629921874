import PackedBits.Proofs.Runs
import PackedBits.Proofs.WordStream.Reliable
import PackedBits.Proofs.WordStream.Wire

/-!
# Words made of all the bytes that make words

The words that are made of `n` bytes are `n / w.bytes`: the word `i` is that of the `w.bytes` bytes
from `i * w.bytes` on (`wordsOf`).  What is behind the last of them is too short for a word.

Words are made one ahead of those that are handed out.  When `k` have been handed out the bytes up
to `(k + 1) * w.bytes` have been taken, or all of them if there are not so many, and the word `k` is
at hand if there is one: this is the state `handedOut d k`, and there is no other that the bytes `d`
lead to.  The words are at hand from the beginning (`ofBytes_eq_handedOut`), each `pop` takes a
state to the next one (`pop_handedOut`), and hence any calls lead from one of them to another
(`run_handedOut`).
-/

namespace PackedBits.AssembledWords

variable {w : Width}

/-! ### The words of the bytes -/

/-- The words that bytes make, without those bytes at the end that are too few for one. -/
def wordsOf (d : List UInt8) : List (Word w) :=
  (List.range (d.length / w.bytes)).map fun i => .ofBytes ((d.drop (i * w.bytes)).take w.bytes)

@[simp] theorem length_wordsOf (d : List UInt8) :
    (wordsOf d : List (Word w)).length = d.length / w.bytes := by
  simp [wordsOf]

/-- There is one more word exactly if there are bytes for it. -/
theorem lt_length_wordsOf_iff (d : List UInt8) (k : Nat) :
    k < (wordsOf d : List (Word w)).length ↔ (k + 1) * w.bytes ≤ d.length := by
  rw [length_wordsOf, ← Nat.succ_le_iff, Nat.le_div_iff_mul_le w.bytes_pos]

/-- The bytes of the words are those that they were made of. -/
theorem flatMap_toBytes_wordsOf (d : List UInt8) :
    (wordsOf d : List (Word w)).flatMap Word.toBytes = d.take (d.length / w.bytes * w.bytes) := by
  rw [← flatMap_take_drop, wordsOf, List.flatMap_map, List.flatMap_def, List.flatMap_def]
  congr 1
  apply List.map_congr_left
  intro i hi
  have hi := List.mem_range.mp hi
  rw [← length_wordsOf (w := w), lt_length_wordsOf_iff, Nat.succ_mul] at hi
  apply Word.toBytes_ofBytes
  rw [List.length_take, List.length_drop]
  omega

/-- The other bytes, as many as the remainder tells. -/
theorem flatMap_toBytes_wordsOf_append (d : List UInt8) :
    ∃ rest : List UInt8, (wordsOf d : List (Word w)).flatMap Word.toBytes ++ rest = d ∧
      rest.length = d.length % w.bytes := by
  refine ⟨d.drop (d.length / w.bytes * w.bytes), ?_, ?_⟩
  · rw [flatMap_toBytes_wordsOf, List.take_append_drop]
  · rw [List.length_drop, Nat.mod_eq_sub_div_mul]

/-- The word that is made of the bytes behind `k` words, and what it leaves of them. -/
theorem assemble_drop (d : List UInt8) (k : Nat) :
    (assemble (d.drop (k * w.bytes)) : Option (Word w) × List UInt8)
      = ((wordsOf d)[k]?, d.drop ((k + 1) * w.bytes)) := by
  have hk := lt_length_wordsOf_iff (w := w) d k
  rw [Nat.succ_mul] at hk ⊢
  unfold assemble
  rw [List.length_drop, List.drop_drop]
  by_cases hlt : k < (wordsOf d : List (Word w)).length
  · have hle := hk.mp hlt
    have hrange : k < d.length / w.bytes := by rwa [length_wordsOf] at hlt
    rw [if_pos (by omega), wordsOf, List.getElem?_map, List.getElem?_range hrange]
    rfl
  · have hshort := mt hk.mpr hlt
    have hbytes := w.bytes_pos
    rw [if_neg (by omega), List.getElem?_eq_none (Nat.not_lt.mp hlt),
      List.drop_eq_nil_of_le (by omega)]

/-! ### Handing out words -/

/-- Words made of the bytes `d` of which `k` have been handed out. -/
def handedOut (d : List UInt8) (k : Nat) : AssembledWords w :=
  { bytes := d.drop ((k + 1) * w.bytes), next? := (wordsOf d)[k]?, count := k }

theorem ofBytes_eq_handedOut (d : List UInt8) : (ofBytes d : AssembledWords w) = handedOut d 0 := by
  have hmade := assemble_drop (w := w) d 0
  rw [Nat.zero_mul, List.drop_zero] at hmade
  rw [ofBytes, hmade]
  rfl

/-- Bytes that are taken are never more than there are. -/
theorem bytes_handedOut (d : List UInt8) (k : Nat) :
    (handedOut d k : AssembledWords w).bytes = d.drop (min ((k + 1) * w.bytes) d.length) := by
  show d.drop ((k + 1) * w.bytes) = _
  rcases Nat.le_total ((k + 1) * w.bytes) d.length with hle | hle
  · rw [Nat.min_eq_left hle]
  · rw [Nat.min_eq_right hle, List.drop_length, List.drop_eq_nil_of_le hle]

theorem pop_handedOut {d : List UInt8} {k : Nat} (hk : k < (wordsOf d : List (Word w)).length) :
    (handedOut d k : AssembledWords w).pop = (some (wordsOf d)[k], handedOut d (k + 1)) := by
  have hnext : (handedOut d k : AssembledWords w).next? = some (wordsOf d)[k] :=
    List.getElem?_eq_getElem hk
  unfold pop
  rw [hnext]
  dsimp only
  rw [handedOut, assemble_drop]
  rfl

theorem pop_of_length_le {d : List UInt8} {k : Nat} (hk : (wordsOf d : List (Word w)).length ≤ k) :
    (handedOut d k : AssembledWords w).pop = (none, handedOut d k) := by
  have hnext : (handedOut d k : AssembledWords w).next? = none := List.getElem?_eq_none hk
  unfold pop
  rw [hnext]

theorem atEnd_handedOut {d : List UInt8} {k : Nat} (hk : k ≤ (wordsOf d : List (Word w)).length) :
    (handedOut d k : AssembledWords w).atEnd = decide (k = (wordsOf d : List (Word w)).length) := by
  rw [atEnd, Bool.eq_iff_iff, Option.isNone_iff_eq_none, decide_eq_true_iff]
  show (wordsOf d)[k]? = none ↔ _
  rw [List.getElem?_eq_none_iff]
  omega

/-! ### Any calls -/

/-- A call on words made of bytes, as a list that hands out its words or as a source. -/
inductive Call where
  | pop
  | read
  | atEnd
  deriving DecidableEq, Repr

/-- What a call answers. -/
inductive Answer (w : Width) where
  | popped (word? : Option (Word w))
  | read (answer : Outcome StreamError (Word w))
  | atEnd (answer : Outcome StreamError Bool)
  deriving DecidableEq

/-- The word that is handed out with an answer. -/
def Answer.word? : Answer w → Option (Word w)
  | popped word? => word?
  | read (.ok x) => some x
  | _ => none

namespace Call

/-- Whether a call asks for a word. -/
def takes : Call → Bool
  | atEnd => false
  | _ => true

/-- Makes a call. -/
def make (a : AssembledWords w) : Call → Answer w × AssembledWords w
  | pop => let made := a.pop; (.popped made.1, made.2)
  | read => let made := WordSource.read a; (.read made.1, made.2)
  | atEnd => let made := WordSource.atEnd a; (.atEnd made.1, made.2)

/-- Makes calls one after the other. -/
def run (a : AssembledWords w) (calls : List Call) : List (Answer w) × AssembledWords w :=
  runAll make a calls

theorem run_cons (a : AssembledWords w) (c : Call) (calls : List Call) :
    run a (c :: calls)
      = ((c.make a).1 :: (run (c.make a).2 calls).1, (run (c.make a).2 calls).2) :=
  rfl

/-- The answer when no words are left of `q`. -/
def spent (q : Nat) : Call → Answer w
  | pop => .popped none
  | read => .read (.error (.refused (.endOfWords q)))
  | atEnd => .atEnd (.ok true)

variable {d : List UInt8} {k : Nat}

/-- A call that asks for no word. -/
theorem make_of_takes_eq_false {c : Call} (hc : c.takes = false) (a : AssembledWords w) :
    (c.make a).2 = a ∧ (c.make a).1.word? = none := by
  cases c with
  | pop => exact absurd hc (by decide)
  | read => exact absurd hc (by decide)
  | atEnd => exact ⟨rfl, rfl⟩

/-- A call that asks for a word gets the next, if there is one. -/
theorem make_of_lt {c : Call} (hc : c.takes = true) (hk : k < (wordsOf d : List (Word w)).length) :
    (c.make (handedOut d k : AssembledWords w)).2 = handedOut d (k + 1) ∧
      (c.make (handedOut d k : AssembledWords w)).1.word? = some (wordsOf d)[k] := by
  cases c with
  | pop =>
    rw [make, pop_handedOut hk]
    exact ⟨rfl, rfl⟩
  | read =>
    simp only [make, WordSource.read, AssembledWords.read, pop_handedOut hk]
    exact ⟨trivial, rfl⟩
  | atEnd => exact absurd hc (by decide)

/-- When there is none no call changes anything. -/
theorem make_of_eq (hk : k = (wordsOf d : List (Word w)).length) (c : Call) :
    c.make (handedOut d k : AssembledWords w) = (c.spent k, handedOut d k) := by
  have hpop := pop_of_length_le (w := w) (d := d) (Nat.le_of_eq hk.symm)
  cases c with
  | pop => simp only [make, hpop, spent]
  | read =>
    simp only [make, WordSource.read, AssembledWords.read, hpop, spent]
    rfl
  | atEnd =>
    have hend := atEnd_handedOut (w := w) (Nat.le_of_eq hk)
    rw [decide_eq_true hk] at hend
    simp only [make, WordSource.atEnd, hend, spent]

theorem run_of_eq (hk : k = (wordsOf d : List (Word w)).length) (calls : List Call) :
    run (handedOut d k : AssembledWords w) calls = (calls.map (spent k), handedOut d k) :=
  runAll_const (make_of_eq hk) calls

theorem word?_spent (q : Nat) (c : Call) : (c.spent q : Answer w).word? = none := by
  cases c <;> rfl

/-- Any calls hand out the words that they ask for, as far as there are any. -/
theorem run_handedOut (hk : k ≤ (wordsOf d : List (Word w)).length) (calls : List Call) :
    (run (handedOut d k : AssembledWords w) calls).1.filterMap Answer.word?
        = ((wordsOf d).drop k).take (calls.countP takes) ∧
      (run (handedOut d k : AssembledWords w) calls).2
        = handedOut d (min (k + calls.countP takes) (wordsOf d : List (Word w)).length) := by
  induction calls generalizing k with
  | nil =>
    rw [List.countP_nil, Nat.add_zero, Nat.min_eq_left hk]
    exact ⟨rfl, rfl⟩
  | cons c calls ih =>
    rcases Nat.eq_or_lt_of_le hk with heq | hlt
    · -- all words have been handed out before, and every call is spent
      rw [run_of_eq heq]
      constructor
      · rw [List.drop_eq_nil_of_le (Nat.le_of_eq heq.symm), List.take_nil,
          List.filterMap_eq_nil_iff]
        intro answer hanswer
        obtain ⟨c', -, rfl⟩ := List.mem_map.mp hanswer
        exact word?_spent k c'
      · rw [Nat.min_eq_right (by omega), heq]
    · rw [run_cons]
      cases hc : c.takes with
      | false =>
        obtain ⟨hstate, hword⟩ := make_of_takes_eq_false hc (handedOut d k : AssembledWords w)
        rw [hstate, List.filterMap_cons_none hword, List.countP_cons_of_neg (by simp [hc])]
        exact ih hk
      | true =>
        obtain ⟨hstate, hword⟩ := make_of_lt (w := w) hc hlt
        obtain ⟨hwords, hend⟩ := ih (k := k + 1) hlt
        rw [hstate, List.filterMap_cons_some hword, List.countP_cons_of_pos hc, hwords, hend,
          List.drop_eq_getElem_cons hlt, List.take_succ_cons, Nat.add_assoc, Nat.add_comm 1]
        exact ⟨rfl, rfl⟩

end Call

/-- **Bytes and words.** The words of `n` bytes are as many as there are bytes for, and written as
bytes again they are the bytes up to the end of the last of them.  Whatever calls are made, those
that ask for a word get these words in order, and no others.  When `k` of them have been handed out
the bytes of one word more have been taken, or all bytes if there are not so many; the end is seen
exactly if that was the last word; and from then on every call finds nothing and changes nothing,
whether or not bytes were left over. -/
theorem hands_out (d : List UInt8) (calls : List Call) :
    let ws : List (Word w) := wordsOf d
    let q := d.length / w.bytes
    let done := Call.run (ofBytes d : AssembledWords w) calls
    let k := min (calls.countP Call.takes) q
    ws.length = q ∧
      (∃ x, SinkCall.attempt ({ bytes := {} } : Wire w ByteBuffer) (ws.map .write) = (.ok (), x) ∧
        x.bytes.bytes.toList = d.take (q * w.bytes)) ∧
      done.1.filterMap Answer.word? = ws.take k ∧
      done.2.bytes = d.drop (min ((k + 1) * w.bytes) d.length) ∧
      WordSource.atEnd done.2 = (.ok (decide (k = q)), done.2) ∧
      (k = q → ∀ later : List Call,
        Call.run done.2 later = (later.map (Call.spent q), done.2)) := by
  intro ws q done k
  have hlen : ws.length = q := length_wordsOf d
  obtain ⟨hwords, hstate⟩ := Call.run_handedOut (w := w) (d := d) (Nat.zero_le _) calls
  rw [← ofBytes_eq_handedOut, Nat.zero_add, hlen] at hstate
  rw [← ofBytes_eq_handedOut, List.drop_zero] at hwords
  have hk : k ≤ ws.length := hlen ▸ Nat.min_le_right _ _
  have hdone : done.2 = handedOut d k := hstate
  refine ⟨hlen, ?_, ?_, ?_, ?_, ?_⟩
  · have hR : RoomView ws.length fun (x : Wire w ByteBuffer) ws =>
        x.bytes.bytes.toList = ws.flatMap Word.toBytes :=
      Wire.roomView (ByteBuffer.intake _) (Nat.lt_succ_self _)
    have hempty : ({ bytes := {} } : Wire w ByteBuffer).bytes.bytes.toList
        = ([] : List (Word w)).flatMap Word.toBytes := rfl
    obtain ⟨x, hattempt, hx⟩ := hR.attempt hempty ws (Nat.le_refl _)
    exact ⟨x, hattempt, hx.trans (flatMap_toBytes_wordsOf d)⟩
  · show _ = ws.take (min (calls.countP Call.takes) q)
    rw [hwords, ← hlen, ← List.take_take, List.take_length]
  · rw [hdone, bytes_handedOut]
  · rw [hdone]
    show (Except.ok (handedOut d k : AssembledWords w).atEnd, _) = _
    rw [atEnd_handedOut hk, hlen]
  · intro heq later
    rw [hdone, Call.run_of_eq (heq.trans hlen.symm), heq]

/-- Fifteen bytes make one word of eight, and those behind it are lost. -/
example : (Call.run (ofBytes (List.replicate 15 0xff) : AssembledWords .w64)
    [.read, .atEnd, .read, .pop]).1
      = [.read (.ok (BitVec.allOnes 64)), .atEnd (.ok true),
        .read (.error (.refused (.endOfWords 1))), .popped none] := by
  decide

end PackedBits.AssembledWords
