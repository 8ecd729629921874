import PackedBits.BitStream
import PackedBits.Proofs.Runs
import PackedBits.Proofs.Word.Groups

/-!
# Calls on streams of bits

A history of a writer is a list of `WriteCall`s and one of a reader a list of `ReadCall`s.  `run`
makes the calls one after the other, goes on after those that fail, and keeps every outcome; a run
of reads also keeps whether the reader is at its end after each call.

Beside the run stands what it is compared with.  `WriteCall.stream` is the list of bits that a
history of writes puts into the stream, a flush counting as zeros up to the end of the word, and
`ReadCall.answers` is what a history of reads gets out of a list of bits.  Neither knows of words
being filled, passed on or read ahead.
-/

namespace PackedBits

variable {w : Width}

/-! ### Writing -/

/-- A call on a writer of bits. -/
inductive WriteCall (w : Width) where
  | bit (bit : Bool)
  | bits (value : Word w) (n : Nat)
  | flush
  deriving DecidableEq

namespace WriteCall

/-- Whether the number of bits is one that can be written at once. -/
def InRange : WriteCall w → Prop
  | bits _ n => 0 < n ∧ n ≤ w.bits
  | _ => True

instance (c : WriteCall w) : Decidable c.InRange :=
  match c with
  | bit _ => isTrue trivial
  | bits _ n => inferInstanceAs (Decidable (0 < n ∧ n ≤ w.bits))
  | flush => isTrue trivial

/-- The number of bits that a call writes, without those that fill up a word. -/
def width : WriteCall w → Nat
  | bit _ => 1
  | bits _ n => n
  | flush => 0

/-- The value of a call that succeeds: a group of bits is answered by their number. -/
def value? : WriteCall w → Option Nat
  | bits _ n => some n
  | _ => none

/-- The bits of a stream after one more call. -/
def extend (b : List Bool) : WriteCall w → List Bool
  | bit x => b ++ [x]
  | bits x n => b ++ x.lowBits n
  | flush => Word.padded w b

/-- A call only adds bits. -/
theorem exists_extend_eq (b : List Bool) (c : WriteCall w) : ∃ more, c.extend b = b ++ more := by
  cases c with
  | bit x => exact ⟨_, rfl⟩
  | bits x n => exact ⟨_, rfl⟩
  | flush => exact ⟨_, rfl⟩

theorem exists_foldl_extend_eq (b : List Bool) (calls : List (WriteCall w)) :
    ∃ more, calls.foldl extend b = b ++ more := by
  induction calls generalizing b with
  | nil => exact ⟨[], (List.append_nil b).symm⟩
  | cons c calls ih =>
    obtain ⟨more, hmore⟩ := exists_extend_eq b c
    obtain ⟨rest, hrest⟩ := ih (c.extend b)
    exact ⟨more ++ rest, by rw [List.foldl_cons, hrest, hmore, List.append_assoc]⟩

/-- The bits that calls write to a new stream. -/
def stream (calls : List (WriteCall w)) : List Bool :=
  calls.foldl extend []

/-- Any bits can be written one by one. -/
theorem stream_map_bit (bs : List Bool) : stream (bs.map bit : List (WriteCall w)) = bs := by
  have hfold : ∀ b : List Bool, (bs.map bit : List (WriteCall w)).foldl extend b = b ++ bs := by
    induction bs with
    | nil => simp
    | cons x bs ih =>
      intro b
      rw [List.map_cons, List.foldl_cons, ih, extend, List.append_assoc, List.singleton_append]
  exact hfold []

section Run

variable {ω : Type} [BitWriter ω w]

/-- Makes a call. -/
def make (s : ω) : WriteCall w → Outcome StreamError (Option Nat) × ω
  | bit x => let made := BitWriter.writeBit s x; (made.1.map fun _ => none, made.2)
  | bits x n => let made := BitWriter.writeBits s x n; (made.1.map some, made.2)
  | flush => let made := BitWriter.flush s; (made.1.map fun _ => none, made.2)

/-- Makes calls one after the other. -/
def run (s : ω) (calls : List (WriteCall w)) : List (Outcome StreamError (Option Nat)) × ω :=
  runAll make s calls

theorem run_cons {s s' : ω} {c : WriteCall w} {outcome : Outcome StreamError (Option Nat)}
    (h : c.make s = (outcome, s')) (calls : List (WriteCall w)) :
    run s (c :: calls) = (outcome :: (run s' calls).1, (run s' calls).2) :=
  runAll_cons h calls

end Run

end WriteCall

/-! ### Reading -/

/-- A call on a reader of bits. -/
inductive ReadCall where
  | bit
  | bits (n : Nat)
  deriving DecidableEq

/-- The value of a read. -/
inductive ReadValue (w : Width) where
  | bit (bit : Bool)
  | bits (value : Word w)
  deriving DecidableEq

namespace ReadCall

/-- Whether the number of bits is one that can be read at once. -/
def InRange (w : Width) : ReadCall → Prop
  | bit => True
  | bits n => 0 < n ∧ n ≤ w.bits

instance (w : Width) (c : ReadCall) : Decidable (c.InRange w) :=
  match c with
  | bit => isTrue trivial
  | bits n => inferInstanceAs (Decidable (0 < n ∧ n ≤ w.bits))

/-- The number of bits that a call reads. -/
def width : ReadCall → Nat
  | bit => 1
  | bits n => n

theorem InRange.width_le {c : ReadCall} (h : c.InRange w) : c.width ≤ w.bits := by
  cases c with
  | bit => exact w.bits_pos
  | bits n => exact h.2

/-- The value that a call gets out of the bits `b`, if there are enough. -/
def value (b : List Bool) : ReadCall → ReadValue w
  | bit => .bit (b.headD false)
  | bits n => .bits (Word.ofBits (b.take n))

/-- The outcomes of calls that get their values out of the bits `b`, each with whether there are no
more bits after it. -/
def answers (b : List Bool) : List ReadCall → List (Outcome StreamError (ReadValue w) × Bool)
  | [] => []
  | c :: calls =>
    let rest := b.drop c.width
    (.ok (c.value b), rest.isEmpty) :: answers rest calls

section Run

variable {ρ : Type} [BitReader ρ w]

/-- Makes a call. -/
def make (r : ρ) : ReadCall → Outcome StreamError (ReadValue w) × ρ
  | bit => let made := BitReader.readBit r; (made.1.map .bit, made.2)
  | bits n => let made := BitReader.readBits r n; (made.1.map .bits, made.2)

/-- Makes a call, and asks then whether the reader is at its end. -/
def perform (r : ρ) (c : ReadCall) : (Outcome StreamError (ReadValue w) × Bool) × ρ :=
  let made := c.make r
  ((made.1, BitReader.atEnd made.2), made.2)

/-- Makes calls one after the other, and asks after each whether the reader is at its end. -/
def run (r : ρ) (calls : List ReadCall) : List (Outcome StreamError (ReadValue w) × Bool) × ρ :=
  runAll perform r calls

theorem perform_of_make {r r' : ρ} {c : ReadCall} {outcome : Outcome StreamError (ReadValue w)}
    (h : c.make r = (outcome, r')) : c.perform r = ((outcome, BitReader.atEnd r'), r') := by
  rw [perform, h]

theorem run_cons {r r' : ρ} {c : ReadCall} {outcome : Outcome StreamError (ReadValue w)}
    (h : c.make r = (outcome, r')) (calls : List ReadCall) :
    run r (c :: calls) = ((outcome, BitReader.atEnd r') :: (run r' calls).1, (run r' calls).2) :=
  runAll_cons (perform_of_make h) calls

end Run

/-! A list of bits is read as well: a call takes its bits from the front. -/

/-- Takes the bits of a call from a list. -/
def takeFrom (b : List Bool) (c : ReadCall) :
    (Outcome StreamError (ReadValue w) × Bool) × List Bool :=
  let rest := b.drop c.width
  ((.ok (c.value b), rest.isEmpty), rest)

theorem runAll_takeFrom (b : List Bool) (calls : List ReadCall) :
    runAll (takeFrom (w := w)) b calls = (answers b calls, b.drop (calls.map width).sum) := by
  induction calls generalizing b with
  | nil => rfl
  | cons c calls ih =>
    rw [runAll, takeFrom, ih, answers, List.map_cons, List.sum_cons, List.drop_drop]

/-- Calls for no more bits than there are find their bits, each where it is made. -/
theorem admitted_takeFrom {b : List Bool} {calls : List ReadCall}
    (hcalls : ∀ c ∈ calls, c.InRange w) (hn : (calls.map width).sum ≤ b.length) :
    Admitted (takeFrom (w := w)) (fun b c => c.InRange w ∧ c.width ≤ b.length) b calls := by
  induction calls generalizing b with
  | nil => exact admitted_nil _ _ b
  | cons c calls ih =>
    rw [List.map_cons, List.sum_cons] at hn
    refine admitted_cons_iff.mpr ⟨⟨hcalls c List.mem_cons_self, by omega⟩, ?_⟩
    exact ih (fun c' hc' => hcalls c' (List.mem_cons_of_mem c hc'))
      (by rw [takeFrom, List.length_drop]; omega)

/-- The number of bits that calls with these outcomes have read, those that failed having read
none. -/
def bitsRead : List ReadCall → List (Outcome StreamError (ReadValue w) × Bool) → Nat
  | c :: calls, (.ok _, _) :: outcomes => c.width + bitsRead calls outcomes
  | _ :: calls, (.error _, _) :: outcomes => bitsRead calls outcomes
  | _, _ => 0

end ReadCall

end PackedBits
