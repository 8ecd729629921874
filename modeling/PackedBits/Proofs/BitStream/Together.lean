import PackedBits.Proofs.BitStream.Copying
import PackedBits.Proofs.Runs

/-!
# A reader and a writer used together

A history of a reader and a writer that are used together is a list of `PairCall`s: calls on either
of them, and copies between them, asked of either.  After each call it is kept what the call has
answered and what the two streams then show of themselves, their positions, the number of bits
written and whether there are more to read.

Readers that answer alike, call by call, are `BitReader.Mirrors`, whatever else may differ in them,
and so are writers; of these only some groups need be written alike.  A copy is made of calls on
both, so it comes to the same for both (`copyBits_mirrors`), as long as the reader gives no other
groups, and hence a whole history does (`PairCall.run_mirrors`).
-/

namespace PackedBits

/-! ### Calls on both -/

variable {w : Width}

/-- A call on a reader and a writer. -/
inductive PairCall (w : Width) where
  | write (c : WriteCall w)
  | read (c : ReadCall)
  | sendTo (n : Nat)
  | takeFrom (n : Nat)
  deriving DecidableEq

/-- What a call on a reader and a writer answers. -/
inductive PairAnswer (w : Width) where
  | wrote (answer : Outcome StreamError (Option Nat))
  | read (answer : Outcome StreamError (ReadValue w))
  | copied (answer : Outcome CopyError Unit)
  deriving DecidableEq

/-- What a reader and a writer show of themselves. -/
structure Display where
  readPos : Nat
  atEnd : Bool
  writePos : Nat
  written : Nat
  deriving DecidableEq

section Streams

variable {ρ ω : Type} [BitReader ρ w] [BitWriter ω w]

def display (r : ρ) (s : ω) : Display where
  readPos := BitReader.posInWord r
  atEnd := BitReader.atEnd r
  writePos := BitWriter.posInWord s
  written := BitWriter.bitsWritten s

namespace PairCall

/-- Makes a call, and looks at the streams that it leaves. -/
def make (streams : ρ × ω) (c : PairCall w) : (PairAnswer w × Display) × (ρ × ω) :=
  let made : PairAnswer w × (ρ × ω) :=
    match c with
    | write c => let made := c.make streams.2; (.wrote made.1, streams.1, made.2)
    | read c => let made := c.make streams.1; (.read made.1, made.2, streams.2)
    | sendTo n =>
      let made := BitReader.sendTo streams.1 streams.2 n
      (.copied made.1, made.2.1, made.2.2)
    | takeFrom n =>
      let made := BitWriter.takeFrom streams.2 streams.1 n
      (.copied made.1, made.2.2, made.2.1)
  ((made.1, display made.2.1 made.2.2), made.2)

/-- Makes calls one after the other. -/
def run (streams : ρ × ω) (calls : List (PairCall w)) : List (PairAnswer w × Display) × (ρ × ω) :=
  runAll make streams calls

end PairCall

end Streams

/-! ### Streams that answer alike -/

variable {ρ ρ' ω ω' : Type} [BitReader ρ w] [BitReader ρ' w] [BitWriter ω w] [BitWriter ω' w]

/-- Whether readers that are related answer and show the same, and stay related. -/
structure BitReader.Mirrors (R : ρ → ρ' → Prop) : Prop where
  readBit {r : ρ} {r' : ρ'} : R r r' →
    (BitReader.readBit r).1 = (BitReader.readBit r').1 ∧
      R (BitReader.readBit r).2 (BitReader.readBit r').2
  readBits {r : ρ} {r' : ρ'} (n : Nat) : R r r' →
    (BitReader.readBits r n).1 = (BitReader.readBits r' n).1 ∧
      R (BitReader.readBits r n).2 (BitReader.readBits r' n).2
  posInWord {r : ρ} {r' : ρ'} : R r r' → BitReader.posInWord r = BitReader.posInWord r'
  atEnd {r : ρ} {r' : ρ'} : R r r' → BitReader.atEnd r = BitReader.atEnd r'

/-- Whether writers that are related answer and show the same, and stay related. Of a group this is
asked only if it is one that `fits`. -/
structure BitWriter.Mirrors (fits : ω → Word w → Nat → Prop) (Q : ω → ω' → Prop) : Prop where
  writeBit {s : ω} {s' : ω'} (bit : Bool) : Q s s' →
    (BitWriter.writeBit s bit).1 = (BitWriter.writeBit s' bit).1 ∧
      Q (BitWriter.writeBit s bit).2 (BitWriter.writeBit s' bit).2
  writeBits {s : ω} {s' : ω'} {x : Word w} {n : Nat} : fits s x n → Q s s' →
    (BitWriter.writeBits s x n).1 = (BitWriter.writeBits s' x n).1 ∧
      Q (BitWriter.writeBits s x n).2 (BitWriter.writeBits s' x n).2
  flush {s : ω} {s' : ω'} : Q s s' →
    (BitWriter.flush s).1 = (BitWriter.flush s').1 ∧ Q (BitWriter.flush s).2 (BitWriter.flush s').2
  posInWord {s : ω} {s' : ω'} : Q s s' → BitWriter.posInWord s = BitWriter.posInWord s'
  bitsWritten {s : ω} {s' : ω'} : Q s s' → BitWriter.bitsWritten s = BitWriter.bitsWritten s'

/-- A reader mirrors itself. -/
theorem BitReader.mirrors_eq : Mirrors fun r r' : ρ => r = r' where
  readBit := by
    rintro r _ rfl
    exact ⟨rfl, rfl⟩
  readBits := by
    rintro r _ n rfl
    exact ⟨rfl, rfl⟩
  posInWord := congrArg _
  atEnd := congrArg _

/-- A writer mirrors itself. -/
theorem BitWriter.mirrors_eq (fits : ω → Word w → Nat → Prop) :
    Mirrors fits fun s s' : ω => s = s' where
  writeBit := by
    rintro s _ bit rfl
    exact ⟨rfl, rfl⟩
  writeBits := by
    rintro s _ x n - rfl
    exact ⟨rfl, rfl⟩
  flush := by
    rintro s _ rfl
    exact ⟨rfl, rfl⟩
  posInWord := congrArg _
  bitsWritten := congrArg _

section Mirrored

variable {R : ρ → ρ' → Prop} {fits : ω → Word w → Nat → Prop} {Q : ω → ω' → Prop}
  {r : ρ} {r' : ρ'} {s : ω} {s' : ω'}

theorem ReadCall.make_mirrors (hR : BitReader.Mirrors R) (hr : R r r') (c : ReadCall) :
    (c.make r).1 = (c.make r').1 ∧ R (c.make r).2 (c.make r').2 := by
  cases c with
  | bit =>
    obtain ⟨hanswer, hnext⟩ := hR.readBit hr
    exact ⟨congrArg (Except.map ReadValue.bit) hanswer, hnext⟩
  | bits n =>
    obtain ⟨hanswer, hnext⟩ := hR.readBits n hr
    exact ⟨congrArg (Except.map ReadValue.bits) hanswer, hnext⟩

theorem WriteCall.make_mirrors (hQ : BitWriter.Mirrors fits Q) (hs : Q s s') {c : WriteCall w}
    (hc : ∀ x n, c = .bits x n → fits s x n) :
    (c.make s).1 = (c.make s').1 ∧ Q (c.make s).2 (c.make s').2 := by
  cases c with
  | bit x =>
    obtain ⟨hanswer, hnext⟩ := hQ.writeBit x hs
    exact ⟨congrArg (Except.map (fun _ => none)) hanswer, hnext⟩
  | bits x n =>
    obtain ⟨hanswer, hnext⟩ := hQ.writeBits (hc x n rfl) hs
    exact ⟨congrArg (Except.map some) hanswer, hnext⟩
  | flush =>
    obtain ⟨hanswer, hnext⟩ := hQ.flush hs
    exact ⟨congrArg (Except.map (fun _ => none)) hanswer, hnext⟩

theorem display_mirrors (hR : BitReader.Mirrors R) (hQ : BitWriter.Mirrors fits Q) (hr : R r r')
    (hs : Q s s') : display r s = display r' s' := by
  rw [display, display, hR.posInWord hr, hR.atEnd hr, hQ.posInWord hs, hQ.bitsWritten hs]

variable (hR : BitReader.Mirrors R) (hQ : BitWriter.Mirrors fits Q)
  (hfits : ∀ {r : ρ} {n : Nat} {x : Word w},
    (BitReader.readBits r n).1 = .ok x → ∀ s : ω, fits s x n)
include hR hQ hfits

/-- A copy is as many calls on the one reader and writer as it is on the others. -/
theorem copyBits_mirrors (hr : R r r') (hs : Q s s') (n : Nat) :
    (copyBits r s n).1 = (copyBits r' s' n).1 ∧ R (copyBits r s n).2.1 (copyBits r' s' n).2.1 ∧
      Q (copyBits r s n).2.2 (copyBits r' s' n).2.2 := by
  -- each portion is read and written alike, and then there are fewer bits to be copied
  induction n using Nat.strongRecOn generalizing r r' s s' with
  | ind n ih =>
    rcases Nat.eq_zero_or_pos n with rfl | hpos
    · rw [copyBits_zero, copyBits_zero]
      exact ⟨rfl, hr, hs⟩
    · have hn : n ≠ 0 := Nat.ne_of_gt hpos
      have hbits := w.bits_pos
      have hread := hR.readBits (min n w.bits) hr
      rcases hgot : BitReader.readBits r (min n w.bits) with ⟨failure | x, r₁⟩
      · rcases hgot' : BitReader.readBits r' (min n w.bits) with ⟨answer, r₁'⟩
        rw [hgot, hgot'] at hread
        obtain ⟨rfl, hr₁⟩ := hread
        rw [copyBits_of_read_error hn hgot, copyBits_of_read_error hn hgot']
        exact ⟨rfl, hr₁, hs⟩
      · have hwrite := hQ.writeBits (hfits (by rw [hgot]) s) hs
        rcases hgot' : BitReader.readBits r' (min n w.bits) with ⟨answer, r₁'⟩
        rw [hgot, hgot'] at hread
        obtain ⟨rfl, hr₁⟩ := hread
        rcases hput : BitWriter.writeBits s x (min n w.bits) with ⟨failure | m, s₁⟩
        · rcases hput' : BitWriter.writeBits s' x (min n w.bits) with ⟨answer, s₁'⟩
          rw [hput, hput'] at hwrite
          obtain ⟨rfl, hs₁⟩ := hwrite
          rw [copyBits_of_write_error hn hgot hput, copyBits_of_write_error hn hgot' hput']
          exact ⟨rfl, hr₁, hs₁⟩
        · rcases hput' : BitWriter.writeBits s' x (min n w.bits) with ⟨answer, s₁'⟩
          rw [hput, hput'] at hwrite
          obtain ⟨rfl, hs₁⟩ := hwrite
          rw [copyBits_of_ok hn hgot hput, copyBits_of_ok hn hgot' hput']
          exact ih _ (by omega) hr₁ hs₁

namespace PairCall

theorem make_mirrors (streams : ρ × ω) (streams' : ρ' × ω') {c : PairCall w}
    (h : R streams.1 streams'.1 ∧ Q streams.2 streams'.2)
    (hc : ∀ x n, c = .write (.bits x n) → fits streams.2 x n) :
    (make streams c).1 = (make streams' c).1 ∧
      R (make streams c).2.1 (make streams' c).2.1 ∧
      Q (make streams c).2.2 (make streams' c).2.2 := by
  -- what is shown is the same if the streams are related
  have hshown : ∀ {answer answer' : PairAnswer w} {r : ρ} {r' : ρ'} {s : ω} {s' : ω'},
      answer = answer' → R r r' → Q s s' → (answer, display r s) = (answer', display r' s') := by
    intro answer answer' r r' s s' hanswer hr hs
    rw [hanswer, display_mirrors hR hQ hr hs]
  obtain ⟨hr, hs⟩ := h
  cases c with
  | write c =>
    obtain ⟨hanswer, hnext⟩ := WriteCall.make_mirrors hQ hs fun x n heq => hc x n (congrArg _ heq)
    exact ⟨hshown (congrArg _ hanswer) hr hnext, hr, hnext⟩
  | read c =>
    obtain ⟨hanswer, hnext⟩ := ReadCall.make_mirrors hR hr c
    exact ⟨hshown (congrArg _ hanswer) hnext hs, hnext, hs⟩
  | sendTo n | takeFrom n =>
    obtain ⟨hanswer, hr', hs'⟩ := copyBits_mirrors hR hQ hfits hr hs n
    exact ⟨hshown (congrArg _ hanswer) hr' hs', hr', hs'⟩

theorem run_mirrors (streams : ρ × ω) (streams' : ρ' × ω') {calls : List (PairCall w)}
    (hcalls : Admitted make
      (fun streams c => ∀ x n, c = .write (.bits x n) → fits streams.2 x n) streams calls)
    (h : R streams.1 streams'.1 ∧ Q streams.2 streams'.2) :
    (run streams calls).1 = (run streams' calls).1 ∧
      R (run streams calls).2.1 (run streams' calls).2.1 ∧
      Q (run streams calls).2.2 (run streams' calls).2.2 :=
  runAll_related make make (R := fun (a : ρ × ω) (b : ρ' × ω') => R a.1 b.1 ∧ Q a.2 b.2)
    (fun h hc => make_mirrors hR hQ hfits _ _ h hc) hcalls h

end PairCall

end Mirrored

end PackedBits
