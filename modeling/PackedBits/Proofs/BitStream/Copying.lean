import PackedBits.Proofs.BitStream.Filling

/-!
# Copying bits

Bits are copied in portions of a word, and the last portion has what is left.  Where the bits can be
copied one by one this makes no difference: every portion that is read has the bits that single
reads would have given, and it is written as single bits would have been (`copyBits_of_copyEach`).
Neither needs the stream that is read and the one that is written to be at the same place of a word.

The theorem is `copy_bit_by_bit`, about a packer whose sink does not fail and the bits that are left
of a marked stream.
-/

namespace PackedBits

open Word Layout

variable {w : Width}

/-! ### One portion -/

section Portion

variable {ρ ω : Type} [BitReader ρ w] [BitWriter ω w] {r r' : ρ} {s s' : ω} {n : Nat} {x : Word w}

theorem copyBits_zero (r : ρ) (s : ω) : copyBits r s 0 = (.ok (), r, s) := by
  rw [copyBits, if_pos rfl]

theorem copyBits_of_ok {m : Nat} (hn : n ≠ 0)
    (hread : BitReader.readBits r (min n w.bits) = (.ok x, r'))
    (hwrite : BitWriter.writeBits s x (min n w.bits) = (.ok m, s')) :
    copyBits r s n = copyBits r' s' (n - min n w.bits) := by
  rw [copyBits, if_neg hn]
  simp only [hread, hwrite]

theorem copyBits_of_read_error {failure : Failure StreamError} (hn : n ≠ 0)
    (hread : BitReader.readBits r (min n w.bits) = (.error failure, r')) :
    copyBits r s n = (.error (failure.map .reading), r', s) := by
  rw [copyBits, if_neg hn]
  simp only [hread]

theorem copyBits_of_write_error {failure : Failure StreamError} (hn : n ≠ 0)
    (hread : BitReader.readBits r (min n w.bits) = (.ok x, r'))
    (hwrite : BitWriter.writeBits s x (min n w.bits) = (.error failure, s')) :
    copyBits r s n = (.error (failure.map .writing), r', s') := by
  rw [copyBits, if_neg hn]
  simp only [hread, hwrite]

end Portion

/-! ### One by one and in portions -/

section Streams

variable {mode : EndMode} {σ κ : Type} [WordSource σ w] [WordSink κ w]

/-- Bits that can be read and written one by one can be copied. -/
theorem copyBits_of_copyEach {u u' : Unpacker mode w σ} {p p' : Packer w κ} {c : List Bool}
    {n : Nat} (hu : u.pos ≤ w.bits) (hp : p.Filling c) (h : copyEach u p n = (.ok (), u', p')) :
    copyBits u p n = (.ok (), u', p') := by
  -- the portions that are left are copied from and to wherever the first has ended
  induction n using Nat.strongRecOn generalizing u p c with
  | ind n ih =>
    rcases Nat.eq_zero_or_pos n with rfl | hpos
    · rw [copyBits_zero]
      exact h
    · have hbits := w.bits_pos
      have hsum : n = min n w.bits + (n - min n w.bits) := by omega
      rw [hsum] at h
      obtain ⟨bits, hreads, hwrites⟩ := copyEach_eq_ok_iff.mp h
      obtain ⟨front, u₁, back, hfront, hback, rfl⟩ := BitReader.readEach_add_eq_ok_iff.mp hreads
      obtain ⟨p₁, hfront', hback'⟩ := BitWriter.writeEach_append_eq_ok_iff.mp hwrites
      have hlen := BitReader.length_of_readEach hfront
      have hk : 0 < min n w.bits ∧ min n w.bits ≤ w.bits := by omega
      have hread := Unpacker.readBits_of_readEach hu hk hfront
      have hu₁ : u₁.pos ≤ w.bits := by
        have hle := Unpacker.readBits_pos_le hu (min n w.bits)
        rwa [hread] at hle
      have hwrite := hp.writeBits_of_writeEach hk hlen hfront'
      obtain ⟨⟨c₁, hp₁⟩, -⟩ := hp.of_writeEach hfront'
      rw [copyBits_of_ok (by omega) hread hwrite]
      exact ih _ (by omega) hu₁ hp₁ (copyEach_eq_ok_iff.mpr ⟨back, hback, hback'⟩)

/-- What is left of a stream can be read one by one. -/
theorem Unpacker.View.readEach {R : Unpacker mode w σ → List Bool → Prop} (hR : View mode R)
    {u : Unpacker mode w σ} {bs : List Bool} (h : R u bs) {n : Nat} (hn : n ≤ bs.length) :
    ∃ u', BitReader.readEach u n = (.ok (bs.take n), u') ∧ R u' (bs.drop n) := by
  induction n generalizing u bs with
  | zero => exact ⟨u, rfl, h⟩
  | succ n ih =>
    cases bs with
    | nil => exact absurd hn (Nat.not_succ_le_zero n)
    | cons bit bs =>
      obtain ⟨u₁, hbit, hu₁⟩ := hR.readBit h
      obtain ⟨u', hrest, hu'⟩ := ih hu₁ (Nat.le_of_succ_le_succ hn)
      exact ⟨u', BitReader.readEach_succ_eq_ok_iff.mpr ⟨bit, u₁, bs.take n, hbit, hrest, rfl⟩, hu'⟩

end Streams

/-! ### What is left of a stream -/

open Packer Unpacker

variable {σ κ τ : Type} [WordSource σ w] [WordSink κ w] [WordSink τ w]

/-- **Copying.** The words of any writes are opened as a marked stream.  Then let any reads have
taken some of the bits, let any writes have been made to a packer over a sink that does not fail,
and let no more bits be copied than are left.  Copying them succeeds and comes to what reading and
writing them one by one comes to: the unpacker and the packer are left alike, with the same calls in
the record of its sink.  So many more bits have been written, and the unpacker is at its end exactly
if all the bits have now been read. -/
theorem copy_bit_by_bit {s : κ} (hs : Unfailing s) {calls : List (WriteCall w)}
    (hcalls : ∀ c ∈ calls, c.InRange) (e : Closing) {t : σ}
    (ht : Serves t ((WriteCall.run (recording w true s) calls).2.finish e).2.words) :
    let b := WriteCall.stream calls
    ∃ (u : Unpacker .marked w σ) (t' : σ), openMarked t = (.ok u, t') ∧
      ∀ (reads : List ReadCall) (n : Nat), (∀ c ∈ reads, c.InRange w) →
      ∀ {s' : τ}, Unfailing s' → ∀ (marked strict : Bool) (writes : List (WriteCall w)),
        let read := (reads.map ReadCall.width).sum
        let r := (ReadCall.run u reads).2
        let p := (WriteCall.run
          ({ sink := { sink := s' }, marked, strict } : Packer w (Recorded w τ)) writes).2
        read + n ≤ b.length →
          ∃ r' p', copyEach r p n = (.ok (), r', p') ∧ BitReader.sendTo r p n = (.ok (), r', p') ∧
            BitWriter.takeFrom p r n = (.ok (), p', r') ∧
            BitWriter.bitsWritten p' = BitWriter.bitsWritten p + n ∧
            (BitReader.atEnd r' = true ↔ read + n = b.length) := by
  intro b
  have hwords : ((WriteCall.run (recording w true s) calls).2.finish e).2.words = layout true b :=
    words_finish_run_recording hs true hcalls e
  rw [hwords] at ht
  obtain ⟨u, t', hopen, hu⟩ := remains_openMarked ht
  rw [validBits_layout] at hu
  refine ⟨u, t', hopen, ?_⟩
  intro reads n hreads s' hs' marked strict writes read r p hn
  -- what is left to read, and what the packer is filling
  have hr : Remains r (b.drop read) := Remains.view.run hu hreads (by omega)
  obtain ⟨⟨c, hp⟩, hsink⟩ : (∃ c, p.Filling c) ∧ Unfailing p.sink :=
    (filling_new ({ sink := s' } : Recorded w τ) marked strict).run_of_unfailing
      (Recorded.unfailing hs' #[]) writes
  obtain ⟨r', hbits, hr'⟩ := Remains.view.readEach (n := n) hr (by rw [List.length_drop]; omega)
  obtain ⟨p', hwrites⟩ := hp.exists_writeEach hsink ((b.drop read).take n)
  have heach : copyEach r p n = (.ok (), r', p') := copyEach_eq_ok_iff.mpr ⟨_, hbits, hwrites⟩
  have hcopy : copyBits r p n = (.ok (), r', p') := copyBits_of_copyEach hr.pos_le hp heach
  refine ⟨r', p', heach, hcopy, ?_, ?_, ?_⟩
  · rw [BitWriter.takeFrom, hcopy]
  · have hwritten := (hp.of_writeEach hwrites).2
    rwa [← BitReader.length_of_readEach hbits]
  · have hend : BitReader.atEnd r' = ((b.drop read).drop n).isEmpty := hr'.atEnd
    rw [hend, List.drop_drop, List.isEmpty_iff, List.drop_eq_nil_iff]
    omega

/-- Fourteen bits of which three have been read: the others are copied behind the two bits of a
packer. -/
theorem copy_bit_by_bit_eleven_bits :
    let calls : List (WriteCall .w8) := [.bits 0x16 5, .bit true, .bits 0xa5 8]
    let words :=
      ((WriteCall.run (recording .w8 true ({} : WordBuffer .w8)) calls).2.finish .close).2.words
    let p := (WriteCall.run ({ sink := { sink := {} }, marked := false, strict := true } :
      Packer .w8 (Recorded .w8 (WordBuffer .w8))) [.bits 0x3 2]).2
    Unfailing ({} : WordBuffer .w8) ∧ (∀ c ∈ calls, c.InRange) ∧
      Serves ({ words } : Tape .w8) words ∧
      (∀ c ∈ [ReadCall.bits 3], c.InRange .w8) ∧ (WriteCall.stream calls).length = 14 ∧
      ∃ (u : Unpacker .marked .w8 (Tape .w8)) (t' : Tape .w8), openMarked { words } = (.ok u, t') ∧
        ∃ r' p', copyEach (ReadCall.run u [.bits 3]).2 p 11 = (.ok (), r', p') ∧
          BitReader.sendTo (ReadCall.run u [.bits 3]).2 p 11 = (.ok (), r', p') ∧
          BitWriter.bitsWritten p' = 13 ∧ BitReader.atEnd r' = true := by
  intro calls words p
  have hs := WordBuffer.unfailing ({} : WordBuffer .w8)
  have hcalls : ∀ c ∈ calls, c.InRange := by decide
  have hreads : ∀ c ∈ [ReadCall.bits 3], c.InRange .w8 := by simp [ReadCall.InRange, Width.bits]
  obtain ⟨u, t', hopen, hcopy⟩ :=
    copy_bit_by_bit (τ := WordBuffer .w8) hs hcalls .close (Tape.serves words)
  obtain ⟨r', p', heach, hsend, -, hwritten, hend⟩ :=
    hcopy [.bits 3] 11 hreads hs false true [.bits 0x3 2] (by decide)
  exact ⟨hs, hcalls, Tape.serves words, hreads, by decide, u, t', hopen, r', p', heach, hsend,
    hwritten, hend.mpr (by decide)⟩

end PackedBits
