import PackedBits.Proofs.BitStream.Packer
import PackedBits.Proofs.BitStream.Unpacker

/-!
# Packing and unpacking

What a packer passes to its sink is the layout of the bits that were written
(`Packer.words_finish_run_recording`), and what an unpacker gives out are the valid bits of its
words (`Unpacker.remains_openMarked`).  Since the one undoes the other on bits, and on words exactly
where these are canonical, bits that were packed are read back whatever the widths of the writes and
reads (`read_back`), and words that are unpacked and packed again are the same exactly if they are
canonical (`repack_eq_iff`).
-/

namespace PackedBits

open Word Layout Packer Unpacker

variable {w : Width} {κ σ : Type} [WordSink κ w] [WordSource σ w]

/-- **Round trip.** The words of any writes, ended in any way, open as a marked stream; the unpacker
is at its end if there are no bits, and any reads of no more bits than were written give these in
order, each time with the end exactly when all of them have been read. -/
theorem read_back {s : κ} (hs : Unfailing s) (calls : List (WriteCall w))
    (hcalls : ∀ c ∈ calls, c.InRange) (e : Closing) :
    let b := WriteCall.stream calls
    let ended := (WriteCall.run (recording w true s) calls).2.finish e
    ended.1 = .ok () ∧ ∀ t : σ, Serves t ended.2.words →
      ∃ (u : Unpacker .marked w σ) (t' : σ), openMarked t = (.ok u, t') ∧
        BitReader.atEnd u = b.isEmpty ∧
        ∀ reads : List ReadCall, (∀ c ∈ reads, c.InRange w) →
          (reads.map ReadCall.width).sum ≤ b.length →
          (ReadCall.run u reads).1 = ReadCall.answers b reads := by
  intro b ended
  refine ⟨(finish_run_recording hs true hcalls e).1, ?_⟩
  intro t ht
  have hwords : ended.2.words = layout true b := words_finish_run_recording hs true hcalls e
  rw [hwords] at ht
  obtain ⟨u, t', hopen, hu⟩ := remains_openMarked ht
  rw [validBits_layout] at hu
  exact ⟨u, t', hopen, hu.atEnd, fun reads hreads hlen => hu.run hreads hlen⟩

/-- Six bits in words of eight, read back across the writes. -/
theorem read_back_six_bits :
    let calls : List (WriteCall .w8) := [.bits 0x16 5, .bit true]
    let words := ((WriteCall.run (recording .w8 true ({} : WordBuffer .w8)) calls).2.finish
      .close).2.words
    (∀ c ∈ calls, c.InRange) ∧ Unfailing ({} : WordBuffer .w8) ∧
      Serves ({ words } : Tape .w8) words ∧
      (∀ c ∈ [ReadCall.bits 4, .bit, .bit], c.InRange .w8) ∧
      ∃ (u : Unpacker .marked .w8 (Tape .w8)) (t' : Tape .w8),
        openMarked { words } = (.ok u, t') ∧ BitReader.atEnd u = false ∧
        (ReadCall.run u [.bits 4, .bit, .bit]).1
          = [(.ok (.bits 0x6), false), (.ok (.bit true), false), (.ok (.bit true), true)] := by
  intro calls words
  have hcalls : ∀ c ∈ calls, c.InRange := by decide
  have hreads : ∀ c ∈ [ReadCall.bits 4, .bit, .bit], c.InRange .w8 := by
    simp [ReadCall.InRange, Width.bits]
  refine ⟨hcalls, WordBuffer.unfailing _, Tape.serves words, hreads, ?_⟩
  obtain ⟨-, hread⟩ := read_back (σ := Tape .w8) (WordBuffer.unfailing {}) calls hcalls .close
  obtain ⟨u, t', hopen, hend, hrun⟩ := hread _ (Tape.serves words)
  refine ⟨u, t', hopen, hend, ?_⟩
  rw [hrun _ hreads (by decide)]
  rfl

/-- **Canonical streams.** All the bits of any words can be read, and any writes of just these bits,
ended in any way, give the same words if and only if the words are canonical. -/
theorem repack_eq_iff {s : κ} (hs : Unfailing s) {t : σ} {ws : List (Word w)} (ht : Serves t ws) :
    ∃ (u : Unpacker .marked w σ) (t' : σ) (n : Nat) (bits : List Bool) (u' : Unpacker .marked w σ),
      openMarked t = (.ok u, t') ∧ BitReader.readUpTo u n = ((bits, .atEnd), u') ∧
      ∀ (calls : List (WriteCall w)) (e : Closing), (∀ c ∈ calls, c.InRange) →
        WriteCall.stream calls = bits →
        (((WriteCall.run (recording w true s) calls).2.finish e).2.words = ws ↔ Canonical ws) := by
  obtain ⟨u, t', hopen, hu⟩ := remains_openMarked ht
  have hread := hu.readUpTo ((validBits ws).length + 1)
  rw [List.take_of_length_le (Nat.le_succ _), if_neg (Nat.not_succ_le_self _)] at hread
  refine ⟨u, t', (validBits ws).length + 1, validBits ws, _, hopen, Prod.ext hread rfl, ?_⟩
  intro calls e hcalls hstream
  rw [words_finish_run_recording hs true hcalls e, hstream]
  exact layout_validBits_iff ws

/-- A word with a bit between its three valid bits and the mark is not canonical, and packing its
valid bits again, one by one, gives something else. -/
theorem repack_stray_bit :
    let ws : List (Word .w8) := [0x2d]
    Unfailing ({} : WordBuffer .w8) ∧ Serves ({ words := ws } : Tape .w8) ws ∧ ¬Canonical ws ∧
      ∃ (u : Unpacker .marked .w8 (Tape .w8)) (t' : Tape .w8) (n : Nat) (bits : List Bool)
        (u' : Unpacker .marked .w8 (Tape .w8)),
        openMarked { words := ws } = (.ok u, t') ∧
        BitReader.readUpTo u n = ((bits, .atEnd), u') ∧
        ((WriteCall.run (recording .w8 true ({} : WordBuffer .w8)) (bits.map .bit)).2.finish
          .close).2.words ≠ ws := by
  intro ws
  have hcanonical : ¬Canonical ws := by decide
  refine ⟨WordBuffer.unfailing _, Tape.serves ws, hcanonical, ?_⟩
  obtain ⟨u, t', n, bits, u', hopen, hread, hiff⟩ :=
    repack_eq_iff (WordBuffer.unfailing ({} : WordBuffer .w8)) (Tape.serves ws)
  refine ⟨u, t', n, bits, u', hopen, hread, ?_⟩
  intro heq
  have hrange : ∀ c ∈ (bits.map .bit : List (WriteCall .w8)), c.InRange := by
    intro c hc
    obtain ⟨x, -, rfl⟩ := List.mem_map.mp hc
    exact trivial
  exact hcanonical ((hiff _ .close hrange (WriteCall.stream_map_bit bits)).mp heq)

end PackedBits
