import PackedBits.Proofs.BitStream.Bitwise
import PackedBits.Proofs.BitStream.Unbounded

/-!
# How far a source is read

An unpacker takes words one by one, and takes one when a bit is asked for that is not in the current
word.  So after `c` bits it has begun `a` words and given out `pos` bits of the last of them, where
`a * w.bits + pos = c + w.bits`; and since the position is not zero after a read, `a` is the number
of words that `c` bits need.  Nothing in this depends on how the bits were asked for.

This is said of any `View` (`View.tracked`), together with anything that is known of the source
after `a` words.  What is known of a source that is `Tallied` is how often it has been read.  A
marked unpacker reads a word when it is opened and one for each that it begins, as far as there are
any, and an unbounded one just those that it begins (`reads_tallied`).
-/

namespace PackedBits.Unpacker

open Word Layout

variable {mode : EndMode} {w : Width} {σ : Type} [WordSource σ w]

/-! ### The position -/

section Position

variable {u u' : Unpacker mode w σ}

/-- The two ways in which the read of a group succeeds. -/
theorem readBits_eq_ok {n : Nat} {x : Word w} (h : u.readBits n = (.ok x, u')) :
    (0 < n ∧ n ≤ w.bits) ∧ u.atEnd = false ∧ u.pos ≤ w.bits ∧
      ((u.pos + n ≤ w.bits ∧ u' = { u with pos := u.pos + n }) ∨
        (w.bits < u.pos + n ∧ ∃ v, u.advance = (.ok (), v) ∧
          u' = { v with pos := n - (w.bits - u.pos) })) := by
  by_cases hn : 0 < n ∧ n ≤ w.bits
  · cases hend : u.atEnd with
    | true => simp [readBits, hn, hend] at h
    | false =>
      rcases Nat.lt_or_ge w.bits u.pos with hbeyond | hpos
      · simp [readBits, hn, hend, hbeyond] at h
      refine ⟨hn, rfl, hpos, ?_⟩
      rcases Nat.lt_or_ge w.bits (u.pos + n) with hcross | hfit
      · rcases hadvance : u.advance with ⟨failure | _, v⟩
        · rw [readBits_of_advance_error hn hend hpos hcross hadvance] at h
          simp at h
        · rw [readBits_of_advance hn hend hpos hcross hadvance, Prod.mk.injEq] at h
          exact .inr ⟨hcross, v, rfl, h.2.symm⟩
      · rw [readBits_of_le hn hend hfit, Prod.mk.injEq] at h
        exact .inl ⟨hfit, h.2.symm⟩
  · simp [readBits, hn] at h

/-- After a read the position is behind a bit. -/
theorem pos_of_make {c : ReadCall} {value : ReadValue w} (h : c.make u = (.ok value, u')) :
    0 < u'.pos := by
  cases c with
  | bit =>
    have hmake : ReadCall.make u .bit = (u.readBit.1.map .bit, u.readBit.2) := rfl
    rw [hmake] at h
    rcases hread : u.readBit with ⟨failure | bit, v⟩
    · simp [hread, Except.map] at h
    · rw [hread] at h
      obtain rfl : v = u' := congrArg Prod.snd h
      obtain ⟨-, ⟨-, -, rfl⟩ | ⟨-, v, -, -, rfl⟩⟩ := readBit_eq_ok hread
      · exact Nat.succ_pos _
      · exact Nat.one_pos
  | bits n =>
    have hmake : ReadCall.make u (.bits n) = ((u.readBits n).1.map .bits, (u.readBits n).2) := rfl
    rw [hmake] at h
    rcases hread : u.readBits n with ⟨failure | x, v⟩
    · simp [hread, Except.map] at h
    · rw [hread] at h
      obtain rfl : v = u' := congrArg Prod.snd h
      obtain ⟨hn, -, hpos, ⟨-, rfl⟩ | ⟨hcross, v, -, rfl⟩⟩ := readBits_eq_ok hread
      · exact Nat.add_pos_right _ hn.1
      · dsimp only
        omega

end Position

namespace View

variable {R : Unpacker mode w σ → List Bool → Prop} {u : Unpacker mode w σ} {bs : List Bool}
  {calls : List ReadCall}

theorem pos_run (hR : View mode R) (h : R u bs) (hpos : 0 < u.pos)
    (hcalls : ∀ c ∈ calls, c.InRange w) (hn : (calls.map ReadCall.width).sum ≤ bs.length) :
    0 < (ReadCall.run u calls).2.pos := by
  have hmake : ∀ {bs : List Bool} {u : Unpacker mode w σ} {c : ReadCall}, R u bs ∧ 0 < u.pos →
      c.InRange w ∧ c.width ≤ bs.length →
      True ∧ R (c.perform u).2 (bs.drop c.width) ∧ 0 < (c.perform u).2.pos := by
    intro bs u c hu hc
    obtain ⟨u', heq, hu'⟩ := hR.make hu.1 hc.1 hc.2
    rw [ReadCall.perform_of_make heq]
    exact ⟨trivial, hu', pos_of_make heq⟩
  exact (runAll_forall₂ ReadCall.takeFrom ReadCall.perform (Q := fun _ _ => True)
    (R := fun bs u => R u bs ∧ 0 < u.pos) hmake (ReadCall.admitted_takeFrom hcalls hn)
    ⟨h, hpos⟩).2.2

/-- The answers where an unpacker never is at its end. -/
theorem run_eq_answers (hR : View mode R) (hend : ∀ {u bs}, R u bs → u.atEnd = false) (h : R u bs)
    (hcalls : ∀ c ∈ calls, c.InRange w) (hn : (calls.map ReadCall.width).sum ≤ bs.length) :
    (ReadCall.run u calls).1
      = (ReadCall.answers bs calls).map fun answer => (answer.1, false) :=
  hR.run_eq_map_answers (fun _ => false) hend h hcalls hn

/-! ### Words begun -/

/-- In any view the words that were begun make up for the bits that are gone of `total`, and what is
known of the source may depend on how many they are. -/
theorem tracked (hR : View mode R) {P : Nat → σ → Prop}
    (hP : ∀ {u u' : Unpacker mode w σ} {a : Nat},
      P a u.source → u.advance = (.ok (), u') → P (a + 1) u'.source) (total : Nat) :
    View mode fun u bs =>
      R u bs ∧ ∃ a, P a u.source ∧ a * w.bits + u.pos + bs.length = total + w.bits where
  pos_le h := hR.pos_le h.1
  atEnd h := hR.atEnd h.1
  group {u bs n} h hpos hn hw := by
    obtain ⟨hu, a, hs, hplace⟩ := h
    obtain ⟨hvalue, hrest⟩ := hR.group hu hpos hn hw
    refine ⟨hvalue, hrest, a, hs, ?_⟩
    rw [List.length_drop]
    dsimp only
    omega
  advance {u bs} h hn := by
    obtain ⟨hu, a, hs, hplace⟩ := h
    have hpos := hR.pos_le hu
    obtain ⟨u', hadvance, hpos', hvalue, hrest⟩ := hR.advance hu hn
    refine ⟨u', hadvance, hpos', hvalue, hrest, a + 1, hP hs hadvance, ?_⟩
    rw [hpos', List.length_drop, Nat.succ_mul]
    omega

end View

/-- The words that `c` bits need. -/
theorem words_begun {a bits pos c : Nat} (h : a * bits + pos = c + bits) (hpos : 0 < pos)
    (hle : pos ≤ bits) : (c + (bits - 1)) / bits = a := by
  apply Nat.div_eq_of_lt_le
  · omega
  · rw [Nat.succ_mul]
    omega

/-! ### Marked unpackers -/

section Marked

variable {S : σ → List (Word w) → Prop} {ws : List (Word w)}

/-- An opening reads one word, if there is one. -/
theorem source_of_openMarked (hS : SourceView S) {s t : σ} (h : S s ws) {u : Unpacker .marked w σ}
    (hopen : openMarked s = (.ok u, t)) : S u.source ws.tail := by
  obtain ⟨s₁, hend, hs₁⟩ := hS.atEnd h
  cases ws with
  | nil =>
    rw [openMarked_of_end hend, Prod.mk.injEq, Except.ok.injEq] at hopen
    rw [← hopen.1]
    exact hs₁
  | cons x ws =>
    obtain ⟨s₂, hread, hs₂⟩ := hS.read hs₁
    rw [openMarked_of_read hend hread, Prod.mk.injEq, Except.ok.injEq] at hopen
    rw [← hopen.1]
    exact hs₂

/-- And so does advancing. -/
theorem source_of_advance (hS : SourceView S) {u u' : Unpacker .marked w σ} (h : S u.source ws)
    (hadvance : u.advance = (.ok (), u')) : S u'.source ws.tail := by
  have hlast := lastBits_of_advance hadvance
  obtain ⟨s₁, hend₁, hs₁⟩ := hS.atEnd h
  cases ws with
  | nil =>
    rw [advance_of_end hlast hend₁] at hadvance
    obtain ⟨-, rfl⟩ := Prod.mk.inj hadvance
    exact hs₁
  | cons x ws =>
    obtain ⟨s₂, hread, hs₂⟩ := hS.read hs₁
    obtain ⟨s₃, hend₃, hs₃⟩ := hS.atEnd hs₂
    rw [advance_of_read hlast hend₁ hread hend₃] at hadvance
    obtain ⟨-, rfl⟩ := Prod.mk.inj hadvance
    exact hs₃

end Marked

/-! ### Any reads -/

section Tallied

variable {s : σ} {ws : List (Word w)} {calls : List ReadCall}

/-- A marked unpacker. -/
theorem marked_reads_tallied (hs : Serves s ws) (hcalls : ∀ c ∈ calls, c.InRange w)
    (hn : (calls.map ReadCall.width).sum ≤ (validBits ws).length) :
    ∃ (u : Unpacker .marked w (Tallied σ)) (t : Tallied σ),
      openMarked ({ source := s } : Tallied σ) = (.ok u, t) ∧
      (ReadCall.run u calls).1 = ReadCall.answers (validBits ws) calls ∧
      Tallied.Counts ws (ReadCall.run u calls).2.source
        (ws.drop (((calls.map ReadCall.width).sum + (w.bits - 1)) / w.bits + 1)) := by
  have hS := Tallied.sourceView (σ := σ) ws
  have hcounts := Tallied.counts_new hs
  obtain ⟨u, t, hopen, hremains⟩ := remains_openMarked ⟨_, hS, hcounts⟩
  have hsource := source_of_openMarked hS hcounts hopen
  have hpos := pos_of_openMarked hopen
  have hview := Remains.view.tracked (P := fun a t => Tallied.Counts ws t (ws.drop (a + 1)))
    (fun h hadvance => by rw [← List.tail_drop]; exact source_of_advance hS h hadvance)
    (validBits ws).length
  have hstart : Remains u (validBits ws) ∧ ∃ a, Tallied.Counts ws u.source (ws.drop (a + 1)) ∧
      a * w.bits + u.pos + (validBits ws).length = (validBits ws).length + w.bits := by
    refine ⟨hremains, 0, by rwa [List.drop_one], by omega⟩
  obtain ⟨hleft, a, hcount, hplace⟩ := hview.run hstart hcalls hn
  have hend := hview.pos_run hstart (hpos ▸ w.bits_pos) hcalls hn
  refine ⟨u, t, hopen, hremains.run hcalls hn, ?_⟩
  rw [List.length_drop] at hplace
  rwa [words_begun (a := a) (by omega) hend hleft.pos_le]

/-- An unbounded one. -/
theorem unbounded_reads_tallied (hs : Serves s ws) (hcalls : ∀ c ∈ calls, c.InRange w)
    (hn : (calls.map ReadCall.width).sum ≤ ws.length * w.bits) :
    let done := ReadCall.run
      (openUnbounded { source := s } : Unpacker .unbounded w (Tallied σ)) calls
    done.1 = (ReadCall.answers (joinBits ws) calls).map (fun answer => (answer.1, false)) ∧
      done.2.source.reads = ((calls.map ReadCall.width).sum + (w.bits - 1)) / w.bits ∧
      Serves done.2.source.source (ws.drop done.2.source.reads) := by
  have hview := Flows.view (Tallied.sourceView (σ := σ) ws)
  have hstart := flows_openUnbounded (Tallied.counts_new hs)
  rw [← length_joinBits] at hn
  have hleft := hview.run hstart hcalls hn
  have hend := hview.pos_run hstart w.bits_pos hcalls hn
  refine ⟨hview.run_eq_answers Flows.atEnd hstart hcalls hn, ?_⟩
  obtain ⟨left, ⟨hserves, rfl, hreads⟩, hsplit⟩ := hleft.split
  refine ⟨?_, hserves⟩
  -- of the words that were taken all bits are gone but those behind the position
  obtain ⟨k, hk⟩ := Nat.exists_eq_add_of_le hreads
  have hpos := hleft.pos_le
  have hlen := congrArg List.length hsplit
  rw [length_joinBits, hk, Nat.add_mul] at hn
  rw [List.length_drop, length_joinBits, List.length_append, List.length_drop, length_bits,
    length_joinBits, List.length_drop, hk, Nat.add_mul, Nat.add_sub_cancel_left] at hlen
  exact (words_begun (by omega) hend hpos).symm

/-- **How far a source is read.** A source serves any words, and is read by calls for `c` bits in
any groups, none of them past the end.  The calls get these bits.  A marked unpacker has then called
for one word more than `c` bits need, or for all the words if there are not so many, and an
unbounded one for just those that `c` bits need.  What its source is still to give are the words
behind them. -/
theorem reads_tallied (hs : Serves s ws) (hcalls : ∀ c ∈ calls, c.InRange w) :
    let c := (calls.map ReadCall.width).sum
    let needed := (c + (w.bits - 1)) / w.bits
    (c ≤ (validBits ws).length →
      ∃ (u : Unpacker .marked w (Tallied σ)) (t : Tallied σ),
        openMarked ({ source := s } : Tallied σ) = (.ok u, t) ∧
        let done := ReadCall.run u calls
        done.1 = ReadCall.answers (validBits ws) calls ∧
          done.2.source.reads = min ws.length (needed + 1) ∧
          Serves done.2.source.source (ws.drop done.2.source.reads)) ∧
    (c ≤ ws.length * w.bits →
      let done := ReadCall.run
        (openUnbounded { source := s } : Unpacker .unbounded w (Tallied σ)) calls
      done.1 = (ReadCall.answers (joinBits ws) calls).map (fun answer => (answer.1, false)) ∧
        done.2.source.reads = needed ∧
        Serves done.2.source.source (ws.drop done.2.source.reads)) := by
  intro c needed
  constructor
  · intro hn
    obtain ⟨u, t, hopen, hanswers, hserves, hleft, hreads⟩ := marked_reads_tallied hs hcalls hn
    refine ⟨u, t, hopen, hanswers, ?_, hleft ▸ hserves⟩
    have hlen := congrArg List.length hleft
    rw [List.length_drop, List.length_drop] at hlen
    have hneeded : needed = ((calls.map ReadCall.width).sum + (w.bits - 1)) / w.bits := rfl
    rw [← hneeded] at hlen
    omega
  · exact unbounded_reads_tallied hs hcalls

/-- Eleven bits of three words: two words are needed, and the marked unpacker has the third as
well. -/
theorem reads_tallied_eleven_bits :
    let ws : List (Word .w8) := [0x96, 0x5a, 0x23]
    let calls : List ReadCall := [.bits 3, .bit, .bits 7]
    Serves ({ words := ws } : Tape .w8) ws ∧ (∀ c ∈ calls, c.InRange .w8) ∧
      (calls.map ReadCall.width).sum = 11 ∧ (validBits ws).length = 19 ∧
      (∃ (u : Unpacker .marked .w8 (Tallied (Tape .w8))) (t : Tallied (Tape .w8)),
        openMarked ({ source := { words := ws } } : Tallied (Tape .w8)) = (.ok u, t) ∧
        (ReadCall.run u calls).2.source.reads = 3) ∧
      (ReadCall.run (openUnbounded { source := { words := ws } } :
        Unpacker .unbounded .w8 (Tallied (Tape .w8))) calls).2.source.reads = 2 := by
  intro ws calls
  have hcalls : ∀ c ∈ calls, c.InRange .w8 := by decide
  have hvalid : (validBits ws).length = 19 := by decide
  obtain ⟨hmarked, hunbounded⟩ := reads_tallied (Tape.serves ws) hcalls
  obtain ⟨u, t, hopen, -, hreads, -⟩ := hmarked (by rw [hvalid]; decide)
  exact ⟨Tape.serves ws, hcalls, rfl, hvalid, ⟨u, t, hopen, hreads.trans (by decide)⟩,
    (hunbounded (by decide)).2.1.trans (by decide)⟩

end Tallied

end PackedBits.Unpacker
