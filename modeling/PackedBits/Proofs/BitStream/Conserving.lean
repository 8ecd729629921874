import PackedBits.Proofs.BitStream.Copying
import PackedBits.Proofs.BitStream.Unbounded
import PackedBits.Proofs.WordStream.Attempts

/-!
# Copying that comes to a stop

Copying is stopped by the stream that is read, when its bits have run out, or by the sink of the
stream that is written.  Whatever stops it, as many bits have been taken from the one as the other
has counted.

Of an unbounded unpacker over a row of words it is known exactly when its bits have run out: the
portion that asks for more than are left is refused as a whole, so that all portions of a full word
have been copied and the few bits behind them are still there.  A sink that refuses has met a
portion which has left the unpacker already and which the packer has counted before it asked.

How a copy ends is said by `CopyEnding`, with one case for each outcome, and what holds whatever the
outcome by `Conserves`.  A portion that is copied puts its bits in front of those of the others
(`Conserves.portion`), and this is all that there is to do (`conserves_copyBits`).  The theorem is
`copy_conserves`.
-/

namespace PackedBits

open Word Packer Unpacker

variable {w : Width}

/-! ### The bits of a stream -/

/-- The bits that are left to an unpacker of a row. -/
def Unpacker.left (u : Unpacker .unbounded w (Tape w)) : List Bool :=
  u.word.bits.drop u.pos ++ joinBits (u.source.words.drop u.source.pos)

section Stream

variable {κ : Type} [WordSink κ w]

/-- The bits that a packer has put into the stream: those of the words that its sink has taken, and
those of the word it is filling. -/
def Packer.stream (p : Packer w (Logged w κ)) : List Bool :=
  joinBits p.sink.taken ++ p.word.lowBits p.pos

variable {p q : Packer w (Logged w κ)} {c d : List Bool}

omit [WordSink κ w] in
theorem Packer.Filling.stream_eq (h : p.Filling c) : p.stream = joinBits p.sink.taken ++ c := by
  rw [stream, h.word, h.pos, lowBits_ofBits (Nat.le_of_lt h.room)]

/-- Bits that are put into a packer are put into the stream. -/
theorem Packer.Put.stream_eq (h : Put c d p q) (hp : p.Filling c) (hd : d.length ≤ w.bits) :
    q.stream = p.stream ++ d := by
  cases h with
  | room hroom =>
    have hq : Filling (c ++ d) (p.refill (c ++ d) d.length) :=
      filling_refill hp.closed (by rwa [List.length_append]) _
    rw [hq.stream_eq, hp.stream_eq, List.append_assoc]
    rfl
  | @full l' hfull hwrite =>
    have hroom := hp.room
    have hle : w.bits ≤ (c ++ d).length := by rwa [List.length_append]
    have hq : Filling (d.drop (w.bits - c.length))
        ((p.relay l').refill (d.drop (w.bits - c.length)) d.length) :=
      filling_refill (p := p.relay l') hp.closed (by rw [List.length_drop]; omega) _
    have hrest : d.drop (w.bits - c.length) = (c ++ d).drop w.bits := by
      rw [List.drop_append, List.drop_eq_nil_of_le (Nat.le_of_lt hroom), List.nil_append]
    -- the word that is taken and the one that is begun have all of the bits
    rw [hq.stream_eq, hp.stream_eq]
    show joinBits l'.taken ++ _ = _
    rw [Logged.taken_write hwrite, joinBits_append, joinBits_cons, joinBits_nil, List.append_nil,
      bits_ofBits_of_le hle, hrest, List.append_assoc, List.take_append_drop, List.append_assoc]

theorem Packer.Put.log_eq (h : Put c d p q) : ∃ log, q.sink.log = p.sink.log ++ log := by
  cases h with
  | room => exact ⟨[], (List.append_nil _).symm⟩
  | full _ hwrite => exact ⟨_, Logged.log_write hwrite⟩

end Stream

/-! ### How a copy ends -/

section Copy

variable {κ : Type} [WordSink κ w] {m n : Nat} {bs c : List Bool}
  {u : Unpacker .unbounded w (Tape w)} {p p₁ : Packer w (Logged w κ)}

/-- What has become of a packer with each outcome of a copy of `n` bits, where `bs` were left to
read, `k` of them have been copied, and the calls of `log` have been made on the sink. -/
inductive CopyEnding (bs : List Bool) (p : Packer w (Logged w κ)) (n k : Nat)
    (log : List (SinkCall w × Outcome StreamError Unit)) (p' : Packer w (Logged w κ)) :
    Outcome CopyError Unit → Prop where
  | done : k = n → p'.stream = p.stream ++ bs.take k → CopyEnding bs p n k log p' (.ok ())
  | unread {error : StreamError} : bs.length < n → k = w.bits * (bs.length / w.bits) →
    p'.stream = p.stream ++ bs.take k →
    CopyEnding bs p n k log p' (.error (.refused (.reading error)))
  | unwritten {call : SinkCall w} {failure : Failure StreamError} :
    (call, .error failure) ∈ log → CopyEnding bs p n k log p' (.error (failure.map .writing))

theorem map_writing_ne (failure : Failure StreamError) (error : StreamError) :
    failure.map CopyError.writing ≠ .refused (.reading error) := by
  cases failure with
  | refused e => simp [Failure.map]
  | fault x => simp [Failure.map]

/-- What a copy of `n` bits comes to, of which it has copied `k`. -/
structure Conserves (m : Nat) (bs : List Bool) (p : Packer w (Logged w κ)) (n k : Nat)
    (log : List (SinkCall w × Outcome StreamError Unit))
    (copied : Outcome CopyError Unit × Unpacker .unbounded w (Tape w) × Packer w (Logged w κ)) :
    Prop where
  le : k ≤ bs.length
  unread : Unread m copied.2.1 (bs.drop k)
  written : copied.2.2.written = p.written + k
  log_eq : copied.2.2.sink.log = p.sink.log ++ log
  ending : CopyEnding bs p n k log copied.2.2 copied.1

/-- One portion, and then the others. -/
theorem Conserves.portion
    {copied : Outcome CopyError Unit × Unpacker .unbounded w (Tape w) × Packer w (Logged w κ)}
    {k : Nat} {log : List (SinkCall w × Outcome StreamError Unit)} (hle : min n w.bits ≤ bs.length)
    (hp : p.Filling c) (hput : Put c (bs.take (min n w.bits)) p p₁)
    (hrest : Conserves m (bs.drop (min n w.bits)) p₁ (n - min n w.bits) k log copied) :
    ∃ log', Conserves m bs p n (min n w.bits + k) log' copied := by
  rcases copied with ⟨outcome, u', p'⟩
  have hbits := w.bits_pos
  have hlen : (bs.take (min n w.bits)).length = min n w.bits := List.length_take_of_le hle
  have hk := hrest.le
  rw [List.length_drop] at hk
  have hunread := hrest.unread
  rw [List.drop_drop] at hunread
  have hstream := hput.stream_eq hp (by omega)
  obtain ⟨log₁, hlog₁⟩ := hput.log_eq
  refine ⟨log₁ ++ log, by omega, hunread, ?_, ?_, ?_⟩
  · rw [hrest.written, hput.written, hlen, Nat.add_assoc]
  · rw [hrest.log_eq, hlog₁, List.append_assoc]
  · have htake : p₁.stream ++ (bs.drop (min n w.bits)).take k
        = p.stream ++ bs.take (min n w.bits + k) := by
      rw [hstream, List.append_assoc, ← List.take_add]
    have hend := hrest.ending
    cases hend with
    | done hall hstream' => exact .done (by omega) (hstream'.trans htake)
    | unread hfew hwhole hstream' =>
      -- a portion that is not the last is a word
      rw [List.length_drop] at hfew hwhole
      have hword : min n w.bits = w.bits := by omega
      rw [hword] at hwhole hle
      refine .unread (by omega) ?_ (hstream'.trans htake)
      have hdiv : bs.length / w.bits = (bs.length - w.bits) / w.bits + 1 := by
        rw [← Nat.add_div_right _ hbits, Nat.sub_add_cancel hle]
      rw [hword, hwhole, hdiv, Nat.mul_succ, Nat.add_comm]
    | unwritten hmem => exact .unwritten (List.mem_append_right log₁ hmem)

/-- Any copy. -/
theorem conserves_copyBits (hu : Unread m u bs) (hp : p.Filling c) (n : Nat) :
    ∃ k log, Conserves m bs p n k log (copyBits u p n) := by
  induction n using Nat.strongRecOn generalizing u p bs c with
  | ind n ih =>
    rcases Nat.eq_zero_or_pos n with rfl | hpos
    · rw [copyBits_zero]
      exact ⟨0, [], Nat.zero_le _, hu, rfl, (List.append_nil _).symm,
        .done rfl (List.append_nil _).symm⟩
    · have hbits := w.bits_pos
      have hk : 0 < min n w.bits ∧ min n w.bits ≤ w.bits := by omega
      rcases Nat.lt_or_ge bs.length (min n w.bits) with hfew | hle
      · -- the reader has not so many bits, and less than a word
        have hread := hu.readBits_error hk hfew
        have hnone : 0 = w.bits * (bs.length / w.bits) := by
          rw [Nat.div_eq_of_lt (by omega), Nat.mul_zero]
        rw [copyBits_of_read_error (by omega) hread]
        exact ⟨0, [], Nat.zero_le _, hu, rfl, (List.append_nil _).symm,
          .unread (by omega) hnone (List.append_nil _).symm⟩
      · obtain ⟨u₁, hread, hu₁⟩ := (Unread.view w m).readBits hu hk hle
        have hlen : (bs.take (min n w.bits)).length = min n w.bits := List.length_take_of_le hle
        rcases hwrite : p.writeBits (ofBits (bs.take (min n w.bits))) (min n w.bits)
          with ⟨failure | written, p₁⟩
        · -- the portion has been read and counted
          have hvalue := not_excess_ofBits p (Nat.le_of_eq hlen)
          obtain ⟨hsink, hwritten⟩ := hp.writeBits_eq_error hk hvalue hwrite
          rw [copyBits_of_write_error (by omega) hread hwrite]
          exact ⟨_, _, hle, hu₁, hwritten, Logged.log_write hsink, .unwritten List.mem_cons_self⟩
        · obtain ⟨-, hput⟩ := (hp.writeBits_ofBits_eq_ok_iff hk hlen).mp hwrite
          obtain ⟨c₁, hp₁⟩ := hput.filling hp (by omega)
          obtain ⟨k, log, hrest⟩ := ih (n - min n w.bits) (by omega) hu₁ hp₁
          rw [copyBits_of_ok (by omega) hread hwrite]
          exact ⟨_, hrest.portion hle hp hput⟩

/-- **Copying in every outcome.** Let any reads have been made by an unbounded unpacker of a row,
and any writes that have succeeded to a packer over any sink.  Whatever a copy comes to, the bits
that have been taken from the unpacker are the first of those that were left, and as many as the
packer has counted.  If it succeeds, these are all that were to be copied; if the reader has stopped
it, they are as many as make whole words, the others can still be read one by one, and either way
they are what has been put into the stream.  Unless the sink has refused a word, the copy succeeds
if so many bits were left, and if not the reader stops it. -/
theorem copy_conserves {t : Tape w} (ht : t.pos ≤ t.length) {reads : List ReadCall}
    (hreads : ∀ c ∈ reads, c.InRange w) (s : κ) (marked strict : Bool)
    {writes : List (WriteCall w)} :
    let u := (ReadCall.run (openUnbounded t) reads).2
    let new : Packer w (Logged w κ) := { sink := { sink := s }, marked, strict }
    let p := (WriteCall.run new writes).2
    (∀ outcome ∈ (WriteCall.run new writes).1, outcome.isOk = true) → ∀ n : Nat,
      ∃ outcome u' p' k log,
        BitReader.sendTo u p n = (outcome, u', p') ∧ BitWriter.takeFrom p u n = (outcome, p', u') ∧
        k ≤ u.left.length ∧ u'.left = u.left.drop k ∧
        BitWriter.bitsWritten p' = BitWriter.bitsWritten p + k ∧ p'.sink.log = p.sink.log ++ log ∧
        (outcome = .ok () → k = n ∧ p'.stream = p.stream ++ u.left.take k) ∧
        (∀ error, outcome = .error (.refused (.reading error)) →
          k = w.bits * (u.left.length / w.bits) ∧ p'.stream = p.stream ++ u.left.take k ∧
          ∃ u'', BitReader.readEach u' (u.left.length % w.bits) = (.ok (u.left.drop k), u'')) ∧
        ((∀ entry ∈ log, entry.2 = .ok ()) →
          (outcome = .ok () ↔ n ≤ u.left.length) ∧
          ((∃ error, outcome = .error (.refused (.reading error))) ↔ u.left.length < n)) := by
  intro u new p hwrites n
  obtain ⟨-, -, hleft⟩ := (unread_of_le ht).run hreads
  have hu : Unread t.length u u.left := { hleft with split := rfl }
  obtain ⟨c, hp⟩ := (filling_new ({ sink := s } : Logged w κ) marked strict).run_of_ok hwrites
  obtain ⟨k, log, hcopy⟩ := conserves_copyBits hu hp n
  rcases hcopied : copyBits u p n with ⟨outcome, u', p'⟩
  rw [hcopied] at hcopy
  have hle := hcopy.le
  have hunread := hcopy.unread
  have hend := hcopy.ending
  have hmove : w.bits * (u.left.length / w.bits) + u.left.length % w.bits = u.left.length :=
    Nat.div_add_mod _ _
  refine ⟨outcome, u', p', k, log, hcopied, ?_, hle, hunread.split.symm, hcopy.written,
    hcopy.log_eq, ?_, ?_, ?_⟩
  · rw [BitWriter.takeFrom, hcopied]
  · rintro rfl
    cases hend with
    | done hall hstream => exact ⟨hall, hstream⟩
  · intro error heq
    cases hend with
    | done _ _ => simp at heq
    | unwritten _ => exact absurd (Except.error.inj heq) (map_writing_ne _ _)
    | unread hfew hwhole hstream =>
      refine ⟨hwhole, hstream, ?_⟩
      obtain ⟨u'', hread, -⟩ := (Unread.view w t.length).readEach hunread
        (n := u.left.length % w.bits) (by rw [List.length_drop]; omega)
      rw [List.take_of_length_le (by rw [List.length_drop]; omega)] at hread
      exact ⟨u'', hread⟩
  · -- the sink has taken every word, so only the reader can have stopped the copy
    intro hlog
    cases hend with
    | done hall _ => exact ⟨iff_of_true rfl (by omega), iff_of_false (by simp) (by omega)⟩
    | unread hfew _ _ => exact ⟨iff_of_false (by simp) (by omega), iff_of_true ⟨_, rfl⟩ hfew⟩
    | unwritten hmem => exact absurd (hlog _ hmem) (by simp)

/-- Twenty bits are to be copied where eleven are left: a word of them is copied, behind the bit
that the packer has, and three remain. -/
theorem copy_conserves_eleven_bits :
    let t : Tape .w8 := { words := [0x96, 0x5a] }
    let u := (ReadCall.run (openUnbounded t) [.bits 5]).2
    let new : Packer .w8 (Logged .w8 (WordBuffer .w8)) := { sink := { sink := {} } }
    let p := (WriteCall.run new [.bit true]).2
    t.pos ≤ t.length ∧ (∀ c ∈ [ReadCall.bits 5], c.InRange .w8) ∧
      (∀ outcome ∈ (WriteCall.run new [.bit true]).1, outcome.isOk = true) ∧
      ∃ u' p', BitReader.sendTo u p 20 = (.error (.refused (.reading (.endOfWords 2))), u', p') ∧
        BitWriter.bitsWritten p' = 9 ∧ u'.left = [false, true, false] ∧
        p'.stream = [true, false, false, true, false, true, false, true, true] := by
  intro t u new p
  have hreads : ∀ c ∈ [ReadCall.bits 5], c.InRange .w8 := by simp [ReadCall.InRange, Width.bits]
  have hwrites : ∀ outcome ∈ (WriteCall.run new [.bit true]).1, outcome.isOk = true := by decide
  obtain ⟨outcome, u', p', k, log, hsend, -, -, hleft, hwritten, -, -, hreading, -⟩ :=
    copy_conserves (t := t) (Nat.zero_le _) hreads ({} : WordBuffer .w8) true false hwrites 20
  have hstop : (copyBits u p 20).1 = .error (.refused (.reading (.endOfWords 2))) := by
    rw [copyBits_of_ok (by decide) rfl rfl, copyBits_of_read_error (by decide) rfl]
    rfl
  have houtcome : outcome = .error (.refused (.reading (.endOfWords 2))) := by
    rw [← hstop]
    exact (congrArg Prod.fst hsend).symm
  obtain ⟨hk, hstream, -⟩ := hreading _ houtcome
  have hleft₀ :
      u.left = [false, false, true, false, true, false, true, true, false, true, false] := by
    decide
  have hstream₀ : p.stream = [true] := by decide
  have hk : k = 8 := by
    rw [hk, hleft₀]
    decide
  subst hk houtcome
  rw [hleft₀] at hleft hstream
  rw [hstream₀] at hstream
  exact ⟨Nat.zero_le _, hreads, hwrites, u', p', hsend, hwritten, hleft, hstream⟩

end Copy

end PackedBits
