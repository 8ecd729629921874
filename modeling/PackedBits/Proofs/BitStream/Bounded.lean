import PackedBits.Proofs.BitStream.Room

/-!
# Packing into a row of fixed length

A row takes words until it is full, and then refuses every word (`Tape.Filled`).  The words that a
packer passes to its sink do not depend on the sink as long as it takes them: they are groups of the
bits that were written, and in the end the ending (`Packs.make_asksOnce`, `Packs.closingWords_eq`).
So the first call that fails is the one that comes to a word for which there is no room, and what
the row then holds are the words in front of that (`Packs.run_filled`, `Packs.close_filled`).

The theorem is `fills_row`.  It compares with the same calls on a sink that takes every word, and
says of the call that fails that it `Overflows` the row.
-/

namespace PackedBits.Packer

open Word Layout

variable {w : Width}

/-! ### Calls one after the other -/

section Act

variable {κ : Type} [WordSink κ w]

/-- The value of what is asked, if it succeeds. -/
def Act.value? : Act w → Option Nat
  | write c => c.value?
  | close => none

/-- Does what is asked, and answers. -/
def Act.make (p : Packer w κ) : Act w → Outcome StreamError (Option Nat) × Packer w κ
  | write c => c.make p
  | close => let closed := p.close; (closed.1.map fun _ => none, closed.2)

/-- Does what is asked, one after the other. -/
def Act.run (p : Packer w κ) (acts : List (Act w)) :
    List (Outcome StreamError (Option Nat)) × Packer w κ :=
  runAll make p acts

theorem Act.run_map_write (p : Packer w κ) (calls : List (WriteCall w)) :
    run p (calls.map .write) = WriteCall.run p calls :=
  runAll_map_calls make .write p calls

end Act

/-! ### Into a row -/

section Row

/-- Whether the words written by some calls have been written to the front of a row. -/
def Within (row : List (Word w)) (t : Tape w) (calls : List (SinkCall w)) : Prop :=
  t.Filled row (calls.filterMap SinkCall.word?)

variable {row : List (Word w)} {marked : Bool} {b : List Bool} {n : Nat} {p : Packer w (Tape w)}

theorem Packs.filled (h : Packs (Within row) marked b n p) : p.sink.Filled row (groups b) :=
  Packs.wrote (R := fun (t : Tape w) ws => t.Filled row ws) h

/-- One call: it succeeds, or it fills up a word when the row is full. -/
theorem Packs.make_filled (h : Packs (Within row) marked b n p) {c : WriteCall w} (hc : c.InRange) :
    (∃ p', c.make p = (.ok c.value?, p') ∧
      Packs (Within row) marked (c.extend b) (n + c.width) p') ∨
    ∃ p', c.make p = (.error (.refused (.endOfWords row.length)), p') ∧
      (groups b : List (Word w)).length = row.length ∧ p'.sink.words = groups b ∧
      row.length < (groups (c.extend b) : List (Word w)).length := by
  have hfilled := h.filled
  have hle := hfilled.le
  rcases Nat.lt_or_ge row.length (groups (c.extend b) : List (Word w)).length with hlt | hroom
  · rcases h.make_asksOnce hc with ⟨hsame, -⟩ | ⟨x, hgroups, -, herror⟩
    · rw [hsame] at hlt
      exact absurd hle (Nat.not_le.mpr hlt)
    · have hfull : (groups b : List (Word w)).length = row.length := by
        rw [hgroups, List.length_append, List.length_singleton] at hlt
        omega
      obtain ⟨p', hmake, hsink⟩ := herror _ _ (hfilled.write_of_full hfull x)
      refine .inr ⟨p', hmake, hfull, ?_, hlt⟩
      rw [hsink, hfilled.words_of_full hfull]
  · exact .inl (Packs.make_room (Tape.Filled.roomView row) h hc hroom)

/-- Any calls: all of them succeed, or the first that fails is one that fills up a word when the row
is full. -/
theorem Packs.run_filled (h : Packs (Within row) marked b n p) {calls : List (WriteCall w)}
    (hcalls : ∀ c ∈ calls, c.InRange) :
    (∃ m p', WriteCall.run p calls = (calls.map (fun c => .ok c.value?), p') ∧
      Packs (Within row) marked (calls.foldl WriteCall.extend b) m p') ∨
    ∃ (before : List (WriteCall w)) (c : WriteCall w) (after : List (WriteCall w))
      (p' p'' : Packer w (Tape w)),
      calls = before ++ c :: after ∧
      WriteCall.run p before = (before.map (fun c => .ok c.value?), p') ∧
      c.make p' = (.error (.refused (.endOfWords row.length)), p'') ∧
      (groups (before.foldl WriteCall.extend b) : List (Word w)).length = row.length ∧
      p''.sink.words = groups (before.foldl WriteCall.extend b) ∧
      row.length < (groups ((before ++ [c]).foldl WriteCall.extend b) : List (Word w)).length := by
  -- the bits `b` are those before the calls that are still to come
  induction calls generalizing b n p with
  | nil => exact .inl ⟨n, p, rfl, h⟩
  | cons c calls ih =>
    rcases h.make_filled (hcalls c List.mem_cons_self) with
      ⟨p₁, hmake, hp₁⟩ | ⟨p₁, hmake, hfull, hwords, hlt⟩
    · rcases ih hp₁ fun c' hc' => hcalls c' (List.mem_cons_of_mem c hc') with
        ⟨m, p', hrun, hp'⟩ | ⟨before, c', after, p', p'', rfl, hrun, hmake', hfailed⟩
      · refine .inl ⟨m, p', ?_, hp'⟩
        rw [WriteCall.run_cons hmake, hrun, List.map_cons]
      · refine .inr ⟨c :: before, c', after, p', p'', rfl, ?_, hmake', hfailed⟩
        rw [WriteCall.run_cons hmake, hrun, List.map_cons]
    · exact .inr ⟨[], c, calls, p, p₁, rfl, rfl, hmake, hfull, hwords, hlt⟩

/-- The closing: it succeeds if there is room for the ending, and else fills the row. -/
theorem Packs.close_filled (h : Packs (Within row) marked b n p) :
    ((layout marked b : List (Word w)).length ≤ row.length →
      ∃ p', p.close = (.ok (), p') ∧ p'.sink.Filled row (layout marked b)) ∧
    (row.length < (layout marked b : List (Word w)).length →
      ∃ p', p.close = (.error (.refused (.endOfWords row.length)), p') ∧
        p'.sink.words = (layout marked b).take row.length) := by
  constructor
  · intro hle
    obtain ⟨t', ht', hclose⟩ := Packs.close_room (Tape.Filled.roomView row) h hle
    obtain ⟨hok, rfl⟩ := Prod.mk.inj hclose
    exact ⟨_, Prod.ext hok rfl, ht'⟩
  · intro hlt
    have hclose := close_eq_attempt h.closed fun _ => Nat.le_of_lt h.pos_lt
    obtain ⟨t', hattempt, ht'⟩ := h.filled.attempt_of_lt (ending marked b) [.flush] hlt
    rw [h.closingWords_eq, hattempt, Prod.mk.injEq] at hclose
    obtain ⟨herror, rfl⟩ := hclose
    exact ⟨_, Prod.ext herror rfl, ht'⟩

end Row

/-! ### Compared with a sink that takes every word -/

section Compared

variable {κ : Type} [WordSink κ w] {s : κ} {calls : List (WriteCall w)} {row : List (Word w)}
  {marked : Bool}

/-- The words that a packer has passed on, in some acts, to a sink whose calls are recorded. -/
def sent (s : κ) (marked : Bool) (acts : List (Act w)) : List (Word w) :=
  (Act.run (recording w marked s) acts).2.sink.words

/-- What a packer answers in some acts over a row, and what it then is. -/
def bounded (row : List (Word w)) (marked : Bool) (acts : List (Act w)) :
    List (Outcome StreamError (Option Nat)) × Packer w (Tape w) :=
  Act.run { sink := { words := row }, marked } acts

/-- Calls that do not close have passed on the groups. -/
theorem sent_write (hs : Unfailing s) (marked : Bool) (hcalls : ∀ c ∈ calls, c.InRange) :
    sent s marked (calls.map .write) = groups (WriteCall.stream calls) := by
  have hpacks := (packs_run_recording hs marked hcalls).2
  rw [sent, Act.run_map_write, Recorded.words, hpacks.sink.1, SinkCall.filterMap_word?_map_write]

/-- A close behind them has passed on the layout. -/
theorem sent_close (hs : Unfailing s) (marked : Bool) (hcalls : ∀ c ∈ calls, c.InRange) :
    sent s marked (calls.map .write ++ [.close]) = layout marked (WriteCall.stream calls) := by
  rw [sent, Act.run, runAll_append, ← Act.run, Act.run_map_write]
  show (WriteCall.run (recording w marked s) calls).2.close.2.sink.words = _
  rw [← finish_sink _ .close, words_finish_run_recording hs marked hcalls .close]

omit [WordSink κ w] in
/-- What has been passed on is not changed by later calls. -/
theorem exists_groups_stream_append (before after : List (WriteCall w)) :
    ∃ ws : List (Word w), groups (WriteCall.stream (before ++ after))
      = groups (WriteCall.stream before) ++ ws := by
  obtain ⟨more, hmore⟩ := WriteCall.exists_foldl_extend_eq (WriteCall.stream before) after
  rw [WriteCall.stream, List.foldl_append, ← WriteCall.stream, hmore]
  exact exists_groups_append _ _

omit [WordSink κ w] in
theorem exists_layout_stream_append (marked : Bool) (before after : List (WriteCall w)) :
    ∃ ws : List (Word w), layout marked (WriteCall.stream (before ++ after))
      = groups (WriteCall.stream before) ++ ws := by
  obtain ⟨ws, hws⟩ := exists_groups_stream_append before after
  exact ⟨ws ++ ending marked _, by rw [layout, hws, List.append_assoc]⟩

/-- Whether out of `acts` it is `a`, behind `before`, that comes to a word for which a row has no
room: those before it succeed; in this act, and not before, more words are passed on than the row
has; and the row refuses, with as many of all the words in it as it has room for. -/
structure Overflows (s : κ) (marked : Bool) (row : List (Word w)) (acts before : List (Act w))
    (a : Act w) : Prop where
  succeeds : (bounded row marked before).1 = before.map fun a => .ok a.value?
  room : (sent s marked before).length ≤ row.length
  no_room : row.length < (sent s marked (before ++ [a])).length
  front : sent s marked (before ++ [a]) <+: sent s marked acts
  refuses : ∃ p, a.make (bounded row marked before).2
    = (.error (.refused (.endOfWords row.length)), p) ∧
    p.sink.words = (sent s marked acts).take row.length

/-- A write that is refused. -/
theorem overflows_write (hs : Unfailing s) {before : List (WriteCall w)} {c : WriteCall w}
    {after : List (WriteCall w)} (hcalls : ∀ c' ∈ before ++ c :: after, c'.InRange)
    {p p' : Packer w (Tape w)}
    (hrun : bounded row marked (before.map .write) = (before.map (fun c => .ok c.value?), p))
    (hmake : c.make p = (.error (.refused (.endOfWords row.length)), p'))
    (hfull : (groups (WriteCall.stream before) : List (Word w)).length = row.length)
    (hwords : p'.sink.words = groups (WriteCall.stream before))
    (hlt : row.length < (groups (WriteCall.stream (before ++ [c])) : List (Word w)).length) :
    Overflows s marked row ((before ++ c :: after).map .write ++ [.close]) (before.map .write)
      (.write c) := by
  have hrange : ∀ c' ∈ before ++ [c], c'.InRange := by
    intro c' hc'
    apply hcalls
    rw [List.append_cons]
    exact List.mem_append_left _ hc'
  have hbefore := sent_write hs marked fun c' hc' => hrange c' (List.mem_append_left _ hc')
  have hupto : sent s marked (before.map .write ++ [.write c])
      = groups (WriteCall.stream (before ++ [c])) := by
    rw [← sent_write hs marked hrange, List.map_append]
    rfl
  -- these words are the front of all the words
  obtain ⟨last, hlast⟩ := exists_groups_stream_append before [c]
  obtain ⟨more, hmore⟩ := exists_layout_stream_append marked (before ++ [c]) after
  have hall : sent s marked ((before ++ c :: after).map .write ++ [.close])
      = groups (WriteCall.stream (before ++ [c])) ++ more := by
    rw [sent_close hs marked hcalls, List.append_cons, hmore]
  refine ⟨?_, ?_, ?_, ?_, p', ?_, ?_⟩
  · rw [hrun, List.map_map]
    rfl
  · rw [hbefore]
    exact Nat.le_of_eq hfull
  · rwa [hupto]
  · rw [hupto, hall]
    exact List.prefix_append _ _
  · rw [hrun]
    exact hmake
  · rw [hwords, hall, hlast, List.append_assoc, ← hfull]
    exact List.take_left.symm

/-- A close that is refused. -/
theorem overflows_close (hs : Unfailing s) (hcalls : ∀ c ∈ calls, c.InRange)
    {p p' : Packer w (Tape w)}
    (hrun : bounded row marked (calls.map .write) = (calls.map (fun c => .ok c.value?), p))
    (hclose : p.close = (.error (.refused (.endOfWords row.length)), p'))
    (hle : (groups (WriteCall.stream calls) : List (Word w)).length ≤ row.length)
    (hwords : p'.sink.words = (layout marked (WriteCall.stream calls)).take row.length)
    (hlt : row.length < (layout marked (WriteCall.stream calls) : List (Word w)).length) :
    Overflows s marked row (calls.map .write ++ [.close]) (calls.map .write) .close := by
  have hall := sent_close hs marked hcalls
  refine ⟨?_, ?_, ?_, List.prefix_rfl, p', ?_, ?_⟩
  · rw [hrun, List.map_map]
    rfl
  · rwa [sent_write hs marked hcalls]
  · rwa [hall]
  · rw [hrun, Act.make, hclose]
    rfl
  · rwa [hall]

/-- **A row of fixed length.** Let a packer be closed after some writes, over a sink that takes
every word and over a row.  If the words that reach the sink are not more than the row has, all
calls succeed on the row, and it begins with these words and goes on as it was.  If they are more,
there is a first call that fails; it is the one that passes on the word for which the row has no
room, its error is the end of the row, and the row then holds as many of the words as it has room
for. -/
theorem fills_row (hs : Unfailing s) (marked : Bool) (row : List (Word w))
    (hcalls : ∀ c ∈ calls, c.InRange) :
    let acts : List (Act w) := calls.map .write ++ [.close]
    let all := sent s marked acts
    (all.length ≤ row.length →
      (bounded row marked acts).1 = acts.map (fun a => .ok a.value?) ∧
        (bounded row marked acts).2.sink.words = all ++ row.drop all.length) ∧
    (row.length < all.length →
      ∃ before a after, acts = before ++ a :: after ∧ Overflows s marked row acts before a) := by
  intro acts all
  have hnew : Packs (Within row) marked [] 0 ({ sink := { words := row }, marked } : Packer w _) :=
    packs_new (.new row) marked
  have hall : all = layout marked (WriteCall.stream calls) := sent_close hs marked hcalls
  rcases hnew.run_filled hcalls with
    ⟨m, p, hrun, hp⟩ | ⟨before, c, after, p, p', rfl, hrun, hmake, hfull, hwords, hlt⟩
  · -- no write fails, and the close may
    obtain ⟨hroom, hclose⟩ := hp.close_filled
    rw [← Act.run_map_write] at hrun
    constructor
    · intro hle
      obtain ⟨p', hok, hfilled⟩ := hroom (by rwa [hall] at hle)
      have hrun' : bounded row marked acts = (acts.map (fun a => .ok a.value?), p') := by
        rw [bounded, Act.run, runAll_append, ← Act.run, hrun, List.map_append, List.map_map]
        simp only [runAll, Act.make, hok]
        rfl
      rw [hrun', hall]
      exact ⟨rfl, hfilled.words⟩
    · intro hlt
      rw [hall] at hlt
      obtain ⟨p', herror, hwords⟩ := hclose hlt
      exact ⟨_, _, [], rfl, overflows_close hs hcalls hrun herror hp.filled.le hwords hlt⟩
  · -- a write fails, and the close behind it is not looked at
    rw [← Act.run_map_write] at hrun
    have hoverflows := overflows_write hs hcalls hrun hmake hfull hwords hlt
    have hlong : row.length < all.length :=
      Nat.lt_of_lt_of_le hoverflows.no_room hoverflows.front.length_le
    refine ⟨fun hle => absurd hlong (Nat.not_lt.mpr hle), fun _ => ?_⟩
    exact ⟨before.map .write, .write c, after.map .write ++ [.close], by simp [acts], hoverflows⟩

/-- Six bits take two words of eight: a row of three keeps its last word, and in a row of one the
mark is refused. -/
theorem fills_row_six_bits :
    let calls : List (WriteCall .w8) := [.bits 0x16 5, .bit true]
    let acts : List (Act .w8) := calls.map .write ++ [.close]
    Unfailing ({} : WordBuffer .w8) ∧ (∀ c ∈ calls, c.InRange) ∧
      (bounded [0xff, 0xff, 0xff] true acts).2.sink.words = [0x36, 0x50, 0xff] ∧
      ∃ before a after, acts = before ++ a :: after ∧
        Overflows ({} : WordBuffer .w8) true [0xff] acts before a := by
  intro calls acts
  have hcalls : ∀ c ∈ calls, c.InRange := by decide
  obtain ⟨hroom, -⟩ := fills_row (WordBuffer.unfailing {}) true [0xff, 0xff, 0xff] hcalls
  obtain ⟨-, hoverflows⟩ := fills_row (WordBuffer.unfailing {}) true [0xff] hcalls
  exact ⟨WordBuffer.unfailing _, hcalls, (hroom (by decide)).2.trans (by decide),
    hoverflows (by decide)⟩

end Compared

end PackedBits.Packer
