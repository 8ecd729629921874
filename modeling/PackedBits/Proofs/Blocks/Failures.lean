import Mathlib
import PackedBits.Proofs.Blocks.Moving

/-!
# Moving on after a failure

When the reader fails, moving to the next block fails, and the same step can be made again until
there is no next block (`persist`).  What becomes of the bytes is a `Course` with one case for each
way a step turns out.  As long as nothing fails the next block is the front of the bytes to come,
and it lies where the one before it ends.

A step that fails has already moved the place on by the length of the block before.  What it
collected of the next block is not collected again, while the byte ahead is still the same.  So the
next step loads a block that begins with this byte and goes on behind the lost ones, and puts it too
far behind.  Failures do not bring bytes twice or in another order (`Course.sublist`), and each
loses fewer bytes than a block has (`Course.length_le`).  But the offset counts the failed steps as
well (`Course.offset_eq`), so that the blocks are the bytes of the stream in their places exactly if
nothing has failed (`Course.placed_iff`).
-/

namespace PackedBits.Blocks

variable {σ : Type}

/-! ### Steps -/

/-- What a step answers, and the blocks that it leaves. -/
abbrev Step (σ : Type) : Type := Outcome IoError Bool × Blocks σ

/-- The blocks that steps have shown, those without an error. -/
def shown : List (Step σ) → List (Blocks σ)
  | [] => []
  | (.ok true, b) :: steps => b :: shown steps
  | (.ok false, _) :: steps => shown steps
  | (.error _, _) :: steps => shown steps

/-- The number of steps that have failed. -/
def failures : List (Step σ) → Nat
  | [] => 0
  | (.ok _, _) :: steps => failures steps
  | (.error _, _) :: steps => failures steps + 1

/-- Whether the first of the blocks is at a place in the stream, and each other one where the one
before it ends. -/
def Placed : Nat → List (Blocks σ) → Prop
  | _, [] => True
  | place, b :: blocks => b.offset = place ∧ Placed (place + b.block.length) blocks

/-- Moves on at most `n` times, and also after a failure, until there is no next block. -/
def persist [ByteReader σ] (b : Blocks σ) : Nat → List (Step σ)
  | 0 => []
  | n + 1 =>
    match b.advance with
    | (.ok false, b') => [(.ok false, b')]
    | (answer, b') => (answer, b') :: b'.persist n

/-! ### Courses -/

/-- The ways in which steps can go through the bytes to come, from a place in the stream on. -/
inductive Course (size : Nat) : Nat → List UInt8 → List (Step σ) → Prop where
  /-- There are no more bytes. -/
  | last {place : Nat} {b : Blocks σ} : Course size place [] [(.ok false, b)]
  /-- The next block is the front of the bytes. -/
  | next {place : Nat} {coming : List UInt8} {b : Blocks σ} {steps : List (Step σ)} :
    b.offset = place → b.block = coming.take size → b.len = b.block.length →
      Course size (place + b.len) (coming.drop size) steps →
        Course size place coming ((.ok true, b) :: steps)
  /-- A failure loses bytes behind the next one, and yet moves the place on. -/
  | failed {place : Nat} {x : UInt8} {lost rest : List UInt8} {e : IoError} {b : Blocks σ}
      {steps : List (Step σ)} :
    lost.length < size → b.offset = place → 0 < b.len →
      Course size (place + b.len) (x :: rest) steps →
        Course size place (x :: (lost ++ rest)) ((.error (.refused e), b) :: steps)

namespace Course

variable {size place : Nat} {coming : List UInt8} {steps : List (Step σ)}

/-- In the end there is no next block. -/
theorem getLast?_eq (h : Course size place coming steps) :
    ∃ b, steps.getLast? = some (.ok false, b) := by
  induction h with
  | @last place b => exact ⟨b, rfl⟩
  | next _ _ _ _ ih =>
    obtain ⟨last, hlast⟩ := ih
    exact ⟨last, by rw [List.getLast?_cons, hlast, Option.getD_some]⟩
  | failed _ _ _ _ ih =>
    obtain ⟨last, hlast⟩ := ih
    exact ⟨last, by rw [List.getLast?_cons, hlast, Option.getD_some]⟩

/-- No byte is shown twice, and none in front of one that was before it. -/
theorem sublist (h : Course size place coming steps) :
    ((shown steps).flatMap block).Sublist coming := by
  induction h with
  | last => exact List.Sublist.refl _
  | @next place coming b steps _ hblock _ _ ih =>
    rw [shown, List.flatMap_cons, hblock]
    conv_rhs => rw [← List.take_append_drop size coming]
    exact (List.append_sublist_append_left _).mpr ih
  | @failed place x lost rest e b steps _ _ _ _ ih =>
    exact ih.trans ((List.sublist_append_right lost rest).cons_cons x)

/-- A failure loses fewer bytes than a block has. -/
theorem length_le (h : Course size place coming steps) :
    coming.length ≤ ((shown steps).flatMap block).length + failures steps * (size - 1) := by
  induction h with
  | last => exact Nat.zero_le _
  | @next place coming b steps _ hblock _ _ ih =>
    rw [List.length_drop] at ih
    rw [shown, failures, List.flatMap_cons, List.length_append, hblock, List.length_take]
    omega
  | @failed place x lost rest e b steps hlost _ _ _ ih =>
    rw [List.length_cons] at ih
    rw [shown, failures, Nat.succ_mul, List.length_cons, List.length_append]
    omega

/-- The offset counts the blocks of all steps before, the failed ones among them. -/
theorem offset_eq (h : Course size place coming steps) {before after : List (Step σ)}
    {step : Step σ} (hsteps : steps = before ++ step :: after) (hstep : step.1 ≠ .ok false) :
    step.2.offset = place + (before.map fun earlier => earlier.2.len).sum := by
  induction h generalizing before with
  | @last place b =>
    cases before with
    | nil =>
      rw [List.nil_append, List.cons.injEq] at hsteps
      exact absurd (congrArg Prod.fst hsteps.1).symm hstep
    | cons first before => simp at hsteps
  | @next place coming b steps hoffset _ _ _ ih =>
    cases before with
    | nil =>
      rw [List.nil_append, List.cons.injEq] at hsteps
      simp [← hsteps.1, hoffset]
    | cons first before =>
      rw [List.cons_append, List.cons.injEq] at hsteps
      rw [ih hsteps.2, ← hsteps.1, List.map_cons, List.sum_cons, Nat.add_assoc]
  | @failed place x lost rest e b steps _ hoffset _ _ ih =>
    cases before with
    | nil =>
      rw [List.nil_append, List.cons.injEq] at hsteps
      simp [← hsteps.1, hoffset]
    | cons first before =>
      rw [List.cons_append, List.cons.injEq] at hsteps
      rw [ih hsteps.2, ← hsteps.1, List.map_cons, List.sum_cons, Nat.add_assoc]

/-- As long as there are bytes to come a block is shown, at the place or behind it. -/
theorem exists_shown_eq_cons (h : Course size place coming steps) (hcoming : coming ≠ []) :
    ∃ b blocks, shown steps = b :: blocks ∧ place ≤ b.offset := by
  induction h with
  | last => exact absurd rfl hcoming
  | @next place coming b steps hoffset _ _ _ _ => exact ⟨b, shown steps, rfl, hoffset.ge⟩
  | failed _ _ _ _ ih =>
    obtain ⟨b, blocks, hshown, hle⟩ := ih (List.cons_ne_nil _ _)
    exact ⟨b, blocks, hshown, by omega⟩

/-- The blocks are the bytes in their places exactly if nothing has failed. -/
theorem placed_iff (h : Course size place coming steps) :
    (shown steps).flatMap block = coming ∧ Placed place (shown steps) ↔ failures steps = 0 := by
  induction h with
  | last => exact iff_of_true ⟨rfl, trivial⟩ rfl
  | @next place coming b steps hoffset hblock hlen _ ih =>
    have hwhole : coming.take size ++ (shown steps).flatMap block = coming ↔
        (shown steps).flatMap block = coming.drop size := by
      conv_rhs => rw [← List.append_right_inj (coming.take size), List.take_append_drop]
    rw [shown, failures, List.flatMap_cons, hblock, hwhole, Placed, ← hlen, ← ih]
    simp only [hoffset, true_and]
  | @failed place x lost rest e b steps _ _ hpos hcourse ih =>
    -- the next block that is shown is too far behind
    obtain ⟨b', blocks, hshown, hle⟩ := hcourse.exists_shown_eq_cons (List.cons_ne_nil _ _)
    refine iff_of_false ?_ (Nat.succ_ne_zero _)
    rintro ⟨-, hplaced⟩
    rw [shown, hshown, Placed] at hplaced
    omega

end Course

/-! ### The course of a stumbling reader -/

/-- Whether the byte ahead and what the reader is still to give, with `m` failures, are the bytes to
come, and their places can be counted even if every failure moves them on by a block. -/
structure Pending (R : σ → Nat → List UInt8 → Prop) (m : Nat) (coming : List UInt8) (b : Blocks σ) :
    Prop where
  size_pos : 0 < b.shape.size
  rest : ∃ bytes, R b.reader m bytes ∧ b.ahead.toList ++ bytes = coming
  ended : b.ahead = none → coming = []
  len_pos : b.ahead.isSome = true → 0 < b.len
  len_le : b.len ≤ b.shape.size
  count : b.offset + b.len + coming.length + m * b.shape.size < countLimit

namespace Pending

variable {R : σ → Nat → List UInt8 → Prop} {m n : Nat} {coming : List UInt8} {s t : σ}
  {b : Blocks σ}

/-- A block that has been loaded from the front of some bytes. -/
theorem loaded {bytes : List UInt8} (hsize : 0 < b.shape.size)
    (hs : R s m (bytes.drop (b.shape.size + 1)))
    (hcount : b.offset + bytes.length + m * b.shape.size < countLimit) :
    Pending R m (bytes.drop b.shape.size)
      (b.loaded (bytes.take b.shape.size) (bytes.drop b.shape.size).head? s) where
  size_pos := hsize
  rest := by
    refine ⟨_, hs, ?_⟩
    rw [← List.drop_drop]
    cases bytes.drop b.shape.size <;> rfl
  ended := List.head?_eq_none_iff.mp
  len_pos := by
    intro hahead
    have hbehind : b.shape.size < bytes.length := by simpa [Blocks.loaded] using hahead
    show 0 < (bytes.take b.shape.size).length
    rw [List.length_take]
    omega
  len_le := List.length_take_le ..
  count := by
    show b.offset + (bytes.take b.shape.size).length + (bytes.drop b.shape.size).length
      + m * b.shape.size < countLimit
    rw [List.length_take, List.length_drop]
    omega

/-- A step that has failed. The byte ahead is the same, and the place has moved on by the block
before. -/
theorem failed {x : UInt8} {lost rest fresh : List UInt8} {k len : Nat}
    (h : Pending R (k + 1) (x :: (lost ++ rest)) b) (hahead : b.ahead = some x) (hs : R s k rest)
    (hpos : 0 < len) (hle : len ≤ b.shape.size) :
    Pending R k (x :: rest) ({ b.moved.loaded fresh b.moved.ahead s with len } : Blocks σ) where
  size_pos := h.size_pos
  rest := by
    refine ⟨rest, hs, ?_⟩
    show b.ahead.toList ++ rest = x :: rest
    rw [hahead]
    rfl
  ended := by
    intro hnone
    exact absurd (hahead.symm.trans hnone) (Option.some_ne_none x)
  len_pos _ := hpos
  len_le := hle
  count := by
    have hcount := h.count
    rw [List.length_cons, List.length_append, Nat.succ_mul] at hcount
    show b.offset + b.len + len + (x :: rest).length + k * b.shape.size < countLimit
    rw [List.length_cons]
    omega

variable [ByteReader σ]

/-- A step whose block was loaded shows it. -/
theorem next {x : UInt8} {bytes : List UInt8} (h : Pending R m (x :: bytes) b)
    (hahead : b.ahead = some x)
    (hload : b.moved.load = (.ok (), b.moved.loaded ((x :: bytes).take b.shape.size)
      ((x :: bytes).drop b.shape.size).head? s))
    (hs : R s m ((x :: bytes).drop (b.shape.size + 1))) :
    ∃ b', b.advance = (.ok true, b') ∧ b'.shape = b.shape ∧ b'.offset = b.offset + b.len ∧
      b'.block = (x :: bytes).take b.shape.size ∧ b'.len = b'.block.length ∧
      Pending R m ((x :: bytes).drop b.shape.size) b' := by
  have hcount := h.count
  have hne : (x :: bytes).take b.shape.size ≠ [] := by
    rw [Ne, List.take_eq_nil_iff, not_or]
    exact ⟨Nat.ne_of_gt h.size_pos, List.cons_ne_nil _ _⟩
  have hstep := advance_of_load hahead (by omega) hload
  have hempty : (b.moved.loaded ((x :: bytes).take b.shape.size)
      ((x :: bytes).drop b.shape.size).head? s).isEmpty = false := by
    simpa [isEmpty, Blocks.loaded] using hne
  rw [hempty, Bool.not_false] at hstep
  refine ⟨_, hstep, rfl, rfl, block_loaded _ _ _ _, ?_,
    Pending.loaded (b := b.moved) h.size_pos hs hcount⟩
  rw [block_loaded]
  rfl

/-- The ways in which one step turns out. -/
theorem advance (hR : Stumble R) (h : Pending R m coming b) :
    (coming = [] ∧ b.advance = (.ok false, b)) ∨
    (coming ≠ [] ∧ ∃ b', b.advance = (.ok true, b') ∧ b'.shape = b.shape ∧
      b'.offset = b.offset + b.len ∧ b'.block = coming.take b.shape.size ∧
      b'.len = b'.block.length ∧ Pending R m (coming.drop b.shape.size) b') ∨
    ∃ e b' x lost rest k, b.advance = (.error (.refused e), b') ∧ b'.shape = b.shape ∧
      b'.offset = b.offset + b.len ∧ 0 < b'.len ∧ coming = x :: (lost ++ rest) ∧
      lost.length < b.shape.size ∧ m = k + 1 ∧ Pending R k (x :: rest) b' := by
  obtain ⟨bytes, hs, hcoming⟩ := h.rest
  have hsize := h.size_pos
  cases hahead : b.ahead with
  | none => exact .inl ⟨h.ended hahead, advance_of_none hahead⟩
  | some x =>
    have hcount := h.count
    have hlen := h.len_pos (by rw [hahead, Option.isSome_some])
    have hlen_le := h.len_le
    rw [hahead, Option.toList_some, List.singleton_append] at hcoming
    subst hcoming
    have hmoved : b.moved.ahead.toList = [x] := congrArg Option.toList hahead
    rcases hR.load (b := b.moved) hs hsize with
      ⟨s, hload, hs'⟩ | ⟨e, fresh, lost, rest, s, k, len, hload, rfl, hs', rfl, hlost, hlen'⟩
    · rw [hmoved, List.singleton_append] at hload hs'
      exact .inr (.inl ⟨List.cons_ne_nil _ _, h.next hahead hload hs'⟩)
    · have hstep := advance_of_load_error hahead (by omega) hload
      rw [hmoved] at hlost hlen'
      -- the length is that of a block, the new one or the old one
      have hlen_new : 0 < len ∧ len ≤ b.shape.size := by
        rcases hlen' with rfl | rfl
        · exact ⟨hlen, hlen_le⟩
        · rw [List.length_take, List.length_append, List.length_singleton]
          exact ⟨Nat.lt_min.mpr ⟨hsize, by omega⟩, Nat.min_le_left ..⟩
      have hshort : lost.length < b.shape.size :=
        Nat.lt_of_le_of_lt hlost (Nat.sub_lt hsize Nat.one_pos)
      exact .inr (.inr ⟨e, _, x, lost, rest, k, hstep, rfl, rfl, hlen_new.1, rfl, hshort, rfl,
        h.failed hahead hs' hlen_new.1 hlen_new.2⟩)

/-- The steps up to the last block take their course, and no more of them fail than the reader
fails. -/
theorem course (hR : Stumble R) (h : Pending R m coming b) (hn : coming.length + m < n) :
    Course b.shape.size (b.offset + b.len) coming (b.persist n) ∧ failures (b.persist n) ≤ m := by
  induction n generalizing m coming b with
  | zero => exact absurd hn (Nat.not_lt_zero _)
  | succ n ih =>
    rw [persist]
    rcases h.advance hR with
      ⟨rfl, hstep⟩ | ⟨hne, b', hstep, hshape, hoffset, hblock, hlen, hb'⟩ |
        ⟨e, b', x, lost, rest, k, hstep, hshape, hoffset, hlen, rfl, hlost, rfl, hb'⟩
    · rw [hstep]
      exact ⟨.last, Nat.zero_le m⟩
    · -- every block takes at least one of the bytes to come
      have hshorter : (coming.drop b.shape.size).length < coming.length := by
        rw [List.length_drop]
        exact Nat.sub_lt (List.length_pos_iff.mpr hne) h.size_pos
      obtain ⟨hcourse, hle⟩ := ih hb' (by omega)
      rw [hshape, hoffset] at hcourse
      rw [hstep]
      exact ⟨.next hoffset hblock hlen hcourse, hle⟩
    · -- a failed step may take no bytes, but it takes one of the failures
      rw [List.length_cons, List.length_append] at hn
      obtain ⟨hcourse, hle⟩ := ih hb' (by rw [List.length_cons]; omega)
      rw [hshape, hoffset] at hcourse
      rw [hstep]
      exact ⟨.failed hlost hoffset hlen hcourse, Nat.succ_le_succ hle⟩

/-- The first block, if it was loaded. -/
theorem ofReader (hR : Stumble R) {d : List UInt8} {shape : BlockShape} (hs : R s m d)
    (hopen : ofReader s shape = (.ok b, t)) (hcount : d.length + m * shape.size < countLimit) :
    Pending R m (d.drop shape.size) b ∧ b.shape = shape ∧ b.offset = 0 ∧
      b.block = d.take shape.size ∧ b.len = b.block.length := by
  obtain ⟨hsize, hload⟩ := load_of_ofReader hopen
  rcases hR.load (b := { reader := s, shape }) hs hsize with
    ⟨s', hload', hs'⟩ | ⟨e, fresh, lost, rest, s', k, len, hload', -⟩
  · rw [hload, Prod.mk.injEq] at hload'
    obtain rfl := hload'.2
    rw [Option.toList_none, List.nil_append] at hs' ⊢
    refine ⟨?_, rfl, rfl, block_loaded _ _ _ _, ?_⟩
    · exact Pending.loaded (b := { reader := s, shape }) hsize hs' (by simpa using hcount)
    · rw [block_loaded]
      rfl
  · rw [hload, Prod.mk.injEq] at hload'
    exact absurd hload'.1 (by simp)

end Pending

variable [ByteReader σ]

/-- **Moving on after failures.** Let a reader of the bytes `d`, in portions of any size and with
interruptions, fail `m` times without losing a byte, but not at the first block.  Moving on until
there is no next block comes to an end.  The blocks that are shown have no byte of `d` twice and
none out of order, and each failed step loses fewer bytes than a block has.  The offset of what a
step leaves is the number of bytes in all blocks before, those of failed steps among them.  So the
blocks are `d`, each at its place in it, exactly if no step has failed. -/
theorem persist_amid_failures {s t : σ} {m n : Nat} {d : List UInt8} {shape : BlockShape}
    {b : Blocks σ} (hs : Stumbles s m d) (hopen : ofReader s shape = (.ok b, t))
    (hcount : d.length + m * shape.size < countLimit) (hn : d.length + m < n) :
    let steps := b.persist n
    let blocks := b :: shown steps
    (∃ last, steps.getLast? = some (.ok false, last)) ∧
    failures steps ≤ m ∧
    (blocks.flatMap block).Sublist d ∧
    d.length ≤ (blocks.flatMap block).length + failures steps * (shape.size - 1) ∧
    (∀ before step after, steps = before ++ step :: after → step.1 ≠ .ok false →
      step.2.offset = b.len + (before.map fun earlier => earlier.2.len).sum) ∧
    (blocks.flatMap block = d ∧ Placed 0 blocks ↔ failures steps = 0) := by
  intro steps blocks
  obtain ⟨R, hR, hs⟩ := hs
  obtain ⟨h, rfl, hoffset, hblock, hlen⟩ := Pending.ofReader hR hs hopen hcount
  have hshorter : (d.drop b.shape.size).length ≤ d.length := by
    rw [List.length_drop]
    exact Nat.sub_le ..
  obtain ⟨hbehind, hle⟩ := h.course hR (n := n) (by omega)
  -- the first block is one that has been shown
  have hcourse : Course b.shape.size 0 d ((.ok true, b) :: steps) := by
    rw [hoffset] at hbehind
    exact .next hoffset hblock hlen hbehind
  refine ⟨hbehind.getLast?_eq, hle, hcourse.sublist, hcourse.length_le, ?_, hcourse.placed_iff⟩
  intro before step after hsteps hstep
  have hshown : (.ok true, b) :: steps = ((.ok true, b) :: before) ++ step :: after := by
    rw [hsteps, List.cons_append]
  rw [hcourse.offset_eq hshown hstep, Nat.zero_add, List.map_cons, List.sum_cons]

/-- Six bytes in blocks of two. The byte behind the second block cannot be read at once, so that
this block is loaded without being shown, and the one that is shown has its first byte but not its
second. -/
theorem persist_amid_failure_behind_block :
    let s : ScriptReader :=
      { events := [.chunk [1, 2, 3, 4], .fail (.own (.named "WouldBlock") "later"), .chunk [5, 6]] }
    let d : List UInt8 := [1, 2, 3, 4, 5, 6]
    let shape : BlockShape := { size := 2, overlap := 1 }
    Stumbles s 1 d ∧ d.length + 1 * shape.size < countLimit ∧
      ∃ b, ofReader s shape = (.ok b, b.reader) ∧
        let blocks := b :: shown (b.persist 8)
        failures (b.persist 8) = 1 ∧ blocks.flatMap block = [1, 2, 3, 5, 6] ∧
          (blocks.flatMap block).Sublist d ∧ ¬(blocks.flatMap block = d ∧ Placed 0 blocks) := by
  intro s d shape
  let b : Blocks ScriptReader :=
    { reader := { chunk := [4], events := s.events.tail }, shape, area := [1, 2], len := 2,
      ahead := some 3 }
  have hs : Stumbles s 1 d :=
    ⟨_, ScriptReader.stumble fun _ => True, rfl, by decide, fun _ _ => trivial, by decide⟩
  have hcount : d.length + 1 * shape.size < countLimit := by decide
  have hopen : ofReader s shape = (.ok b, b.reader) := by cbv
  have hfailures : failures (b.persist 8) = 1 := by cbv
  have hbytes : (b :: shown (b.persist 8)).flatMap block = [1, 2, 3, 5, 6] := by cbv
  obtain ⟨-, -, hsub, -, -, hplaced⟩ := persist_amid_failures (n := 8) hs hopen hcount (by decide)
  refine ⟨hs, hcount, b, hopen, hfailures, hbytes, hsub, ?_⟩
  rw [hplaced, hfailures]
  exact Nat.one_ne_zero

/-- Seven bytes in blocks of three, and a failure when one more byte of the second block has been
collected: this byte is lost, and the block that is shown next is placed a block too far behind. -/
theorem persist_after_failure_wrong :
    let s : ScriptReader :=
      { events := [.chunk [1, 2, 3, 4, 5], .fail (.own (.named "WouldBlock") "later"),
          .chunk [6, 7]] }
    let d : List UInt8 := [1, 2, 3, 4, 5, 6, 7]
    let shape : BlockShape := { size := 3, overlap := 1 }
    Stumbles s 1 d ∧ ∃ b b', ofReader s shape = (.ok b, b.reader) ∧
      b.advance.1 = .error (.refused (.own (.named "WouldBlock") "later")) ∧
      b.block = [1, 2, 3] ∧ shown (b.persist 9) = [b'] ∧ b'.block = [4, 6, 7] ∧ b'.offset = 6 ∧
      [b, b'].flatMap block ≠ d ∧ ¬Placed 0 [b, b'] := by
  intro s d shape
  let b : Blocks ScriptReader :=
    { reader := { chunk := [5], events := s.events.tail }, shape, area := [1, 2, 3], len := 3,
      ahead := some 4 }
  let b' : Blocks ScriptReader :=
    { reader := { events := [] }, shape, past := [3], area := [4, 6, 7], len := 3, offset := 6 }
  have hs : Stumbles s 1 d :=
    ⟨_, ScriptReader.stumble fun _ => True, rfl, by decide, fun _ _ => trivial, by decide⟩
  have hopen : ofReader s shape = (.ok b, b.reader) := by cbv
  have hanswer : b.advance.1 = .error (.refused (.own (.named "WouldBlock") "later")) := by cbv
  have hshown : shown (b.persist 9) = [b'] := by cbv
  refine ⟨hs, b, b', hopen, hanswer, rfl, hshown, rfl, rfl, by decide, ?_⟩
  rintro ⟨-, hoffset, -⟩
  exact absurd hoffset (by decide)

end PackedBits.Blocks
