import Mathlib.Data.Seq.Basic
import PackedBits.ByteStream.Memory
import PackedBits.ByteStream.Script
import PackedBits.Proofs.ByteStream.Gather

/-!
# What a reader of bytes has to give

Three things can be said of the bytes that a reader gives.  It `Delivers` the bytes of a list if it
has no errors but interruptions and gives them in order, in portions of any size, and an empty
portion only when there are none left.  It `Stumbles` if it does so except that some of its calls
fail, each without a byte being lost.  Or the bytes only trickle: they come in order, but at any
time the answer may be an empty portion, as of a reader that has nothing at the moment, and they may
go on for ever.  All three are said by relations between readers and the bytes to come that every
call keeps, a `Delivery`, a `Stumble` and a `Trickle`.

Collecting asks again after every portion and every interruption, so portions and interruptions do
not show in what is collected: from a reader that delivers it is the front of the list
(`Delivery.gather`), from one that stumbles it is that or the front of that (`Stumble.gather`), and
from one that trickles some bytes that then are missing at its front (`Trickle.gather`).
-/

namespace PackedBits

open Stream'

section Readers

variable {σ : Type} [ByteReader σ]

/-! ### Portions and failures -/

/-- A relation between readers, the number of failures still to come, and the bytes that they are
still to give, which every call keeps. -/
structure Stumble (R : σ → Nat → List UInt8 → Prop) : Prop where
  /-- A reader gives some of its first bytes, as long as there are any, is interrupted, or fails. -/
  read {s : σ} {m : Nat} {bytes : List UInt8} {n : Nat} : R s m bytes → 0 < n →
    (∃ portion rest s', ByteReader.read s n = (.ok portion, s') ∧ bytes = portion ++ rest ∧
      (portion = [] → rest = []) ∧ R s' m rest) ∨
    (∃ e s', ByteReader.read s n = (.error e, s') ∧ e.kind = .interrupted ∧ R s' m bytes) ∨
    ∃ e s' k, ByteReader.read s n = (.error e, s') ∧ e.kind ≠ .interrupted ∧ m = k + 1 ∧
      R s' k bytes

/-- Whether a reader gives `bytes`, and no portion without bytes before their end, but fails `m`
times. -/
def Stumbles (s : σ) (m : Nat) (bytes : List UInt8) : Prop :=
  ∃ R : σ → Nat → List UInt8 → Prop, Stumble R ∧ R s m bytes

namespace Stumble

variable {R : σ → Nat → List UInt8 → Prop} {s s' : σ} {m n : Nat} {bytes portion : List UInt8}

theorem of_ok (hR : Stumble R) (h : R s m bytes) (hn : 0 < n)
    (hread : ByteReader.read s n = (.ok portion, s')) :
    ∃ rest, bytes = portion ++ rest ∧ (portion = [] → rest = []) ∧ R s' m rest := by
  rcases hR.read h hn with ⟨p, rest, t, heq, hbytes, hend, ht⟩ | ⟨e, t, heq, -⟩ | ⟨e, t, k, heq, -⟩
  · rw [hread, Prod.mk.injEq, Except.ok.injEq] at heq
    obtain ⟨rfl, rfl⟩ := heq
    exact ⟨rest, hbytes, hend, ht⟩
  · rw [hread] at heq
    simp at heq
  · rw [hread] at heq
    simp at heq

theorem of_error (hR : Stumble R) (h : R s m bytes) (hn : 0 < n) {e : IoError}
    (hread : ByteReader.read s n = (.error e, s')) :
    (e.kind = .interrupted ∧ R s' m bytes) ∨
      ∃ k, e.kind ≠ .interrupted ∧ m = k + 1 ∧ R s' k bytes := by
  rcases hR.read h hn with
    ⟨p, rest, t, heq, -⟩ | ⟨e', t, heq, hkind, ht⟩ | ⟨e', t, k, heq, hkind, hm, ht⟩
  · rw [hread] at heq
    simp at heq
  · rw [hread, Prod.mk.injEq, Except.error.injEq] at heq
    obtain ⟨rfl, rfl⟩ := heq
    exact .inl ⟨hkind, ht⟩
  · rw [hread, Prod.mk.injEq, Except.error.injEq] at heq
    obtain ⟨rfl, rfl⟩ := heq
    exact .inr ⟨k, hkind, hm, ht⟩

/-- What is collected is the front of the bytes, all that was asked for if there are so many, unless
a failure ends the collecting before. -/
theorem gather (hR : Stumble R) (h : R s m bytes) (n : Nat) :
    ((ByteReader.gather s n).1
        = (bytes.take n, if n ≤ bytes.length then .full else .exhausted) ∧
      R (ByteReader.gather s n).2 m (bytes.drop n)) ∨
    ∃ e rest k, (ByteReader.gather s n).1.2 = .failed e ∧
      bytes = (ByteReader.gather s n).1.1 ++ rest ∧ (ByteReader.gather s n).1.1.length < n ∧
      m = k + 1 ∧ R (ByteReader.gather s n).2 k rest := by
  fun_induction ByteReader.gather s n generalizing bytes with
  | case1 s => exact .inl ⟨by simp, h⟩
  | case2 s n hn s' hread =>
    obtain ⟨rest, rfl, hend, hs'⟩ := hR.of_ok h (Nat.pos_of_ne_zero hn) hread
    -- an empty portion, and so there are no bytes left
    obtain rfl := hend rfl
    exact .inl ⟨by simp [hn], by simpa using hs'⟩
  | case3 s n hn b portion s' hread next =>
    rename_i ih
    obtain ⟨rest, rfl, -, hs'⟩ := hR.of_ok h (Nat.pos_of_ne_zero hn) hread
    have hle : (b :: portion).length ≤ n := ByteReader.length_le hread
    rcases ih hs' with ⟨hgot, hleft⟩ | ⟨e, left, k, hfailed, hgot, hlt, hm, hleft⟩
    · have hfull : (n - (b :: portion).length ≤ rest.length) ↔
          n ≤ (b :: portion ++ rest).length := by
        rw [List.length_append]
        omega
      rw [List.take_append, List.drop_append, List.take_of_length_le hle,
        List.drop_of_length_le hle, hgot]
      exact .inl ⟨by simp only [hfull], hleft⟩
    · -- what came before the failure is behind this portion
      refine .inr ⟨e, left, k, hfailed, ?_, ?_, hm, hleft⟩
      · rw [List.append_assoc, ← hgot]
      · have hshort : next.1.1.length < n - (b :: portion).length := hlt
        rw [List.length_append]
        omega
  | case4 s n hn e s' hread hkind ih =>
    rcases hR.of_error h (Nat.pos_of_ne_zero hn) hread with ⟨-, hs'⟩ | ⟨k, hne, -⟩
    · exact ih hs'
    · exact absurd hkind hne
  | case5 s n hn e s' hread hkind =>
    rcases hR.of_error h (Nat.pos_of_ne_zero hn) hread with ⟨hi, -⟩ | ⟨k, -, hm, hs'⟩
    · exact absurd hi hkind
    · exact .inr ⟨e, bytes, k, rfl, rfl, Nat.pos_of_ne_zero hn, hm, hs'⟩

end Stumble

/-! ### Portions with bytes in them -/

/-- A relation between readers and the bytes that they are still to give, which every call keeps. -/
structure Delivery (R : σ → List UInt8 → Prop) : Prop where
  /-- A reader gives some of its first bytes, as long as there are any, or is interrupted. -/
  read {s : σ} {bytes : List UInt8} {n : Nat} : R s bytes → 0 < n →
    (∃ portion rest s', ByteReader.read s n = (.ok portion, s') ∧ bytes = portion ++ rest ∧
      (portion = [] → rest = []) ∧ R s' rest) ∨
      ∃ e s', ByteReader.read s n = (.error e, s') ∧ e.kind = .interrupted ∧ R s' bytes

/-- Whether a reader gives `bytes`, and no portion without bytes before their end. -/
def Delivers (s : σ) (bytes : List UInt8) : Prop :=
  ∃ R : σ → List UInt8 → Prop, Delivery R ∧ R s bytes

/-- A reader that stumbles delivers if no failure is to come. -/
theorem Stumble.delivery {R : σ → Nat → List UInt8 → Prop} (hR : Stumble R) :
    Delivery fun s bytes => R s 0 bytes where
  read {s bytes n} h hn := by
    rcases hR.read h hn with hportion | hinterrupted | ⟨e, s', k, -, -, hzero, -⟩
    · exact .inl hportion
    · exact .inr hinterrupted
    · exact absurd hzero (Nat.succ_ne_zero k).symm

namespace Delivery

variable {R : σ → List UInt8 → Prop} {s s' : σ} {bytes portion : List UInt8} {n : Nat}

/-- A reader that delivers stumbles without failures. -/
theorem stumble (hR : Delivery R) : Stumble fun s m bytes => m = 0 ∧ R s bytes where
  read {s m bytes n} h hn := by
    obtain ⟨rfl, h⟩ := h
    rcases hR.read h hn with ⟨portion, rest, s', heq, hbytes, hend, hs'⟩ | ⟨e, s', heq, hkind, hs'⟩
    · exact .inl ⟨portion, rest, s', heq, hbytes, hend, rfl, hs'⟩
    · exact .inr (.inl ⟨e, s', heq, hkind, rfl, hs'⟩)

/-- What is collected is the front of the bytes, and it is all that was asked for if there are so
many. -/
theorem gather (hR : Delivery R) (h : R s bytes) (n : Nat) :
    (ByteReader.gather s n).1 = (bytes.take n, if n ≤ bytes.length then .full else .exhausted) ∧
      R (ByteReader.gather s n).2 (bytes.drop n) := by
  rcases hR.stumble.gather ⟨rfl, h⟩ n with ⟨hgot, -, hleft⟩ | ⟨e, rest, k, -, -, -, hzero, -⟩
  · exact ⟨hgot, hleft⟩
  · exact absurd hzero (Nat.succ_ne_zero k).symm

/-- As many bytes as are there can be read exactly. -/
theorem readExact (hR : Delivery R) (h : R s bytes) (hn : n ≤ bytes.length) :
    ∃ s', ByteReader.readExact s n = (.ok (bytes.take n), s') ∧ R s' (bytes.drop n) := by
  obtain ⟨hgot, hleft⟩ := hR.gather h n
  rw [if_pos hn] at hgot
  refine ⟨(ByteReader.gather s n).2, ?_, hleft⟩
  unfold ByteReader.readExact
  simp only [hgot]

/-- Where there are fewer bytes the read is too short, and they are lost. -/
theorem readExact_short (hR : Delivery R) (h : R s bytes) (hn : bytes.length < n) :
    ∃ s', ByteReader.readExact s n = (.error .shortRead, s') ∧ R s' [] := by
  obtain ⟨hgot, hleft⟩ := hR.gather h n
  rw [if_neg (Nat.not_le.mpr hn)] at hgot
  rw [List.drop_eq_nil_of_le (Nat.le_of_lt hn)] at hleft
  refine ⟨(ByteReader.gather s n).2, ?_, hleft⟩
  unfold ByteReader.readExact
  simp only [hgot]

end Delivery

/-! ### Portions that may be empty -/

/-- A relation between readers and the bytes that they are still to give, of which a call may give
none although there are some. -/
structure Trickle (R : σ → Seq UInt8 → Prop) : Prop where
  /-- A reader gives some of its first bytes, or none, or is interrupted. -/
  read {s : σ} {bytes : Seq UInt8} {n : Nat} : R s bytes → 0 < n →
    (∃ portion rest s', ByteReader.read s n = (.ok portion, s') ∧
      bytes = Seq.append (Seq.ofList portion) rest ∧ R s' rest) ∨
      ∃ e s', ByteReader.read s n = (.error e, s') ∧ e.kind = .interrupted ∧ R s' bytes

namespace Trickle

variable {R : σ → Seq UInt8 → Prop} {s s' : σ} {bytes : Seq UInt8} {portion : List UInt8} {n : Nat}

theorem of_ok (hR : Trickle R) (h : R s bytes) (hn : 0 < n)
    (hread : ByteReader.read s n = (.ok portion, s')) :
    ∃ rest, bytes = Seq.append (Seq.ofList portion) rest ∧ R s' rest := by
  rcases hR.read h hn with ⟨p, rest, t, heq, hbytes, ht⟩ | ⟨e, t, heq, -⟩
  · rw [hread, Prod.mk.injEq, Except.ok.injEq] at heq
    obtain ⟨rfl, rfl⟩ := heq
    exact ⟨rest, hbytes, ht⟩
  · rw [hread] at heq
    simp at heq

theorem of_error (hR : Trickle R) (h : R s bytes) (hn : 0 < n) {e : IoError}
    (hread : ByteReader.read s n = (.error e, s')) : e.kind = .interrupted ∧ R s' bytes := by
  rcases hR.read h hn with ⟨p, rest, t, heq, -⟩ | ⟨e', t, heq, hkind, ht⟩
  · rw [hread] at heq
    simp at heq
  · rw [hread, Prod.mk.injEq, Except.error.injEq] at heq
    obtain ⟨rfl, rfl⟩ := heq
    exact ⟨hkind, ht⟩

/-- Nothing but bytes is collected, and they are no longer to come. -/
theorem gather (hR : Trickle R) (h : R s bytes) (n : Nat) :
    (∀ e, (ByteReader.gather s n).1.2 ≠ .failed e) ∧
      ∃ rest, bytes = Seq.append (Seq.ofList (ByteReader.gather s n).1.1) rest ∧
        R (ByteReader.gather s n).2 rest := by
  fun_induction ByteReader.gather s n generalizing bytes with
  | case1 s => exact ⟨by simp, bytes, by simp, h⟩
  | case2 s n hn s' hread =>
    -- an empty portion says nothing about what is to come
    exact ⟨by simp, hR.of_ok h (Nat.pos_of_ne_zero hn) hread⟩
  | case3 s n hn b portion s' hread rest =>
    rename_i ih
    obtain ⟨left, rfl, hs'⟩ := hR.of_ok h (Nat.pos_of_ne_zero hn) hread
    obtain ⟨hended, left', rfl, hleft'⟩ := ih hs'
    refine ⟨hended, left', ?_, hleft'⟩
    rw [Seq.ofList_append, Seq.append_assoc]
  | case4 s n hn e s' hread hkind ih => exact ih (hR.of_error h (Nat.pos_of_ne_zero hn) hread).2
  | case5 s n hn e s' hread hkind =>
    exact absurd (hR.of_error h (Nat.pos_of_ne_zero hn) hread).1 hkind

end Trickle

end Readers

/-! ### Readers in memory -/

/-- What is left to read is delivered. -/
theorem ByteQueue.delivery : Delivery fun (q : ByteQueue) bytes => q.bytes = bytes where
  read {q bytes n} h hn := by
    subst h
    refine .inl ⟨_, _, _, rfl, (List.take_append_drop n _).symm, fun hnil => ?_, rfl⟩
    rw [(List.take_eq_nil_iff.mp hnil).resolve_left (Nat.ne_of_gt hn), List.drop_nil]

namespace ReadEvent

/-- The bytes that come with an event. -/
def bytes : ReadEvent → List UInt8
  | chunk bytes => bytes
  | fail _ => []

/-- Whether an event is no error but one that `P` holds of. -/
def Within (P : IoError → Prop) : ReadEvent → Prop
  | chunk _ => True
  | fail e => P e

/-- Whether an event is no error but an interruption. -/
def Harmless : ReadEvent → Prop
  | chunk _ => True
  | fail e => e.kind = .interrupted

instance (event : ReadEvent) : Decidable event.Harmless :=
  match event with
  | chunk _ => isTrue trivial
  | fail e => inferInstanceAs (Decidable (e.kind = .interrupted))

end ReadEvent

namespace ScriptReader

/-- The bytes that a script has. -/
def bytes (s : ScriptReader) : List UInt8 :=
  s.chunk ++ s.events.flatMap ReadEvent.bytes

/-- The number of failures in a script. -/
def failures (s : ScriptReader) : Nat :=
  s.events.countP fun event => ¬event.Harmless

variable {s s' : ScriptReader} {atHand : List UInt8} {e : IoError} {n : Nat}

theorem failures_eq_zero_iff : s.failures = 0 ↔ ∀ event ∈ s.events, event.Harmless := by
  simp [failures, List.countP_eq_zero]

theorem fill_of_ok (h : s.fill = (.ok atHand, s')) :
    s'.chunk = atHand ∧ s'.bytes = s.bytes ∧ s'.events ⊆ s.events ∧ s'.failures = s.failures ∧
      (atHand = [] → s.bytes = [] ∨ .chunk [] ∈ s.events) := by
  unfold fill at h
  split at h
  all_goals
    simp only [Prod.mk.injEq, Except.ok.injEq, reduceCtorEq, false_and] at h
  · next hchunk hevents =>
    obtain ⟨rfl, rfl⟩ := h
    exact ⟨hchunk, rfl, fun _ => id, rfl, fun _ => .inl (by simp [bytes, hchunk, hevents])⟩
  · next piece events hchunk hevents =>
    obtain ⟨rfl, rfl⟩ := h
    refine ⟨rfl, by simp [bytes, hchunk, hevents, ReadEvent.bytes], ?_, ?_, ?_⟩
    · rw [hevents]
      exact List.subset_cons_self _ _
    · simp [failures, hevents, ReadEvent.Harmless]
    · rintro rfl
      exact .inr (by simp [hevents])
  · next b piece hchunk =>
    obtain ⟨rfl, rfl⟩ := h
    exact ⟨hchunk, rfl, fun _ => id, rfl, by simp⟩

theorem fill_of_error (h : s.fill = (.error e, s')) :
    s.events = .fail e :: s'.events ∧ s'.bytes = s.bytes := by
  unfold fill at h
  split at h
  all_goals
    simp only [Prod.mk.injEq, Except.error.injEq, reduceCtorEq, false_and] at h
  next e' events hchunk hevents =>
  obtain ⟨rfl, rfl⟩ := h
  exact ⟨hevents, by simp [bytes, hchunk, hevents, ReadEvent.bytes]⟩

/-- Bytes are taken from those at hand. -/
theorem read_of_fill_ok (h : s.fill = (.ok atHand, s')) (n : Nat) :
    s.read n = (.ok (atHand.take n), { s' with chunk := atHand.drop n }) := by
  unfold read
  rw [h]

theorem read_of_fill_error (h : s.fill = (.error e, s')) (n : Nat) :
    s.read n = (.error e, s') := by
  unfold read
  rw [h]

/-- What is left behind the first of the bytes at hand. -/
theorem bytes_of_fill_ok (h : s.fill = (.ok atHand, s')) (n : Nat) :
    s.bytes = atHand.take n ++ ({ s' with chunk := atHand.drop n } : ScriptReader).bytes := by
  obtain ⟨hchunk, hbytes, -⟩ := fill_of_ok h
  rw [← hbytes, bytes, bytes, hchunk, ← List.append_assoc, List.take_append_drop]

/-- A script in which no chunk is without bytes gives its bytes, and fails as often as it has
failures. What holds of all its events goes on to do so. -/
theorem stumble (P : ReadEvent → Prop) :
    Stumble fun (s : ScriptReader) m bytes =>
      s.bytes = bytes ∧ s.failures = m ∧ (∀ event ∈ s.events, P event) ∧ .chunk [] ∉ s.events where
  read {s m bytes n} h hn := by
    obtain ⟨rfl, rfl, hall, hnonempty⟩ := h
    rcases hfill : s.fill with ⟨e | atHand, s'⟩
    · obtain ⟨hevents, hbytes⟩ := fill_of_error hfill
      have hsub : s'.events ⊆ s.events := by
        rw [hevents]
        exact List.subset_cons_self _ _
      have hleft : (∀ event ∈ s'.events, P event) ∧ .chunk [] ∉ s'.events :=
        ⟨fun event hevent => hall event (hsub hevent), fun hmem => hnonempty (hsub hmem)⟩
      by_cases hkind : e.kind = .interrupted
      · refine .inr (.inl ⟨e, s', read_of_fill_error hfill n, hkind, hbytes, ?_, hleft⟩)
        rw [failures, failures, hevents,
          List.countP_cons_of_neg (by simp [ReadEvent.Harmless, hkind])]
      · refine .inr (.inr ⟨e, s', s'.failures, read_of_fill_error hfill n, hkind, ?_, hbytes, rfl,
          hleft⟩)
        rw [failures, failures, hevents,
          List.countP_cons_of_pos (by simp [ReadEvent.Harmless, hkind])]
    · obtain ⟨-, -, hsub, hfailures, hend⟩ := fill_of_ok hfill
      have hsplit := bytes_of_fill_ok hfill n
      refine .inl ⟨_, _, _, read_of_fill_ok hfill n, hsplit, ?_, rfl, hfailures,
        fun event hevent => hall event (hsub hevent), fun hmem => hnonempty (hsub hmem)⟩
      -- if none are at hand, there are none at all
      intro hnil
      have hatHand := (List.take_eq_nil_iff.mp hnil).resolve_left (Nat.ne_of_gt hn)
      have hbytes := (hend hatHand).resolve_right hnonempty
      rw [hbytes] at hsplit
      exact (List.append_eq_nil_iff.mp hsplit.symm).2

/-- A script with chunks and some interruptions delivers its bytes if no chunk is without any. -/
theorem delivery_within {P : IoError → Prop} (hP : ∀ e, P e → e.kind = .interrupted) :
    Delivery fun (s : ScriptReader) bytes => s.bytes = bytes ∧
      (∀ event ∈ s.events, event.Within P) ∧ .chunk [] ∉ s.events := by
  have hharmless : ∀ s : ScriptReader, (∀ event ∈ s.events, event.Within P) → s.failures = 0 := by
    intro s hwithin
    rw [failures_eq_zero_iff]
    intro event hevent
    have hevent' := hwithin event hevent
    cases event with
    | chunk _ => trivial
    | fail e => exact hP e hevent'
  -- no failures are to come, and that need not be said
  have hrelation : (fun (s : ScriptReader) bytes => s.bytes = bytes ∧
      (∀ event ∈ s.events, event.Within P) ∧ .chunk [] ∉ s.events)
        = fun s bytes => s.bytes = bytes ∧ s.failures = 0 ∧
          (∀ event ∈ s.events, event.Within P) ∧ .chunk [] ∉ s.events := by
    ext s bytes
    constructor
    · rintro ⟨hbytes, hwithin, hnonempty⟩
      exact ⟨hbytes, hharmless s hwithin, hwithin, hnonempty⟩
    · rintro ⟨hbytes, -, hleft⟩
      exact ⟨hbytes, hleft⟩
  rw [hrelation]
  exact (stumble (ReadEvent.Within P)).delivery

/-- A script with chunks and interruptions delivers its bytes if no chunk is without any. -/
theorem delivery :
    Delivery fun (s : ScriptReader) bytes => s.bytes = bytes ∧
      (∀ event ∈ s.events, event.Harmless) ∧ .chunk [] ∉ s.events :=
  delivery_within fun _ => id

/-- A script with chunks and interruptions gives its bytes. -/
theorem trickle :
    Trickle fun (s : ScriptReader) bytes => Seq.ofList s.bytes = bytes ∧
      ∀ event ∈ s.events, event.Harmless where
  read {s bytes n} h hn := by
    obtain ⟨rfl, hharmless⟩ := h
    rcases hfill : s.fill with ⟨e | atHand, s'⟩
    · obtain ⟨hevents, hbytes⟩ := fill_of_error hfill
      rw [hevents, List.forall_mem_cons] at hharmless
      exact .inr ⟨e, s', read_of_fill_error hfill n, hharmless.1, by rw [hbytes], hharmless.2⟩
    · obtain ⟨-, -, hsub, -⟩ := fill_of_ok hfill
      refine .inl ⟨_, _, _, read_of_fill_ok hfill n, ?_, rfl,
        fun event hevent => hharmless event (hsub hevent)⟩
      rw [bytes_of_fill_ok hfill n, Seq.ofList_append]

end ScriptReader

end PackedBits
