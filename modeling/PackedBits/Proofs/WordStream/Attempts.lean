import PackedBits.Proofs.WordStream.Reliable

/-!
# Calls on a sink that may fail

Whoever uses a sink that may fail makes some calls in order and gives up at the first that does not
succeed.  That is an `attempt`: its answer is the failure of the call it stopped at, and it leaves
the sink as that call did.

What reaches a sink in an attempt is seen in a `Logged` one, which keeps every call together with
its outcome.  The calls that are made are the first of those intended, all but the last have
succeeded, and the attempt fails exactly if one of them did (`Logged.attempt_log`).  The words that
the sink has `taken` are those whose calls succeeded.
-/

namespace PackedBits

variable {w : Width} {κ : Type} [WordSink κ w]

namespace SinkCall

/-- Makes a call. -/
def make (s : κ) : SinkCall w → Outcome StreamError Unit × κ
  | write x => WordSink.write s x
  | flush => WordSink.flush s

/-- Makes calls up to the first that fails. -/
def attempt (s : κ) : List (SinkCall w) → Outcome StreamError Unit × κ
  | [] => (.ok (), s)
  | c :: calls =>
    match c.make s with
    | (.error failure, s) => (.error failure, s)
    | (.ok _, s) => attempt s calls

theorem attempt_cons_ok {s s' : κ} {c : SinkCall w} (calls : List (SinkCall w))
    (h : c.make s = (.ok (), s')) : attempt s (c :: calls) = attempt s' calls := by
  rw [attempt, h]

theorem attempt_cons_error {s s' : κ} {c : SinkCall w} {failure : Failure StreamError}
    (calls : List (SinkCall w)) (h : c.make s = (.error failure, s')) :
    attempt s (c :: calls) = (.error failure, s') := by
  rw [attempt, h]

@[simp] theorem attempt_singleton (s : κ) (c : SinkCall w) : attempt s [c] = c.make s := by
  rcases hmade : c.make s with ⟨failure | _, s'⟩
  · exact attempt_cons_error [] hmade
  · exact attempt_cons_ok [] hmade

theorem attempt_append_ok {s s' : κ} {before : List (SinkCall w)} (calls : List (SinkCall w))
    (h : attempt s before = (.ok (), s')) : attempt s (before ++ calls) = attempt s' calls := by
  induction before generalizing s with
  | nil =>
    rw [attempt, Prod.mk.injEq] at h
    rw [List.nil_append, h.2]
  | cons c before ih =>
    rw [List.cons_append, attempt]
    rw [attempt] at h
    rcases hmade : c.make s with ⟨_ | _, s₁⟩
    · rw [hmade] at h
      exact absurd (congrArg Prod.fst h) (by simp)
    · rw [hmade] at h
      exact ih h

theorem attempt_append_error {s s' : κ} {before : List (SinkCall w)}
    {failure : Failure StreamError} (calls : List (SinkCall w))
    (h : attempt s before = (.error failure, s')) :
    attempt s (before ++ calls) = (.error failure, s') := by
  induction before generalizing s with
  | nil => exact absurd (congrArg Prod.fst h) (by simp [attempt])
  | cons c before ih =>
    rw [List.cons_append, attempt]
    rw [attempt] at h
    rcases hmade : c.make s with ⟨_ | _, s₁⟩
    · rw [hmade] at h
      exact h
    · rw [hmade] at h
      exact ih h

end SinkCall

/-! ### Logged sinks -/

/-- A sink and the calls that were made on it, each with its outcome. -/
structure Logged (w : Width) (κ : Type) where
  sink : κ
  log : List (SinkCall w × Outcome StreamError Unit) := []

namespace Logged

/-- Makes a call and keeps it. -/
def call (l : Logged w κ) (c : SinkCall w) : Outcome StreamError Unit × Logged w κ :=
  let answer := c.make l.sink
  (answer.1, { sink := answer.2, log := l.log ++ [(c, answer.1)] })

instance : WordSink (Logged w κ) w where
  write l x := l.call (.write x)
  flush l := l.call .flush

/-- The words that the sink has taken. -/
def taken (l : Logged w κ) : List (Word w) :=
  l.log.filterMap fun
    | (.write x, .ok _) => some x
    | _ => none

theorem log_write {l l' : Logged w κ} {x : Word w} {outcome : Outcome StreamError Unit}
    (h : WordSink.write l x = (outcome, l')) : l'.log = l.log ++ [(.write x, outcome)] := by
  have hcall : l.call (.write x) = (outcome, l') := h
  rw [call, Prod.mk.injEq] at hcall
  rw [← hcall.2, hcall.1]

theorem taken_write {l l' : Logged w κ} {x : Word w} (h : WordSink.write l x = (.ok (), l')) :
    l'.taken = l.taken ++ [x] := by
  rw [taken, log_write h, List.filterMap_append]
  rfl

theorem make_eq_call (l : Logged w κ) (c : SinkCall w) : c.make l = l.call c := by
  cases c <;> rfl

/-! ### The words taken -/

/-- Whether the words taken are those that the calls write. -/
def Took (l : Logged w κ) (calls : List (SinkCall w)) : Prop :=
  l.taken = calls.filterMap SinkCall.word?

theorem Took.call_ok {l l' : Logged w κ} {calls : List (SinkCall w)} {c : SinkCall w}
    (h : l.Took calls) (hcall : l.call c = (.ok (), l')) : l'.Took (calls ++ [c]) := by
  have htaken : l.taken = calls.filterMap SinkCall.word? := h
  rw [call, Prod.mk.injEq] at hcall
  rw [Took, ← hcall.2, taken, List.filterMap_append, List.filterMap_append, hcall.1, ← htaken]
  cases c with
  | write x => rfl
  | flush => rfl

theorem Took.call_error {l l' : Logged w κ} {calls : List (SinkCall w)} {c : SinkCall w}
    {failure : Failure StreamError} (h : l.Took calls) (hcall : l.call c = (.error failure, l')) :
    l'.Took calls := by
  have htaken : l.taken = calls.filterMap SinkCall.word? := h
  rw [call, Prod.mk.injEq] at hcall
  rw [Took, ← hcall.2, taken, List.filterMap_append, hcall.1, ← htaken]
  cases c with
  | write x => exact List.append_nil _
  | flush => exact List.append_nil _

/-- An attempt that succeeds has made all of its calls. -/
theorem Took.attempt_ok {l l' : Logged w κ} {before calls : List (SinkCall w)}
    (h : l.Took before) (hattempt : SinkCall.attempt l calls = (.ok (), l')) :
    l'.Took (before ++ calls) := by
  induction calls generalizing l before with
  | nil =>
    rw [SinkCall.attempt, Prod.mk.injEq] at hattempt
    rw [List.append_nil, ← hattempt.2]
    exact h
  | cons c calls ih =>
    rcases hmade : l.call c with ⟨failure | _, l₁⟩
    · rw [SinkCall.attempt_cons_error calls ((make_eq_call l c).trans hmade)] at hattempt
      exact absurd (congrArg Prod.fst hattempt) (by simp)
    · rw [SinkCall.attempt_cons_ok calls ((make_eq_call l c).trans hmade)] at hattempt
      have htook := ih (h.call_ok hmade) hattempt
      rwa [List.append_assoc, List.singleton_append] at htook

/-! ### The log -/

/-- What an attempt adds to the log. -/
theorem attempt_log (l : Logged w κ) (calls : List (SinkCall w)) :
    ∃ log, (SinkCall.attempt l calls).2.log = l.log ++ log ∧ log.map Prod.fst <+: calls ∧
      (∀ entry ∈ log.dropLast, entry.2 = .ok ()) ∧
      (∀ failure, (SinkCall.attempt l calls).1 = .error failure ↔
        ∃ c, (c, .error failure) ∈ log) := by
  induction calls generalizing l with
  | nil => exact ⟨[], by simp [SinkCall.attempt], by simp, by simp, by simp [SinkCall.attempt]⟩
  | cons c calls ih =>
    rcases hmade : l.call c with ⟨failure | _, l'⟩
    · -- the first call fails, and it is the last one made
      have hattempt := SinkCall.attempt_cons_error calls ((make_eq_call l c).trans hmade)
      have hlog : l'.log = l.log ++ [(c, .error failure)] := by
        rw [call, Prod.mk.injEq] at hmade
        rw [← hmade.2, hmade.1]
      refine ⟨[(c, .error failure)], ?_, ?_, by simp, ?_⟩
      · rw [hattempt, hlog]
      · exact ⟨calls, rfl⟩
      · intro failure'
        rw [hattempt]
        constructor
        · intro heq
          exact ⟨c, by rw [Except.error.inj heq]; exact List.mem_singleton_self _⟩
        · rintro ⟨c', hmem⟩
          rw [List.mem_singleton, Prod.mk.injEq] at hmem
          exact hmem.2.symm
    · have hattempt := SinkCall.attempt_cons_ok calls ((make_eq_call l c).trans hmade)
      have hlog : l'.log = l.log ++ [(c, .ok ())] := by
        rw [call, Prod.mk.injEq] at hmade
        rw [← hmade.2, hmade.1]
      obtain ⟨log, hlogs, hprefix, hok, hfail⟩ := ih l'
      refine ⟨(c, .ok ()) :: log, ?_, ?_, ?_, ?_⟩
      · rw [hattempt, hlogs, hlog, List.append_assoc, List.singleton_append]
      · rw [List.map_cons]
        exact List.cons_prefix_cons.mpr ⟨rfl, hprefix⟩
      · cases log with
        | nil => simp
        | cons entry log =>
          intro entry' hmem
          rw [List.dropLast_cons_cons] at hmem
          rcases List.mem_cons.mp hmem with rfl | hmem
          · rfl
          · exact hok entry' hmem
      · intro failure
        rw [hattempt, hfail failure]
        constructor
        · rintro ⟨c', hmem⟩
          exact ⟨c', List.mem_cons_of_mem _ hmem⟩
        · rintro ⟨c', hmem⟩
          rcases List.mem_cons.mp hmem with heq | hmem
          · rw [Prod.mk.injEq] at heq
            exact absurd heq.2 (by simp)
          · exact ⟨c', hmem⟩

/-- An attempt that succeeds leaves no failure in the log. -/
theorem attempt_log_ok {l : Logged w κ} {calls : List (SinkCall w)}
    {log : List (SinkCall w × Outcome StreamError Unit)}
    (hfail : ∀ failure, (SinkCall.attempt l calls).1 = .error failure ↔
      ∃ c, (c, .error failure) ∈ log) :
    (SinkCall.attempt l calls).1 = .ok () ↔ ∀ entry ∈ log, entry.2 = .ok () := by
  constructor
  · intro hok entry hmem
    obtain ⟨c, failure | _⟩ := entry
    · have herror := (hfail failure).mpr ⟨c, hmem⟩
      rw [hok] at herror
      exact absurd herror (by simp)
    · rfl
  · intro hall
    rcases heq : (SinkCall.attempt l calls).1 with failure | _
    · obtain ⟨c, hmem⟩ := (hfail failure).mp heq
      exact absurd (hall _ hmem) (by simp)
    · rfl

end Logged

end PackedBits
