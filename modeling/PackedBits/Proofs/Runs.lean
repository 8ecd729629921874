import Mathlib.Data.List.Forall2
import PackedBits.Fault
import PackedBits.StreamError

/-!
# Runs of calls

A run makes calls one after the other and keeps their answers (`runAll`).  What holds of runs of any
calls is shown here once, each time from what holds of one call:

  * two states take the same calls with answers that belong together if there is a relation between
    the states that each call keeps, and under which its answers belong together (`runAll_forall₂`);
    with answers that look the same if those of each call do (`runAll_alike`), and with the same
    answers if those of each call are the same (`runAll_related`);
  * what each call keeps is kept by a run (`runAll_keeps`);
  * calls behind other calls are a run from where these end (`runAll_append`), and calls that stand
    for others are a run of those (`runAll_map_calls`).

Answers that differ only in the error of a refusal are the same `bare`.
-/

namespace PackedBits

/-! ### Calls one after the other -/

variable {S S' C A A' B : Type}

/-- Makes calls one after the other, and keeps what they answer. -/
def runAll (make : S → C → A × S) (s : S) : List C → List A × S
  | [] => ([], s)
  | c :: calls =>
    let made := make s c
    let rest := runAll make made.2 calls
    (made.1 :: rest.1, rest.2)

/-- A call of which the answer is known, and what it leaves. -/
theorem runAll_cons {make : S → C → A × S} {s s' : S} {c : C} {a : A} (h : make s c = (a, s'))
    (calls : List C) :
    runAll make s (c :: calls) = (a :: (runAll make s' calls).1, (runAll make s' calls).2) := by
  rw [runAll, h]

/-- Calls and then more calls. -/
theorem runAll_append (make : S → C → A × S) (s : S) (before after : List C) :
    runAll make s (before ++ after)
      = ((runAll make s before).1 ++ (runAll make (runAll make s before).2 after).1,
        (runAll make (runAll make s before).2 after).2) := by
  induction before generalizing s with
  | nil => rfl
  | cons c before ih => rw [List.cons_append, runAll, ih, runAll, List.cons_append]

/-- Calls that stand for other calls. -/
theorem runAll_map_calls {C' : Type} (make : S → C → A × S) (f : C' → C) (s : S) (calls : List C') :
    runAll make s (calls.map f) = runAll (fun s c => make s (f c)) s calls := by
  induction calls generalizing s with
  | nil => rfl
  | cons c calls ih => rw [List.map_cons, runAll, ih, runAll]

/-- Where the calls change nothing, each is answered for itself. -/
theorem runAll_const {make : S → C → A × S} {s : S} {f : C → A} (h : ∀ c, make s c = (f c, s))
    (calls : List C) : runAll make s calls = (calls.map f, s) := by
  induction calls with
  | nil => rfl
  | cons c calls ih => rw [runAll_cons (h c), ih, List.map_cons]

/-! ### Where calls may be made -/

/-- Whether each of the calls may be made where it is made. -/
def Admitted (make : S → C → A × S) (admits : S → C → Prop) (s : S) (calls : List C) : Prop :=
  ∀ before c after, calls = before ++ c :: after → admits (runAll make s before).2 c

theorem admitted_nil (make : S → C → A × S) (admits : S → C → Prop) (s : S) :
    Admitted make admits s [] := by
  intro before c after h
  exact absurd h (by simp)

theorem admitted_of_forall {make : S → C → A × S} {admits : S → C → Prop} {s : S} {calls : List C}
    (h : ∀ s, ∀ c ∈ calls, admits s c) : Admitted make admits s calls := by
  rintro before c after rfl
  exact h _ c (by simp)

theorem admitted_cons_iff {make : S → C → A × S} {admits : S → C → Prop} {s : S} {c : C}
    {calls : List C} :
    Admitted make admits s (c :: calls) ↔
      admits s c ∧ Admitted make admits (make s c).2 calls := by
  constructor
  · intro h
    refine ⟨h [] c calls rfl, ?_⟩
    intro before c' after heq
    exact h (c :: before) c' after (by rw [heq, List.cons_append])
  · rintro ⟨hfirst, hrest⟩ before c' after heq
    cases before with
    | nil =>
      obtain ⟨rfl, -⟩ := List.cons.inj heq
      exact hfirst
    | cons c₁ before =>
      obtain ⟨rfl, hcalls⟩ := List.cons.inj heq
      exact hrest before c' after hcalls

/-! ### What each call keeps -/

/-- If a relation is kept by all calls, and makes their answers belong together, so do the answers
of a run. -/
theorem runAll_forall₂ (make : S → C → A × S) (make' : S' → C → A' × S') {R : S → S' → Prop}
    {Q : A → A' → Prop} {admits : S → C → Prop} {s : S} {s' : S'}
    (hmake : ∀ {s s' c}, R s s' → admits s c →
      Q (make s c).1 (make' s' c).1 ∧ R (make s c).2 (make' s' c).2)
    {calls : List C} (hcalls : Admitted make admits s calls) (h : R s s') :
    List.Forall₂ Q (runAll make s calls).1 (runAll make' s' calls).1 ∧
      R (runAll make s calls).2 (runAll make' s' calls).2 := by
  induction calls generalizing s s' with
  | nil => exact ⟨.nil, h⟩
  | cons c calls ih =>
    obtain ⟨hfirst, hrest⟩ := admitted_cons_iff.mp hcalls
    obtain ⟨hanswer, hmade⟩ := hmake h hfirst
    obtain ⟨hanswers, hend⟩ := ih hrest hmade
    exact ⟨.cons hanswer hanswers, hend⟩

/-- If it makes them look the same, so do those of a run. -/
theorem runAll_alike (make : S → C → A × S) (make' : S' → C → A' × S') (f : A → B) (f' : A' → B)
    {R : S → S' → Prop} {admits : S → C → Prop} {s : S} {s' : S'}
    (hmake : ∀ {s s' c}, R s s' → admits s c →
      f (make s c).1 = f' (make' s' c).1 ∧ R (make s c).2 (make' s' c).2)
    {calls : List C} (hcalls : Admitted make admits s calls) (h : R s s') :
    (runAll make s calls).1.map f = (runAll make' s' calls).1.map f' ∧
      R (runAll make s calls).2 (runAll make' s' calls).2 := by
  obtain ⟨hanswers, hend⟩ := runAll_forall₂ make make' (Q := fun a a' => f a = f' a') hmake hcalls h
  refine ⟨?_, hend⟩
  rwa [← List.forall₂_eq_eq_eq, List.forall₂_map_left_iff, List.forall₂_map_right_iff]

/-- A relation that all calls keep and that shows in no answer shows in no run. -/
theorem runAll_related (make : S → C → A × S) (make' : S' → C → A × S') {R : S → S' → Prop}
    {admits : S → C → Prop} {s : S} {s' : S'}
    (hmake : ∀ {s s' c}, R s s' → admits s c →
      (make s c).1 = (make' s' c).1 ∧ R (make s c).2 (make' s' c).2)
    {calls : List C} (hcalls : Admitted make admits s calls) (h : R s s') :
    (runAll make s calls).1 = (runAll make' s' calls).1 ∧
      R (runAll make s calls).2 (runAll make' s' calls).2 := by
  have halike := runAll_alike make make' id id hmake hcalls h
  rwa [List.map_id, List.map_id] at halike

/-- What all calls keep is kept by a run. -/
theorem runAll_keeps {make : S → C → A × S} {I : S → Prop}
    (hmake : ∀ {s} (c : C), I s → I (make s c).2) {s : S} (h : I s) (calls : List C) :
    I (runAll make s calls).2 := by
  induction calls generalizing s with
  | nil => exact h
  | cons c calls ih => exact ih (hmake c h)

/-- Where each call on an image of a state is the call on the state, so is each run. -/
theorem runAll_image {make : S → C → A × S} {make' : S' → C → A × S'} {f : S → S'}
    (hmake : ∀ s c, make' (f s) c = ((make s c).1, f (make s c).2)) (s : S) (calls : List C) :
    runAll make' (f s) calls = ((runAll make s calls).1, f (runAll make s calls).2) := by
  induction calls generalizing s with
  | nil => rfl
  | cons c calls ih => rw [runAll, hmake, ih, runAll]

/-! ### Answers up to the error of a refusal -/

/-- An answer that does not say why it was refused. -/
def bare {α : Type} (answer : Outcome StreamError α) : Outcome Unit α :=
  answer.mapError (.map fun _ => ())

theorem bare_map {α β : Type} {a b : Outcome StreamError α} (h : bare a = bare b) (f : α → β) :
    bare (a.map f) = bare (b.map f) := by
  have hmap : ∀ answer : Outcome StreamError α, bare (answer.map f) = (bare answer).map f := by
    rintro (failure | x)
    · rfl
    · rfl
  rw [hmap, hmap, h]

end PackedBits
