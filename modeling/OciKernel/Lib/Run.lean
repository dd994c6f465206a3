import Mathlib.Data.List.Infix

/-!
# Lib.Run

Finite runs of a labelled step relation, over arbitrary state and label types.

* `Run step s as s'`: the labels `as` take `s` to `s'`.
* `Run.invariant`: the invariant rule, one step lemma gives every run.
* `Throughout`, `StepsMeet`: for a total step function, a property of every state passed through, and
  a condition on every step taken. `throughout_iff_stepsMeet` says when the two are the same.
* `final`, `trace`: where operations with results lead, and the results on the way.
-/

namespace Transition

universe u v

variable {S : Type u} {A : Type v}

inductive Run (step : S → A → S → Prop) : S → List A → S → Prop where
  | nil {s : S} : Run step s [] s
  | cons {s s₁ s' : S} {a : A} {as : List A} :
      step s a s₁ → Run step s₁ as s' → Run step s (a :: as) s'

namespace Run

variable {step : S → A → S → Prop} {s s' : S} {a : A} {as : List A}

theorem single (h : step s a s') : Run step s [a] s' := .cons h .nil

theorem append {s₁ : S} {bs : List A} (h : Run step s as s₁) (h' : Run step s₁ bs s') :
    Run step s (as ++ bs) s' := by
  induction h with
  | nil => exact h'
  | cons h₁ _ ih => exact .cons h₁ (ih h')

/-- A run of `as` and then `bs` passes through a state in between. -/
theorem split {bs : List A} (h : Run step s (as ++ bs) s') :
    ∃ s₁, Run step s as s₁ ∧ Run step s₁ bs s' := by
  induction as generalizing s with
  | nil => exact ⟨s, .nil, h⟩
  | cons a as ih =>
    cases h with
    | cons h₁ h₂ =>
      obtain ⟨s₁, h₃, h₄⟩ := ih h₂
      exact ⟨s₁, .cons h₁ h₃, h₄⟩

/-- The invariant rule. -/
theorem invariant {P : S → Prop} (hstep : ∀ s a s', P s → step s a s' → P s')
    (h : Run step s as s') (hs : P s) : P s' := by
  induction h with
  | nil => exact hs
  | cons h₁ _ ih => exact ih (hstep _ _ _ hs h₁)

end Run

/-! ## Total step functions -/

section Total

variable {step : S → A → S} {P I : S → Prop} {ok : S → A → Prop} {s : S} {a : A} {as : List A}

/-- `P` holds in every state that the labels `as` pass through, the first and the last included. -/
def Throughout (step : S → A → S) (P : S → Prop) (s : S) (as : List A) : Prop :=
  ∀ pre, pre <+: as → P (pre.foldl step s)

/-- Each label of `as` is taken in a state where `ok` allows it. -/
def StepsMeet (step : S → A → S) (ok : S → A → Prop) (s : S) (as : List A) : Prop :=
  ∀ pre a, pre ++ [a] <+: as → ok (pre.foldl step s) a

theorem throughout_nil : Throughout step P s [] ↔ P s :=
  ⟨fun h => h [] List.nil_prefix, fun h pre hp => by rw [List.prefix_nil.1 hp]; exact h⟩

theorem throughout_cons :
    Throughout step P s (a :: as) ↔ P s ∧ Throughout step P (step s a) as := by
  constructor
  · intro h
    exact ⟨h [] List.nil_prefix, fun pre hp => h (a :: pre) (List.cons_prefix_cons.2 ⟨rfl, hp⟩)⟩
  · rintro ⟨h₁, h₂⟩ pre hp
    cases pre with
    | nil => exact h₁
    | cons b pre =>
      obtain ⟨rfl, htl⟩ := List.cons_prefix_cons.1 hp
      exact h₂ pre htl

theorem stepsMeet_nil : StepsMeet step ok s [] := fun pre a hp => by
  have := List.prefix_nil.1 hp
  simp at this

theorem stepsMeet_cons :
    StepsMeet step ok s (a :: as) ↔ ok s a ∧ StepsMeet step ok (step s a) as := by
  constructor
  · intro h
    refine ⟨h [] a (List.cons_prefix_cons.2 ⟨rfl, List.nil_prefix⟩), ?_⟩
    intro pre b hp
    exact h (a :: pre) b (List.cons_prefix_cons.2 ⟨rfl, hp⟩)
  · rintro ⟨h₁, h₂⟩ pre b hp
    cases pre with
    | nil =>
      obtain ⟨rfl, _⟩ := List.cons_prefix_cons.1 hp
      exact h₁
    | cons c pre =>
      obtain ⟨rfl, htl⟩ := List.cons_prefix_cons.1 hp
      exact h₂ pre b htl

/-- The run of a step function that is guarded by `ok`. -/
theorem StepsMeet.run (h : StepsMeet step ok s as) :
    Run (fun s a s' => ok s a ∧ s' = step s a) s as (as.foldl step s) := by
  induction as generalizing s with
  | nil => exact .nil
  | cons a as ih =>
    obtain ⟨h₁, h₂⟩ := stepsMeet_cons.1 h
    exact .cons ⟨h₁, rfl⟩ (ih h₂)

/-- When, in the states of an invariant `I` that implies `P`, a step keeps `P` exactly if `ok` allows
it, and then keeps `I` too, a run keeps `P` throughout iff `ok` allows each of its steps. -/
theorem throughout_iff_stepsMeet (hIP : ∀ s, I s → P s)
    (hstep : ∀ s a, I s → (P (step s a) ↔ ok s a)) (hinv : ∀ s a, I s → ok s a → I (step s a))
    (hs : I s) : Throughout step P s as ↔ StepsMeet step ok s as := by
  induction as generalizing s with
  | nil => exact ⟨fun _ => stepsMeet_nil, fun _ => throughout_nil.2 (hIP s hs)⟩
  | cons a as ih =>
    rw [throughout_cons, stepsMeet_cons]
    constructor
    · rintro ⟨_, h⟩
      have hok : ok s a := (hstep s a hs).1 (h [] List.nil_prefix)
      exact ⟨hok, (ih (hinv s a hs hok)).1 h⟩
    · rintro ⟨hok, h⟩
      exact ⟨hIP s hs, (ih (hinv s a hs hok)).2 h⟩

end Total

/-! ## Operations with results -/

section Traced

universe w

variable {R : Type w} {step : S → A → S × R} {s : S}

/-- The state after the operations `as`. -/
def final (step : S → A → S × R) (s : S) (as : List A) : S := as.foldl (fun s a => (step s a).1) s

/-- The operations, each with its result. -/
def trace (step : S → A → S × R) : S → List A → List (A × R)
  | _, [] => []
  | s, a :: as => (a, (step s a).2) :: trace step (step s a).1 as

theorem final_cons (a : A) (as : List A) : final step s (a :: as) = final step (step s a).1 as := rfl

theorem trace_cons (a : A) (as : List A) :
    trace step s (a :: as) = (a, (step s a).2) :: trace step (step s a).1 as := rfl

/-- The invariant rule. -/
theorem final_invariant {P : S → Prop} (hstep : ∀ s a, P s → P (step s a).1) (hs : P s)
    (as : List A) : P (final step s as) := by
  induction as generalizing s with
  | nil => exact hs
  | cons a as ih => exact ih (hstep s a hs)

end Traced

end Transition
