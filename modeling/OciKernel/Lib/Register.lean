import OciKernel.Lib.Run

/-!
# Lib.Register

A register that events overwrite, over arbitrary event and value types. `f e = some v` says that the
event `e` sets the register to `v`, `f e = none` that it leaves the register alone.

* `value f v₀ es`: the register after the events `es`, from `v₀` on.
* `LastSet f es v`: some event of `es` sets the register to `v` and no later one sets it.
* `value_eq_of_lastSet`, `value_eq_of_untouched`: which of the two decides the value.
* `findSome?_reverse_of_lastSet`: a search from the end of the history finds the same value.
* `component_final`: a component of a running system as a register of its trace.
-/

namespace Register

universe u v

variable {E : Type u} {V : Type v} {f : E → Option V} {v₀ v w : V} {e : E} {es : List E}

def value (f : E → Option V) (v₀ : V) (es : List E) : V := es.foldl (fun v e => (f e).getD v) v₀

def LastSet (f : E → Option V) (es : List E) (v : V) : Prop :=
  ∃ before e after, es = before ++ e :: after ∧ f e = some v ∧ ∀ e' ∈ after, f e' = none

theorem value_cons : value f v₀ (e :: es) = value f ((f e).getD v₀) es := rfl

theorem value_eq_of_untouched (h : ∀ e ∈ es, f e = none) : value f v₀ es = v₀ := by
  induction es with
  | nil => rfl
  | cons e es ih =>
    rw [value_cons, h e (List.mem_cons_self ..)]
    exact ih fun e' he' => h e' (List.mem_cons_of_mem _ he')

theorem value_eq_of_lastSet (h : LastSet f es v) : value f v₀ es = v := by
  obtain ⟨before, e, after, rfl, he, hafter⟩ := h
  have hsplit : value f v₀ (before ++ e :: after) = value f (value f v₀ before) (e :: after) :=
    List.foldl_append
  rw [hsplit, value_cons, he]
  exact value_eq_of_untouched hafter

/-- Either some event of a history was the last to set the register, or none set it. -/
theorem lastSet_or_untouched (f : E → Option V) (es : List E) :
    (∃ v, LastSet f es v) ∨ ∀ e ∈ es, f e = none := by
  induction es with
  | nil => exact .inr (by simp)
  | cons e es ih =>
    rcases ih with ⟨v, before, e', after, rfl, he', hafter⟩ | hnone
    · exact .inl ⟨v, e :: before, e', after, rfl, he', hafter⟩
    · cases he : f e with
      | some v => exact .inl ⟨v, [], e, es, rfl, he, hnone⟩
      | none => exact .inr (by simpa [he] using hnone)

/-- A value other than the first one comes from the last event that set the register. -/
theorem value_eq_iff (hv : v ≠ v₀) : value f v₀ es = v ↔ LastSet f es v := by
  constructor
  · intro h
    rcases lastSet_or_untouched f es with ⟨w, hw⟩ | hnone
    · rw [value_eq_of_lastSet hw] at h
      subst h
      exact hw
    · rw [value_eq_of_untouched hnone] at h
      exact absurd h.symm hv
  · exact fun h => value_eq_of_lastSet h

/-- Searching a history from its end finds the last event that sets the register. -/
theorem findSome?_reverse_of_lastSet (h : LastSet f es v) : es.reverse.findSome? f = some v := by
  obtain ⟨before, e, after, rfl, he, hafter⟩ := h
  have hnone : after.reverse.findSome? f = none :=
    List.findSome?_eq_none_iff.2 fun e' he' => hafter e' (List.mem_reverse.1 he')
  rw [List.reverse_append, List.reverse_cons, List.append_assoc, List.findSome?_append, hnone,
    Option.none_or, List.singleton_append, List.findSome?_cons, he]

theorem findSome?_reverse_of_untouched (h : ∀ e ∈ es, f e = none) :
    es.reverse.findSome? f = none :=
  List.findSome?_eq_none_iff.2 fun e he => h e (List.mem_reverse.1 he)

/-- A component `g` of a state that each operation changes as its result says is a register that the
trace overwrites. -/
theorem component_final {S A R : Type*} {step : S → A → S × R} {g : S → V} {f : A × R → Option V}
    (hstep : ∀ s a, g (step s a).1 = (f (a, (step s a).2)).getD (g s)) (s : S) (as : List A) :
    g (Transition.final step s as) = value f (g s) (Transition.trace step s as) := by
  induction as generalizing s with
  | nil => rfl
  | cons a as ih =>
    rw [Transition.final_cons, Transition.trace_cons, value_cons, ← hstep]
    exact ih (step s a).1

end Register
