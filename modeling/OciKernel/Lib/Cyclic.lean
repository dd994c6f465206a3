import Mathlib.Algebra.Order.Ring.Nat

/-!
# Lib.Cyclic

A cursor that goes round `n` positions, for any `n` and any predicate on positions.

* `search`: move the cursor on, at most so many rounds, to the next position where the predicate holds.
* `search_true_iff`: a whole round finds a position iff there is one.
* `search_before`: the cursor does not overtake a position where the predicate holds.
-/

namespace Cyclic

/-- The cursor after at most `k` rounds, and whether the predicate holds there. -/
def search (n : Nat) (ok : Nat → Bool) : Nat → Nat → Nat × Bool
  | 0, c => (c, false)
  | k + 1, c => if ok ((c + 1) % n) then ((c + 1) % n, true) else search n ok k ((c + 1) % n)

variable {n : Nat} {ok : Nat → Bool} {k c p : Nat}

/-- The positions that the cursor passes from `c` on. -/
def pos (n c i : Nat) : Nat := (c + 1 + i) % n

theorem pos_succ (n c i : Nat) : pos n ((c + 1) % n) i = pos n c (i + 1) := by
  rw [pos, pos, Nat.add_assoc, Nat.mod_add_mod]
  congr 1
  omega

/-- Either none of the `k` positions will do, or the cursor stops at the first one that does. -/
theorem search_cases (n : Nat) (ok : Nat → Bool) (k c : Nat) :
    ((search n ok k c).2 = false ∧ ∀ i < k, ok (pos n c i) = false) ∨
    ((search n ok k c).2 = true ∧ ∃ j < k, (search n ok k c).1 = pos n c j ∧
      ok (pos n c j) = true ∧ ∀ i < j, ok (pos n c i) = false) := by
  induction k generalizing c with
  | zero => exact .inl ⟨rfl, nofun⟩
  | succ k ih =>
    have hzero : pos n c 0 = (c + 1) % n := rfl
    rw [search]
    split
    · rename_i hok
      exact .inr ⟨rfl, 0, Nat.succ_pos k, rfl, hok, nofun⟩
    · rename_i hok
      have hfalse : ok (pos n c 0) = false := by simpa [hzero] using hok
      rcases ih ((c + 1) % n) with ⟨hnone, hall⟩ | ⟨hsome, j, hj, hcur, hokj, hall⟩
      · refine .inl ⟨hnone, fun i hi => ?_⟩
        cases i with
        | zero => exact hfalse
        | succ i => exact pos_succ n c i ▸ hall i (by omega)
      · refine .inr ⟨hsome, j + 1, by omega, by rw [hcur, pos_succ], pos_succ n c j ▸ hokj, ?_⟩
        intro i hi
        cases i with
        | zero => exact hfalse
        | succ i => exact pos_succ n c i ▸ hall i (by omega)

theorem search_lt (hn : 0 < n) (hc : c < n) : (search n ok k c).1 < n := by
  induction k generalizing c with
  | zero => exact hc
  | succ k ih =>
    rw [search]
    split
    · exact Nat.mod_lt _ hn
    · exact ih (Nat.mod_lt _ hn)

/-- A whole round passes every position. -/
theorem exists_pos (hc : c < n) (hp : p < n) : ∃ i < n, pos n c i = p := by
  by_cases h : c < p
  · exact ⟨p - (c + 1), by omega, by rw [pos, Nat.mod_eq_of_lt (by omega)]; omega⟩
  · refine ⟨n + p - (c + 1), by omega, ?_⟩
    rw [pos, show c + 1 + (n + p - (c + 1)) = p + n by omega, Nat.add_mod_right, Nat.mod_eq_of_lt hp]

theorem search_true_iff (hc : c < n) : (search n ok n c).2 = true ↔ ∃ p < n, ok p = true := by
  rcases search_cases n ok n c with ⟨hnone, hall⟩ | ⟨hsome, j, _, _, hok, _⟩
  · rw [hnone]
    refine iff_of_false nofun ?_
    rintro ⟨p, hp, hok⟩
    obtain ⟨i, hi, rfl⟩ := exists_pos hc hp
    rw [hall i hi] at hok
    cases hok
  · exact iff_of_true hsome ⟨_, Nat.mod_lt _ (by omega), hok⟩

/-- Where the cursor stops, the predicate holds. -/
theorem ok_of_search (h : (search n ok k c).2 = true) : ok (search n ok k c).1 = true := by
  rcases search_cases n ok k c with ⟨hnone, _⟩ | ⟨_, j, _, hcur, hok, _⟩
  · rw [hnone] at h
    cases h
  · rw [hcur]
    exact hok

/-! ## No overtaking -/

/-- Going up from `a`, and round, `c` comes before `b`. It does not matter how many positions there
are. -/
def Before (a b c : Nat) : Prop := if a < b then a ≤ c ∧ c < b else a ≤ c ∨ c < b

theorem before_self (a b : Nat) : Before a b a := by
  unfold Before
  split <;> omega

/-- From a position before `b`, the search stops at `b` or still before it, past `a`. -/
theorem search_before {a b : Nat} (h : Before a b c) (hb : b < n) (hc : c < n) (hok : ok b = true) :
    (search n ok n c).1 = b ∨
      (Before a b (search n ok n c).1 ∧ (search n ok n c).1 ≠ a) := by
  obtain ⟨ib, hib, hposb⟩ := exists_pos hc hb
  rcases search_cases n ok n c with ⟨_, hall⟩ | ⟨_, j, hj, hcur, _, hall⟩
  · have := hall ib hib
    rw [hposb, hok] at this
    cases this
  · -- the search does not pass `b`, where it would have stopped
    have hle : j ≤ ib := by
      by_contra hlt
      have := hall ib (by omega)
      rw [hposb, hok] at this
      cases this
    rw [hcur]
    have hmod : ∀ i < n, pos n c i = if c + 1 + i < n then c + 1 + i else c + 1 + i - n := by
      intro i hi
      rw [pos]
      split
      · exact Nat.mod_eq_of_lt (by assumption)
      · rw [Nat.mod_eq_sub_mod (by omega), Nat.mod_eq_of_lt (by omega)]
    rw [hmod ib hib] at hposb
    rw [hmod j hj]
    unfold Before at h ⊢
    grind

end Cyclic
