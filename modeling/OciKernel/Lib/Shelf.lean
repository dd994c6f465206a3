import Mathlib.Data.List.Induction

/-!
# Lib.Shelf

A list used as a set: an element is put at the end unless it is there, and taken out wherever it is. Over an
arbitrary type with decidable equality.

* `live`: the elements put and not taken since, as often as they were put, in that order.
* `foldl_step`: what the list is after any operations, told from the operations alone.
-/

namespace Shelf

variable {α : Type*}

inductive Op (α : Type*) where
  | put (a : α)
  | take (a : α)
deriving DecidableEq

variable [DecidableEq α]

def step (s : List α) : Op α → List α
  | .put a => if a ∈ s then s else s ++ [a]
  | .take a => s.filter (· ≠ a)

/-- Each `put` that no `take` of the same element follows. -/
def live : List (Op α) → List α
  | [] => []
  | .put a :: ops => if .take a ∈ ops then live ops else a :: live ops
  | .take _ :: ops => live ops

/-- Each element where its first live `put` stands. -/
def held (ops : List (Op α)) : List α := (live ops).eraseDups

theorem live_append_put (ops : List (Op α)) (a : α) : live (ops ++ [.put a]) = live ops ++ [a] := by
  induction ops with
  | nil => rfl
  | cons op ops ih =>
    cases op with
    | put b =>
      have hmem : Op.take b ∈ ops ++ [.put a] ↔ .take b ∈ ops := by simp
      simp only [List.cons_append, live, hmem, ih]
      split <;> rfl
    | take b => exact ih

theorem live_append_take (ops : List (Op α)) (a : α) :
    live (ops ++ [.take a]) = (live ops).filter (· ≠ a) := by
  induction ops with
  | nil => rfl
  | cons op ops ih =>
    cases op with
    | put b =>
      by_cases hb : b = a
      · have hmem : Op.take b ∈ ops ++ [.take a] := by simp [hb]
        simp only [List.cons_append, live, if_pos hmem, ih]
        split
        · rfl
        · rw [List.filter_cons_of_neg (by simp [hb])]
      · have hmem : Op.take b ∈ ops ++ [.take a] ↔ .take b ∈ ops := by simp [hb]
        simp only [List.cons_append, live, hmem, ih]
        split
        · rfl
        · rw [List.filter_cons_of_pos (by simp [hb])]
    | take b => exact ih

theorem put_mem_of_held {ops : List (Op α)} {a : α} (h : a ∈ held ops) : .put a ∈ ops := by
  have hlive : a ∈ live ops := List.mem_eraseDups.1 h
  clear h
  induction ops with
  | nil => cases hlive
  | cons op ops ih =>
    cases op with
    | put b =>
      rw [live] at hlive
      split at hlive
      · exact List.mem_cons_of_mem _ (ih hlive)
      · rcases List.mem_cons.1 hlive with rfl | hlive
        · exact List.mem_cons_self ..
        · exact List.mem_cons_of_mem _ (ih hlive)
    | take b => exact List.mem_cons_of_mem _ (ih hlive)

theorem eraseDups_concat (l : List α) (a : α) :
    (l ++ [a]).eraseDups = if a ∈ l then l.eraseDups else l.eraseDups ++ [a] := by
  rw [List.eraseDups_append]
  split
  · next h => simp [List.removeAll, h]
  · next h => simp [List.removeAll, h, List.eraseDups_cons]

theorem eraseDups_filter (p : α → Bool) (l : List α) : (l.filter p).eraseDups = l.eraseDups.filter p := by
  induction l using List.reverseRecOn with
  | nil => rfl
  | append_singleton l a ih =>
    rw [eraseDups_concat, List.filter_append]
    by_cases hp : p a
    · have hmem : a ∈ l.filter p ↔ a ∈ l := by rw [List.mem_filter, and_iff_left hp]
      have hone : [a].filter p = [a] := List.filter_cons_of_pos hp
      rw [hone, eraseDups_concat, ih]
      simp only [hmem]
      split
      · rfl
      · rw [List.filter_append, hone]
    · have hnone : [a].filter p = [] := List.filter_cons_of_neg hp
      rw [hnone, List.append_nil, ih]
      split
      · rfl
      · rw [List.filter_append, hnone, List.append_nil]

theorem foldl_step (ops : List (Op α)) : ops.foldl step [] = held ops := by
  induction ops using List.reverseRecOn with
  | nil => rfl
  | append_singleton ops op ih =>
    rw [List.foldl_append, ih, List.foldl_cons, List.foldl_nil]
    cases op with
    | put a =>
      rw [held, held, live_append_put, eraseDups_concat, step]
      simp only [List.mem_eraseDups]
    | take a => rw [held, held, live_append_take, eraseDups_filter, step]

end Shelf
