import Mathlib.Data.Fin.Basic
import Mathlib.Data.Nat.ModEq
import Mathlib.Data.List.Basic

/-!
# Lib.Ring

Rings of `n` slots between a producer and a consumer, addressed by free-running counters that wrap
modulo `w`, where `n` divides `w`. The consumer owns `head`, the producer owns `tail`; the entries
not yet consumed are the ones from `head` up to `tail`.

* `entries_publish`: writing the slot of `tail` and moving it appends one entry.
* `entries_of_ne`: while the counters differ, the entry at `head` is the first one.
* `entries_self`: equal counters mean there is nothing to consume.

Nothing here bounds how often the counters wrap.
-/

namespace Ring

variable {n w : Nat} [NeZero n] {α : Type*}

/-- The slot of a counter. -/
def slot (n : Nat) [NeZero n] (k : Nat) : Fin n := Fin.ofNat n k

/-- How far `tail` is ahead of `head`, modulo `w`. -/
def dist (w head tail : Nat) : Nat := (w - head + tail) % w

def entries (ring : Fin n → α) (w head tail : Nat) : List α :=
  (List.range (dist w head tail)).map fun k => ring (slot n (head + k))

theorem slot_mod (hn : n ∣ w) (k : Nat) : slot n (k % w) = slot n k :=
  Fin.ext (Nat.mod_mod_of_dvd k hn)

theorem slot_injective {k j i : Nat} (hi : i < n) (hj : j < n)
    (h : slot n (k + i) = slot n (k + j)) : i = j := by
  have hmod : (k + i) % n = (k + j) % n := congrArg Fin.val h
  have := Nat.ModEq.add_left_cancel' k hmod
  exact Nat.ModEq.eq_of_lt_of_lt this hi hj

theorem dist_self {head : Nat} (h : head < w) : dist w head head = 0 := by
  rw [dist, Nat.sub_add_cancel h.le, Nat.mod_self]

theorem dist_pos {head tail : Nat} (hh : head < w) (ht : tail < w) (h : head ≠ tail) :
    0 < dist w head tail := by
  rw [dist]
  by_cases hlt : head < tail
  · have he : w - head + tail = (tail - head) + w := by omega
    rw [he, Nat.add_mod_right, Nat.mod_eq_of_lt (by omega)]
    omega
  · rw [Nat.mod_eq_of_lt (by omega)]
    omega

/-- The counter `dist` ahead of `head` is `tail`. -/
theorem add_dist_mod {head tail : Nat} (hh : head < w) (ht : tail < w) :
    (head + dist w head tail) % w = tail := by
  have he : head + (w - head + tail) = tail + w := by omega
  rw [dist, Nat.add_mod_mod, he, Nat.add_mod_right, Nat.mod_eq_of_lt ht]

theorem dist_succ {head tail : Nat} (h : dist w head tail + 1 < w) :
    dist w head ((tail + 1) % w) = dist w head tail + 1 := by
  have he : w - head + (tail + 1) = w - head + tail + 1 := by omega
  have hw : 1 < w := by omega
  rw [dist, Nat.add_mod_mod, he, Nat.add_mod, Nat.mod_eq_of_lt hw]
  exact Nat.mod_eq_of_lt h

theorem dist_succ_head {head tail : Nat} (hh : head < w) (ht : tail < w) (h : head ≠ tail) :
    dist w head tail = dist w ((head + 1) % w) tail + 1 := by
  have hpos := dist_pos hh ht h
  have hlt : dist w head tail < w := Nat.mod_lt _ (by omega)
  by_cases hw : head + 1 < w
  · rw [Nat.mod_eq_of_lt hw]
    have he : w - head + tail = w - (head + 1) + tail + 1 := by omega
    rw [dist, he, Nat.add_mod] at hpos hlt ⊢
    rcases Nat.lt_or_ge ((w - (head + 1) + tail) % w + 1) w with h₁ | h₁
    · rw [Nat.mod_eq_of_lt (show 1 < w by omega), Nat.mod_eq_of_lt h₁, dist]
    · have h₂ := Nat.mod_lt (w - (head + 1) + tail) (show 0 < w by omega)
      have h₃ : (w - (head + 1) + tail) % w + 1 = w := by omega
      rw [Nat.mod_eq_of_lt (show 1 < w by omega), h₃, Nat.mod_self] at hpos
      omega
  · have he : head + 1 = w := by omega
    rw [he, Nat.mod_self, dist, dist, show w - head + tail = tail + 1 by omega, Nat.sub_zero,
      Nat.add_mod_left, Nat.mod_eq_of_lt ht, Nat.mod_eq_of_lt (by omega)]

@[simp] theorem length_entries (ring : Fin n → α) (head tail : Nat) :
    (entries ring w head tail).length = dist w head tail := by simp [entries]

theorem entries_self (ring : Fin n → α) {head : Nat} (h : head < w) :
    entries ring w head head = [] := by simp [entries, dist_self h]

/-- The producer writes the slot of `tail` and moves `tail`. -/
theorem entries_publish (ring : Fin n → α) (x : α) {head tail : Nat} (hn : n ∣ w) (hnw : n < w)
    (hh : head < w) (ht : tail < w) (h : dist w head tail < n) :
    entries (Function.update ring (slot n tail) x) w head ((tail + 1) % w) =
      entries ring w head tail ++ [x] := by
  have htail : slot n tail = slot n (head + dist w head tail) := by
    rw [← slot_mod hn (head + _), add_dist_mod hh ht]
  rw [entries, dist_succ (by omega), List.range_succ, List.map_append, List.map_singleton, htail,
    Function.update_self]
  congr 1
  apply List.map_congr_left
  intro k hk
  have hlt : k < dist w head tail := List.mem_range.1 hk
  apply Function.update_of_ne
  intro he
  have := slot_injective (by omega) h he
  omega

/-- While the counters differ, the consumer finds the first entry at `head`. -/
theorem entries_of_ne (ring : Fin n → α) {head tail : Nat} (hn : n ∣ w) (hh : head < w)
    (ht : tail < w) (h : head ≠ tail) :
    entries ring w head tail =
      ring (slot n head) :: entries ring w ((head + 1) % w) tail := by
  rw [entries, dist_succ_head hh ht h, List.range_succ_eq_map, List.map_cons, List.map_map, entries]
  congr 1
  apply List.map_congr_left
  intro k _
  show ring (slot n (head + (k + 1))) = ring (slot n ((head + 1) % w + k))
  rw [← slot_mod hn ((head + 1) % w + k), Nat.mod_add_mod, slot_mod hn,
    show head + (k + 1) = head + 1 + k by omega]

end Ring
