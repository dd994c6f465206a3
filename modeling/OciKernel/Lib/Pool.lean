import Mathlib.Algebra.Order.Group.Multiset
import Mathlib.Tactic.Abel
import OciKernel.Lib.Run

/-!
# Lib.Pool

A fixed pool of items passed between a producer of data and a consumer, over arbitrary types of items
and data. An item is available; the producer takes it, fills it and hands it over as used; the
consumer takes the data out of the oldest used item and makes it available again.

* `Conserved.step`: every move keeps each item in exactly one place, and keeps the data handed over
  equal to the data received followed by the data on the way.
* `Conserved.run`: hence over any run.
-/

namespace Pool

open Transition

variable {ι δ : Type*}

structure State (ι δ : Type*) where
  available : List ι
  held : List ι
  filled : List (ι × δ)
  used : List (ι × δ)
  /-- The used item the consumer is reading. -/
  busy : Option (ι × δ)
  completed : List δ
  received : List δ

inductive Move (ι δ : Type*) where
  | take
  | fill (i : ι) (d : δ)
  | handOver (i : ι) (d : δ)
  | pick
  | release

namespace State

/-- All items, wherever they are. -/
def items (s : State ι δ) : Multiset ι :=
  s.available + s.held + (s.filled : Multiset (ι × δ)).map Prod.fst +
    ((s.busy.toList ++ s.used : List (ι × δ)) : Multiset (ι × δ)).map Prod.fst

/-- The data handed over and not yet received, oldest first. -/
def pending (s : State ι δ) : List δ := (s.busy.toList ++ s.used).map Prod.snd

end State

structure Conserved (all : Multiset ι) (s : State ι δ) : Prop where
  items : s.items = all
  order : s.completed = s.received ++ s.pending

theorem Conserved.length {all : Multiset ι} {s : State ι δ} (h : Conserved all s) :
    s.available.length + s.held.length + s.filled.length + s.busy.toList.length + s.used.length =
      all.card := by
  rw [← h.items]
  simp [State.items]
  omega

/-- A held item is none of the filled or used ones. -/
theorem Conserved.ne_of_held {all : Multiset ι} {s : State ι δ} (h : Conserved all s)
    (hnd : all.Nodup) {i : ι} (hi : i ∈ s.held) {x : ι × δ} (hx : x ∈ s.filled ++ s.used) :
    x.1 ≠ i := by
  classical
  intro he
  subst he
  rw [← h.items] at hnd
  have hcount := Multiset.nodup_iff_count_le_one.1 hnd x.1
  have hheld : 0 < (s.held : Multiset ι).count x.1 := Multiset.count_pos.2 (Multiset.mem_coe.2 hi)
  have hrest : 0 < ((s.filled : Multiset (ι × δ)).map Prod.fst).count x.1 +
      (((s.busy.toList ++ s.used : List (ι × δ)) : Multiset (ι × δ)).map Prod.fst).count x.1 := by
    cases List.mem_append.1 hx with
    | inl hx =>
      have := Multiset.count_pos.2 (Multiset.mem_map_of_mem Prod.fst (Multiset.mem_coe.2 hx))
      omega
    | inr hx =>
      have := Multiset.count_pos.2 (Multiset.mem_map_of_mem Prod.fst
        (Multiset.mem_coe.2 (List.mem_append_right s.busy.toList hx)))
      omega
  simp only [State.items, Multiset.count_add] at hcount
  omega

variable [BEq ι] [LawfulBEq ι] [BEq δ] [LawfulBEq δ]

inductive Step : State ι δ → Move ι δ → State ι δ → Prop where
  | take {s : State ι δ} {i : ι} {rest : List ι} (h : s.available = i :: rest) :
      Step s .take { s with available := rest, held := s.held ++ [i] }
  | fill {s : State ι δ} {i : ι} (d : δ) (h : i ∈ s.held) :
      Step s (.fill i d) { s with held := s.held.erase i, filled := s.filled ++ [(i, d)] }
  | handOver {s : State ι δ} {i : ι} {d : δ} (h : (i, d) ∈ s.filled) :
      Step s (.handOver i d) { s with
        filled := s.filled.erase (i, d)
        used := s.used ++ [(i, d)]
        completed := s.completed ++ [d] }
  | pick {s : State ι δ} {i : ι} {d : δ} {rest : List (ι × δ)} (hb : s.busy = none)
      (h : s.used = (i, d) :: rest) :
      Step s .pick { s with used := rest, busy := some (i, d) }
  | release {s : State ι δ} {i : ι} {d : δ} (h : s.busy = some (i, d)) :
      Step s .release { s with
        available := s.available ++ [i]
        busy := none
        received := s.received ++ [d] }

theorem coe_erase {α : Type*} [BEq α] [LawfulBEq α] {l : List α} {a : α} (h : a ∈ l) :
    (l : Multiset α) = {a} + (l.erase a : Multiset α) := by
  rw [Multiset.singleton_add, Multiset.cons_coe, Multiset.coe_eq_coe]
  exact List.perm_cons_erase h

theorem coe_concat {α : Type*} (l : List α) (a : α) :
    ((l ++ [a] : List α) : Multiset α) = l + {a} := by
  rw [← Multiset.coe_add, Multiset.coe_singleton]

theorem coe_cons {α : Type*} (l : List α) (a : α) :
    ((a :: l : List α) : Multiset α) = {a} + l := by
  rw [← Multiset.cons_coe, Multiset.singleton_add]

theorem Step.items {s s' : State ι δ} {m : Move ι δ} (h : Step s m s') : s'.items = s.items := by
  cases h with
  | take h =>
    simp only [State.items, h, coe_concat, coe_cons]
    abel
  | fill d h =>
    simp only [State.items, coe_erase h, coe_concat, Multiset.map_add, Multiset.map_singleton]
    abel
  | handOver h =>
    unfold State.items
    rw [coe_erase h, ← List.append_assoc, coe_concat, Multiset.map_add, Multiset.map_add,
      Multiset.map_singleton]
    abel
  | pick hb h => simp only [State.items, hb, h, Option.toList_none, Option.toList_some,
      List.nil_append, List.singleton_append]
  | release h =>
    simp only [State.items, h, coe_concat, Option.toList_none, Option.toList_some, List.nil_append,
      List.singleton_append, coe_cons, Multiset.map_add, Multiset.map_singleton]
    abel

theorem Conserved.step {all : Multiset ι} {s s' : State ι δ} {m : Move ι δ} (h : Conserved all s)
    (hs : Step s m s') : Conserved all s' := by
  refine ⟨hs.items.trans h.items, ?_⟩
  have ho := h.order
  cases hs with
  | take _ => exact ho
  | fill _ _ => exact ho
  | handOver _ => simp [ho, State.pending]
  | pick hb hu => simpa [State.pending, hb, hu] using ho
  | release hb => simpa [State.pending, hb] using ho

theorem Conserved.run {all : Multiset ι} {s s' : State ι δ} {ms : List (Move ι δ)}
    (h : Conserved all s) (hr : Run Step s ms s') : Conserved all s' :=
  hr.invariant (fun _ _ _ hc hs => hc.step hs) h

end Pool
