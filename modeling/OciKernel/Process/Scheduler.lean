import Mathlib.Data.List.Nodup
import OciKernel.Lib.Cyclic
import OciKernel.Lib.Run

/-!
# Process.Scheduler

The round-robin scheduler of `process/scheduler.rs`, and its runs: `add` with a pid not added before,
`set_state` and `next`, in any order.

* `next_eq`: `next` is one search round the queue, also from the initial cursor.
* `Inv`: the queue holds the state that each pid was last given.
* `next_sound`: what `next` returns in a reachable state.
* `Ahead`: a process still to come in the round; `round_robin`: while one can run, no other is returned
  twice without it.
-/

namespace OciKernel
namespace Process

open Transition

structure ProcessId where
  val : UInt64
deriving DecidableEq, Repr

inductive ProcessState where
  | running
  | ready
  | blocked
  | zombie
deriving DecidableEq, Repr

def ProcessState.canRun (state : ProcessState) : Bool := state == .ready || state == .running

structure Scheduler where
  queue : List (ProcessId × ProcessState)
  current : Nat
deriving DecidableEq, Repr

namespace Scheduler

/-- The cursor starts at `usize::MAX`. -/
def new : Scheduler := ⟨[], 2 ^ 64 - 1⟩

/-- A vector of more than `isize::MAX` bytes is a panic; an entry has 16. -/
def add (s : Scheduler) (pid : ProcessId) (state : ProcessState) : Option Scheduler :=
  if (s.queue.length + 1) * 16 < 2 ^ 63 then some { s with queue := s.queue ++ [(pid, state)] }
  else none

/-- The loop of `next`, with so many rounds left. -/
def nextLoop (queue : List (ProcessId × ProcessState)) (hlen : 0 < queue.length) :
    Nat → Nat → Nat × Option ProcessId
  | 0, current => (current, none)
  | k + 1, current =>
    -- `current.wrapping_add(1) % len`
    let i : Fin queue.length := ⟨(current + 1) % 2 ^ 64 % queue.length, Nat.mod_lt _ hlen⟩
    let (pid, state) := queue.get i
    if state.canRun then (i, some pid) else nextLoop queue hlen k i

def next (s : Scheduler) : Scheduler × Option ProcessId :=
  if h : s.queue.length = 0 then (s, none)
  else
    let (current, pid) := nextLoop s.queue (Nat.pos_of_ne_zero h) s.queue.length s.current
    ({ s with current }, pid)

/-- The first entry of `pid` gets the state. -/
def setFirst (pid : ProcessId) (state : ProcessState) :
    List (ProcessId × ProcessState) → List (ProcessId × ProcessState)
  | [] => []
  | (p, st) :: rest => if p = pid then (p, state) :: rest else (p, st) :: setFirst pid state rest

def setState (s : Scheduler) (pid : ProcessId) (state : ProcessState) : Scheduler :=
  { s with queue := setFirst pid state s.queue }

/-! ## One call -/

/-- Whether the entry at position `i` can run. -/
def okAt (queue : List (ProcessId × ProcessState)) (i : Nat) : Bool :=
  (queue[i]?).any fun e => e.2.canRun

/-- The cursor as a position: before the first call it counts as the last one. -/
def cursor (s : Scheduler) : Nat :=
  if s.current < s.queue.length then s.current else s.queue.length - 1

/-- What the scheduler relies on: the cursor is a position or the initial one, and the queue is a
vector. -/
structure Cursor (s : Scheduler) : Prop where
  current : s.current < s.queue.length ∨ s.current = 2 ^ 64 - 1
  length : s.queue.length * 16 < 2 ^ 63

section

variable {queue : List (ProcessId × ProcessState)} {s s' : Scheduler} {pid : ProcessId}

theorem nextLoop_eq (hlen : 0 < queue.length) (hsmall : queue.length < 2 ^ 64) (k : Nat) {c : Nat}
    (hc : c < queue.length) : nextLoop queue hlen k c =
      ((Cyclic.search queue.length (okAt queue) k c).1,
        if (Cyclic.search queue.length (okAt queue) k c).2 then
          (queue[(Cyclic.search queue.length (okAt queue) k c).1]?).map Prod.fst else none) := by
  induction k generalizing c with
  | zero => rfl
  | succ k ih =>
    have hwrap : (c + 1) % 2 ^ 64 = c + 1 := Nat.mod_eq_of_lt (by omega)
    have hi : (c + 1) % queue.length < queue.length := Nat.mod_lt _ hlen
    have hget : queue[(c + 1) % queue.length]? = some (queue.get ⟨(c + 1) % queue.length, hi⟩) :=
      List.getElem?_eq_getElem hi
    have hok : okAt queue ((c + 1) % queue.length) =
        (queue.get ⟨(c + 1) % queue.length, hi⟩).2.canRun := by rw [okAt, hget]; rfl
    rw [nextLoop, Cyclic.search, hok]
    simp only [hwrap]
    split
    · simp [hget]
    · exact ih hi

theorem next_eq (h : s.Cursor) (hlen : 0 < s.queue.length) :
    s.next = ({ s with
        current := (Cyclic.search s.queue.length (okAt s.queue) s.queue.length s.cursor).1 },
      if (Cyclic.search s.queue.length (okAt s.queue) s.queue.length s.cursor).2 then
        (s.queue[(Cyclic.search s.queue.length (okAt s.queue) s.queue.length s.cursor).1]?).map
          Prod.fst else none) := by
  have hcursor : s.cursor < s.queue.length := by
    unfold cursor
    split <;> omega
  have hsmall : s.queue.length < 2 ^ 64 := by
    have := h.length
    omega
  -- the first round from the initial cursor is the first round from the last position
  have hloop : nextLoop s.queue hlen s.queue.length s.current =
      nextLoop s.queue hlen s.queue.length s.cursor := by
    unfold cursor
    split
    · rfl
    · rename_i hge
      have hmax := h.current.resolve_left hge
      obtain ⟨k, hk⟩ := Nat.exists_eq_succ_of_ne_zero (Nat.ne_of_gt hlen)
      have hlast : (s.queue.length - 1 + 1) % 2 ^ 64 % s.queue.length = 0 := by
        rw [Nat.sub_add_cancel hlen, Nat.mod_eq_of_lt hsmall, Nat.mod_self]
      have hfirst : (2 ^ 64 - 1 + 1) % 2 ^ 64 % s.queue.length = 0 := by simp
      rw [hmax]
      generalize hn : s.queue.length - 1 = last at hlast
      conv_lhs => rw [hk, nextLoop]
      conv_rhs => rw [hk, nextLoop]
      simp only [hlast, hfirst]
  rw [next, dif_neg (Nat.ne_of_gt hlen), hloop, nextLoop_eq hlen hsmall _ hcursor]

theorem okAt_iff {i : Nat} :
    okAt queue i = true ↔ ∃ e, queue[i]? = some e ∧ e.2.canRun = true := by
  rw [okAt, Option.any_eq_true]

/-- `next` moves the cursor only. It returns the entry at the new position, which can run, or there is
no such entry. -/
theorem next_cases (h : s.Cursor) :
    (s.next.1.Cursor ∧ s.next.1.queue = s.queue) ∧
    ((s.next.2 = none ∧ ∀ e ∈ s.queue, e.2.canRun = false) ∨
      ∃ e, s.queue[s.next.1.current]? = some e ∧ e.2.canRun = true ∧ s.next.2 = some e.1) := by
  rcases Nat.eq_zero_or_pos s.queue.length with hnil | hlen
  · have hnext : s.next = (s, none) := dif_pos hnil
    rw [hnext]
    exact ⟨⟨h, rfl⟩, .inl ⟨rfl, by simp [List.length_eq_zero_iff.1 hnil]⟩⟩
  · have hcursor : s.cursor < s.queue.length := by
      unfold cursor
      split <;> omega
    have hlt : (Cyclic.search s.queue.length (okAt s.queue) s.queue.length s.cursor).1 <
        s.queue.length := Cyclic.search_lt hlen hcursor
    rw [next_eq h hlen]
    refine ⟨⟨⟨.inl hlt, h.length⟩, rfl⟩, ?_⟩
    cases hfound : (Cyclic.search s.queue.length (okAt s.queue) s.queue.length s.cursor).2 with
    | false =>
      refine .inl ⟨by simp, fun e he => ?_⟩
      obtain ⟨i, hi, rfl⟩ := List.mem_iff_getElem.1 he
      by_contra hrun
      have hok : okAt s.queue i = true :=
        okAt_iff.2 ⟨_, List.getElem?_eq_getElem hi, by simpa using hrun⟩
      rw [(Cyclic.search_true_iff hcursor).2 ⟨i, hi, hok⟩] at hfound
      cases hfound
    | true =>
      obtain ⟨e, he, hrun⟩ := okAt_iff.1 (Cyclic.ok_of_search hfound)
      exact .inr ⟨e, he, hrun, by simp [he]⟩

/-- The cursor does not overtake an entry that can run. -/
theorem next_before (h : s.Cursor) {a b : Nat} (hbefore : Cyclic.Before a b s.current)
    (hcur : s.current < s.queue.length) (hb : okAt s.queue b = true) :
    s.next.1.current = b ∨ (Cyclic.Before a b s.next.1.current ∧ s.next.1.current ≠ a) := by
  obtain ⟨e, he, _⟩ := okAt_iff.1 hb
  have hlt : b < s.queue.length := (List.getElem?_eq_some_iff.1 he).1
  have hcursor : s.cursor = s.current := if_pos hcur
  rw [next_eq h (by omega), hcursor]
  exact Cyclic.search_before hbefore hlt hcur hb

theorem length_setFirst (state : ProcessState) :
    (setFirst pid state queue).length = queue.length := by
  induction queue with
  | nil => rfl
  | cons e queue ih =>
    rw [setFirst]
    split <;> simp [ih]

theorem map_setFirst (state : ProcessState) :
    (setFirst pid state queue).map Prod.fst = queue.map Prod.fst := by
  induction queue with
  | nil => rfl
  | cons e queue ih =>
    rw [setFirst]
    split <;> simp [ih]

/-- With distinct pids, the entry of `pid` is the only one that changes. -/
theorem mem_setFirst {state : ProcessState} (hnd : (queue.map Prod.fst).Nodup)
    {e : ProcessId × ProcessState} : e ∈ setFirst pid state queue ↔
      if e.1 = pid then e.2 = state ∧ pid ∈ queue.map Prod.fst else e ∈ queue := by
  induction queue with
  | nil => simp [setFirst]
  | cons d queue ih =>
    obtain ⟨p, st⟩ := d
    obtain ⟨q, st'⟩ := e
    rw [List.map_cons, List.nodup_cons] at hnd
    have ih := ih hnd.2
    rw [setFirst]
    by_cases hp : p = pid
    · subst hp
      have hnot : ∀ st, (p, st) ∉ queue := fun st hmem =>
        hnd.1 (List.mem_map.2 ⟨(p, st), hmem, rfl⟩)
      by_cases hq : q = p
      · subst hq
        simp [hnot]
      · simp [hq]
    · by_cases hq : q = pid
      · subst hq
        simp only [if_neg hp, List.mem_cons, ih, if_true, List.map_cons, Prod.mk.injEq]
        grind
      · simp [hp, hq, ih]

end

/-! ## Runs -/

/-- A call, with what `next` returned. -/
inductive Event where
  | add (pid : ProcessId) (state : ProcessState)
  | setState (pid : ProcessId) (state : ProcessState)
  | next (result : Option ProcessId)

/-- The callers add a pid once; a panic is no step. -/
def Step (s : Scheduler) : Event → Scheduler → Prop
  | .add pid state, s' => pid ∉ s.queue.map Prod.fst ∧ s.add pid state = some s'
  | .setState pid state, s' => s' = s.setState pid state
  | .next result, s' => s.next = (s', result)

/-- The state of `pid` after an event. A pid that was never added has none. -/
def latest (pid : ProcessId) (old : Option ProcessState) : Event → Option ProcessState
  | .add p state => if p = pid then some state else old
  | .setState p state => if p = pid then old.map fun _ => state else old
  | .next _ => old

/-- The most recent state of `pid`. -/
def stateOf (es : List Event) (pid : ProcessId) : Option ProcessState := es.foldl (latest pid) none

/-- `pid` is ready or running after the events. -/
def CanRun (es : List Event) (pid : ProcessId) : Prop :=
  ∃ state, stateOf es pid = some state ∧ (state = .ready ∨ state = .running)

structure Inv (es : List Event) (s : Scheduler) : Prop extends Cursor s where
  nodup : (s.queue.map Prod.fst).Nodup
  states : ∀ pid state, (pid, state) ∈ s.queue ↔ stateOf es pid = some state

variable {es : List Event} {s s' : Scheduler} {pid : ProcessId}

theorem inv_new : Inv [] new := ⟨⟨.inr rfl, by simp [new]⟩, List.nodup_nil, by simp [new, stateOf]⟩

theorem stateOf_concat (es : List Event) (e : Event) (pid : ProcessId) :
    stateOf (es ++ [e]) pid = latest pid (stateOf es pid) e := by
  rw [stateOf, List.foldl_append]
  rfl

theorem Inv.mem_pids (h : Inv es s) :
    pid ∈ s.queue.map Prod.fst ↔ (stateOf es pid).isSome = true := by
  simp only [List.mem_map, Option.isSome_iff_exists, ← h.states]
  constructor
  · rintro ⟨⟨p, st⟩, hmem, rfl⟩
    exact ⟨st, hmem⟩
  · rintro ⟨st, hmem⟩
    exact ⟨_, hmem, rfl⟩

theorem Inv.step_add (h : Inv es s) {p : ProcessId} {state : ProcessState}
    (hs : Step s (.add p state) s') :
    Inv (es ++ [.add p state]) s' ∧ s.queue.map Prod.fst <+: s'.queue.map Prod.fst := by
  obtain ⟨hnew, hadd⟩ := hs
  have hnone : stateOf es p = none := by
    rw [h.mem_pids] at hnew
    simpa using hnew
  unfold add at hadd
  split at hadd
  · rename_i hfits
    cases hadd
    refine ⟨⟨⟨?_, ?_⟩, ?_, ?_⟩, ?_⟩
    · rw [List.length_append]
      exact h.current.imp_left fun hlt => Nat.lt_succ_of_lt hlt
    · simpa using hfits
    · rw [List.map_append, List.map_singleton, ← List.concat_eq_append]
      exact h.nodup.concat hnew
    · intro q st
      rw [stateOf_concat, latest, List.mem_append, h.states]
      by_cases hq : p = q
      · subst hq
        simp [hnone, eq_comm]
      · simp [hq, Ne.symm hq]
    · rw [List.map_append]
      exact List.prefix_append _ _
  · cases hadd

theorem Inv.step_setState (h : Inv es s) (p : ProcessId) (state : ProcessState) :
    Inv (es ++ [.setState p state]) (s.setState p state) ∧
      s.queue.map Prod.fst <+: (s.setState p state).queue.map Prod.fst := by
  have hpids : (s.setState p state).queue.map Prod.fst = s.queue.map Prod.fst := map_setFirst state
  have hlen : (s.setState p state).queue.length = s.queue.length := length_setFirst state
  refine ⟨⟨⟨?_, ?_⟩, ?_, ?_⟩, ?_⟩
  · rw [hlen]
    exact h.current
  · rw [hlen]
    exact h.length
  · rw [hpids]
    exact h.nodup
  · intro q st
    rw [stateOf_concat, latest, setState, mem_setFirst h.nodup, h.mem_pids, h.states]
    dsimp only
    by_cases hq : q = p
    · subst hq
      cases stateOf es q <;> simp [eq_comm]
    · simp [hq, Ne.symm hq]
  · rw [hpids]

theorem Inv.step_next (h : Inv es s) {result : Option ProcessId} (hs : Step s (.next result) s') :
    Inv (es ++ [.next result]) s' ∧ s.queue.map Prod.fst <+: s'.queue.map Prod.fst := by
  have hnext : s.next = (s', result) := hs
  obtain ⟨⟨hcursor, hqueue⟩, _⟩ := next_cases h.toCursor
  rw [hnext] at hcursor hqueue
  dsimp only at hcursor hqueue
  refine ⟨⟨hcursor, ?_, ?_⟩, ?_⟩
  · rw [hqueue]
    exact h.nodup
  · intro q st
    rw [stateOf_concat, latest, hqueue]
    exact h.states q st
  · rw [hqueue]

/-- One call keeps the invariant, and the pids where they are. -/
theorem Inv.step {e : Event} (h : Inv es s) (hs : Step s e s') :
    Inv (es ++ [e]) s' ∧ s.queue.map Prod.fst <+: s'.queue.map Prod.fst := by
  cases e with
  | add p state => exact h.step_add hs
  | setState p state =>
    cases hs
    exact h.step_setState p state
  | next result => exact h.step_next hs

theorem Inv.run {mid : List Event} (h : Inv es s) (hr : Run Step s mid s') :
    Inv (es ++ mid) s' ∧ s.queue.map Prod.fst <+: s'.queue.map Prod.fst := by
  induction hr generalizing es with
  | nil =>
    rw [List.append_nil]
    exact ⟨h, List.prefix_rfl⟩
  | cons hstep _ ih =>
    obtain ⟨h₁, hpre₁⟩ := h.step hstep
    obtain ⟨h₂, hpre₂⟩ := ih h₁
    rw [List.append_cons]
    exact ⟨h₂, hpre₁.trans hpre₂⟩

theorem canRun_iff (state : ProcessState) :
    state.canRun = true ↔ state = .ready ∨ state = .running := by
  cases state <;> simp [ProcessState.canRun]

theorem Inv.canRun_iff_mem (h : Inv es s) :
    CanRun es pid ↔ ∃ state, (pid, state) ∈ s.queue ∧ state.canRun = true := by
  simp only [CanRun, h.states, canRun_iff]

/-- `next` returns a process that can run, or none can. -/
theorem Inv.next_sound (h : Inv es s) {result : Option ProcessId} (hs : Step s (.next result) s') :
    (∀ p, result = some p → CanRun es p) ∧ (result = none ↔ ∀ p, ¬ CanRun es p) := by
  have hnext : s.next = (s', result) := hs
  obtain ⟨_, hcases⟩ := next_cases h.toCursor
  rw [hnext] at hcases
  rcases hcases with ⟨rfl, hall⟩ | ⟨⟨p, state⟩, he, hrun, rfl⟩
  · refine ⟨nofun, iff_of_true rfl fun p hp => ?_⟩
    obtain ⟨state, hmem, hrun⟩ := h.canRun_iff_mem.1 hp
    rw [hall _ hmem] at hrun
    cases hrun
  · have hp : CanRun es p := h.canRun_iff_mem.2 ⟨state, List.mem_of_getElem? he, hrun⟩
    refine ⟨fun q hq => ?_, iff_of_false nofun fun hnone => hnone p hp⟩
    cases hq
    exact hp

/-! ## Fairness -/

/-- The cursor stands where the pid returned last is; `b` is another position, still to come. -/
structure Ahead (s : Scheduler) (a b : Nat) (q p : ProcessId) : Prop where
  first : (s.queue.map Prod.fst)[a]? = some q
  waiting : (s.queue.map Prod.fst)[b]? = some p
  before : Cyclic.Before a b s.current
  current : s.current < s.queue.length

theorem Inv.okAt (h : Inv es s) {b : Nat} (hb : (s.queue.map Prod.fst)[b]? = some pid)
    (hp : CanRun es pid) : okAt s.queue b = true := by
  obtain ⟨state, hmem, hrun⟩ := h.canRun_iff_mem.1 hp
  obtain ⟨i, hi⟩ := List.mem_iff_getElem?.1 hmem
  have hpid : (s.queue.map Prod.fst)[i]? = some pid := by
    rw [List.getElem?_map, hi]
    rfl
  have hlt : i < (s.queue.map Prod.fst).length := (List.getElem?_eq_some_iff.1 hpid).1
  obtain rfl : i = b := (List.getElem?_inj hlt h.nodup).1 (hpid.trans hb.symm)
  exact okAt_iff.2 ⟨_, hi, hrun⟩

theorem getElem?_of_prefix {α : Type} {xs ys : List α} {i : Nat} {x : α} (h : xs <+: ys)
    (hx : xs[i]? = some x) : ys[i]? = some x := by
  obtain ⟨rest, rfl⟩ := h
  rw [List.getElem?_append_left (List.getElem?_eq_some_iff.1 hx).1, hx]

/-- A call that does not return the waiting process leaves it ahead, and does not return the other. -/
theorem Ahead.step {a b : Nat} {q : ProcessId} {e : Event} (h : Inv es s) (ha : Ahead s a b q pid)
    (hp : CanRun es pid) (hs : Step s e s') (hnot : e ≠ .next (some pid)) :
    Ahead s' a b q pid ∧ e ≠ .next (some q) := by
  have hpre := (h.step hs).2
  have hfirst := getElem?_of_prefix hpre ha.first
  have hwaiting := getElem?_of_prefix hpre ha.waiting
  cases e with
  | add p state =>
    obtain ⟨_, hadd⟩ := hs
    unfold add at hadd
    split at hadd
    · cases hadd
      refine ⟨⟨hfirst, hwaiting, ha.before, ?_⟩, nofun⟩
      rw [List.length_append]
      exact Nat.lt_succ_of_lt ha.current
    · cases hadd
  | setState p state =>
    cases hs
    refine ⟨⟨hfirst, hwaiting, ha.before, ?_⟩, nofun⟩
    have hlen : (s.setState p state).queue.length = s.queue.length := length_setFirst state
    rw [hlen]
    exact ha.current
  | next result =>
    have hnext : s.next = (s', result) := hs
    obtain ⟨⟨_, hqueue⟩, hcases⟩ := next_cases h.toCursor
    have hbefore := next_before h.toCursor ha.before ha.current (h.okAt ha.waiting hp)
    rw [hnext] at hqueue hcases hbefore
    rcases hcases with ⟨rfl, hall⟩ | ⟨⟨p, state⟩, he, _, rfl⟩
    · obtain ⟨state, hmem, hrun⟩ := h.canRun_iff_mem.1 hp
      rw [hall _ hmem] at hrun
      cases hrun
    · dsimp only at hqueue hbefore he
      have hpid : (s.queue.map Prod.fst)[s'.current]? = some p := by
        rw [List.getElem?_map, he]
        rfl
      have hcur : s'.current < s.queue.length := (List.getElem?_eq_some_iff.1 he).1
      rcases hbefore with hb | ⟨hb, hne⟩
      · -- the cursor stops at the waiting process
        rw [hb, ha.waiting] at hpid
        cases hpid
        exact absurd rfl hnot
      · refine ⟨⟨hfirst, hwaiting, hb, hqueue ▸ hcur⟩, fun heq => hne ?_⟩
        cases heq
        exact (List.getElem?_inj (by simpa using hcur) h.nodup).1 (hpid.trans ha.first.symm)

/-- By induction on the run. -/
theorem Ahead.run {a b : Nat} {q : ProcessId} {mid : List Event} (h : Inv es s)
    (ha : Ahead s a b q pid) (hp : ∀ m e, m ++ [e] <+: mid → CanRun (es ++ m) pid)
    (hr : Run Step s mid s') (hnot : .next (some pid) ∉ mid) : .next (some q) ∉ mid := by
  induction hr generalizing es with
  | nil => exact List.not_mem_nil
  | @cons s s₁ s' e mid hstep _ ih =>
    obtain ⟨hne, hnot⟩ := List.ne_and_not_mem_of_not_mem_cons hnot
    have hp₀ : CanRun es pid := by
      have := hp [] e (List.cons_prefix_cons.2 ⟨rfl, List.nil_prefix⟩)
      rwa [List.append_nil] at this
    obtain ⟨ha₁, heq⟩ := ha.step h hp₀ hstep (Ne.symm hne)
    refine List.not_mem_cons_of_ne_of_not_mem heq.symm (ih (h.step hstep).1 ha₁ ?_ hnot)
    intro m d hm
    rw [← List.append_cons]
    exact hp (e :: m) d (List.cons_prefix_cons.2 ⟨rfl, hm⟩)

theorem Inv.no_overtaking {q : ProcessId} {mid : List Event} (h : Inv es s) (hne : q ≠ pid)
    (hr : Run Step s (.next (some q) :: (mid ++ [.next (some q)])) s')
    (hp : ∀ m, m <+: mid → CanRun (es ++ .next (some q) :: m) pid) : .next (some pid) ∈ mid := by
  by_contra hnot
  cases hr with
  | @cons _ s₁ _ _ _ hstep hrest =>
    have h₁ := (h.step hstep).1
    have hnext : s.next = (s₁, some q) := hstep
    obtain ⟨⟨_, hqueue⟩, hcases⟩ := next_cases h.toCursor
    rw [hnext] at hqueue hcases
    rcases hcases with ⟨hnone, _⟩ | ⟨⟨p, state⟩, he, _, hq⟩
    · cases hnone
    · cases hq
      dsimp only at hqueue he
      rw [← hqueue] at he
      have hfirst : (s₁.queue.map Prod.fst)[s₁.current]? = some p := by
        rw [List.getElem?_map, he]
        rfl
      have hp₀ : CanRun (es ++ [.next (some p)]) pid := hp [] List.nil_prefix
      obtain ⟨state', hmem, _⟩ := h₁.canRun_iff_mem.1 hp₀
      obtain ⟨b, hb⟩ := List.mem_iff_getElem?.1 hmem
      have hwaiting : (s₁.queue.map Prod.fst)[b]? = some pid := by
        rw [List.getElem?_map, hb]
        rfl
      have hahead : Ahead s₁ s₁.current b p pid :=
        ⟨hfirst, hwaiting, Cyclic.before_self .., (List.getElem?_eq_some_iff.1 he).1⟩
      refine hahead.run h₁ ?_ hrest ?_ (List.mem_append_right _ (List.mem_singleton_self _))
      · intro m d hm
        rw [← List.append_cons]
        refine hp m ?_
        rcases List.prefix_concat_iff.1 hm with heq | hpre
        · obtain ⟨rfl, _⟩ := List.append_inj' heq rfl
          exact List.prefix_rfl
        · exact (List.prefix_append m [d]).trans hpre
      · intro hmem
        rcases List.mem_append.1 hmem with hmem | hmem
        · exact hnot hmem
        · cases List.mem_singleton.1 hmem
          exact hne rfl

/-- In every run, `next` returns a process that is ready or running, or there is none; and a process
that stays so is returned between any two returns of another one. -/
theorem round_robin {es : List Event} {s : Scheduler} (h : Run Step new es s) :
    (∀ pre result post, es = pre ++ .next result :: post →
      (∀ p, result = some p → CanRun pre p) ∧ (result = none ↔ ∀ p, ¬ CanRun pre p)) ∧
    ∀ pre mid post p q, es = pre ++ .next (some q) :: (mid ++ [.next (some q)]) ++ post → q ≠ p →
      (∀ m, m <+: mid → CanRun (pre ++ .next (some q) :: m) p) → .next (some p) ∈ mid := by
  constructor
  · intro pre result post he
    subst he
    obtain ⟨s₁, hr₁, hr₂⟩ := h.split
    have h₁ := (inv_new.run hr₁).1
    cases hr₂ with
    | cons hstep _ => exact h₁.next_sound hstep
  · intro pre mid post p q he hne hp
    subst he
    obtain ⟨s₂, hr₁₂, _⟩ := h.split
    obtain ⟨s₁, hr₁, hr₂⟩ := hr₁₂.split
    exact (inv_new.run hr₁).1.no_overtaking hne hr₂ hp

/-- Three ready processes, of which the first is blocked after its turn. -/
def threeEvents : List Event :=
  [.add ⟨1⟩ .ready, .add ⟨2⟩ .ready, .add ⟨3⟩ .ready, .next (some ⟨1⟩), .setState ⟨1⟩ .blocked,
    .next (some ⟨2⟩), .next (some ⟨3⟩), .next (some ⟨2⟩)]

/-- The first is ready when it is returned, and the third has a turn between two turns of the second. -/
theorem round_robin_three : ∃ s, Run Step new threeEvents s ∧ CanRun (threeEvents.take 3) ⟨1⟩ ∧
    ∀ mid, threeEvents = threeEvents.take 5 ++ .next (some ⟨2⟩) :: (mid ++ [.next (some ⟨2⟩)]) →
      .next (some ⟨3⟩) ∈ mid := by
  have hr : Run Step new threeEvents ⟨[(⟨1⟩, .blocked), (⟨2⟩, .ready), (⟨3⟩, .ready)], 1⟩ :=
    .cons ⟨by simp [new], rfl⟩ (.cons ⟨by simp [new], rfl⟩ (.cons ⟨by simp [new], rfl⟩
      (.cons rfl (.cons rfl (.cons rfl (.cons rfl (.single rfl)))))))
  have hboth := round_robin hr
  refine ⟨_, hr, (hboth.1 _ (some ⟨1⟩) _ rfl).1 _ rfl, fun mid he => ?_⟩
  refine hboth.2 _ mid [] ⟨3⟩ ⟨2⟩ (he.trans (List.append_nil _).symm) (by simp) fun m hm => ?_
  -- nothing happens to the third process
  obtain rfl : mid = [.next (some ⟨3⟩)] := by
    have := congrArg (fun es => (es.drop 6).dropLast) he
    simpa [threeEvents] using this.symm
  rcases List.prefix_concat_iff.1 (show m <+: [] ++ [.next (some ⟨3⟩)] from hm) with rfl | hnil
  · exact ⟨.ready, rfl, .inl rfl⟩
  · cases List.prefix_nil.1 hnil
    exact ⟨.ready, rfl, .inl rfl⟩

end Scheduler
end Process
end OciKernel
