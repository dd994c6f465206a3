import Mathlib.Data.List.Nodup
import OciKernel.Host.PortForwards

/-!
# Host.ContainerRun

The container registry over whole sessions: the containers declared in the boot configuration are
started, then any shell commands run. `Roster` is the kernel with the history of the containers, each
with the id that its start reported, its image, and whether a `container stop` named it since.

`NEXT_ID` counts from 1 and wraps, and `register` overwrites a record that is there already, so what
keeps the records apart is that the ids do not come round: `Listed` holds as long as fewer than `2^64`
containers are started.

* `Listed.step`: one event keeps the counter, the ids and the lookups in step with the history.
* `Listed.registered`: the registry then lists one record for each container of the history.
* `registry_exact`: over every session the registry is the history, and each event touches no other
  record than that of the container it starts or stops.
-/

namespace OciKernel

open Text Transition

/-- A container that was started. -/
structure Launch where
  id : ContainerId
  image : Str
  stopped : Bool
deriving DecidableEq, Repr

namespace Launch

/-- The record that the registry should have. -/
def record (l : Launch) : ContainerRecord :=
  ⟨l.id, l.image, if l.stopped then .stopped else .running⟩

/-- `container stop` of `id`, for one container. -/
def stop (id : ContainerId) (l : Launch) : Launch :=
  if l.id = id then { l with stopped := true } else l

@[simp] theorem stop_id (id : ContainerId) (l : Launch) : (l.stop id).id = l.id := by
  unfold stop; split <;> rfl

@[simp] theorem record_id (l : Launch) : l.record.id = l.id := rfl

theorem record_stop (id : ContainerId) (l : Launch) : (l.stop id).record =
    if l.id = id then { l.record with state := .stopped } else l.record := by
  unfold stop; split <;> rfl

end Launch

/-- The number that the event stops, if it is a `container stop` of a number. -/
def Event.stoppedId : Event → Option ContainerId
  | .command (.containerStop arg) => Kernel.parseId arg
  | _ => none

/-- The kernel, and the containers started so far. -/
structure Roster where
  kernel : Kernel
  launches : List Launch

namespace Roster

def init : Roster := ⟨.init, []⟩

def step (r : Roster) (e : Event) : Roster :=
  { kernel := World.next r.kernel e
    launches :=
      match e.startedSpec with
      | some spec =>
        match (r.kernel.launch spec).2 with
        | .ok id => r.launches ++ [⟨id, spec.image, false⟩]
        | .error _ => r.launches
      | none => (e.stoppedId).elim r.launches fun id => r.launches.map (Launch.stop id) }

/-! ## One event -/

/-- The roster after a container with `spec` started. -/
def launched (r : Roster) (spec : ContainerSpec) : Roster :=
  ⟨r.kernel.launched spec, r.launches ++ [⟨⟨r.kernel.nextId⟩, spec.image, false⟩]⟩

/-- The roster after `container stop`. -/
def stopped (r : Roster) (id : ContainerId) : Roster :=
  ⟨{ r.kernel with store := r.kernel.store.setState id .stopped }, r.launches.map (Launch.stop id)⟩

theorem step_cases (r : Roster) (e : Event) :
    (∃ spec, e.startedSpec = some spec ∧ e.stoppedId = none ∧ r.step e = r.launched spec) ∨
    (∃ id, e.startedSpec = none ∧ e.stoppedId = some id ∧ r.step e = r.stopped id) ∨
    (e.startedSpec = none ∧ e.stoppedId = none ∧ (r.step e).launches = r.launches ∧
      (r.step e).kernel.store = r.kernel.store ∧ (r.step e).kernel.nextId = r.kernel.nextId) := by
  cases e with
  | declared spec => exact .inl ⟨spec, rfl, rfl, rfl⟩
  | command cmd =>
    rcases r.kernel.execute_cases cmd with ⟨image, ports, volumes, rfl, _⟩ |
      ⟨arg, id, rfl, ha, hk⟩ | ⟨hrun, hstop, hstore, _, hnext⟩
    · exact .inl ⟨_, rfl, rfl, rfl⟩
    · refine .inr (.inl ⟨id, rfl, ha, ?_⟩)
      simp only [step, stopped, World.next, hk, Event.startedSpec, Event.stoppedId, ha,
        Option.elim_some]
    · have hnone := Event.startedSpec_command hrun
      have hstay : (Event.command cmd).stoppedId = none := by
        cases cmd with
        | containerStop arg => exact hstop arg rfl
        | _ => rfl
      exact .inr (.inr ⟨hnone, hstay, by simp [step, hnone, hstay], hstore, hnext⟩)

/-- Each event that starts a container adds one to the history. -/
theorem length_launches (r : Roster) (es : List Event) : (es.foldl step r).launches.length =
    r.launches.length + (es.filterMap Event.startedSpec).length := by
  induction es generalizing r with
  | nil => simp
  | cons e es ih =>
    rw [List.foldl_cons, ih]
    rcases r.step_cases e with ⟨spec, hs, _, he⟩ | ⟨id, hs, _, he⟩ | ⟨hs, _, hl, _⟩
    · rw [he, List.filterMap_cons_some hs]
      simp [launched]
      omega
    · rw [he, List.filterMap_cons_none hs]
      simp [stopped]
    · rw [hl, List.filterMap_cons_none hs]

/-! ## The registry and the history -/

/-- The counter is one past the starts, the ids of the history are the numbers from 1 on, and the
registry has for each of them the record that the history says. -/
structure Listed (r : Roster) : Prop where
  nextId : r.kernel.nextId = UInt64.ofNat (r.launches.length + 1)
  ids : r.launches.map (fun l => l.id.val.toNat) = List.range' 1 r.launches.length
  get : ∀ i, r.kernel.store.get i = (r.launches.find? fun l => l.id = i).map Launch.record

theorem listed_init : init.Listed := ⟨rfl, rfl, fun _ => rfl⟩

variable {r : Roster} {es : List Event}

theorem Listed.pairwise (h : r.Listed) :
    r.launches.Pairwise fun a b => a.id.val < b.id.val := by
  have hlt : (r.launches.map fun l => l.id.val.toNat).Pairwise (· < ·) := by
    rw [h.ids]
    exact List.pairwise_lt_range'
  exact (List.pairwise_map.1 hlt).imp UInt64.lt_iff_toNat_lt.2

/-- The id of the next start is that of no container before it. -/
theorem Listed.fresh (h : r.Listed) (hlt : r.launches.length + 1 < 2 ^ 64) :
    ∀ l ∈ r.launches, l.id ≠ ⟨r.kernel.nextId⟩ := by
  intro l hl he
  have hmem : l.id.val.toNat ∈ List.range' 1 r.launches.length := by
    rw [← h.ids]
    exact List.mem_map_of_mem hl
  rw [he, h.nextId, UInt64.toNat_ofNat_of_lt' hlt, List.mem_range'_1] at hmem
  omega

theorem Listed.get_fresh (h : r.Listed) (hlt : r.launches.length + 1 < 2 ^ 64) :
    r.kernel.store.get ⟨r.kernel.nextId⟩ = none := by
  rw [h.get, Option.map_eq_none_iff, List.find?_eq_none]
  intro l hl
  simpa using h.fresh hlt l hl

theorem Listed.launched (h : r.Listed) (hlt : r.launches.length + 1 < 2 ^ 64)
    (spec : ContainerSpec) : (r.launched spec).Listed where
  nextId := by
    simp [Roster.launched, Kernel.launched, h.nextId, UInt64.ofNat_add]
  ids := by
    simp only [Roster.launched, List.map_append, List.map_singleton, List.length_append,
      List.length_singleton, List.range'_concat, h.ids, h.nextId, UInt64.toNat_ofNat_of_lt' hlt]
    congr 2
    omega
  get := by
    rintro ⟨i⟩
    simp only [Roster.launched, Kernel.launched, ContainerStore.get_register, List.find?_append,
      List.find?_singleton, ContainerId.mk.injEq, h.get]
    by_cases hi : r.kernel.nextId = i
    · subst hi
      have hnone : (r.launches.find? fun l => l.id = ⟨r.kernel.nextId⟩) = none := by
        simpa [List.find?_eq_none] using h.fresh hlt
      simp [hnone, Launch.record]
    · simp [hi]

theorem Listed.stopped (h : r.Listed) (id : ContainerId) : (r.stopped id).Listed where
  nextId := by
    rw [Roster.stopped]
    simpa using h.nextId
  ids := by
    simpa [Roster.stopped, Function.comp_def] using h.ids
  get := by
    obtain ⟨n⟩ := id
    rintro ⟨i⟩
    simp only [Roster.stopped, ContainerStore.get_setState, List.find?_map, h.get]
    have hcomp : ((fun l : Launch => decide (l.id = ⟨i⟩)) ∘ Launch.stop ⟨n⟩) =
        fun l => decide (l.id = ⟨i⟩) := by
      funext l
      simp
    rw [hcomp]
    cases hf : r.launches.find? fun l => l.id = ⟨i⟩ with
    | none => simp
    | some l =>
      have hl : l.id = ⟨i⟩ := by simpa using List.find?_some hf
      by_cases hi : n = i
      · simp [Launch.record_stop, hl, hi]
      · simp [Launch.record_stop, hl, hi, Ne.symm hi]

theorem Listed.step (h : r.Listed) (e : Event) (hlt : (r.step e).launches.length < 2 ^ 64) :
    (r.step e).Listed := by
  rcases r.step_cases e with ⟨spec, _, _, he⟩ | ⟨id, _, _, he⟩ | ⟨_, _, hl, hstore, hnext⟩
  · rw [he] at hlt ⊢
    exact h.launched (by simpa [Roster.launched] using hlt) spec
  · rw [he]
    exact h.stopped id
  · exact ⟨by rw [hl, hnext, h.nextId], by rw [hl, h.ids], by rw [hl, hstore]; exact h.get⟩

/-- By induction on the events; the history only grows. -/
theorem Listed.run (h : r.Listed)
    (hlt : (es.foldl Roster.step r).launches.length < 2 ^ 64) : (es.foldl Roster.step r).Listed := by
  induction es generalizing r with
  | nil => exact h
  | cons e es ih =>
    have hle : (r.step e).launches.length ≤ (es.foldl Roster.step (r.step e)).launches.length := by
      rw [length_launches]
      omega
    exact ih (h.step e (Nat.lt_of_le_of_lt hle hlt)) hlt

/-! ## What the registry shows -/

/-- The registry is the history: it lists one record for each container that was started, in the order
of the starts, and as many are running as have not been stopped. -/
structure Registered (r : Roster) : Prop where
  all : r.kernel.store.all = r.launches.map Launch.record
  one : ∀ l ∈ r.launches, r.kernel.store.all.filter (fun rec => rec.id = l.id) = [l.record]
  get : ∀ l ∈ r.launches, r.kernel.store.get l.id = some l.record
  running : r.kernel.store.runningCount = (r.launches.filter fun l => !l.stopped).length

theorem Listed.eq_of_id (h : r.Listed) {l l' : Launch} (hl : l ∈ r.launches) (hl' : l' ∈ r.launches)
    (hid : l.id = l'.id) : l = l' := by
  have hnd : (r.launches.map fun l => l.id.val.toNat).Nodup := by
    rw [h.ids]
    exact List.nodup_range'
  exact List.inj_on_of_nodup_map hnd hl hl' (by rw [hid])

theorem Listed.nodup (h : r.Listed) : r.launches.Nodup :=
  h.pairwise.imp fun hab he => absurd (he ▸ hab) (UInt64.lt_irrefl _)

theorem Listed.get_eq_some (h : r.Listed) {i : ContainerId} {rec : ContainerRecord} :
    r.kernel.store.get i = some rec ↔ rec ∈ r.launches.map Launch.record ∧ rec.id = i := by
  rw [h.get, Option.map_eq_some_iff, List.mem_map]
  constructor
  · rintro ⟨l, hf, rfl⟩
    exact ⟨⟨l, List.mem_of_find?_eq_some hf, rfl⟩, by simpa using List.find?_some hf⟩
  · rintro ⟨⟨l, hl, rfl⟩, rfl⟩
    obtain ⟨l', hf⟩ : ∃ l', (r.launches.find? fun x => x.id = l.id) = some l' := by
      rw [← Option.isSome_iff_exists, List.find?_isSome]
      exact ⟨l, hl, by simp⟩
    have hid : l'.id = l.id := by simpa using List.find?_some hf
    have he : l' = l := h.eq_of_id (List.mem_of_find?_eq_some hf) hl hid
    exact ⟨l', hf, by rw [he]⟩

theorem Listed.registered (h : r.Listed) : r.Registered := by
  have hall : r.kernel.store.all = r.launches.map Launch.record := by
    refine ContainerStore.all_eq_of_get ?_ fun i rec => ?_
    · exact List.pairwise_map.2 h.pairwise
    · rw [h.get_eq_some]
      exact and_congr_right fun _ => by cases rec.id; simp
  refine ⟨hall, fun l hl => ?_, fun l hl => ?_, ?_⟩
  · have hfilter : (r.launches.filter fun l' => l'.id = l.id) = [l] := by
      have hcongr : (r.launches.filter fun l' => l'.id = l.id) = r.launches.filter fun l' => l' = l :=
        List.filter_congr fun l' hl' => by
          simpa using ⟨fun hid => h.eq_of_id hl' hl hid, fun he => by rw [he]⟩
      rw [hcongr, List.filter_eq, List.count_eq_one_of_mem h.nodup hl]
      rfl
    have hcomp : ((fun rec : ContainerRecord => decide (rec.id = l.id)) ∘ Launch.record) =
        fun l' => decide (l'.id = l.id) := rfl
    rw [hall, List.filter_map, hcomp, hfilter, List.map_singleton]
  · exact h.get_eq_some.2 ⟨List.mem_map_of_mem hl, rfl⟩
  · rw [ContainerStore.runningCount_eq, hall, List.filter_map, List.length_map]
    congr 2
    funext l
    cases hs : l.stopped <;> simp [Launch.record, hs]

/-! ## What an event touches -/

/-- A start finds no record under its id, and a record other than that of the container which the event
starts or stops is as before; a stopped record is as before in any case. -/
structure Apart (r : Roster) (e : Event) : Prop where
  fresh : ∀ spec id, e.startedSpec = some spec → (r.kernel.launch spec).2 = .ok id →
    r.kernel.store.get id = none
  others_start : ∀ spec id, e.startedSpec = some spec → (r.kernel.launch spec).2 = .ok id →
    ∀ i, i ≠ id → (r.step e).kernel.store.get i = r.kernel.store.get i
  others_stop : ∀ id, e.stoppedId = some id →
    ∀ i, i ≠ id → (r.step e).kernel.store.get i = r.kernel.store.get i
  others : e.startedSpec = none → e.stoppedId = none → (r.step e).kernel.store = r.kernel.store
  stopped : ∀ i rec, r.kernel.store.get i = some rec → rec.state = .stopped →
    (r.step e).kernel.store.get i = some rec

theorem get_launched {spec : ContainerSpec} {i : ContainerId} (hi : i ≠ ⟨r.kernel.nextId⟩) :
    (r.launched spec).kernel.store.get i = r.kernel.store.get i := by
  obtain ⟨i⟩ := i
  have hne : r.kernel.nextId ≠ i := fun he => hi (by rw [he])
  rw [Roster.launched, Kernel.launched, ContainerStore.get_register, if_neg hne]

theorem get_stopped (id i : ContainerId) : (r.stopped id).kernel.store.get i =
    if id = i then (r.kernel.store.get i).map ({ · with state := .stopped })
    else r.kernel.store.get i := by
  obtain ⟨n⟩ := id
  obtain ⟨i⟩ := i
  simp only [Roster.stopped, ContainerStore.get_setState, ContainerId.mk.injEq]

theorem Listed.apart (h : r.Listed) (e : Event) (hlt : (r.step e).launches.length < 2 ^ 64) :
    r.Apart e := by
  rcases r.step_cases e with ⟨spec, hs, hn, he⟩ | ⟨id, hs, hn, he⟩ | ⟨hs, hn, _, hstore, _⟩
  · have hnone : r.kernel.store.get ⟨r.kernel.nextId⟩ = none :=
      h.get_fresh (by simpa [he, Roster.launched] using hlt)
    refine ⟨fun _ id _ hid => ?_, fun _ id _ hid i hi => ?_, by simp [hn], by simp [hs], ?_⟩
    · rw [Kernel.launch_eq, Except.ok.injEq] at hid
      rw [← hid, hnone]
    · rw [Kernel.launch_eq, Except.ok.injEq] at hid
      rw [he, get_launched (hid ▸ hi)]
    · intro i rec hrec _
      have hi : i ≠ ⟨r.kernel.nextId⟩ := by
        rintro rfl
        rw [hnone] at hrec
        cases hrec
      rw [he, get_launched hi, hrec]
  · refine ⟨by simp [hs], by simp [hs], fun id' hid' i hi => ?_, by simp [hn], ?_⟩
    · rw [hn, Option.some.injEq] at hid'
      rw [he, get_stopped, if_neg (hid' ▸ hi.symm)]
    · intro i rec hrec hst
      rw [he, get_stopped, hrec]
      split
      · rw [Option.map_some, ← hst]
      · rfl
  · refine ⟨by simp [hs], by simp [hs], by simp [hn], fun _ _ => hstore, ?_⟩
    intro i rec hrec _
    rw [hstore, hrec]

/-! ## Sessions -/

section Session

variable {pre post : List Event}

theorem length_lt_at (hn : (es.filterMap Event.startedSpec).length < 2 ^ 64)
    (hp : pre <+: es) : (pre.foldl step init).launches.length < 2 ^ 64 := by
  have hle := (hp.filterMap Event.startedSpec).length_le
  rw [length_launches]
  simp only [init, List.length_nil]
  omega

theorem listed_at (hn : (es.filterMap Event.startedSpec).length < 2 ^ 64)
    (hp : pre <+: es) : (pre.foldl step init).Listed :=
  listed_init.run (length_lt_at hn hp)

theorem apart_throughout (hn : (es.filterMap Event.startedSpec).length < 2 ^ 64) :
    StepsMeet step Apart init es := by
  intro pre e hp
  have hlt := length_lt_at hn hp
  rw [List.foldl_append] at hlt
  exact (listed_at hn ((List.prefix_append pre [e]).trans hp)).apart e hlt

/-- A stopped record is never touched again, by induction on the events that follow. -/
theorem stopped_at (hn : (es.filterMap Event.startedSpec).length < 2 ^ 64)
    (hp : pre ++ post <+: es) {i : ContainerId} {rec : ContainerRecord}
    (hrec : (pre.foldl step init).kernel.store.get i = some rec) (hst : rec.state = .stopped) :
    ((pre ++ post).foldl step init).kernel.store.get i = some rec := by
  induction post generalizing pre with
  | nil => rwa [List.append_nil]
  | cons e post ih =>
    rw [List.append_cons] at hp ⊢
    have hstep := apart_throughout hn pre e ((List.prefix_append _ _).trans hp)
    refine ih hp ?_
    rw [List.foldl_append]
    exact hstep.stopped i rec hrec hst

/-- Over every session with fewer than `2^64` starts, the registry is the history of the starts and
stops in every state, no event touches another record than that of its container, and a record that is
stopped stays as it is. -/
theorem registry_exact (declared : List ContainerSpec) (cmds : List ShellCommand)
    (hn : ((World.session declared cmds).filterMap Event.startedSpec).length < 2 ^ 64) :
    Throughout step Registered init (World.session declared cmds) ∧
    StepsMeet step Apart init (World.session declared cmds) ∧
    ∀ pre post, pre ++ post <+: World.session declared cmds →
      ∀ i rec, (pre.foldl step init).kernel.store.get i = some rec → rec.state = .stopped →
        ((pre ++ post).foldl step init).kernel.store.get i = some rec :=
  ⟨fun _ hp => (listed_at hn hp).registered, apart_throughout hn,
    fun _ _ hp _ _ hrec hst => stopped_at hn hp hrec hst⟩

/-- The container of the embedded configuration, a second one, and a stop of the first: one is left
running. -/
theorem registry_exact_stop :
    ((World.session [nginxSpec] [.containerRun "redis:7".toList [] [], .containerStop "1".toList]).foldl
      step init).kernel.store.runningCount = 1 := by
  have hn : ((World.session [nginxSpec] [.containerRun "redis:7".toList [] [],
      .containerStop "1".toList]).filterMap Event.startedSpec).length < 2 ^ 64 := by decide
  exact ((registry_exact _ _ hn).1 _ (List.prefix_refl _)).running

end Session

end Roster

end OciKernel
