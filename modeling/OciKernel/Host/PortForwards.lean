import Mathlib.Data.List.Flatten
import OciKernel.Config
import OciKernel.Host.Getty
import OciKernel.Lib.Run

/-!
# Host.PortForwards

Agreement of the two global tables `STORE` and `PORT_FORWARDS` over whole sessions: the containers
declared in the boot configuration are started, then any shell commands run.

`container run` appends rules and never looks at what is there; `container stop` marks the record and
leaves the rules. The two theorems say exactly which sessions keep the tables in agreement.

* `Tabulated.step`: the table always lists the mappings of the started containers, so the lookup leads
  to the container that was the first to claim the port.
* `forwards_sound_iff`: a rule never leads to a stopped container iff no container is stopped that was
  the first to claim some port.
* `forwards_complete_iff`: every mapping of a running container is the one found iff no container is
  started with a host port that it repeats or that an earlier start used.
-/

namespace OciKernel

open Text Transition VSwitch

/-- A container that was started, with the mappings reported for it. -/
structure Started where
  id : UInt64
  ports : List PortMapping
deriving DecidableEq, Repr

namespace Started

def hosts (s : Started) : List UInt16 := s.ports.map PortMapping.host

/-- The rules that are appended when it starts. -/
def rules (s : Started) : List ActivePortForward :=
  s.ports.map fun pm => ⟨s.id, pm.host, pm.container⟩

@[simp] theorem hostPort_rules (s : Started) :
    s.rules.map ActivePortForward.hostPort = s.hosts := by
  simp [rules, hosts, Function.comp_def]

end Started

inductive Event where
  /-- One round of the boot loop over the declared containers. -/
  | declared (spec : ContainerSpec)
  | command (cmd : ShellCommand)

namespace Event

/-- The spec of the container the event starts, if it starts one. -/
def startedSpec : Event → Option ContainerSpec
  | .declared spec => some spec
  | .command (.containerRun image ports volumes) => some (Kernel.runSpec image ports volumes)
  | .command _ => none

theorem startedSpec_command {cmd : ShellCommand}
    (hrun : ∀ image ports volumes, cmd ≠ .containerRun image ports volumes) :
    (command cmd).startedSpec = none := by
  cases cmd with
  | containerRun image ports volumes => exact absurd rfl (hrun image ports volumes)
  | _ => rfl

end Event

/-- The kernel, and the containers started so far. -/
structure World where
  kernel : Kernel
  started : List Started

namespace World

def init : World := ⟨.init, []⟩

def next (k : Kernel) : Event → Kernel
  | .declared spec => (k.launch spec).1
  | .command cmd => k.execute cmd

def step (w : World) (e : Event) : World :=
  { kernel := next w.kernel e
    started :=
      match e.startedSpec with
      | some spec =>
        match (w.kernel.launch spec).2 with
        | .ok id => w.started ++ [⟨id.val, spec.ports⟩]
        | .error _ => w.started
      | none => w.started }

/-- Boot with the declared containers, then the shell commands. -/
def session (declared : List ContainerSpec) (cmds : List ShellCommand) : List Event :=
  declared.map .declared ++ cmds.map .command

def lookup (w : World) (host : UInt16) : Option (UInt64 × UInt16) :=
  lookupPortForward w.kernel.portForwards host

def isRunning (w : World) (id : UInt64) : Bool := w.kernel.store.isRunning id

/-- The started containers whose record is `Running`. -/
def running (w : World) : List Started := w.started.filter fun s => w.isRunning s.id

/-- The container that was the first to start with a mapping of `host`. -/
def firstClaim (w : World) (host : UInt16) : Option UInt64 :=
  (w.started.find? fun s => host ∈ s.hosts).map Started.id

/-- A forwarded port leads to a running container that was started with that mapping. -/
def Sound (w : World) : Prop :=
  ∀ host id port, w.lookup host = some (id, port) →
    w.isRunning id = true ∧ ∃ s ∈ w.started, s.id = id ∧ ⟨host, port⟩ ∈ s.ports

/-- Every mapping of a running container is the one found for its host port, and no host port is
claimed twice among the running containers. -/
structure Complete (w : World) : Prop where
  found : ∀ s ∈ w.running, ∀ pm ∈ s.ports, w.lookup pm.host = some (s.id, pm.container)
  unclaimed : (w.running.flatMap Started.hosts).Nodup

/-! ## One event -/

/-- The world after a container with `spec` started. -/
def launched (w : World) (spec : ContainerSpec) : World :=
  ⟨w.kernel.launched spec, w.started ++ [⟨w.kernel.nextId, spec.ports⟩]⟩

/-- The world after `container stop`. -/
def stopped (w : World) (id : ContainerId) : World :=
  { w with kernel := { w.kernel with store := w.kernel.store.setState id .stopped } }

/-- `e` is a `container stop` that names the number `id`. -/
def Stops (e : Event) (id : ContainerId) : Prop :=
  ∃ arg, e = .command (.containerStop arg) ∧ Kernel.parseId arg = some id

theorem Stops.unique {e : Event} {id id' : ContainerId} (h : Stops e id) (h' : Stops e id') :
    id = id' := by
  obtain ⟨arg, rfl, ha⟩ := h
  obtain ⟨arg', he, ha'⟩ := h'
  cases he
  exact Option.some.inj (ha.symm.trans ha')

theorem step_cases (w : World) (e : Event) :
    (∃ spec, e.startedSpec = some spec ∧ (∀ id, ¬ Stops e id) ∧ w.step e = w.launched spec) ∨
    (∃ id, e.startedSpec = none ∧ Stops e id ∧ w.step e = w.stopped id) ∨
    (e.startedSpec = none ∧ (∀ id, ¬ Stops e id) ∧ (w.step e).started = w.started ∧
      (w.step e).kernel.store = w.kernel.store ∧
      (w.step e).kernel.portForwards = w.kernel.portForwards) := by
  cases e with
  | declared spec =>
    refine .inl ⟨spec, rfl, (by rintro id ⟨arg, he, _⟩; cases he), ?_⟩
    simp only [step, next, Event.startedSpec, Kernel.launch_eq]
    rfl
  | command cmd =>
    rcases w.kernel.execute_cases cmd with ⟨image, ports, volumes, rfl, _⟩ |
      ⟨arg, id, rfl, ha, hk⟩ | ⟨hrun, hstop, hstore, hpf, _⟩
    · exact .inl ⟨_, rfl, (by rintro id ⟨arg, he, _⟩; cases he), rfl⟩
    · refine .inr (.inl ⟨id, rfl, ⟨arg, rfl, ha⟩, ?_⟩)
      simp only [step, stopped, next, hk, Event.startedSpec]
    · have hnone := Event.startedSpec_command hrun
      refine .inr (.inr ⟨hnone, ?_, by simp only [step, hnone], hstore, hpf⟩)
      rintro id ⟨arg, he, ha⟩
      cases he
      rw [hstop arg rfl] at ha
      cases ha

section Launched

variable (w : World) (spec : ContainerSpec)

theorem isRunning_launched (id : UInt64) :
    (w.launched spec).isRunning id = (decide (w.kernel.nextId = id) || w.isRunning id) :=
  ContainerStore.isRunning_register

theorem lookup_launched (host : UInt16) : (w.launched spec).lookup host =
    (w.lookup host).or
      (lookupPortForward (Started.rules ⟨w.kernel.nextId, spec.ports⟩) host) := lookup_append

theorem mem_started_launched {s : Started} :
    s ∈ (w.launched spec).started ↔ s ∈ w.started ∨ s = ⟨w.kernel.nextId, spec.ports⟩ := by
  simp [launched]

/-- The new container is running, after the containers that were running before. -/
theorem running_launched : (w.launched spec).running =
    (w.started.filter fun s => (w.launched spec).isRunning s.id) ++
      [⟨w.kernel.nextId, spec.ports⟩] := by
  rw [running, launched, List.filter_append]
  congr 1
  rw [List.filter_cons, if_pos]
  · rfl
  · exact (isRunning_launched w spec _).trans (by simp)

end Launched

theorem isRunning_stopped (w : World) (id : ContainerId) (i : UInt64) :
    (w.stopped id).isRunning i = (!decide (id.val = i) && w.isRunning i) :=
  ContainerStore.isRunning_setState_stopped

/-! ## The table -/

/-- The table lists the mappings of the started containers, in the order of their starts. -/
def Tabulated (w : World) : Prop := w.kernel.portForwards = w.started.flatMap Started.rules

theorem tabulated_init : init.Tabulated := rfl

theorem Tabulated.launched {w : World} (h : w.Tabulated) (spec : ContainerSpec) :
    (w.launched spec).Tabulated := by
  show w.kernel.portForwards ++ _ = (w.started ++ _).flatMap _
  rw [h, List.flatMap_append, List.flatMap_singleton]
  rfl

theorem Tabulated.step {w : World} (h : w.Tabulated) (e : Event) : (w.step e).Tabulated := by
  rcases w.step_cases e with ⟨spec, _, _, he⟩ | ⟨id, _, _, he⟩ | ⟨_, _, hst, _, hpf⟩
  · rw [he]
    exact h.launched spec
  · rw [he]
    exact h
  · unfold Tabulated
    rw [hpf, hst]
    exact h

theorem Tabulated.mem_table {w : World} (h : w.Tabulated) {id : UInt64} {host port : UInt16} :
    ⟨id, host, port⟩ ∈ w.kernel.portForwards ↔
      ∃ s ∈ w.started, s.id = id ∧ ⟨host, port⟩ ∈ s.ports := by
  rw [h, List.mem_flatMap]
  refine exists_congr fun s => and_congr_right ?_
  intro _
  rw [Started.rules, List.mem_map]
  constructor
  · rintro ⟨pm, hpm, he⟩
    cases he
    exact ⟨rfl, hpm⟩
  · rintro ⟨rfl, hpm⟩
    exact ⟨_, hpm, rfl⟩

theorem Tabulated.lookup_eq_none {w : World} (h : w.Tabulated) {host : UInt16} :
    w.lookup host = none ↔ ∀ s ∈ w.started, host ∉ s.hosts := by
  rw [lookup, VSwitch.lookup_eq_none, h]
  constructor
  · intro hr s hs hmem
    obtain ⟨pm, hpm, rfl⟩ := List.mem_map.1 hmem
    exact hr _ (List.mem_flatMap.2 ⟨s, hs, List.mem_map_of_mem hpm⟩) rfl
  · intro hns r hr he
    obtain ⟨s, hs, hr⟩ := List.mem_flatMap.1 hr
    obtain ⟨pm, hpm, rfl⟩ := List.mem_map.1 hr
    exact hns s hs (he ▸ List.mem_map_of_mem hpm)

theorem lookup_rules (s : Started) (host : UInt16) :
    (lookupPortForward s.rules host).map Prod.fst = if host ∈ s.hosts then some s.id else none := by
  split
  · rename_i hmem
    obtain ⟨pm, hpm, rfl⟩ := List.mem_map.1 hmem
    cases hl : lookupPortForward s.rules pm.host with
    | none => exact absurd rfl (VSwitch.lookup_eq_none.1 hl _ (List.mem_map_of_mem hpm))
    | some r =>
      obtain ⟨pm', _, he⟩ := List.mem_map.1 (mem_of_lookup hl)
      rw [ActivePortForward.mk.injEq] at he
      rw [Option.map_some, ← he.1]
  · rename_i hmem
    have hnone : lookupPortForward s.rules host = none := by
      rw [VSwitch.lookup_eq_none]
      intro r hr he
      obtain ⟨pm, hpm, rfl⟩ := List.mem_map.1 hr
      exact hmem (he ▸ List.mem_map_of_mem hpm)
    rw [hnone]
    rfl

/-- The lookup leads to the container that was the first to claim the port. -/
theorem Tabulated.lookup_fst {w : World} (h : w.Tabulated) (host : UInt16) :
    (w.lookup host).map Prod.fst = w.firstClaim host := by
  unfold lookup firstClaim
  rw [h]
  generalize w.started = ss
  induction ss with
  | nil => rfl
  | cons s ss ih =>
    rw [List.flatMap_cons, lookup_append, Option.map_or, lookup_rules, ih, List.find?_cons]
    split <;> simp [*]

/-! ## Soundness -/

/-- A `container stop` names no container that was the first to start with a mapping of some port. -/
def StopsUnrouted (w : World) (e : Event) : Prop :=
  ∀ id, Stops e id → ∀ host, w.firstClaim host ≠ some id.val

theorem Sound.launched {w : World} (h : w.Sound) (spec : ContainerSpec) :
    (w.launched spec).Sound := by
  intro host id port hl
  rw [lookup_launched] at hl
  rcases Option.or_eq_some_iff.1 hl with hl | ⟨_, hl⟩
  · obtain ⟨hr, s, hs, hid, hp⟩ := h host id port hl
    exact ⟨by rw [isRunning_launched, hr, Bool.or_true], s,
      (mem_started_launched w spec).2 (.inl hs), hid, hp⟩
  · obtain ⟨pm, hpm, he⟩ := List.mem_map.1 (mem_of_lookup hl)
    cases he
    exact ⟨by rw [isRunning_launched]; simp, _, (mem_started_launched w spec).2 (.inr rfl), rfl, hpm⟩

theorem sound_stopped_iff {w : World} (h : w.Sound) (ht : w.Tabulated) (id : ContainerId) :
    (w.stopped id).Sound ↔ ∀ host, w.firstClaim host ≠ some id.val := by
  constructor
  · intro hs host hclaim
    rw [← ht.lookup_fst] at hclaim
    obtain ⟨⟨i, port⟩, hl, rfl⟩ := Option.map_eq_some_iff.1 hclaim
    have := (hs host _ port hl).1
    rw [isRunning_stopped] at this
    simp at this
  · intro hne host i port hl
    obtain ⟨hr, hst⟩ := h host i port hl
    refine ⟨?_, hst⟩
    have hi : id.val ≠ i := by
      intro he
      apply hne host
      rw [← ht.lookup_fst, show w.lookup host = some (i, port) from hl, he]
      rfl
    rw [isRunning_stopped, hr]
    simp [hi]

theorem sound_step_iff {w : World} (h : w.Sound) (ht : w.Tabulated) (e : Event) :
    (w.step e).Sound ↔ w.StopsUnrouted e := by
  rcases w.step_cases e with ⟨spec, _, hns, he⟩ | ⟨id, _, hs, he⟩ | ⟨_, hns, hst, hstore, hpf⟩
  · rw [he]
    exact ⟨fun _ id hs => absurd hs (hns id), fun _ => h.launched spec⟩
  · rw [he, sound_stopped_iff h ht]
    exact ⟨fun hne id' hs' => hs.unique hs' ▸ hne, fun hne => hne id hs⟩
  · refine ⟨fun _ id hs => absurd hs (hns id), ?_⟩
    intro _ host id port hl
    rw [lookup, hpf] at hl
    rw [isRunning, hstore, hst]
    exact h host id port hl

theorem sound_init : init.Sound := by intro host id port hl; cases hl

/-- Over a session from boot, a forwarded port leads to a running container started with that mapping
in every state iff no `container stop` names a container that was the first to claim some port. -/
theorem forwards_sound_iff (declared : List ContainerSpec) (cmds : List ShellCommand) :
    Throughout step Sound init (session declared cmds) ↔
      StepsMeet step StopsUnrouted init (session declared cmds) :=
  throughout_iff_stepsMeet (I := fun w => w.Sound ∧ w.Tabulated) (fun _ h => h.1)
    (fun _ e h => sound_step_iff h.1 h.2 e)
    (fun _ e h hok => ⟨(sound_step_iff h.1 h.2 e).2 hok, h.2.step e⟩) ⟨sound_init, tabulated_init⟩

/-- Stopping the container of the embedded configuration leaves its port routed to it. -/
theorem stop_leaves_forward :
    ¬ Throughout step Sound init (session [nginxSpec] [.containerStop "1".toList]) := by
  intro h
  have := (h _ (List.prefix_refl _) 8080 1 80 rfl).1
  exact absurd this (by decide)

/-! ## Completeness -/

/-- A container is started with pairwise distinct host ports that no earlier one had. -/
def StartsUnclaimed (w : World) (e : Event) : Prop :=
  ∀ spec, e.startedSpec = some spec → (spec.ports.map PortMapping.host).Nodup ∧
    ∀ pm ∈ spec.ports, ∀ s ∈ w.started, pm.host ∉ s.hosts

/-- The table has no host port twice. -/
structure Disjoint (w : World) : Prop where
  tabulated : w.Tabulated
  hosts : (w.kernel.portForwards.map ActivePortForward.hostPort).Nodup

theorem Disjoint.complete {w : World} (h : w.Disjoint) : w.Complete where
  found s hs pm hpm :=
    lookup_of_mem h.hosts (h.tabulated.mem_table.2 ⟨s, (List.mem_filter.1 hs).1, rfl, hpm⟩)
  unclaimed := by
    have hall : (w.started.flatMap Started.hosts).Nodup := by
      have := h.hosts
      rw [h.tabulated, List.map_flatMap] at this
      simpa only [Started.hostPort_rules] using this
    exact hall.sublist (List.filter_sublist.flatMap _)

theorem Disjoint.launched {w : World} (h : w.Disjoint) {spec : ContainerSpec}
    (hnd : (spec.ports.map PortMapping.host).Nodup)
    (hnew : ∀ pm ∈ spec.ports, ∀ s ∈ w.started, pm.host ∉ s.hosts) :
    (w.launched spec).Disjoint where
  tabulated := h.tabulated.launched spec
  hosts := by
    show ((w.kernel.portForwards ++ _).map _).Nodup
    rw [List.map_append, List.nodup_append]
    refine ⟨h.hosts, by simpa [List.map_map, Function.comp_def] using hnd, ?_⟩
    intro host h₁ _ h₂ he
    obtain ⟨r, hr, rfl⟩ := List.mem_map.1 h₁
    obtain ⟨r', hr', rfl⟩ := List.mem_map.1 h₂
    obtain ⟨pm, hpm, rfl⟩ := List.mem_map.1 hr'
    exact VSwitch.lookup_eq_none.1 (h.tabulated.lookup_eq_none.2 (hnew pm hpm)) r hr he

/-- A container started on a host port that is already in use breaks completeness: if the earlier
container is still running the port is claimed twice, otherwise the lookup finds the stopped one. -/
theorem Complete.unclaimed_of_launched {w : World} (h : w.Disjoint) {spec : ContainerSpec}
    (hc : (w.launched spec).Complete) : (spec.ports.map PortMapping.host).Nodup ∧
      ∀ pm ∈ spec.ports, ∀ s ∈ w.started, pm.host ∉ s.hosts := by
  have hun := hc.unclaimed
  rw [running_launched, List.flatMap_append, List.flatMap_singleton, List.nodup_append] at hun
  obtain ⟨_, hnew, hdisj⟩ := hun
  refine ⟨hnew, ?_⟩
  intro pm hpm
  rw [← h.tabulated.lookup_eq_none]
  by_contra hsome
  obtain ⟨⟨id, port⟩, hl⟩ := Option.ne_none_iff_exists'.1 hsome
  obtain ⟨s, hs, rfl, hp⟩ := h.tabulated.mem_table.1 (mem_of_lookup hl)
  have hself : ⟨w.kernel.nextId, spec.ports⟩ ∈ (w.launched spec).running := by
    rw [running_launched]; simp
  have hfound := hc.found _ hself pm hpm
  rw [lookup_launched, hl, Option.some_or] at hfound
  have hid : s.id = w.kernel.nextId := congrArg Prod.fst (Option.some.inj hfound)
  have hrun : (w.launched spec).isRunning s.id = true := by
    rw [isRunning_launched, hid]; simp
  have hold : pm.host ∈ (w.started.filter fun s => (w.launched spec).isRunning s.id).flatMap
      Started.hosts :=
    List.mem_flatMap.2 ⟨s, List.mem_filter.2 ⟨hs, hrun⟩, List.mem_map.2 ⟨_, hp, rfl⟩⟩
  exact hdisj _ hold pm.host (List.mem_map_of_mem hpm) rfl

theorem Disjoint.of_unstarted {w : World} (h : w.Disjoint) {e : Event}
    (hns : e.startedSpec = none) : (w.step e).Disjoint := by
  rcases w.step_cases e with ⟨spec, hs, _, _⟩ | ⟨id, _, _, he⟩ | ⟨_, _, hst, _, hpf⟩
  · rw [hns] at hs; cases hs
  · rw [he]
    exact ⟨h.tabulated, h.hosts⟩
  · exact ⟨h.tabulated.step e, by rw [hpf]; exact h.hosts⟩

theorem Disjoint.step {w : World} (h : w.Disjoint) {e : Event} (hok : w.StartsUnclaimed e) :
    (w.step e).Disjoint := by
  rcases w.step_cases e with ⟨spec, hs, _, he⟩ | ⟨id, hns, _, _⟩ | ⟨hns, _⟩
  · rw [he]
    exact h.launched (hok spec hs).1 (hok spec hs).2
  · exact h.of_unstarted hns
  · exact h.of_unstarted hns

theorem complete_step_iff {w : World} (h : w.Disjoint) (e : Event) :
    (w.step e).Complete ↔ w.StartsUnclaimed e := by
  refine ⟨fun hc spec hs => ?_, fun hok => (h.step hok).complete⟩
  rcases w.step_cases e with ⟨spec', hs', _, he⟩ | ⟨id, hns, _, _⟩ | ⟨hns, _⟩
  · rw [he] at hc
    cases hs.symm.trans hs'
    exact hc.unclaimed_of_launched h
  · rw [hns] at hs; cases hs
  · rw [hns] at hs; cases hs

theorem disjoint_init : init.Disjoint := ⟨tabulated_init, List.nodup_nil⟩

/-- Over a session from boot, the lookup finds every mapping of every running container, and no host
port is claimed twice, in every state iff each container is started with pairwise distinct host ports
that no earlier start used. -/
theorem forwards_complete_iff (declared : List ContainerSpec) (cmds : List ShellCommand) :
    Throughout step Complete init (session declared cmds) ↔
      StepsMeet step StartsUnclaimed init (session declared cmds) :=
  throughout_iff_stepsMeet (fun _ h => h.complete) (fun _ e h => complete_step_iff h e)
    (fun _ _ h hok => h.step hok) disjoint_init

/-- A second container on port 8080 never gets its traffic. -/
theorem run_shadowed : ¬ Throughout step Complete init
    (session [nginxSpec] [.containerRun "redis:7".toList [⟨8080, 6379⟩] []]) := by
  intro h
  have := (h _ (List.prefix_refl _)).found ⟨2, [⟨8080, 6379⟩]⟩ (by decide) ⟨8080, 6379⟩ (by decide)
  exact absurd this (by decide)

end World

end OciKernel
