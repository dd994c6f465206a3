import OciKernel.Container.Spec
import OciKernel.Fs.OverlayFs
import OciKernel.Isolation.Cgroup
import OciKernel.Isolation.Namespace

/-!
# Container.Runtime

The container lifecycle of `container/runtime.rs`, and the limits a container runs under.

`NEXT_ID` is passed in and returned; `fetch_add` wraps, as `UInt64` addition does. The cgroup handle
gets the memory limit of the spec but not its process limit: `CgroupHandle::new` sets `pids_max` to
100. `limitsEnforced_iff` says that the declared limits are the enforced ones for no other value.
-/

namespace OciKernel

open Transition

/-- An opaque, globally unique container identifier. -/
structure ContainerId where
  val : UInt64
deriving DecidableEq, Repr

/-- `ContainerId::new`: the id, and the counter after `fetch_add(1)`. -/
def ContainerId.new (nextId : UInt64) : ContainerId × UInt64 := (⟨nextId⟩, nextId + 1)

inductive ContainerState where
  | created
  | running
  | stopping
  | stopped
deriving DecidableEq, Repr

/-- A live container instance. -/
structure Container where
  id : ContainerId
  state : ContainerState
  spec : ContainerSpec
  namespaces : Namespace
  cgroup : CgroupHandle
  seccomp : SeccompFilter
  rootfs : OverlayMount

inductive StateError where
  | cannotStart
  | cannotStop
deriving DecidableEq, Repr

def StateError.message : StateError → String
  | .cannotStart => "cannot start: not in Created state"
  | .cannotStop => "cannot stop: not in Running state"

namespace Container

/-- The memory limit of a container: 256 MB when the spec says `0`. -/
def memoryLimit (spec : ContainerSpec) : Nat :=
  if spec.resources.memoryBytes = 0 then 256 * 1024 * 1024 else spec.resources.memoryBytes

def create (nextId : UInt64) (spec : ContainerSpec) : Container × UInt64 :=
  let (id, nextId) := ContainerId.new nextId
  ({ id, state := .created, spec, namespaces := .newIsolated, cgroup := .new (memoryLimit spec),
     seccomp := .defaultPolicy, rootfs := .new [] }, nextId)

def start (c : Container) : Except StateError Container :=
  match c.state with
  | .created => .ok { c with state := .running }
  | _ => .error .cannotStart

def stop (c : Container) : Except StateError Container :=
  match c.state with
  | .running => .ok { c with state := .stopping }
  | _ => .error .cannotStop

def markStopped (c : Container) : Container := { c with state := .stopped }

end Container

/-! ## Declared and enforced limits -/

/-- In every run of checked charges on the container's cgroup, both counters respect the limits the
spec declares, and a process is refused only at the declared process limit. -/
def LimitsEnforced (spec : ContainerSpec) : Prop :=
  ∀ nextId ops c, Run CgroupHandle.Step (Container.create nextId spec).1.cgroup ops c →
    c.memoryUsed ≤ Container.memoryLimit spec ∧
    c.pidsCurrent ≤ spec.resources.pidsMax ∧
    (c.checkPids = .error .pidLimit → spec.resources.pidsMax ≤ c.pidsCurrent)

/-- What does hold for every spec: the declared memory limit, and a process limit of 100. -/
theorem create_within {nextId : UInt64} {spec : ContainerSpec} {ops : List CgroupOp}
    {c : CgroupHandle} (hr : Run CgroupHandle.Step (Container.create nextId spec).1.cgroup ops c) :
    c.memoryUsed ≤ Container.memoryLimit spec ∧ c.pidsCurrent ≤ 100 ∧ c.pidsMax = 100 := by
  have h := CgroupHandle.within_limits (Nat.zero_le _) (Nat.zero_le _) hr
  exact ⟨h.memory, h.pids, h.pidsMax⟩

/-- A hundred processes always start, and the next is refused. -/
theorem run_hundred (nextId : UInt64) (spec : ContainerSpec) :
    ∃ c, Run CgroupHandle.Step (Container.create nextId spec).1.cgroup
      (List.replicate 100 .chargePid) c ∧ c.pidsCurrent = 100 ∧ c.checkPids = .error .pidLimit := by
  have h := CgroupHandle.run_chargePid (c := (Container.create nextId spec).1.cgroup) (n := 100)
    (Nat.le_refl 100) (show 100 ≤ USIZE_MAX by decide)
  exact ⟨_, h, rfl, CgroupHandle.checkPids_error.2 (Nat.le_refl 100)⟩

theorem LimitsEnforced.pidsMax_eq {spec : ContainerSpec} (h : LimitsEnforced spec) :
    spec.resources.pidsMax = 100 := by
  obtain ⟨c, hr, hcur, hrefused⟩ := run_hundred 1 spec
  obtain ⟨_, hle, hreach⟩ := h 1 _ c hr
  have := hreach hrefused
  omega

theorem limitsEnforced_iff (spec : ContainerSpec) :
    LimitsEnforced spec ↔ spec.resources.pidsMax = 100 := by
  refine ⟨LimitsEnforced.pidsMax_eq, ?_⟩
  intro hmax nextId ops c hr
  obtain ⟨hm, hp, hpm⟩ := create_within hr
  refine ⟨hm, by omega, ?_⟩
  intro hrefused
  have := CgroupHandle.checkPids_error.1 hrefused
  omega

/-- The container of the embedded boot configuration declares 50 processes. -/
theorem not_limitsEnforced_fifty : ¬ LimitsEnforced
    { ContainerSpec.new "nginx:latest".toList [] with
      resources := { memoryBytes := 256 * 1024 * 1024, pidsMax := 50, cpuShares := 1024 } } :=
  fun h => absurd h.pidsMax_eq (by decide)

end OciKernel
