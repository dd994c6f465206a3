import Mathlib.Algebra.Ring.Nat
import Mathlib.Order.Basic
import OciKernel.Lib.Run

/-!
# Isolation.Cgroup

The cgroup handle of `isolation/cgroup.rs`: memory and process counters with their limits. The
counters are `usize` and saturate; `check_memory` and `check_pids` look without committing, and the
caller charges after a successful check.

`Step` is one charge or release of a caller that keeps to this; `within_limits` says that no run of
such calls takes a counter over the limit the handle holds.
-/

namespace OciKernel

open Transition

def USIZE_MAX : Nat := 2 ^ 64 - 1

/-- `usize::saturating_add`. -/
def saturatingAdd (a b : Nat) : Nat := min (a + b) USIZE_MAX

inductive CgroupError where
  | memoryLimit
  | pidLimit
deriving DecidableEq, Repr

structure CgroupHandle where
  memoryLimit : Nat
  memoryUsed : Nat
  cpuShares : UInt32
  pidsMax : Nat
  pidsCurrent : Nat
deriving DecidableEq, Repr

namespace CgroupHandle

def new (memoryLimit : Nat) : CgroupHandle :=
  { memoryLimit, memoryUsed := 0, cpuShares := 1024, pidsMax := 100, pidsCurrent := 0 }

def checkMemory (c : CgroupHandle) (request : Nat) : Except CgroupError Unit :=
  if saturatingAdd c.memoryUsed request > c.memoryLimit then .error .memoryLimit else .ok ()

def chargeMemory (c : CgroupHandle) (bytes : Nat) : CgroupHandle :=
  { c with memoryUsed := saturatingAdd c.memoryUsed bytes }

def releaseMemory (c : CgroupHandle) (bytes : Nat) : CgroupHandle :=
  { c with memoryUsed := c.memoryUsed - bytes }

def checkPids (c : CgroupHandle) : Except CgroupError Unit :=
  if c.pidsCurrent ≥ c.pidsMax then .error .pidLimit else .ok ()

def chargePid (c : CgroupHandle) : CgroupHandle :=
  { c with pidsCurrent := saturatingAdd c.pidsCurrent 1 }

def releasePid (c : CgroupHandle) : CgroupHandle := { c with pidsCurrent := c.pidsCurrent - 1 }

theorem checkMemory_ok {c : CgroupHandle} {request : Nat} :
    c.checkMemory request = .ok () ↔ saturatingAdd c.memoryUsed request ≤ c.memoryLimit := by
  unfold checkMemory; split <;> simp <;> omega

theorem checkPids_ok {c : CgroupHandle} : c.checkPids = .ok () ↔ c.pidsCurrent < c.pidsMax := by
  unfold checkPids; split <;> simp <;> omega

theorem checkPids_error {c : CgroupHandle} :
    c.checkPids = .error .pidLimit ↔ c.pidsMax ≤ c.pidsCurrent := by
  unfold checkPids; split <;> simp <;> omega

end CgroupHandle

/-! ## Runs -/

inductive CgroupOp where
  | chargeMemory (bytes : Nat)
  | releaseMemory (bytes : Nat)
  | chargePid
  | releasePid
deriving DecidableEq, Repr

namespace CgroupHandle

def apply (c : CgroupHandle) : CgroupOp → CgroupHandle
  | .chargeMemory bytes => c.chargeMemory bytes
  | .releaseMemory bytes => c.releaseMemory bytes
  | .chargePid => c.chargePid
  | .releasePid => c.releasePid

/-- A charge comes right after a successful check; a release may come any time. -/
def Checked (c : CgroupHandle) : CgroupOp → Prop
  | .chargeMemory bytes => c.checkMemory bytes = .ok ()
  | .chargePid => c.checkPids = .ok ()
  | .releaseMemory _ | .releasePid => True

def Step (c : CgroupHandle) (op : CgroupOp) (c' : CgroupHandle) : Prop :=
  c.Checked op ∧ c' = c.apply op

/-- The limits are those of the handle `c₀`, and neither counter is over its limit. -/
structure Within (c₀ c : CgroupHandle) : Prop where
  memoryLimit : c.memoryLimit = c₀.memoryLimit
  pidsMax : c.pidsMax = c₀.pidsMax
  memory : c.memoryUsed ≤ c₀.memoryLimit
  pids : c.pidsCurrent ≤ c₀.pidsMax

theorem Within.step {c₀ c c' : CgroupHandle} {op : CgroupOp} (h : Within c₀ c)
    (hs : Step c op c') : Within c₀ c' := by
  obtain ⟨hl, hp, hm, hc⟩ := h
  obtain ⟨hck, rfl⟩ := hs
  cases op with
  | chargeMemory bytes => exact ⟨hl, hp, hl ▸ checkMemory_ok.1 hck, hc⟩
  | releaseMemory bytes => exact ⟨hl, hp, (Nat.sub_le _ _).trans hm, hc⟩
  | chargePid =>
    have hlt := checkPids_ok.1 hck
    refine ⟨hl, hp, hm, (Nat.min_le_left _ _).trans ?_⟩
    omega
  | releasePid => exact ⟨hl, hp, hm, (Nat.sub_le _ _).trans hc⟩

theorem within_limits {c₀ c : CgroupHandle} {ops : List CgroupOp}
    (hm : c₀.memoryUsed ≤ c₀.memoryLimit) (hp : c₀.pidsCurrent ≤ c₀.pidsMax)
    (hr : Run Step c₀ ops c) : Within c₀ c :=
  hr.invariant (fun _ _ _ h hs => h.step hs) ⟨rfl, rfl, hm, hp⟩

/-- The handle after `n` processes started. -/
theorem run_chargePid {c : CgroupHandle} {n : Nat} (h : c.pidsCurrent + n ≤ c.pidsMax)
    (hmax : c.pidsMax ≤ USIZE_MAX) :
    Run Step c (List.replicate n .chargePid) { c with pidsCurrent := c.pidsCurrent + n } := by
  induction n generalizing c with
  | zero => exact .nil
  | succ n ih =>
    have hone : c.chargePid = { c with pidsCurrent := c.pidsCurrent + 1 } := by
      rw [chargePid, saturatingAdd, Nat.min_eq_left (by omega)]
    have := ih (c := { c with pidsCurrent := c.pidsCurrent + 1 }) (by simp only; omega) hmax
    simp only [Nat.add_assoc, Nat.add_comm 1 n] at this
    exact .cons ⟨checkPids_ok.2 (by omega), hone.symm⟩ this

end CgroupHandle

end OciKernel
