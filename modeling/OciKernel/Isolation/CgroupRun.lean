import Mathlib.Algebra.BigOperators.Group.List.Basic
import OciKernel.Isolation.Cgroup

/-!
# Isolation.CgroupRun

The counters of `isolation/cgroup.rs` against what they stand for. `CgroupUse` is a handle together
with what its callers hold of it: the charges not released yet, and the live processes. A run is any
sequence of calls in which a charge comes right after a successful check and a release gives back an
earlier charge.

* `Exact.step`: a call keeps the counters equal to what is held, and within the limits.
* `checkMemory_exact`: where the limit is below `usize::MAX`, the clamped sum of the check decides as
  the exact sum does.
* `accounting_exact`: this holds after every run, and no charge, release or successful check of it
  clamps. A check that fails may clamp (`not_accounting_unclamped`): its sum can exceed `usize::MAX`.
-/

namespace OciKernel

open Transition

/-- A call on the handle. -/
inductive CgroupCall where
  | checkMemory (request : Nat)
  | checkPids
  | update (op : CgroupOp)
deriving DecidableEq, Repr

namespace CgroupHandle

/-- The exact result of a saturating operation of the call is out of the range of `usize`. -/
def Clamps (c : CgroupHandle) : CgroupCall → Prop
  | .checkMemory request => USIZE_MAX < c.memoryUsed + request
  | .checkPids => False
  | .update (.chargeMemory bytes) => USIZE_MAX < c.memoryUsed + bytes
  | .update (.releaseMemory bytes) => c.memoryUsed < bytes
  | .update .chargePid => USIZE_MAX < c.pidsCurrent + 1
  | .update .releasePid => c.pidsCurrent < 1

/-- The call is a check that refuses. -/
def Refuses (c : CgroupHandle) : CgroupCall → Prop
  | .checkMemory request => c.checkMemory request = .error .memoryLimit
  | .checkPids => c.checkPids = .error .pidLimit
  | .update _ => False

theorem saturatingAdd_eq {a b : Nat} (h : a + b ≤ USIZE_MAX) : saturatingAdd a b = a + b :=
  Nat.min_eq_left h

theorem checkMemory_error {c : CgroupHandle} {request : Nat} :
    c.checkMemory request = .error .memoryLimit ↔
      c.memoryLimit < saturatingAdd c.memoryUsed request := by
  unfold checkMemory; split <;> simp <;> omega

end CgroupHandle

/-- A handle, the charges on it that are not released yet, and the live processes. -/
structure CgroupUse where
  handle : CgroupHandle
  outstanding : List Nat
  live : Nat
deriving DecidableEq, Repr

namespace CgroupUse

def new (limit : Nat) : CgroupUse := { handle := .new limit, outstanding := [], live := 0 }

/-- What a call does to the handle and to what is held of it. -/
def after (u : CgroupUse) : CgroupCall → CgroupUse
  | .checkMemory _ | .checkPids => u
  | .update op =>
    { handle := u.handle.apply op
      outstanding :=
        match op with
        | .chargeMemory bytes => bytes :: u.outstanding
        | .releaseMemory bytes => u.outstanding.erase bytes
        | .chargePid | .releasePid => u.outstanding
      live :=
        match op with
        | .chargePid => u.live + 1
        | .releasePid => u.live - 1
        | .chargeMemory _ | .releaseMemory _ => u.live }

/-- A charge comes right after a successful check, a release gives back what is held, and a check may
come any time. -/
def Matched (u : CgroupUse) : CgroupCall → Prop
  | .checkMemory _ | .checkPids => True
  | .update (.releaseMemory bytes) => bytes ∈ u.outstanding
  | .update .releasePid => 0 < u.live
  | .update (.chargeMemory bytes) => u.handle.checkMemory bytes = .ok ()
  | .update .chargePid => u.handle.checkPids = .ok ()

def Step (u : CgroupUse) (call : CgroupCall) (u' : CgroupUse) : Prop :=
  u.Matched call ∧ u' = u.after call

/-- The counters are what is held, within the limits. -/
structure Exact (limit : Nat) (u : CgroupUse) : Prop where
  memoryLimit : u.handle.memoryLimit = limit
  pidsMax : u.handle.pidsMax = 100
  memory : u.handle.memoryUsed = u.outstanding.sum
  memory_le : u.handle.memoryUsed ≤ limit
  pids : u.handle.pidsCurrent = u.live
  pids_le : u.handle.pidsCurrent ≤ u.handle.pidsMax

variable {limit : Nat} {u u' : CgroupUse} {call : CgroupCall}

theorem exact_new : Exact limit (new limit) where
  memoryLimit := rfl
  pidsMax := rfl
  memory := rfl
  memory_le := Nat.zero_le _
  pids := rfl
  pids_le := Nat.zero_le _

/-- The clamped sum of the check decides as the exact one, for the limit is below the clamp. -/
theorem checkMemory_exact (hlim : limit < USIZE_MAX) (h : Exact limit u) (request : Nat) :
    u.handle.checkMemory request = .ok () ↔ u.outstanding.sum + request ≤ limit := by
  rw [CgroupHandle.checkMemory_ok, saturatingAdd, h.memoryLimit, ← h.memory]
  omega

theorem Exact.bytes_add (h : Exact limit u) {bytes : Nat} (hb : bytes ∈ u.outstanding) :
    bytes + (u.outstanding.erase bytes).sum = u.handle.memoryUsed := by
  rw [h.memory]
  exact List.sum_erase hb

/-- Only a check that refuses clamps. -/
theorem Exact.refuses_of_clamps (hlim : limit < USIZE_MAX) (h : Exact limit u)
    (hm : u.Matched call) (hc : u.handle.Clamps call) : u.handle.Refuses call := by
  cases call with
  | checkPids => exact hc.elim
  | checkMemory request =>
    rw [CgroupHandle.Refuses, CgroupHandle.checkMemory_error, h.memoryLimit, saturatingAdd]
    simp only [CgroupHandle.Clamps] at hc
    omega
  | update op =>
    exfalso
    cases op with
    | chargeMemory bytes =>
      have hle := (checkMemory_exact hlim h bytes).1 hm
      simp only [CgroupHandle.Clamps, h.memory] at hc
      omega
    | releaseMemory bytes =>
      have heq := h.bytes_add hm
      simp only [CgroupHandle.Clamps] at hc
      omega
    | chargePid =>
      have hlt := CgroupHandle.checkPids_ok.1 hm
      have hmax : 100 < USIZE_MAX := by simp [USIZE_MAX]
      simp only [CgroupHandle.Clamps] at hc
      have := h.pidsMax
      omega
    | releasePid =>
      simp only [CgroupHandle.Clamps, h.pids, CgroupUse.Matched] at hc hm
      omega

theorem Exact.step (hlim : limit < USIZE_MAX) (h : Exact limit u) (hs : Step u call u') :
    Exact limit u' := by
  obtain ⟨hm, rfl⟩ := hs
  cases call with
  | checkMemory request => exact h
  | checkPids => exact h
  | update op =>
    -- an update refuses nothing, so it does not clamp
    have hfits : ¬ u.handle.Clamps (.update op) := fun hc => h.refuses_of_clamps hlim hm hc
    cases op with
    | chargeMemory bytes =>
      have hadd : saturatingAdd u.handle.memoryUsed bytes = bytes + u.outstanding.sum := by
        rw [CgroupHandle.saturatingAdd_eq (Nat.le_of_not_lt hfits), h.memory, Nat.add_comm]
      have hle := (checkMemory_exact hlim h bytes).1 hm
      refine ⟨h.memoryLimit, h.pidsMax, ?_, ?_, h.pids, h.pids_le⟩
      · simp only [after, CgroupHandle.apply, CgroupHandle.chargeMemory, hadd, List.sum_cons]
      · simp only [after, CgroupHandle.apply, CgroupHandle.chargeMemory, hadd]
        omega
    | releaseMemory bytes =>
      have heq := h.bytes_add hm
      have hle := h.memory_le
      refine ⟨h.memoryLimit, h.pidsMax, ?_, ?_, h.pids, h.pids_le⟩
      · simp only [after, CgroupHandle.apply, CgroupHandle.releaseMemory]
        omega
      · simp only [after, CgroupHandle.apply, CgroupHandle.releaseMemory]
        omega
    | chargePid =>
      have hadd : saturatingAdd u.handle.pidsCurrent 1 = u.live + 1 := by
        rw [CgroupHandle.saturatingAdd_eq (Nat.le_of_not_lt hfits), h.pids]
      have hlt := CgroupHandle.checkPids_ok.1 hm
      refine ⟨h.memoryLimit, h.pidsMax, h.memory, h.memory_le, ?_, ?_⟩
      · simp only [after, CgroupHandle.apply, CgroupHandle.chargePid, hadd]
      · simp only [after, CgroupHandle.apply, CgroupHandle.chargePid, hadd, ← h.pids]
        exact hlt
    | releasePid =>
      refine ⟨h.memoryLimit, h.pidsMax, h.memory, h.memory_le, ?_, ?_⟩
      · simp only [after, CgroupHandle.apply, CgroupHandle.releasePid, h.pids]
      · simp only [after, CgroupHandle.apply, CgroupHandle.releasePid]
        exact (Nat.sub_le _ _).trans h.pids_le

/-- Every run leaves the counters exact, memory checks decide by the exact sum, and of the calls that
may come next only a check that refuses clamps. -/
theorem accounting_exact (hlim : limit < USIZE_MAX) {calls : List CgroupCall}
    (hr : Run Step (new limit) calls u) :
    Exact limit u ∧
    (∀ request, u.handle.checkMemory request = .ok () ↔ u.outstanding.sum + request ≤ limit) ∧
    (∀ call, u.Matched call → u.handle.Clamps call → u.handle.Refuses call) := by
  have h : Exact limit u := hr.invariant (fun _ _ _ h hs => h.step hlim hs) exact_new
  exact ⟨h, checkMemory_exact hlim h, fun _ hm hc => h.refuses_of_clamps hlim hm hc⟩

/-- Two charges and a process; the first charge is given back. -/
theorem accounting_exact_charges :
    Run Step (new 8) [.checkMemory 4, .update (.chargeMemory 4), .update .chargePid,
      .update (.chargeMemory 2), .update (.releaseMemory 4)]
      ⟨{ CgroupHandle.new 8 with memoryUsed := 2, pidsCurrent := 1 }, [2], 1⟩ ∧
    CgroupHandle.checkMemory { CgroupHandle.new 8 with memoryUsed := 2, pidsCurrent := 1 } 6 =
      .ok () := by
  have hr : Run Step (new 8) [.checkMemory 4, .update (.chargeMemory 4), .update .chargePid,
      .update (.chargeMemory 2), .update (.releaseMemory 4)]
      ⟨{ CgroupHandle.new 8 with memoryUsed := 2, pidsCurrent := 1 }, [2], 1⟩ :=
    .cons ⟨trivial, rfl⟩ <| .cons ⟨rfl, rfl⟩ <| .cons ⟨rfl, rfl⟩ <| .cons ⟨rfl, rfl⟩ <|
      .cons ⟨.tail 2 (.head _), rfl⟩ .nil
  have hlim : 8 < USIZE_MAX := by simp [USIZE_MAX]
  exact ⟨hr, ((accounting_exact hlim hr).2.1 6).2 (by simp)⟩

/-- With one byte charged, a check of `usize::MAX` more clamps. -/
theorem not_accounting_unclamped :
    ¬ ∀ limit calls u, limit < USIZE_MAX → Run Step (new limit) calls u →
      ∀ request ≤ USIZE_MAX, ¬ u.handle.Clamps (.checkMemory request) := by
  intro h
  have hr : Run Step (new 1) [.update (.chargeMemory 1)]
      ⟨{ CgroupHandle.new 1 with memoryUsed := 1 }, [1], 0⟩ := .cons ⟨rfl, rfl⟩ .nil
  have hlim : 1 < USIZE_MAX := by simp [USIZE_MAX]
  refine h 1 _ _ hlim hr USIZE_MAX le_rfl ?_
  simp only [CgroupHandle.Clamps]
  omega

end CgroupUse

end OciKernel
