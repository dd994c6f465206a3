import Mathlib.Algebra.Ring.Nat
import Mathlib.Data.List.Basic

/-!
# Memory.Frames

`BootInfoFrameAllocator`, which hands out the usable frames of the boot memory map. Addresses are
natural numbers; an outer `none` is a panic.

* `allocateFrame_spec`: a frame that is handed out ends inside a usable region, and the memory map
  stays as it is.
-/

namespace OciKernel.Memory

inductive MemoryRegionKind where
  | usable
  | bootloader
  | unknownUefi (code : UInt32)
  | unknownBios (code : UInt32)
deriving DecidableEq, Repr

structure MemoryRegion where
  start : Nat
  stop : Nat
  kind : MemoryRegionKind
deriving DecidableEq, Repr

structure BootInfoFrameAllocator where
  memoryRegions : List MemoryRegion
  regionIdx : Nat
  frameOffset : Nat
deriving DecidableEq, Repr

/-- `PhysAddr::new` refuses addresses of more than 52 bits. -/
def physAddr (addr : Nat) : Option Nat := if addr < 2 ^ 52 then some addr else none

namespace BootInfoFrameAllocator

def new (memoryRegions : List MemoryRegion) : BootInfoFrameAllocator := ⟨memoryRegions, 0, 0⟩

def usable (a : BootInfoFrameAllocator) : List MemoryRegion :=
  a.memoryRegions.filter (·.kind = .usable)

/-- The loop of `allocate_frame`, where `rest` are the usable regions from `region_idx` on. -/
def allocateFrom (a : BootInfoFrameAllocator) :
    List MemoryRegion → Option (Option Nat × BootInfoFrameAllocator)
  | [] => some (none, a)
  | region :: rest =>
    if region.stop < region.start then none
    else
      let regionFrames := (region.stop - region.start) / 4096
      if a.frameOffset < regionFrames then do
        let addr ← physAddr (region.start + a.frameOffset * 4096)
        return (some (addr / 4096 * 4096), { a with frameOffset := a.frameOffset + 1 })
      else allocateFrom { a with regionIdx := a.regionIdx + 1, frameOffset := 0 } rest

def allocateFrame (a : BootInfoFrameAllocator) : Option (Option Nat × BootInfoFrameAllocator) :=
  a.allocateFrom (a.usable.drop a.regionIdx)

theorem allocateFrom_spec {a a' : BootInfoFrameAllocator} {rest : List MemoryRegion}
    {frame : Option Nat} (h : a.allocateFrom rest = some (frame, a')) :
    a'.memoryRegions = a.memoryRegions ∧
      ∀ f, frame = some f → ∃ r ∈ rest, f + 4096 ≤ r.stop := by
  induction rest generalizing a with
  | nil =>
    cases h
    exact ⟨rfl, by intro f hf; cases hf⟩
  | cons region rest ih =>
    unfold allocateFrom at h
    split at h
    · cases h
    · rename_i hle
      dsimp only at h
      split at h
      · rename_i hlt
        obtain ⟨addr, haddr, h⟩ := Option.bind_eq_some_iff.1 h
        unfold physAddr at haddr
        split at haddr
        · cases haddr
          cases h
          refine ⟨rfl, ?_⟩
          intro f hf
          cases hf
          refine ⟨region, List.mem_cons_self .., ?_⟩
          omega
        · cases haddr
      · obtain ⟨hregions, hframe⟩ := ih h
        refine ⟨hregions, ?_⟩
        intro f hf
        obtain ⟨r, hr, hstop⟩ := hframe f hf
        exact ⟨r, List.mem_cons_of_mem _ hr, hstop⟩

theorem allocateFrame_spec {a a' : BootInfoFrameAllocator} {frame : Option Nat}
    (h : a.allocateFrame = some (frame, a')) :
    a'.memoryRegions = a.memoryRegions ∧
      ∀ f, frame = some f → ∃ r ∈ a.usable, f + 4096 ≤ r.stop := by
  obtain ⟨hregions, hframe⟩ := allocateFrom_spec h
  refine ⟨hregions, ?_⟩
  intro f hf
  obtain ⟨r, hr, hstop⟩ := hframe f hf
  exact ⟨r, List.mem_of_mem_drop hr, hstop⟩

end BootInfoFrameAllocator

end OciKernel.Memory
