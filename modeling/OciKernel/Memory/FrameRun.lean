import Mathlib.Data.List.Nodup
import Mathlib.Data.List.Pairwise
import OciKernel.Memory.Frames

/-!
# Memory.FrameRun

Boot frame allocation over whole runs: the cursor of `BootInfoFrameAllocator` against the plain list
of the frames of the usable regions.

* `remaining`: the frames still to come, as the cursor has them.
* `allocateFrame_spec`: one call takes the first of them, or panics on an address of more than 52 bits.
* `calls_enumerate`: the results of any number of calls, and what the frames are.
-/

namespace OciKernel.Memory

/-- `start, start + 4096, ...`, as many whole frames as the region has. -/
def MemoryRegion.frames (r : MemoryRegion) : List Nat :=
  (List.range ((r.stop - r.start) / 4096)).map fun i => r.start + i * 4096

/-- The frames of the usable regions, in the order of the list. -/
def usableFrames (regions : List MemoryRegion) : List Nat :=
  (regions.filter (·.kind = .usable)).flatMap MemoryRegion.frames

/-- No address lies in both. -/
def MemoryRegion.Disjoint (r r' : MemoryRegion) : Prop :=
  ∀ x, r.start ≤ x → x < r.stop → r'.start ≤ x → x < r'.stop → False

instance : Std.Symm MemoryRegion.Disjoint :=
  ⟨fun _ _ h x hstart hstop hstart' hstop' => h x hstart' hstop' hstart hstop⟩

/-- What is assumed of the bootloader's memory map. -/
structure ValidMap (regions : List MemoryRegion) : Prop where
  ordered : ∀ r ∈ regions, r.start ≤ r.stop
  aligned : ∀ r ∈ regions, 4096 ∣ r.start
  disjoint : regions.Pairwise MemoryRegion.Disjoint

namespace MemoryRegion

variable {r : MemoryRegion} {f : Nat}

/-- A frame of a region lies wholly inside. -/
theorem mem_frames (h : f ∈ r.frames) : r.start ≤ f ∧ f + 4096 ≤ r.stop := by
  obtain ⟨i, hi, rfl⟩ := List.mem_map.1 h
  have hi : i < (r.stop - r.start) / 4096 := List.mem_range.1 hi
  omega

theorem nodup_frames (r : MemoryRegion) : r.frames.Nodup := by
  refine List.Nodup.map ?_ List.nodup_range
  intro i j h
  simpa using h

theorem length_frames (r : MemoryRegion) : r.frames.length = (r.stop - r.start) / 4096 := by
  simp [frames]

/-- The frames from the cursor on: one more, or none. -/
theorem drop_frames (r : MemoryRegion) (offset : Nat) :
    r.frames.drop offset = if offset < (r.stop - r.start) / 4096 then
      (r.start + offset * 4096) :: r.frames.drop (offset + 1) else [] := by
  split
  · rename_i h
    rw [List.drop_eq_getElem_cons (by rw [length_frames]; exact h)]
    simp [frames]
  · rename_i h
    exact List.drop_of_length_le (by rw [length_frames]; omega)

end MemoryRegion

namespace BootInfoFrameAllocator

/-! ## One call -/

/-- The loop of `allocate_frame` as the source has it, with its `nth`. -/
theorem allocateFrame_loop (a : BootInfoFrameAllocator) :
    a.allocateFrame = match a.usable[a.regionIdx]? with
      | none => some (none, a)
      | some region =>
        if region.stop < region.start then none
        else if a.frameOffset < (region.stop - region.start) / 4096 then do
          let addr ← physAddr (region.start + a.frameOffset * 4096)
          return (some (addr / 4096 * 4096), { a with frameOffset := a.frameOffset + 1 })
        else allocateFrame { a with regionIdx := a.regionIdx + 1, frameOffset := 0 } := by
  unfold allocateFrame
  by_cases h : a.regionIdx < a.usable.length
  · rw [List.drop_eq_getElem_cons h, List.getElem?_eq_getElem h]
    rfl
  · rw [List.drop_of_length_le (by omega), List.getElem?_eq_none (by omega)]
    rfl

/-- The frames still to come, where `rest` are the usable regions from `region_idx` on. -/
def remainingFrom (offset : Nat) : List MemoryRegion → List Nat
  | [] => []
  | region :: rest => region.frames.drop offset ++ rest.flatMap MemoryRegion.frames

def remaining (a : BootInfoFrameAllocator) : List Nat :=
  remainingFrom a.frameOffset (a.usable.drop a.regionIdx)

theorem remainingFrom_zero (rest : List MemoryRegion) :
    remainingFrom 0 rest = rest.flatMap MemoryRegion.frames := by
  cases rest with
  | nil => rfl
  | cons region rest => rfl

theorem remaining_new (regions : List MemoryRegion) :
    (new regions).remaining = usableFrames regions := remainingFrom_zero _

/-- What a call on the map `regions` gives when `frames` are still to come. -/
structure Takes (regions : List MemoryRegion) (frames : List Nat)
    (result : Option (Option Nat × BootInfoFrameAllocator)) : Prop where
  none : frames = [] → ∃ a', result = some (none, a') ∧ a'.remaining = [] ∧
    a'.memoryRegions = regions
  some : ∀ f rest, frames = f :: rest → f < 2 ^ 52 →
    ∃ a', result = some (some f, a') ∧ a'.remaining = rest ∧ a'.memoryRegions = regions
  panic : ∀ f rest, frames = f :: rest → ¬ f < 2 ^ 52 → result = Option.none

theorem allocateFrom_takes {a : BootInfoFrameAllocator} {rest : List MemoryRegion}
    (hrest : rest = a.usable.drop a.regionIdx)
    (hvalid : ∀ r ∈ rest, r.start ≤ r.stop ∧ 4096 ∣ r.start) :
    Takes a.memoryRegions (remainingFrom a.frameOffset rest) (a.allocateFrom rest) := by
  induction rest generalizing a with
  | nil =>
    refine ⟨fun _ => ⟨a, rfl, ?_, rfl⟩, nofun, nofun⟩
    rw [remaining, ← hrest, remainingFrom]
  | cons region rest ih =>
    obtain ⟨hle, hdvd⟩ := hvalid region (List.mem_cons_self ..)
    have htail : rest = a.usable.drop (a.regionIdx + 1) := by
      rw [← List.tail_drop, ← hrest, List.tail_cons]
    rw [remainingFrom, region.drop_frames, allocateFrom, if_neg (Nat.not_lt.2 hle)]
    dsimp only
    by_cases hlt : a.frameOffset < (region.stop - region.start) / 4096
    · rw [if_pos hlt, if_pos hlt]
      have hframe : (region.start + a.frameOffset * 4096) / 4096 * 4096 =
          region.start + a.frameOffset * 4096 :=
        Nat.div_mul_cancel (Nat.dvd_add hdvd (Nat.dvd_mul_left ..))
      refine ⟨nofun, ?_, ?_⟩
      · intro f frames hf hsmall
        cases hf
        rw [physAddr, if_pos hsmall]
        refine ⟨{ a with frameOffset := a.frameOffset + 1 }, ?_, ?_, rfl⟩
        · simp only [Option.bind_eq_bind, Option.bind_some, hframe]
          rfl
        · show remainingFrom _ (a.usable.drop a.regionIdx) = _
          rw [← hrest, remainingFrom]
          rfl
      · intro f frames hf hlarge
        cases hf
        rw [physAddr, if_neg hlarge]
        rfl
    · -- the region is exhausted: its offset is dropped and the next one starts at 0
      rw [if_neg hlt, if_neg hlt, List.nil_append, ← remainingFrom_zero]
      exact ih (a := { a with regionIdx := a.regionIdx + 1, frameOffset := 0 }) htail
        fun r hr => hvalid r (List.mem_cons_of_mem _ hr)

theorem allocateFrame_takes {a : BootInfoFrameAllocator}
    (hvalid : ∀ r ∈ a.memoryRegions, r.start ≤ r.stop ∧ 4096 ∣ r.start) :
    Takes a.memoryRegions a.remaining a.allocateFrame := by
  refine allocateFrom_takes rfl fun r hr => ?_
  exact hvalid r (List.mem_filter.1 (List.mem_of_mem_drop hr)).1

/-! ## Runs -/

/-- The results of `k` calls; `none` is a panic in one of them. -/
def calls : Nat → BootInfoFrameAllocator → Option (List (Option Nat))
  | 0, _ => some []
  | k + 1, a => do
    let (frame, a) ← a.allocateFrame
    let frames ← calls k a
    return frame :: frames

/-- By induction on the number of calls. -/
theorem calls_eq {a : BootInfoFrameAllocator} (k : Nat)
    (hvalid : ∀ r ∈ a.memoryRegions, r.start ≤ r.stop ∧ 4096 ∣ r.start) :
    calls k a = if ∀ f ∈ a.remaining.take k, f < 2 ^ 52 then
      some ((a.remaining.take k).map some ++ List.replicate (k - a.remaining.length) none)
    else none := by
  induction k generalizing a with
  | zero => simp [calls]
  | succ k ih =>
    have htakes := allocateFrame_takes hvalid
    cases hr : a.remaining with
    | nil =>
      obtain ⟨a', ha, hrest, hregions⟩ := htakes.none hr
      rw [calls, ha]
      simp [ih (hregions ▸ hvalid), hrest, List.replicate_succ]
    | cons f rest =>
      by_cases hsmall : f < 2 ^ 52
      · obtain ⟨a', ha, hrest, hregions⟩ := htakes.some f rest hr hsmall
        rw [calls, ha]
        simp only [Option.bind_eq_bind, Option.bind_some, ih (hregions ▸ hvalid), hrest]
        by_cases hall : ∀ f ∈ rest.take k, f < 2 ^ 52
        · rw [if_pos hall, if_pos (by simpa using ⟨hsmall, hall⟩)]
          simp
        · rw [if_neg hall, if_neg (by simpa using fun _ => by simpa using hall)]
          rfl
      · rw [calls, htakes.panic f rest hr hsmall, if_neg]
        · rfl
        · intro hall
          exact hsmall (hall f (by simp))

end BootInfoFrameAllocator

/-! ## The frames of a valid map -/

namespace ValidMap

variable {regions : List MemoryRegion}

theorem nodup_usableFrames (h : ValidMap regions) : (usableFrames regions).Nodup := by
  refine List.nodup_flatMap.2 ⟨fun r _ => r.nodup_frames, ?_⟩
  refine (h.disjoint.filter _).imp fun {r r'} hdisjoint f hf hf' => ?_
  obtain ⟨hstart, hstop⟩ := r.mem_frames hf
  obtain ⟨hstart', hstop'⟩ := r'.mem_frames hf'
  exact hdisjoint f hstart (by omega) hstart' (by omega)

theorem inside_usable {f : Nat} (hf : f ∈ usableFrames regions) :
    ∃ r ∈ regions, r.kind = .usable ∧ r.start ≤ f ∧ f + 4096 ≤ r.stop := by
  obtain ⟨r, hr, hmem⟩ := List.mem_flatMap.1 hf
  obtain ⟨hr, hkind⟩ := List.mem_filter.1 hr
  obtain ⟨hstart, hstop⟩ := r.mem_frames hmem
  exact ⟨r, hr, of_decide_eq_true hkind, hstart, hstop⟩

theorem outside_reserved (h : ValidMap regions) {f x : Nat} (hf : f ∈ usableFrames regions)
    {r : MemoryRegion} (hr : r ∈ regions) (hkind : r.kind ≠ .usable) (hx : f ≤ x)
    (hx' : x < f + 4096) : ¬ (r.start ≤ x ∧ x < r.stop) := by
  rintro ⟨hstart, hstop⟩
  obtain ⟨r', hr', hkind', hstart', hstop'⟩ := inside_usable hf
  have hne : r' ≠ r := by
    rintro rfl
    exact hkind hkind'
  exact h.disjoint.forall hr' hr hne x (by omega) (by omega) hstart hstop

end ValidMap

namespace BootInfoFrameAllocator

/-- Any number of calls gives the usable frames one after another and then `None`, up to a frame whose
address has more than 52 bits, where the call panics; no frame comes twice, each lies inside a usable
region and outside every other one. -/
theorem calls_enumerate {regions : List MemoryRegion} (h : ValidMap regions) :
    (∀ k, calls k (new regions) = if ∀ f ∈ (usableFrames regions).take k, f < 2 ^ 52 then
      some (((usableFrames regions).take k).map some ++
        List.replicate (k - (usableFrames regions).length) none) else none) ∧
    (usableFrames regions).Nodup ∧
    (∀ f ∈ usableFrames regions,
      ∃ r ∈ regions, r.kind = .usable ∧ r.start ≤ f ∧ f + 4096 ≤ r.stop) ∧
    ∀ f ∈ usableFrames regions, ∀ r ∈ regions, r.kind ≠ .usable →
      ∀ x, f ≤ x → x < f + 4096 → ¬ (r.start ≤ x ∧ x < r.stop) := by
  refine ⟨?_, h.nodup_usableFrames, fun f hf => ValidMap.inside_usable hf, ?_⟩
  · intro k
    have hcalls := calls_eq (a := new regions) k fun r hr => ⟨h.ordered r hr, h.aligned r hr⟩
    rw [remaining_new] at hcalls
    exact hcalls
  · intro f hf r hr hkind x hx hx'
    exact h.outside_reserved hf hr hkind hx hx'

/-- Reserved, sub-page and empty regions between two usable ones. -/
theorem calls_enumerate_small :
    calls 4 (new [⟨0, 4096, .bootloader⟩, ⟨4096, 13000, .usable⟩, ⟨16384, 16384, .usable⟩,
      ⟨20480, 20500, .usable⟩, ⟨24576, 28672, .usable⟩]) =
        some [some 4096, some 8192, some 24576, none] := by
  have h : ValidMap [⟨0, 4096, .bootloader⟩, ⟨4096, 13000, .usable⟩, ⟨16384, 16384, .usable⟩,
      ⟨20480, 20500, .usable⟩, ⟨24576, 28672, .usable⟩] := by
    refine ⟨by simp, by simp, ?_⟩
    simp only [List.pairwise_cons, List.forall_mem_cons, List.not_mem_nil, false_implies,
      implies_true, List.Pairwise.nil, and_true, MemoryRegion.Disjoint]
    grind
  exact ((calls_enumerate h).1 4).trans rfl

/-- A usable region from `2 ^ 52` on: the first call panics instead of returning its frame. -/
theorem calls_beyond_52_bits :
    ValidMap [⟨2 ^ 52, 2 ^ 52 + 4096, .usable⟩] ∧
      usableFrames [⟨2 ^ 52, 2 ^ 52 + 4096, .usable⟩] = [2 ^ 52] ∧
      calls 1 (new [⟨2 ^ 52, 2 ^ 52 + 4096, .usable⟩]) = none :=
  ⟨⟨by simp, by simp, List.pairwise_singleton ..⟩, rfl, rfl⟩

end BootInfoFrameAllocator
end OciKernel.Memory
