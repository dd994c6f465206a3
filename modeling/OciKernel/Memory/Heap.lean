import Mathlib.Data.List.Nodup
import OciKernel.Memory.Frames

/-!
# Memory.Heap

`heap::init`, which maps the pages of the heap window one after another to frames of the boot memory
map. The page tables are a third-party package, so mapping a page is a parameter; it may take frames
for new tables from the same allocator. `Lawful` lists what it is documented to do.

* `mapPages_spec`: a page that gets mapped was not mapped before, and leads to usable memory afterwards;
  every other page is left alone.
* `init_spec`: hence for every address of the heap window.
-/

namespace OciKernel.Memory

def HEAP_START : Nat := 0xFFFF_C000_0000_0000
def HEAP_SIZE : Nat := 8 * 1024 * 1024

/-- Page tables in a state `M`. `mapTo` maps the page at an address to a frame; an error is `none`,
because its only caller unwraps the result. -/
structure PageMapper (M : Type) where
  mapTo : M → Nat → Nat → BootInfoFrameAllocator → Option (M × BootInfoFrameAllocator)
  translate : M → Nat → Option Nat

/-- `mapTo` refuses a page that is mapped already, by a small page or a huge one; it maps the page to
the frame and leaves every other page as it was. -/
structure PageMapper.Lawful {M : Type} (P : PageMapper M) : Prop where
  unmapped : ∀ m page frame alloc m' alloc' v, P.mapTo m page frame alloc = some (m', alloc') →
    v / 4096 = page / 4096 → P.translate m v = none
  mapped : ∀ m page frame alloc m' alloc' v, P.mapTo m page frame alloc = some (m', alloc') →
    v / 4096 = page / 4096 → P.translate m' v = some (frame + v % 4096)
  other : ∀ m page frame alloc m' alloc' v, P.mapTo m page frame alloc = some (m', alloc') →
    v / 4096 ≠ page / 4096 → P.translate m' v = P.translate m v
  regions : ∀ m page frame alloc m' alloc', P.mapTo m page frame alloc = some (m', alloc') →
    alloc'.memoryRegions = alloc.memoryRegions

namespace Heap

variable {M : Type} (P : PageMapper M)

/-- One round of the loop over the pages. -/
def mapPage (s : M × BootInfoFrameAllocator) (page : Nat) : Option (M × BootInfoFrameAllocator) := do
  let (frame, alloc) ← s.2.allocateFrame
  let frame ← frame
  P.mapTo s.1 page frame alloc

def pages : List Nat := (List.range (HEAP_SIZE / 4096)).map fun i => HEAP_START + 4096 * i

/-- `heap::init` -/
def init (m : M) (alloc : BootInfoFrameAllocator) : Option (M × BootInfoFrameAllocator) :=
  pages.foldlM (mapPage P) (m, alloc)

variable {P}

theorem nodup_pages : (pages.map (· / 4096)).Nodup := by
  unfold pages
  rw [List.map_map]
  refine List.Nodup.map ?_ List.nodup_range
  intro i j hij
  simp only [Function.comp_apply, HEAP_START] at hij
  omega

theorem mem_pages {v : Nat} (hlo : HEAP_START ≤ v) (hhi : v < HEAP_START + HEAP_SIZE) :
    ∃ page ∈ pages, v / 4096 = page / 4096 := by
  refine ⟨HEAP_START + 4096 * ((v - HEAP_START) / 4096),
    List.mem_map.2 ⟨_, List.mem_range.2 ?_, rfl⟩, ?_⟩
  · unfold HEAP_SIZE at hhi ⊢
    omega
  · unfold HEAP_START at hlo ⊢
    omega

/-- What one round does to the page of `v`, and to any other page. -/
theorem mapPage_spec (law : P.Lawful) {s s' : M × BootInfoFrameAllocator} {page : Nat}
    (h : mapPage P s page = some s') :
    s'.2.memoryRegions = s.2.memoryRegions ∧
    (∀ v, v / 4096 ≠ page / 4096 → P.translate s'.1 v = P.translate s.1 v) ∧
    ∀ v, v / 4096 = page / 4096 → P.translate s.1 v = none ∧
      ∃ r ∈ s.2.memoryRegions, ∃ pa < r.stop, P.translate s'.1 v = some pa := by
  unfold mapPage at h
  obtain ⟨⟨frame?, alloc⟩, halloc, h⟩ := Option.bind_eq_some_iff.1 h
  obtain ⟨frame, hframe, h⟩ := Option.bind_eq_some_iff.1 h
  obtain ⟨hregions, hstop⟩ := BootInfoFrameAllocator.allocateFrame_spec halloc
  obtain ⟨r, hr, hle⟩ := hstop frame hframe
  refine ⟨(law.regions _ _ _ _ _ _ h).trans hregions, ?_, ?_⟩
  · intro v hv
    exact law.other _ _ _ _ _ _ v h hv
  · intro v hv
    have hlt : v % 4096 < 4096 := Nat.mod_lt _ (by decide)
    exact ⟨law.unmapped _ _ _ _ _ _ v h hv, r, List.mem_of_mem_filter hr, frame + v % 4096, by omega,
      law.mapped _ _ _ _ _ _ v h hv⟩

/-- The loop over the pages, by induction on the pages left: an address of one of them was not mapped
before, and afterwards leads below the end of a region; any other address is left alone. -/
theorem mapPages_spec (law : P.Lawful) {pages : List Nat} {s s' : M × BootInfoFrameAllocator}
    (h : pages.foldlM (mapPage P) s = some s') (v : Nat) :
    ((∀ page ∈ pages, v / 4096 ≠ page / 4096) → P.translate s'.1 v = P.translate s.1 v) ∧
    ((∃ page ∈ pages, v / 4096 = page / 4096) → P.translate s.1 v = none ∧
      ∃ r ∈ s.2.memoryRegions, ∃ pa < r.stop, P.translate s'.1 v = some pa) := by
  induction pages generalizing s with
  | nil =>
    cases h
    exact ⟨fun _ => rfl, by rintro ⟨page, hp, _⟩; cases hp⟩
  | cons page pages ih =>
    rw [List.foldlM_cons] at h
    obtain ⟨s₁, h₁, h₂⟩ := Option.bind_eq_some_iff.1 h
    obtain ⟨hregions, hother, hpage⟩ := mapPage_spec law h₁
    obtain ⟨hrest, hmem⟩ := ih h₂
    by_cases hv : v / 4096 = page / 4096
    · obtain ⟨hnone, r, hr, pa, hpa, hmapped⟩ := hpage v hv
      have hlater : ∀ p ∈ pages, v / 4096 ≠ p / 4096 := by
        intro p hp he
        have := (hmem ⟨p, hp, he⟩).1
        rw [hmapped] at this
        cases this
      refine ⟨fun hn => absurd hv (hn page (List.mem_cons_self ..)),
        fun _ => ⟨hnone, r, hr, pa, hpa, ?_⟩⟩
      rw [hrest hlater, hmapped]
    · constructor
      · intro hn
        rw [hrest fun p hp => hn p (List.mem_cons_of_mem _ hp), hother v hv]
      · rintro ⟨p, hp, he⟩
        cases List.mem_cons.1 hp with
        | inl hpp => exact absurd (hpp ▸ he) hv
        | inr hp =>
          obtain ⟨hnone, hr⟩ := hmem ⟨p, hp, he⟩
          rw [hother v hv] at hnone
          rw [hregions] at hr
          exact ⟨hnone, hr⟩

/-- An address of the heap is not mapped before `init`, and afterwards leads to usable memory. -/
theorem init_spec (law : P.Lawful) {m m' : M} {alloc alloc' : BootInfoFrameAllocator}
    (h : init P m alloc = some (m', alloc')) {v : Nat} (hlo : HEAP_START ≤ v)
    (hhi : v < HEAP_START + HEAP_SIZE) :
    P.translate m v = none ∧
      ∃ r ∈ alloc.memoryRegions, ∃ pa < r.stop, P.translate m' v = some pa :=
  (mapPages_spec law h v).2 (mem_pages hlo hhi)

end Heap

end OciKernel.Memory
