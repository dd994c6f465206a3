import Mathlib.Data.List.Nodup
import Mathlib.Logic.Function.Basic
import OciKernel.Memory.Heap

/-!
# Memory.PageTables

Four-level page tables as an instance of `PageMapper`: mapping a page first takes a frame for each
table on the way to it that does not exist yet.

* `pageTables_lawful`: it does what a `PageMapper` is documented to do.
* `exists_init`: `heap::init` gets through if the heap is not mapped yet and the memory map has enough
  frames in one region.
-/

namespace OciKernel.Memory

/-- The mapped pages, and the tables of levels 3, 2 and 1, each by the bits of the page number that
lead to it. -/
structure PageTables where
  frames : Nat → Option Nat
  tables : List (Nat × Nat)

namespace PageTables

def addTable (s : PageTables × BootInfoFrameAllocator) (table : Nat × Nat) :
    Option (PageTables × BootInfoFrameAllocator) :=
  if table ∈ s.1.tables then some s
  else do
    let (frame, alloc) ← s.2.allocateFrame
    let _ ← frame
    return ({ s.1 with tables := table :: s.1.tables }, alloc)

def path (page : Nat) : List (Nat × Nat) :=
  [(3, page / 4096 / 512 ^ 3), (2, page / 4096 / 512 ^ 2), (1, page / 4096 / 512)]

def mapTo (m : PageTables) (page frame : Nat) (alloc : BootInfoFrameAllocator) :
    Option (PageTables × BootInfoFrameAllocator) := do
  let (m, alloc) ← (path page).foldlM addTable (m, alloc)
  match m.frames (page / 4096) with
  | some _ => none
  | none => some ({ m with frames := Function.update m.frames (page / 4096) (some frame) }, alloc)

def translate (m : PageTables) (v : Nat) : Option Nat :=
  (m.frames (v / 4096)).map fun frame => frame + v % 4096

theorem addTable_spec {s s' : PageTables × BootInfoFrameAllocator} {table : Nat × Nat}
    (h : addTable s table = some s') :
    s'.1.frames = s.1.frames ∧ s'.2.memoryRegions = s.2.memoryRegions := by
  unfold addTable at h
  split at h
  · cases h
    exact ⟨rfl, rfl⟩
  · obtain ⟨⟨frame?, alloc⟩, halloc, h⟩ := Option.bind_eq_some_iff.1 h
    obtain ⟨frame, _, h⟩ := Option.bind_eq_some_iff.1 h
    cases h
    exact ⟨rfl, (BootInfoFrameAllocator.allocateFrame_spec halloc).1⟩

theorem addTables_spec {tables : List (Nat × Nat)} {s s' : PageTables × BootInfoFrameAllocator}
    (h : tables.foldlM addTable s = some s') :
    s'.1.frames = s.1.frames ∧ s'.2.memoryRegions = s.2.memoryRegions := by
  induction tables generalizing s with
  | nil =>
    cases h
    exact ⟨rfl, rfl⟩
  | cons table tables ih =>
    rw [List.foldlM_cons] at h
    obtain ⟨s₁, h₁, h₂⟩ := Option.bind_eq_some_iff.1 h
    obtain ⟨hf, hr⟩ := addTable_spec h₁
    obtain ⟨hf', hr'⟩ := ih h₂
    exact ⟨hf'.trans hf, hr'.trans hr⟩

theorem mapTo_spec {m m' : PageTables} {page frame : Nat} {alloc alloc' : BootInfoFrameAllocator}
    (h : mapTo m page frame alloc = some (m', alloc')) :
    m.frames (page / 4096) = none ∧
      m'.frames = Function.update m.frames (page / 4096) (some frame) ∧
      alloc'.memoryRegions = alloc.memoryRegions := by
  unfold mapTo at h
  obtain ⟨⟨m₁, alloc₁⟩, htables, h⟩ := Option.bind_eq_some_iff.1 h
  obtain ⟨hf, hr⟩ := addTables_spec htables
  dsimp only at h hf hr
  cases hp : m₁.frames (page / 4096) with
  | some _ =>
    rw [hp] at h
    cases h
  | none =>
    rw [hp] at h
    cases h
    exact ⟨hf ▸ hp, by rw [hf], hr⟩

end PageTables

def pageTables : PageMapper PageTables := ⟨PageTables.mapTo, PageTables.translate⟩

theorem pageTables_lawful : pageTables.Lawful where
  unmapped := by
    intro m page frame alloc m' alloc' v h hv
    have hnone := (PageTables.mapTo_spec h).1
    simp [pageTables, PageTables.translate, hv, hnone]
  mapped := by
    intro m page frame alloc m' alloc' v h hv
    have hframes := (PageTables.mapTo_spec h).2.1
    simp [pageTables, PageTables.translate, hv, hframes]
  other := by
    intro m page frame alloc m' alloc' v h hv
    have hframes := (PageTables.mapTo_spec h).2.1
    simp [pageTables, PageTables.translate, hv, hframes]
  regions := by
    intro m page frame alloc m' alloc' h
    exact (PageTables.mapTo_spec h).2.2

/-! ## Enough frames -/

namespace PageTables

/-- The one usable region has `n` more frames. -/
def Room (region : MemoryRegion) (n : Nat) (alloc : BootInfoFrameAllocator) : Prop :=
  ∃ offset, alloc = ⟨[region], 0, offset⟩ ∧ offset + n ≤ (region.stop - region.start) / 4096

/-- A usable region below the limit of physical addresses. -/
structure Valid (region : MemoryRegion) : Prop where
  usable : region.kind = .usable
  ordered : region.start ≤ region.stop
  bounded : region.stop ≤ 2 ^ 52

variable {region : MemoryRegion}

theorem Room.allocateFrame (hv : Valid region) {n : Nat} {alloc : BootInfoFrameAllocator}
    (h : Room region (n + 1) alloc) :
    ∃ frame alloc', alloc.allocateFrame = some (some frame, alloc') ∧ Room region n alloc' := by
  obtain ⟨offset, rfl, hle⟩ := h
  have hord := hv.ordered
  have hbound := hv.bounded
  have hlt : offset < (region.stop - region.start) / 4096 := by omega
  have haddr : region.start + offset * 4096 < 2 ^ 52 := by omega
  have hphys : physAddr (region.start + offset * 4096) = some (region.start + offset * 4096) :=
    if_pos haddr
  refine ⟨(region.start + offset * 4096) / 4096 * 4096, ⟨[region], 0, offset + 1⟩, ?_, offset + 1, rfl,
    by omega⟩
  simp [BootInfoFrameAllocator.allocateFrame, BootInfoFrameAllocator.usable,
    BootInfoFrameAllocator.allocateFrom, hv.usable, hord, hlt, hphys]

theorem Room.addTable (hv : Valid region) {n : Nat} {s : PageTables × BootInfoFrameAllocator}
    (h : Room region (n + 1) s.2) (table : Nat × Nat) :
    ∃ s', PageTables.addTable s table = some s' ∧ Room region n s'.2 := by
  unfold PageTables.addTable
  split
  · obtain ⟨offset, he, hle⟩ := h
    exact ⟨s, rfl, offset, he, by omega⟩
  · obtain ⟨frame, alloc', halloc, hroom⟩ := h.allocateFrame hv
    exact ⟨({ s.1 with tables := table :: s.1.tables }, alloc'), by simp [halloc], hroom⟩

/-- A page takes at most four frames: its own, and three tables. -/
theorem Room.mapPage (hv : Valid region) {n : Nat} {s : PageTables × BootInfoFrameAllocator}
    (h : Room region (n + 4) s.2) {page : Nat} (hp : s.1.frames (page / 4096) = none) :
    ∃ s' frame, Heap.mapPage pageTables s page = some s' ∧ Room region n s'.2 ∧
      s'.1.frames = Function.update s.1.frames (page / 4096) (some frame) := by
  obtain ⟨frame, alloc, halloc, h⟩ := h.allocateFrame hv
  obtain ⟨s₁, h₁, hr₁⟩ := Room.addTable hv (s := (s.1, alloc)) h (3, page / 4096 / 512 ^ 3)
  obtain ⟨s₂, h₂, hr₂⟩ := Room.addTable hv hr₁ (2, page / 4096 / 512 ^ 2)
  obtain ⟨s₃, h₃, hr₃⟩ := Room.addTable hv hr₂ (1, page / 4096 / 512)
  have htables : (path page).foldlM PageTables.addTable (s.1, alloc) = some s₃ := by
    simp only [path, List.foldlM_cons, List.foldlM_nil, h₁, h₂, h₃, Option.bind_eq_bind,
      Option.bind_some, Option.pure_def]
  have hframes := (addTables_spec htables).1
  refine ⟨({ s₃.1 with frames := Function.update s₃.1.frames (page / 4096) (some frame) }, s₃.2),
    frame, ?_, hr₃, by rw [hframes]⟩
  have hnone : s₃.1.frames (page / 4096) = none := by rw [hframes, hp]
  simp [Heap.mapPage, halloc, pageTables, mapTo, htables, hnone]

/-- The loop over the pages, by induction on the pages left. -/
theorem exists_mapPages (hv : Valid region) {pages : List Nat} {n : Nat}
    {s : PageTables × BootInfoFrameAllocator} (h : Room region (n + 4 * pages.length) s.2)
    (hnd : (pages.map (· / 4096)).Nodup) (hp : ∀ page ∈ pages, s.1.frames (page / 4096) = none) :
    ∃ s', pages.foldlM (Heap.mapPage pageTables) s = some s' := by
  induction pages generalizing s with
  | nil => exact ⟨s, rfl⟩
  | cons page pages ih =>
    rw [List.map_cons, List.nodup_cons] at hnd
    rw [List.length_cons, Nat.mul_succ, ← Nat.add_assoc] at h
    obtain ⟨s₁, frame, h₁, hroom, hframes⟩ := h.mapPage hv (hp page (List.mem_cons_self ..))
    have hp₁ : ∀ p ∈ pages, s₁.1.frames (p / 4096) = none := by
      intro p hpm
      have hne : p / 4096 ≠ page / 4096 := by
        intro he
        exact hnd.1 (List.mem_map.2 ⟨p, hpm, he⟩)
      rw [hframes, Function.update_of_ne hne]
      exact hp p (List.mem_cons_of_mem _ hpm)
    obtain ⟨s', h'⟩ := ih hroom hnd.2 hp₁
    exact ⟨s', by rw [List.foldlM_cons, h₁]; exact h'⟩

theorem exists_init (hv : Valid region) {m : PageTables}
    (hframes : 4 * Heap.pages.length ≤ (region.stop - region.start) / 4096)
    (hp : ∀ page ∈ Heap.pages, m.frames (page / 4096) = none) :
    ∃ m' alloc, Heap.init pageTables m (.new [region]) = some (m', alloc) := by
  have hroom : Room region (0 + 4 * Heap.pages.length) (BootInfoFrameAllocator.new [region]) :=
    ⟨0, rfl, by omega⟩
  obtain ⟨⟨m', alloc⟩, h⟩ := exists_mapPages hv (s := (m, .new [region])) hroom Heap.nodup_pages hp
  exact ⟨m', alloc, h⟩

end PageTables

end OciKernel.Memory
