import OciKernel.Lib.Run
import OciKernel.Memory.FrameRun
import OciKernel.Memory.PageTables

/-!
# Memory.HeapFrames

Which frames the heap window stands on after `memory::init`. The frames for the pages and the frames for new
page tables come from one `BootInfoFrameAllocator`, in the order in which the loop asks for them.

* `Gives`: the frames that an allocator hands out one after another; `Gives.remaining`: they are the next
  ones of the map.
* `mapPages_frames`: each page gets one of them, and the tables get the others.
* `init_exclusive`: so the heap is mapped one to one to usable memory that nothing else gets.
-/

namespace OciKernel.Memory

open Transition

namespace BootInfoFrameAllocator

abbrev Gives : BootInfoFrameAllocator → List Nat → BootInfoFrameAllocator → Prop :=
  Run fun a f a' => a.allocateFrame = some (some f, a')

/-- The order and the alignment that a valid map has, as the cursor needs them. -/
abbrev Fits (a : BootInfoFrameAllocator) : Prop :=
  ∀ r ∈ a.memoryRegions, r.start ≤ r.stop ∧ 4096 ∣ r.start

variable {a a' : BootInfoFrameAllocator} {f : Nat} {frames : List Nat}

theorem allocateFrame_remaining (hfits : a.Fits) (h : a.allocateFrame = some (some f, a')) :
    a.remaining = f :: a'.remaining ∧ a'.memoryRegions = a.memoryRegions := by
  have htakes := allocateFrame_takes hfits
  cases hr : a.remaining with
  | nil =>
    obtain ⟨_, hnone, _⟩ := htakes.none hr
    rw [h] at hnone
    cases hnone
  | cons f' rest =>
    by_cases hsmall : f' < 2 ^ 52
    · obtain ⟨_, hsome, rfl, hregions⟩ := htakes.some f' rest hr hsmall
      rw [h] at hsome
      cases hsome
      exact ⟨rfl, hregions⟩
    · have hpanic := htakes.panic f' rest hr hsmall
      rw [h] at hpanic
      cases hpanic

theorem Gives.remaining (h : Gives a frames a') (hfits : a.Fits) :
    a.remaining = frames ++ a'.remaining ∧ a'.memoryRegions = a.memoryRegions := by
  induction h with
  | nil => exact ⟨rfl, rfl⟩
  | cons h₁ _ ih =>
    obtain ⟨hr, hregions⟩ := allocateFrame_remaining hfits h₁
    obtain ⟨hrest, hregions'⟩ := ih (by rw [Fits, hregions]; exact hfits)
    exact ⟨by rw [hr, hrest, List.cons_append], hregions'.trans hregions⟩

end BootInfoFrameAllocator

open BootInfoFrameAllocator

/-- New tables stand on frames of the allocator that is passed in. -/
def PageMapper.TakesFrames {M : Type} (P : PageMapper M) : Prop :=
  ∀ m page frame alloc m' alloc', P.mapTo m page frame alloc = some (m', alloc') →
    ∃ tables, Gives alloc tables alloc'

namespace Heap

variable {M : Type} {P : PageMapper M} {s s' : M × BootInfoFrameAllocator}

/-- The page at `page` is mapped to `frame`. -/
def Backs (P : PageMapper M) (m : M) (page frame : Nat) : Prop :=
  ∀ v, v / 4096 = page / 4096 → P.translate m v = some (frame + v % 4096)

/-- By induction on the pages left: the allocator has given a frame for each of them, and the tables. -/
theorem mapPages_frames (law : P.Lawful) (htakes : P.TakesFrames) {pages : List Nat}
    (hnd : (pages.map (· / 4096)).Nodup) (h : pages.foldlM (mapPage P) s = some s') :
    ∃ frames tables taken, pages.Forall₂ (Backs P s'.1) frames ∧ Gives s.2 taken s'.2 ∧
      taken.Perm (frames ++ tables) := by
  induction pages generalizing s with
  | nil =>
    cases h
    exact ⟨[], [], [], .nil, .nil, .nil⟩
  | cons page pages ih =>
    rw [List.map_cons, List.nodup_cons] at hnd
    rw [List.foldlM_cons] at h
    obtain ⟨s₁, h₁, hrest⟩ := Option.bind_eq_some_iff.1 h
    obtain ⟨frames, tables, taken, hbacks, hgives, hperm⟩ := ih hnd.2 hrest
    unfold mapPage at h₁
    obtain ⟨⟨frame?, alloc⟩, halloc, h₁⟩ := Option.bind_eq_some_iff.1 h₁
    obtain ⟨frame, rfl, hmap⟩ := Option.bind_eq_some_iff.1 h₁
    obtain ⟨own, hown⟩ := htakes _ _ _ _ _ _ hmap
    have hpage : Backs P s'.1 page frame := by
      intro v hv
      have hlater : ∀ p ∈ pages, v / 4096 ≠ p / 4096 := fun p hp he =>
        hnd.1 (List.mem_map.2 ⟨p, hp, he.symm.trans hv⟩)
      rw [(mapPages_spec law hrest v).1 hlater]
      exact law.mapped _ _ _ _ _ _ v hmap hv
    have hmove : (own ++ (frames ++ tables)).Perm (frames ++ (own ++ tables)) := by
      rw [← List.append_assoc, ← List.append_assoc]
      exact List.perm_append_comm.append_right tables
    exact ⟨frame :: frames, own ++ tables, frame :: (own ++ taken), .cons hpage hbacks,
      .cons halloc (hown.append hgives), ((hperm.append_left own).trans hmove).cons frame⟩

/-! ## The heap window -/

def InHeap (v : Nat) : Prop := HEAP_START ≤ v ∧ v < HEAP_START + HEAP_SIZE

theorem length_pages : pages.length = HEAP_SIZE / 4096 := by
  rw [pages, List.length_map, List.length_range]

theorem getElem_pages {i : Nat} (h : i < pages.length) : pages[i] = HEAP_START + 4096 * i := by
  simp [pages]

/-- The number of the page of a heap address. -/
theorem index_lt {v : Nat} (h : InHeap v) : (v - HEAP_START) / 4096 < pages.length ∧
    v / 4096 = (HEAP_START + 4096 * ((v - HEAP_START) / 4096)) / 4096 := by
  obtain ⟨hlo, hhi⟩ := h
  rw [length_pages]
  unfold HEAP_SIZE HEAP_START at *
  omega

variable {m m' : M} {regions : List MemoryRegion} {alloc' : BootInfoFrameAllocator}

/-- What `memory::init` leaves: heap addresses lead to usable memory, each to a byte of its own, every other
address is left alone, and no frame of a table or handed out later has a byte of the heap. -/
structure Exclusive (P : PageMapper M) (m m' : M) (regions : List MemoryRegion) (tables : List Nat)
    (alloc' : BootInfoFrameAllocator) : Prop where
  mapped : ∀ v, InHeap v → P.translate m v = none ∧ ∃ pa, P.translate m' v = some pa ∧
    ∃ r ∈ regions, r.kind = .usable ∧ r.start ≤ pa ∧ pa < r.stop
  outside : ∀ v, ¬ InHeap v → P.translate m' v = P.translate m v
  injective : ∀ v v', InHeap v → InHeap v' → P.translate m' v = P.translate m' v' → v = v'
  apart : ∀ v pa, InHeap v → P.translate m' v = some pa →
    ∀ later alloc'', Gives alloc' later alloc'' → ∀ f ∈ tables ++ later, ¬ (f ≤ pa ∧ pa < f + 4096)

theorem aligned_usable (hmap : ValidMap regions) {f : Nat} (hf : f ∈ usableFrames regions) : 4096 ∣ f := by
  obtain ⟨r, hr, hmem⟩ := List.mem_flatMap.1 hf
  obtain ⟨i, -, rfl⟩ := List.mem_map.1 hmem
  exact Nat.dvd_add (hmap.aligned r (List.mem_of_mem_filter hr)) (Nat.dvd_mul_left ..)

/-- Where the frames of the pages put a heap address. -/
theorem translate_heap {frames : List Nat} (hbacks : pages.Forall₂ (Backs P m') frames) {v : Nat}
    (hv : InHeap v) : ∃ f, frames[(v - HEAP_START) / 4096]? = some f ∧
      P.translate m' v = some (f + v % 4096) := by
  obtain ⟨hi, hpage⟩ := index_lt hv
  have hi' : (v - HEAP_START) / 4096 < frames.length := hbacks.length_eq ▸ hi
  have hback := (List.forall₂_iff_get.1 hbacks).2 _ hi hi'
  rw [List.get_eq_getElem, getElem_pages] at hback
  exact ⟨_, List.getElem?_eq_getElem hi', hback v hpage⟩

theorem init_exclusive (law : P.Lawful) (htakes : P.TakesFrames) (hmap : ValidMap regions)
    (h : init P m (.new regions) = some (m', alloc')) : ∃ frames tables taken,
      Gives (.new regions) taken alloc' ∧ taken.Perm (frames ++ tables) ∧
        frames.length = HEAP_SIZE / 4096 ∧ Exclusive P m m' regions tables alloc' := by
  have hloop : pages.foldlM (mapPage P) (m, .new regions) = some (m', alloc') := h
  have hfits : (BootInfoFrameAllocator.new regions).Fits := fun r hr => ⟨hmap.ordered r hr, hmap.aligned r hr⟩
  obtain ⟨frames, tables, taken, hbacks, hgives, hperm⟩ := mapPages_frames law htakes nodup_pages hloop
  obtain ⟨hall, hregions⟩ := hgives.remaining hfits
  rw [remaining_new] at hall
  have hnd : (frames ++ tables ++ alloc'.remaining).Nodup := by
    have hnodup := hmap.nodup_usableFrames
    rw [hall] at hnodup
    exact (hperm.append_right _).nodup_iff.1 hnodup
  have husable : ∀ f ∈ frames ++ tables ++ alloc'.remaining, f ∈ usableFrames regions := by
    intro f hf
    rw [hall]
    exact (hperm.append_right _).mem_iff.2 hf
  have hused : ∀ v, InHeap v → ∃ f, frames[(v - HEAP_START) / 4096]? = some f ∧ f ∈ usableFrames regions ∧
      P.translate m' v = some (f + v % 4096) := by
    intro v hv
    obtain ⟨f, hf, htrans⟩ := translate_heap hbacks hv
    exact ⟨f, hf, husable f (List.mem_append_left _ (List.mem_append_left _ (List.mem_of_getElem? hf))), htrans⟩
  refine ⟨frames, tables, taken, hgives, hperm, hbacks.length_eq.symm.trans length_pages, ?_, ?_, ?_, ?_⟩
  · intro v hv
    obtain ⟨f, -, hf, htrans⟩ := hused v hv
    obtain ⟨r, hr, hkind, hlo, hhi⟩ := ValidMap.inside_usable hf
    have hoff := Nat.mod_lt v (by decide : 4096 > 0)
    exact ⟨(init_spec law h hv.1 hv.2).1, _, htrans, r, hr, hkind, by omega, by omega⟩
  · intro v hv
    refine (mapPages_spec law hloop v).1 fun page hp he => hv ?_
    obtain ⟨i, hi, rfl⟩ := List.mem_map.1 hp
    have hi := List.mem_range.1 hi
    unfold InHeap HEAP_START HEAP_SIZE at *
    omega
  · intro v v' hv hv' he
    obtain ⟨f, hf, hmem, htrans⟩ := hused v hv
    obtain ⟨f', hf', hmem', htrans'⟩ := hused v' hv'
    have hsum : f + v % 4096 = f' + v' % 4096 := Option.some.inj (htrans.symm.trans (he.trans htrans'))
    have hdvd := aligned_usable hmap hmem
    have hdvd' := aligned_usable hmap hmem'
    have hff : f = f' := by omega
    have hindex : (v - HEAP_START) / 4096 = (v' - HEAP_START) / 4096 :=
      (List.getElem?_inj (List.getElem?_eq_some_iff.1 hf).1 hnd.of_append_left.of_append_left).1
        (hf.trans (hff ▸ hf'.symm))
    have hlo := hv.1
    have hlo' := hv'.1
    unfold HEAP_START at *
    omega
  · intro v pa hv hpa later alloc'' hlater f' hf' hbyte
    obtain ⟨f, hf, hmem, htrans⟩ := hused v hv
    cases htrans.symm.trans hpa
    have hrest := (hlater.remaining (by rw [Fits, hregions]; exact hfits)).1
    have hafter : f' ∈ tables ++ alloc'.remaining := by
      rw [hrest, ← List.append_assoc]
      exact List.mem_append_left _ hf'
    have hmem' : f' ∈ usableFrames regions := husable f' (by
      rw [List.append_assoc]
      exact List.mem_append_right _ hafter)
    have hdvd := aligned_usable hmap hmem
    have hdvd' := aligned_usable hmap hmem'
    have hff : f = f' := by omega
    rw [List.append_assoc] at hnd
    exact List.disjoint_of_nodup_append hnd (List.mem_of_getElem? hf) (hff ▸ hafter)

end Heap

/-! ## Four-level page tables -/

theorem PageTables.addTables_gives {tables : List (Nat × Nat)} {s s' : PageTables × BootInfoFrameAllocator}
    (h : tables.foldlM addTable s = some s') : ∃ frames, Gives s.2 frames s'.2 := by
  induction tables generalizing s with
  | nil =>
    cases h
    exact ⟨[], .nil⟩
  | cons table tables ih =>
    rw [List.foldlM_cons] at h
    obtain ⟨s₁, h₁, h₂⟩ := Option.bind_eq_some_iff.1 h
    obtain ⟨frames, hgives⟩ := ih h₂
    unfold addTable at h₁
    split at h₁
    · cases h₁
      exact ⟨frames, hgives⟩
    · obtain ⟨⟨frame?, alloc⟩, halloc, h₁⟩ := Option.bind_eq_some_iff.1 h₁
      obtain ⟨frame, rfl, h₁⟩ := Option.bind_eq_some_iff.1 h₁
      cases h₁
      exact ⟨frame :: frames, .cons halloc hgives⟩

theorem pageTables_takesFrames : pageTables.TakesFrames := by
  intro m page frame alloc m' alloc' h
  obtain ⟨⟨m₁, alloc₁⟩, htables, h⟩ := Option.bind_eq_some_iff.1 h
  obtain ⟨frames, hgives⟩ := PageTables.addTables_gives htables
  dsimp only at h
  split at h
  · cases h
  · cases h
    exact ⟨frames, hgives⟩

/-- The heap in a region of 32 MiB. -/
theorem Heap.init_exclusive_region : ∃ m' alloc' frames tables taken,
    init pageTables ⟨fun _ => none, []⟩ (.new [⟨0x100000, 0x2100000, .usable⟩]) = some (m', alloc') ∧
      Gives (.new [⟨0x100000, 0x2100000, .usable⟩]) taken alloc' ∧ taken.Perm (frames ++ tables) ∧
        frames.length = HEAP_SIZE / 4096 ∧
          Exclusive pageTables ⟨fun _ => none, []⟩ m' [⟨0x100000, 0x2100000, .usable⟩] tables alloc' := by
  have hregion : PageTables.Valid ⟨0x100000, 0x2100000, .usable⟩ := ⟨rfl, by decide, by decide⟩
  obtain ⟨m', alloc', h⟩ := PageTables.exists_init hregion (m := ⟨fun _ => none, []⟩)
    (by simp [pages, HEAP_SIZE]) fun _ _ => rfl
  have hmap : ValidMap [⟨0x100000, 0x2100000, .usable⟩] := by
    refine ⟨?_, ?_, List.pairwise_singleton ..⟩
    · simp
    · simp
  obtain ⟨frames, tables, taken, hrest⟩ :=
    init_exclusive pageTables_lawful pageTables_takesFrames hmap h
  exact ⟨m', alloc', frames, tables, taken, h, hrest⟩

end OciKernel.Memory
