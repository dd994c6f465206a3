import OciKernel.Memory.PageTables
import OciKernel.Net.VirtioNet

/-!
# Net.Dma

The addresses that `VirtioNet::init` gives to the device, against the physical addresses that the page
tables give to the same memory. The driver subtracts the offset of the bootloader's window onto
physical memory, but its queues and buffers are in the heap, which has a window of its own.

* `heap_address_outside_window`: the address of a mapped heap page less the offset is not the physical
  address of that page, since the page would have been mapped before, in the bootloader's window.
* `not_dmaPhysical`: so no boot that gets through programs physical addresses.
-/

namespace OciKernel

open Memory

/-- The bootloader maps all physical memory, up to the end of each region, at `offset`. -/
def MapsPhysicalMemory {M : Type} (P : PageMapper M) (m : M) (offset : Nat)
    (regions : List MemoryRegion) : Prop :=
  ∀ r ∈ regions, ∀ a < r.stop, P.translate m (offset + a) = some a

/-- The object of `size` bytes at `ptr` lies in the heap. -/
def InHeap (ptr : UInt64) (size : Nat) : Prop :=
  HEAP_START ≤ ptr.toNat ∧ ptr.toNat + size ≤ HEAP_START + HEAP_SIZE

instance (ptr : UInt64) (size : Nat) : Decidable (InHeap ptr size) :=
  inferInstanceAs (Decidable (_ ∧ _))

/-- What the heap allocator guarantees: the two queues, aligned to a page, and the receive buffers. -/
structure FromHeap (allocs : VirtioNet.DmaAllocs) : Prop where
  rxQueue : InHeap allocs.rxQueue 8192
  txQueue : InHeap allocs.txQueue 8192
  rxBufs : InHeap allocs.rxBufs (QUEUE_SIZE * BUF_SIZE)
  rxAligned : allocs.rxQueue.toNat % 4096 = 0
  txAligned : allocs.txQueue.toNat % 4096 = 0

/-- Byte `k` of the object at `ptr` is at the physical address `addr + k`. -/
def Physical (translate : Nat → Option Nat) (ptr : UInt64) (addr size : Nat) : Prop :=
  ∀ k < size, translate (ptr.toNat + k) = some (addr + k)

/-- Every address the driver programs is physical: the PFNs of the RX and TX queues, and the address of
each RX descriptor. -/
structure DmaPhysical (translate : Nat → Option Nat) (allocs : VirtioNet.DmaAllocs) (d : VirtioNet)
    (writes : List VirtioNet.IoWrite) : Prop where
  queues : List.Forall₂ (fun ptr pfn => Physical translate ptr (pfn.toNat * 4096) 8192)
    [allocs.rxQueue, allocs.txQueue] (writes.filterMap (VirtioNet.pfnWritten d.ioBase))
  buffers : ∀ i, Physical translate (VirtioNet.rxBufPtr allocs.rxBufs i)
    (d.rxQueue.desc i).addr.toNat BUF_SIZE

section

variable {M : Type} {P : PageMapper M} {m m' : M} {regions : List MemoryRegion}
  {alloc : BootInfoFrameAllocator} {offset : UInt64}

/-- No heap address is where the window has its physical memory. -/
theorem heap_address_outside_window (law : P.Lawful)
    (hwindow : MapsPhysicalMemory P m offset.toNat regions)
    (hheap : Heap.init P m (.new regions) = some (m', alloc)) {v : Nat} (hlo : HEAP_START ≤ v)
    (hhi : v < HEAP_START + HEAP_SIZE) {a : Nat} (hv : v = offset.toNat + a) :
    P.translate m' v ≠ some a := by
  intro ha
  obtain ⟨hnone, r, hr, pa, hpa, hmapped⟩ := Heap.init_spec law hheap hlo hhi
  cases ha.symm.trans hmapped
  have := hwindow r hr a hpa
  rw [← hv, hnone] at this
  cases this

theorem checkedSub_toNat {a b c : UInt64} (h : checkedSub a b = some c) :
    a.toNat = b.toNat + c.toNat := by
  unfold checkedSub at h
  split at h
  · rename_i hle
    cases h
    have hle' := UInt64.le_iff_toNat_le.1 hle
    rw [UInt64.toNat_sub_of_le _ _ hle]
    omega
  · cases h

/-- The buffers lie in the heap one after another. -/
theorem rxBufPtr_toNat {rxBufs : UInt64} (h : InHeap rxBufs (QUEUE_SIZE * BUF_SIZE))
    (i : Fin QUEUE_SIZE) : (VirtioNet.rxBufPtr rxBufs i).toNat = rxBufs.toNat + BUF_SIZE * i := by
  obtain ⟨_, hhi⟩ := h
  have hi : i.val < QUEUE_SIZE := i.isLt
  have hoff : (UInt64.ofNat (BUF_SIZE * i)).toNat = BUF_SIZE * i := by
    apply UInt64.toNat_ofNat_of_lt'
    simp only [BUF_SIZE, PKT_SIZE, HDR_LEN, QUEUE_SIZE, UInt64.size] at *
    omega
  unfold VirtioNet.rxBufPtr
  rw [UInt64.toNat_add, hoff]
  simp only [BUF_SIZE, PKT_SIZE, HDR_LEN, QUEUE_SIZE, HEAP_START, HEAP_SIZE] at *
  omega

/-- No byte of a receive buffer is where its descriptor says. -/
theorem rxBuf_not_physical (law : P.Lawful) (hwindow : MapsPhysicalMemory P m offset.toNat regions)
    (hheap : Heap.init P m (.new regions) = some (m', alloc)) {allocs : VirtioNet.DmaAllocs}
    (hallocs : FromHeap allocs) {d : VirtioNet} {writes : List VirtioNet.IoWrite}
    (hinit : VirtioNet.Initialised allocs offset d writes) (i : Fin QUEUE_SIZE) {k : Nat}
    (hk : k < BUF_SIZE) :
    P.translate m' ((VirtioNet.rxBufPtr allocs.rxBufs i).toNat + k) ≠
      some ((d.rxQueue.desc i).addr.toNat + k) := by
  obtain ⟨q, hfill, hq⟩ := hinit.rxQueue
  have haddr := ((VirtioNet.foldlM_fillRx hfill).1 i (List.mem_finRange i)).1
  have hdesc : d.rxQueue.desc i = q.desc i := by rw [hq]
  have hptr := rxBufPtr_toNat hallocs.rxBufs i
  have hsub := checkedSub_toNat haddr
  have hi : i.val < QUEUE_SIZE := i.isLt
  obtain ⟨hlo, hhi⟩ := hallocs.rxBufs
  rw [hdesc]
  refine heap_address_outside_window law hwindow hheap ?_ ?_ ?_
  · omega
  · simp only [BUF_SIZE, PKT_SIZE, HDR_LEN, QUEUE_SIZE] at *
    omega
  · omega

/-- On every boot that gets through, whatever the memory map, the offset of the window and the
addresses from the heap, the driver programs an address that is not physical. -/
theorem not_dmaPhysical (law : P.Lawful) (hwindow : MapsPhysicalMemory P m offset.toNat regions)
    (hheap : Heap.init P m (.new regions) = some (m', alloc)) {allocs : VirtioNet.DmaAllocs}
    (hallocs : FromHeap allocs) {pci : VirtioNet.PciDevice} {d : VirtioNet}
    {writes : List VirtioNet.IoWrite}
    (hinit : VirtioNet.init pci allocs offset = some (some (d, writes))) :
    ¬ DmaPhysical (P.translate m') allocs d writes := by
  intro hdma
  have hbuf : 0 < BUF_SIZE := by decide
  exact rxBuf_not_physical law hwindow hheap hallocs (VirtioNet.init_spec hinit) 0 hbuf
    (hdma.buffers 0 0 hbuf)

end

/-! ## A boot with 64 MiB of usable memory -/

/-- 64 MiB from 1 MiB on. -/
def bootRegion : MemoryRegion := ⟨0x100000, 0x4100000, .usable⟩

/-- The window at `0x28000000000` onto the first 65 MiB, and nothing else. -/
def bootTables : PageTables where
  frames page :=
    if 0x28000000 ≤ page ∧ page < 0x28004100 then some ((page - 0x28000000) * 4096) else none
  tables := []

/-- The queues and the buffers at the start of the heap. -/
def bootAllocs : VirtioNet.DmaAllocs :=
  ⟨0xFFFF_C000_0000_0000, 0xFFFF_C000_0000_2000, 0xFFFF_C000_0000_4000⟩

theorem bootAllocs_fromHeap : FromHeap bootAllocs := by
  constructor <;> decide

theorem boot_window :
    MapsPhysicalMemory pageTables bootTables (0x28000000000 : UInt64).toNat [bootRegion] := by
  intro r hr a ha
  cases List.mem_singleton.1 hr
  have hstop : a < 0x4100000 := ha
  have hoff : (0x28000000000 : UInt64).toNat = 0x28000000000 := rfl
  rw [hoff]
  have hpage : 0x28000000 ≤ (0x28000000000 + a) / 4096 ∧ (0x28000000000 + a) / 4096 < 0x28004100 := by
    omega
  have haddr : ((0x28000000000 + a) / 4096 - 0x28000000) * 4096 + (0x28000000000 + a) % 4096 = a := by
    omega
  simp only [pageTables, PageTables.translate, bootTables, if_pos hpage, Option.map_some, haddr]

theorem boot_heap : ∃ m alloc,
    Heap.init pageTables bootTables (.new [bootRegion]) = some (m, alloc) := by
  apply PageTables.exists_init
  · constructor <;> decide
  · simp [Heap.pages, HEAP_SIZE, bootRegion]
  · intro page hp
    obtain ⟨i, hi, rfl⟩ := List.mem_map.1 hp
    have hi' : i < 2048 := List.mem_range.1 hi
    have hpage : ¬ (0x28000000 ≤ (HEAP_START + 4096 * i) / 4096 ∧
        (HEAP_START + 4096 * i) / 4096 < 0x28004100) := by
      unfold HEAP_START
      omega
    exact if_neg hpage

theorem boot_init : ∃ d writes, VirtioNet.init ⟨fun _ => 0, fun _ => 0, fun _ => 0⟩ bootAllocs
    0x28000000000 = some (some (d, writes)) := ⟨_, _, rfl⟩

theorem not_dmaPhysical_boot : ∃ m alloc d writes,
    Heap.init pageTables bootTables (.new [bootRegion]) = some (m, alloc) ∧
    VirtioNet.init ⟨fun _ => 0, fun _ => 0, fun _ => 0⟩ bootAllocs 0x28000000000 =
      some (some (d, writes)) ∧
    ¬ DmaPhysical (pageTables.translate m) bootAllocs d writes := by
  obtain ⟨m, alloc, hheap⟩ := boot_heap
  obtain ⟨d, writes, hinit⟩ := boot_init
  exact ⟨m, alloc, d, writes, hheap, hinit, not_dmaPhysical pageTables_lawful boot_window hheap
    bootAllocs_fromHeap hinit⟩

/-- The first byte of the first receive buffer is not where the device is told to write it. -/
theorem boot_rxBuf_not_physical : ∃ m alloc d writes,
    Heap.init pageTables bootTables (.new [bootRegion]) = some (m, alloc) ∧
    VirtioNet.init ⟨fun _ => 0, fun _ => 0, fun _ => 0⟩ bootAllocs 0x28000000000 =
      some (some (d, writes)) ∧
    pageTables.translate m bootAllocs.rxBufs.toNat ≠ some (d.rxQueue.desc 0).addr.toNat ∧
    ¬ DmaPhysical (pageTables.translate m) bootAllocs d writes := by
  obtain ⟨m, alloc, hheap⟩ := boot_heap
  obtain ⟨d, writes, hinit⟩ := boot_init
  have hne := rxBuf_not_physical pageTables_lawful boot_window hheap bootAllocs_fromHeap
    (VirtioNet.init_spec hinit) 0 (show 0 < BUF_SIZE by decide)
  exact ⟨m, alloc, d, writes, hheap, hinit, hne, fun hdma => hne (hdma.buffers 0 0 (by decide))⟩

end OciKernel
