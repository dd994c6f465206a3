import Mathlib.Data.List.FinRange
import Mathlib.Logic.Function.Basic
import OciKernel.Lib.Ring

/-!
# Net.VirtioNet

The virtio-net driver: the queues it shares with the device, `VirtioNet::init`, and the receive and
transmit paths. The kernel is built with overflow checks, so address and port arithmetic that leaves
its type panics; an outer `none` is a panic.

`consume` and `receive` are sequences of writes that the device may interleave with, so each is the
composition of its parts: `fillTxBuf`, `describeTx`, `publishTx`, and `takeUsed`, `recycle`.
-/

namespace OciKernel

def QUEUE_SIZE : Nat := 16
def HDR_LEN : Nat := 10
def PKT_SIZE : Nat := 1514
def BUF_SIZE : Nat := PKT_SIZE + HDR_LEN

instance : NeZero QUEUE_SIZE := ⟨by decide⟩

def VIRTQ_DESC_F_WRITE : UInt16 := 2

structure VirtqDesc where
  addr : UInt64
  len : UInt32
  flags : UInt16
  next : UInt16
deriving DecidableEq, Repr

structure VirtqUsedElem where
  id : UInt32
  len : UInt32
deriving DecidableEq, Repr

structure Virtqueue where
  desc : Fin QUEUE_SIZE → VirtqDesc
  availIdx : UInt16
  availRing : Fin QUEUE_SIZE → UInt16
  usedIdx : UInt16
  usedRing : Fin QUEUE_SIZE → VirtqUsedElem

/-- What `alloc_zeroed` leaves in the queue's pages. -/
def Virtqueue.zeroed : Virtqueue where
  desc := fun _ => ⟨0, 0, 0, 0⟩
  availIdx := 0
  availRing := fun _ => 0
  usedIdx := 0
  usedRing := fun _ => ⟨0, 0⟩

/-- The ring slot of an index: `(idx % QUEUE_SIZE as u16) as usize`. -/
def ringSlot (idx : UInt16) : Fin QUEUE_SIZE :=
  ⟨(idx % 16).toNat, by rw [UInt16.toNat_mod]; exact Nat.mod_lt _ (by decide)⟩

theorem toNat_descIdx (i : Fin QUEUE_SIZE) : (UInt16.ofNat i).toNat = i.val := by
  have hi : i.val < 16 := i.isLt
  exact UInt16.toNat_ofNat_of_lt' (Nat.lt_trans hi (by decide))

theorem ringSlot_eq (idx : UInt16) : ringSlot idx = Ring.slot QUEUE_SIZE idx.toNat :=
  Fin.ext (UInt16.toNat_mod idx 16)

/-- The ring entries from index `head` up to index `tail`. -/
def unread {α : Type} (ring : Fin QUEUE_SIZE → α) (head tail : UInt16) : List α :=
  Ring.entries ring (2 ^ 16) head.toNat tail.toNat

section Unread

variable {α : Type} (ring : Fin QUEUE_SIZE → α) {head tail : UInt16}

theorem unread_self : unread ring head head = [] := Ring.entries_self ring head.toNat_lt

theorem unread_of_ne (h : head ≠ tail) :
    unread ring head tail = ring (ringSlot head) :: unread ring (head + 1) tail := by
  have hne : head.toNat ≠ tail.toNat := by
    intro he
    exact h (UInt16.toNat_inj.1 he)
  unfold unread
  rw [Ring.entries_of_ne ring (by decide) head.toNat_lt tail.toNat_lt hne, ringSlot_eq,
    UInt16.toNat_add]
  rfl

theorem unread_put (x : α) (h : (unread ring head tail).length < QUEUE_SIZE) :
    unread (Function.update ring (ringSlot tail) x) head (tail + 1) =
      unread ring head tail ++ [x] := by
  unfold unread at h ⊢
  rw [Ring.length_entries] at h
  rw [ringSlot_eq, UInt16.toNat_add]
  exact Ring.entries_publish ring x (by decide) (by decide) head.toNat_lt tail.toNat_lt h

end Unread

/-! ## Packet buffers -/

/-- `[u8; BUF_SIZE]` -/
structure Buf where
  bytes : List UInt8
  size : bytes.length = BUF_SIZE

namespace Buf

def zeroed : Buf := ⟨List.replicate BUF_SIZE 0, List.length_replicate⟩

/-- `&buf[off..off + len]`, for a range inside the buffer. -/
def slice (b : Buf) (off len : Nat) : List UInt8 := (b.bytes.drop off).take len

/-- Fill `buf[off..off + data.len()]`; a range past the end panics. -/
def write (b : Buf) (off : Nat) (data : List UInt8) : Option Buf :=
  if h : off + data.length ≤ BUF_SIZE then
    some ⟨b.bytes.take off ++ data ++ b.bytes.drop (off + data.length), by
      simp only [List.length_append, List.length_take, List.length_drop, b.size]; omega⟩
  else none

theorem write_spec {b b' : Buf} {off : Nat} {data : List UInt8} (h : b.write off data = some b') :
    b'.bytes = b.bytes.take off ++ data ++ b.bytes.drop (off + data.length) := by
  unfold write at h
  split at h
  · cases h
    rfl
  · cases h

theorem write_zero {b : Buf} {data : List UInt8} (h : data.length ≤ BUF_SIZE) :
    ∃ b', b.write 0 data = some b' ∧ b'.bytes = data ++ b.bytes.drop data.length := by
  refine ⟨⟨data ++ b.bytes.drop data.length, ?_⟩, by simp [write, h], rfl⟩
  simp only [List.length_append, List.length_drop, b.size]
  omega

theorem slice_of_prefix {b : Buf} {data rest : List UInt8} (h : b.bytes = data ++ rest) (off : Nat) :
    b.slice off (data.length - off) = data.drop off := by
  rw [slice, h, List.drop_append, List.take_append_of_le_length (by simp)]
  exact List.take_of_length_le (by simp)

end Buf

/-! ## The driver -/

structure VirtioNet where
  mac : List UInt8
  ioBase : UInt16
  physOffset : UInt64
  rxQueue : Virtqueue
  rxBufs : Fin QUEUE_SIZE → Buf
  rxLastUsed : UInt16
  txQueue : Virtqueue
  txBuf : Buf

def checkedSub (a b : UInt64) : Option UInt64 := if b ≤ a then some (a - b) else none

def checkedAdd16 (a b : UInt16) : Option UInt16 :=
  if a.toNat + b.toNat < 2 ^ 16 then some (a + b) else none

namespace VirtioNet

def VIRTIO_PCI_HOST_FEATURES : UInt16 := 0
def VIRTIO_PCI_GUEST_FEATURES : UInt16 := 4
def VIRTIO_PCI_QUEUE_ADDR : UInt16 := 8
def VIRTIO_PCI_QUEUE_SELECT : UInt16 := 14
def VIRTIO_PCI_STATUS : UInt16 := 18
def VIRTIO_NET_CONFIG_MAC : UInt16 := 20

def VIRTIO_STATUS_ACKNOWLEDGE : UInt8 := 1
def VIRTIO_STATUS_DRIVER : UInt8 := 2
def VIRTIO_STATUS_DRIVER_OK : UInt8 := 4
def VIRTIO_STATUS_FEATURES_OK : UInt8 := 8

def VIRTIO_NET_F_MAC : UInt32 := (1 : UInt32) <<< 5

/-- The device as `init` reads it: PCI configuration space and I/O ports. -/
structure PciDevice where
  config : UInt8 → UInt32
  in8 : UInt16 → UInt8
  in32 : UInt16 → UInt32

inductive IoWrite where
  | config (offset : UInt8) (value : UInt32)
  | out8 (port : UInt16) (value : UInt8)
  | out16 (port : UInt16) (value : UInt16)
  | out32 (port : UInt16) (value : UInt32)
deriving DecidableEq, Repr

/-- The addresses the heap returns for the two queues and the receive buffers. -/
structure DmaAllocs where
  rxQueue : UInt64
  txQueue : UInt64
  rxBufs : UInt64

/-- A null pointer from the allocator panics. -/
def allocVirtqueue (ptr : UInt64) : Option UInt64 := if ptr = 0 then none else some ptr

/-- `rx_bufs[i].as_mut_ptr()` -/
def rxBufPtr (rxBufs : UInt64) (i : Fin QUEUE_SIZE) : UInt64 :=
  rxBufs + UInt64.ofNat (BUF_SIZE * i)

/-- One round of the loop that fills the RX descriptors. -/
def fillRx (rxBufs physOffset : UInt64) (q : Virtqueue) (i : Fin QUEUE_SIZE) : Option Virtqueue := do
  let addr ← checkedSub (rxBufPtr rxBufs i) physOffset
  return { q with
    desc := Function.update q.desc i ⟨addr, UInt32.ofNat BUF_SIZE, VIRTQ_DESC_F_WRITE, 0⟩
    availRing := Function.update q.availRing i (UInt16.ofNat i) }

/-- `VirtioNet::init`, with what it writes to the device. The inner `none` is its own `None`. -/
def init (pci : PciDevice) (allocs : DmaAllocs) (physOffset : UInt64) :
    Option (Option (VirtioNet × List IoWrite)) :=
  let cmd := pci.config 0x04
  let bar0 := pci.config 0x10 &&& ~~~0x3
  if 0xFFFF < bar0 then some none else do
    let ioBase := bar0.toUInt16
    let status ← checkedAdd16 ioBase VIRTIO_PCI_STATUS
    let macPort ← checkedAdd16 ioBase VIRTIO_NET_CONFIG_MAC
    let mac ← (List.range 6).mapM fun i => do
      let port ← checkedAdd16 macPort (UInt16.ofNat i)
      return pci.in8 port
    let hostFeatures ← checkedAdd16 ioBase VIRTIO_PCI_HOST_FEATURES
    let guestFeatures ← checkedAdd16 ioBase VIRTIO_PCI_GUEST_FEATURES
    let rxQueuePtr ← allocVirtqueue allocs.rxQueue
    let txQueuePtr ← allocVirtqueue allocs.txQueue
    let rxPhys ← checkedSub rxQueuePtr physOffset
    let txPhys ← checkedSub txQueuePtr physOffset
    let select ← checkedAdd16 ioBase VIRTIO_PCI_QUEUE_SELECT
    let addr ← checkedAdd16 ioBase VIRTIO_PCI_QUEUE_ADDR
    let rxQueue ← (List.finRange QUEUE_SIZE).foldlM (fillRx allocs.rxBufs physOffset) .zeroed
    let driverUp := VIRTIO_STATUS_ACKNOWLEDGE ||| VIRTIO_STATUS_DRIVER
    let featuresOk := driverUp ||| VIRTIO_STATUS_FEATURES_OK
    return some (
      { mac
        ioBase
        physOffset
        rxQueue := { rxQueue with availIdx := UInt16.ofNat QUEUE_SIZE }
        rxBufs := fun _ => .zeroed
        rxLastUsed := 0
        txQueue := .zeroed
        txBuf := .zeroed },
      [.config 0x04 (cmd ||| 0x5),
        .out8 status 0,
        .out8 status driverUp,
        .out32 guestFeatures (pci.in32 hostFeatures &&& VIRTIO_NET_F_MAC),
        .out8 status featuresOk,
        .out16 select 0,
        .out32 addr (rxPhys / 4096).toUInt32,
        .out16 select 1,
        .out32 addr (txPhys / 4096).toUInt32,
        .out8 status (featuresOk ||| VIRTIO_STATUS_DRIVER_OK)])

/-- The RX descriptors that the loop fills, by induction on the indices left. -/
theorem foldlM_fillRx {rxBufs physOffset : UInt64} {is : List (Fin QUEUE_SIZE)} {q q' : Virtqueue}
    (h : is.foldlM (fillRx rxBufs physOffset) q = some q') :
    (∀ i, i ∈ is → checkedSub (rxBufPtr rxBufs i) physOffset = some (q'.desc i).addr ∧
      q'.availRing i = UInt16.ofNat i) ∧
    (∀ i, i ∉ is → q'.desc i = q.desc i ∧ q'.availRing i = q.availRing i) ∧
    q'.availIdx = q.availIdx ∧ q'.usedIdx = q.usedIdx ∧ q'.usedRing = q.usedRing := by
  induction is generalizing q with
  | nil =>
    cases h
    simp
  | cons i is ih =>
    rw [List.foldlM_cons] at h
    obtain ⟨q₁, h₁, h₂⟩ := Option.bind_eq_some_iff.1 h
    unfold fillRx at h₁
    obtain ⟨addr, ha, hq⟩ := Option.bind_eq_some_iff.1 h₁
    cases hq
    obtain ⟨hin, hout, hrest⟩ := ih h₂
    refine ⟨?_, ?_, hrest⟩
    · intro j hj
      by_cases hm : j ∈ is
      · exact hin j hm
      · cases List.mem_cons.1 hj with
        | inl hji =>
          subst hji
          obtain ⟨hd, hr⟩ := hout j hm
          exact ⟨by rw [hd, ha]; simp, by rw [hr]; simp⟩
        | inr hji => exact absurd hji hm
    · intro j hj
      obtain ⟨hne, hm⟩ := not_or.1 (mt List.mem_cons.2 hj)
      obtain ⟨hd, hr⟩ := hout j hm
      exact ⟨by rw [hd]; simp [hne], by rw [hr]; simp [hne]⟩

/-- The PFN in a write to the queue address register. -/
def pfnWritten (ioBase : UInt16) : IoWrite → Option UInt32
  | .out32 port value => if port = ioBase + VIRTIO_PCI_QUEUE_ADDR then some value else none
  | _ => none

/-- What a successful `init` built and wrote. -/
structure Initialised (allocs : DmaAllocs) (offset : UInt64) (d : VirtioNet)
    (writes : List IoWrite) : Prop where
  rxQueue : ∃ q, (List.finRange QUEUE_SIZE).foldlM (fillRx allocs.rxBufs offset) .zeroed = some q ∧
    d.rxQueue = { q with availIdx := UInt16.ofNat QUEUE_SIZE }
  rxLastUsed : d.rxLastUsed = 0
  txQueue : d.txQueue = .zeroed
  txBuf : d.txBuf = .zeroed
  physOffset : d.physOffset = offset
  pfns : ∃ rxPhys txPhys, checkedSub allocs.rxQueue offset = some rxPhys ∧
    checkedSub allocs.txQueue offset = some txPhys ∧
    writes.filterMap (pfnWritten d.ioBase) = [(rxPhys / 4096).toUInt32, (txPhys / 4096).toUInt32]

theorem allocVirtqueue_eq {ptr p : UInt64} (h : allocVirtqueue ptr = some p) : p = ptr := by
  unfold allocVirtqueue at h
  split at h
  · cases h
  · exact (Option.some.inj h).symm

theorem checkedAdd16_eq {a b c : UInt16} (h : checkedAdd16 a b = some c) : c = a + b := by
  unfold checkedAdd16 at h
  split at h
  · exact (Option.some.inj h).symm
  · cases h

theorem init_spec {pci : PciDevice} {allocs : DmaAllocs} {offset : UInt64} {d : VirtioNet}
    {writes : List IoWrite} (h : init pci allocs offset = some (some (d, writes))) :
    Initialised allocs offset d writes := by
  unfold init at h
  extract_lets cmd bar0 ioBase at h
  split at h
  · cases h
  · obtain ⟨status, _, h⟩ := Option.bind_eq_some_iff.1 h
    obtain ⟨macPort, _, h⟩ := Option.bind_eq_some_iff.1 h
    obtain ⟨mac, _, h⟩ := Option.bind_eq_some_iff.1 h
    obtain ⟨hostFeatures, _, h⟩ := Option.bind_eq_some_iff.1 h
    obtain ⟨guestFeatures, hg, h⟩ := Option.bind_eq_some_iff.1 h
    obtain ⟨rxPtr, hrp, h⟩ := Option.bind_eq_some_iff.1 h
    obtain ⟨txPtr, htp, h⟩ := Option.bind_eq_some_iff.1 h
    obtain ⟨rxPhys, hrx, h⟩ := Option.bind_eq_some_iff.1 h
    obtain ⟨txPhys, htx, h⟩ := Option.bind_eq_some_iff.1 h
    obtain ⟨select, _, h⟩ := Option.bind_eq_some_iff.1 h
    obtain ⟨addr, had, h⟩ := Option.bind_eq_some_iff.1 h
    obtain ⟨q, hq, h⟩ := Option.bind_eq_some_iff.1 h
    cases h
    cases allocVirtqueue_eq hrp
    cases allocVirtqueue_eq htp
    cases checkedAdd16_eq hg
    cases checkedAdd16_eq had
    refine ⟨⟨q, hq, rfl⟩, rfl, rfl, rfl, rfl, rxPhys, txPhys, hrx, htx, ?_⟩
    simp [List.filterMap_cons, pfnWritten, VIRTIO_PCI_GUEST_FEATURES, VIRTIO_PCI_QUEUE_ADDR]

/-! ### Transmit -/

/-- The header bytes zeroed, then `frame` written into the payload region. -/
def fillTxBuf (d : VirtioNet) (frame : List UInt8) : Option VirtioNet := do
  let txBuf ← d.txBuf.write 0 (List.replicate HDR_LEN 0)
  let txBuf ← txBuf.write HDR_LEN frame
  return { d with txBuf }

/-- Descriptor 0, for the header and `len` payload bytes of the buffer at `txBufAddr`. -/
def describeTx (d : VirtioNet) (txBufAddr : UInt64) (len : Nat) : Option VirtioNet := do
  let txBufPtr ← checkedSub txBufAddr d.physOffset
  let totalLen := UInt32.ofNat (HDR_LEN + len)
  return { d with txQueue := { d.txQueue with
    desc := Function.update d.txQueue.desc 0 ⟨txBufPtr, totalLen, 0, 0⟩ } }

def publishTx (d : VirtioNet) : VirtioNet :=
  let availIdx := d.txQueue.availIdx
  { d with txQueue := { d.txQueue with
    availRing := Function.update d.txQueue.availRing (ringSlot availIdx) 0
    availIdx := availIdx + 1 } }

/-- `VirtioTxToken::consume`, where the closure writes `frame`. -/
def consume (d : VirtioNet) (txBufAddr : UInt64) (frame : List UInt8) : Option VirtioNet := do
  let d ← d.fillTxBuf frame
  let d ← d.describeTx txBufAddr frame.length
  return d.publishTx

theorem fillTxBuf_spec {d d' : VirtioNet} {frame : List UInt8} (h : d.fillTxBuf frame = some d') :
    ∃ buf rest, d' = { d with txBuf := buf } ∧
      buf.bytes = List.replicate HDR_LEN 0 ++ frame ++ rest := by
  unfold fillTxBuf at h
  obtain ⟨b₁, h₁, h⟩ := Option.bind_eq_some_iff.1 h
  obtain ⟨b₂, h₂, h⟩ := Option.bind_eq_some_iff.1 h
  cases h
  have hb₁ : b₁.bytes.take HDR_LEN = List.replicate HDR_LEN 0 := by
    rw [Buf.write_spec h₁]
    simp
  exact ⟨b₂, _, rfl, by rw [Buf.write_spec h₂, hb₁]⟩

/-- A frame of at most `PKT_SIZE` bytes fits. -/
theorem exists_fillTxBuf (d : VirtioNet) {frame : List UInt8} (h : frame.length ≤ PKT_SIZE) :
    ∃ d', d.fillTxBuf frame = some d' := by
  have h₁ : HDR_LEN ≤ BUF_SIZE := by decide
  have h₂ : HDR_LEN + frame.length ≤ BUF_SIZE := by
    unfold BUF_SIZE
    omega
  simp [fillTxBuf, Buf.write, h₁, h₂]

theorem describeTx_spec {d d' : VirtioNet} {txBufAddr : UInt64} {len : Nat}
    (h : d.describeTx txBufAddr len = some d') :
    ∃ addr, checkedSub txBufAddr d.physOffset = some addr ∧
      d' = { d with txQueue := { d.txQueue with
        desc := Function.update d.txQueue.desc 0 ⟨addr, UInt32.ofNat (HDR_LEN + len), 0, 0⟩ } } := by
  unfold describeTx at h
  obtain ⟨addr, ha, h⟩ := Option.bind_eq_some_iff.1 h
  cases h
  exact ⟨addr, ha, rfl⟩

/-! ### Receive -/

/-- The first part of `receive`: take the next used element and copy the packet out. -/
def takeUsed (d : VirtioNet) : VirtioNet × Option (Fin QUEUE_SIZE × List UInt8) :=
  if d.rxLastUsed = d.rxQueue.usedIdx then (d, none) else
    let usedElem := d.rxQueue.usedRing (ringSlot d.rxLastUsed)
    let d := { d with rxLastUsed := d.rxLastUsed + 1 }
    let pktLen := usedElem.len.toNat
    if h : usedElem.id.toNat < QUEUE_SIZE then
      let payloadLen := min (pktLen - HDR_LEN) PKT_SIZE
      (d, some (⟨usedElem.id.toNat, h⟩, (d.rxBufs ⟨usedElem.id.toNat, h⟩).slice HDR_LEN payloadLen))
    else (d, none)

/-- The second part: put the descriptor back into the available ring. -/
def recycle (d : VirtioNet) (descIdx : Fin QUEUE_SIZE) : VirtioNet :=
  let availIdx := d.rxQueue.availIdx
  { d with rxQueue := { d.rxQueue with
    availRing := Function.update d.rxQueue.availRing (ringSlot availIdx) (UInt16.ofNat descIdx)
    availIdx := availIdx + 1 } }

def receive (d : VirtioNet) : VirtioNet × Option (List UInt8) :=
  match d.takeUsed with
  | (d, none) => (d, none)
  | (d, some (descIdx, packet)) => (d.recycle descIdx, some packet)

end VirtioNet

end OciKernel
