import OciKernel.Lib.Run
import OciKernel.Net.VirtioNet

/-!
# Net.RingGeometry

Where the driver has the rings in a queue's pages, and where a legacy device has them. The device lays
the queue out by the size in its QUEUE_SIZE register; the driver has the `repr(C)` struct `Virtqueue`.

* `Virtqueue.offsetOf`: the offset of a field; `RingPlace.disjoint`: no two places overlap.
* `RingWorld`: the driver with a log of what it reads and writes in the rings, next to a device that
  writes whatever it likes into the used rings and the receive buffers.
* `Counted`: the wrapping indices are the numbers of publications and of used elements taken.
* `agrees_iff`: every access of every run is where the device has the item iff the size is 16.
-/

namespace OciKernel

open Transition

/-! ## The layout of a struct -/

structure Layout where
  size : Nat
  align : Nat
deriving DecidableEq, Repr

/-- The first multiple of `align` from `n` on. -/
def alignUp (n align : Nat) : Nat := (n + align - 1) / align * align

namespace Layout

def u8 : Layout := ⟨1, 1⟩
def u16 : Layout := ⟨2, 2⟩
def u32 : Layout := ⟨4, 4⟩
def u64 : Layout := ⟨8, 8⟩

def array (l : Layout) (n : Nat) : Layout := ⟨n * l.size, l.align⟩

/-- The offsets of fields that are laid out in order from `start` on. -/
def offsets {ι : Type} (layout : ι → Layout) : Nat → List ι → List (ι × Nat)
  | _, [] => []
  | start, f :: fs =>
    let offset := alignUp start (layout f).align
    (f, offset) :: offsets layout (offset + (layout f).size) fs

/-- The layout of a `repr(C, align(align))` struct. -/
def struct (align : Nat) (fields : List Layout) : Layout :=
  let align := fields.foldl (fun a l => max a l.align) align
  let stop := (offsets id 0 fields).foldl (fun _ f => f.2 + f.1.size) 0
  ⟨alignUp stop align, align⟩

end Layout

namespace VirtqDesc

def layout : Layout := .struct 1 [.u64, .u32, .u16, .u16]

end VirtqDesc

namespace VirtqUsedElem

def layout : Layout := .struct 1 [.u32, .u32]

end VirtqUsedElem

namespace Virtqueue

inductive Field where
  | desc | availFlags | availIdx | availRing | pad0 | usedFlags | usedIdx | usedRing | pad1
deriving DecidableEq, Repr

def fields : List Field :=
  [.desc, .availFlags, .availIdx, .availRing, .pad0, .usedFlags, .usedIdx, .usedRing, .pad1]

def fieldLayout : Field → Layout
  | .desc => VirtqDesc.layout.array QUEUE_SIZE
  | .availFlags => .u16
  | .availIdx => .u16
  | .availRing => Layout.u16.array QUEUE_SIZE
  | .pad0 => Layout.u8.array (4096 - 256 - 4 - 32)
  | .usedFlags => .u16
  | .usedIdx => .u16
  | .usedRing => VirtqUsedElem.layout.array QUEUE_SIZE
  | .pad1 => Layout.u8.array (4096 - 4 - 128)

def offsetOf (f : Field) : Nat := ((Layout.offsets fieldLayout 0 fields).lookup f).getD 0

end Virtqueue

/-! ## Items and places -/

/-- What driver and device have to find in the same place. Entries and elements are numbered from the
first one on, without wrapping. -/
inductive RingItem where
  | availIdx
  | availEntry (n : Nat)
  | usedIdx
  | usedElem (n : Nat)
deriving DecidableEq, Repr

/-- Where the used ring of a legacy device of queue size `size` is, from the queue base. -/
def usedBase (size : Nat) : Nat := alignUp (16 * size + 6 + 2 * size) 4096

/-- Where the device has an item. -/
def RingItem.deviceOffset (size : Nat) : RingItem → Nat
  | .availIdx => 16 * size + 2
  | .availEntry n => 16 * size + 4 + 2 * (n % size)
  | .usedIdx => usedBase size + 2
  | .usedElem n => usedBase size + 4 + 8 * (n % size)

/-- A field of `Virtqueue`, or an entry of an array there. -/
inductive RingPlace where
  | availIdx
  | availRing (i : Fin QUEUE_SIZE)
  | usedIdx
  | usedRing (i : Fin QUEUE_SIZE)
deriving DecidableEq, Repr

namespace RingPlace

def offset : RingPlace → Nat
  | .availIdx => Virtqueue.offsetOf .availIdx
  | .availRing i => Virtqueue.offsetOf .availRing + Layout.u16.size * i
  | .usedIdx => Virtqueue.offsetOf .usedIdx
  | .usedRing i => Virtqueue.offsetOf .usedRing + VirtqUsedElem.layout.size * i

def size : RingPlace → Nat
  | .availIdx | .availRing _ | .usedIdx => Layout.u16.size
  | .usedRing _ => VirtqUsedElem.layout.size

def read (q : Virtqueue) : RingPlace → UInt16 ⊕ VirtqUsedElem
  | .availIdx => .inl q.availIdx
  | .availRing i => .inl (q.availRing i)
  | .usedIdx => .inl q.usedIdx
  | .usedRing i => .inr (q.usedRing i)

@[simp] theorem offset_availIdx : availIdx.offset = 258 := rfl
@[simp] theorem offset_availRing (i : Fin QUEUE_SIZE) : (availRing i).offset = 260 + 2 * i := rfl
@[simp] theorem offset_usedIdx : usedIdx.offset = 4098 := rfl
@[simp] theorem offset_usedRing (i : Fin QUEUE_SIZE) : (usedRing i).offset = 4100 + 8 * i := rfl

@[simp] theorem size_availIdx : availIdx.size = 2 := rfl
@[simp] theorem size_availRing (i : Fin QUEUE_SIZE) : (availRing i).size = 2 := rfl
@[simp] theorem size_usedIdx : usedIdx.size = 2 := rfl
@[simp] theorem size_usedRing (i : Fin QUEUE_SIZE) : (usedRing i).size = 8 := rfl

/-- Different places have no byte in common, so the queue is a record of them. -/
theorem disjoint {p p' : RingPlace} (h : p ≠ p') :
    p.offset + p.size ≤ p'.offset ∨ p'.offset + p'.size ≤ p.offset := by
  have hlt : ∀ i : Fin QUEUE_SIZE, i.val < 16 := Fin.isLt
  cases p <;> cases p' <;>
    simp only [ne_eq, not_true_eq_false, availRing.injEq, usedRing.injEq, Fin.ext_iff] at h <;>
    simp only [offset_availIdx, offset_availRing, offset_usedIdx, offset_usedRing, size_availIdx,
      size_availRing, size_usedIdx, size_usedRing] <;>
    grind

end RingPlace

/-! ## What the driver touches -/

structure RingAccess where
  item : RingItem
  place : RingPlace
deriving DecidableEq, Repr

def RingAccess.Agrees (size : Nat) (a : RingAccess) : Prop :=
  a.place.offset = a.item.deviceOffset size

/-- The entry for publication `n` goes to the slot of `avail_idx`, and the index after it. -/
def publishAccesses (q : Virtqueue) (n : Nat) : List RingAccess :=
  [⟨.availIdx, .availIdx⟩, ⟨.availEntry n, .availRing (ringSlot q.availIdx)⟩, ⟨.availIdx, .availIdx⟩]

namespace VirtioNet

/-- `init` fills the available ring of the receive queue. -/
def initAccesses : List RingAccess :=
  (List.finRange QUEUE_SIZE).map (fun i => ⟨.availEntry i, .availRing i⟩) ++ [⟨.availIdx, .availIdx⟩]

/-- `receive` finds a used element. -/
def HasUsed (d : VirtioNet) : Prop := d.rxLastUsed ≠ d.rxQueue.usedIdx

/-- The used element names a descriptor, so `receive` does not stop after it. -/
def UsedValid (d : VirtioNet) : Prop :=
  (d.rxQueue.usedRing (ringSlot d.rxLastUsed)).id.toNat < QUEUE_SIZE

instance (d : VirtioNet) : Decidable d.HasUsed := inferInstanceAs (Decidable (_ ≠ _))
instance (d : VirtioNet) : Decidable d.UsedValid := inferInstanceAs (Decidable (_ < _))

/-- In `receive`, with `taken` used elements taken and `published` entries published before. -/
def receiveAccesses (d : VirtioNet) (published taken : Nat) : List RingAccess :=
  ⟨.usedIdx, .usedIdx⟩ :: if d.HasUsed then
    ⟨.usedElem taken, .usedRing (ringSlot d.rxLastUsed)⟩ ::
      if d.UsedValid then publishAccesses d.rxQueue published else []
  else []

theorem receive_none {d : VirtioNet} (h : ¬ d.HasUsed) : d.receive = (d, none) := by
  rw [receive, takeUsed, if_pos (not_not.1 h)]

theorem receive_invalid {d : VirtioNet} (h : d.HasUsed) (hid : ¬ d.UsedValid) :
    d.receive = ({ d with rxLastUsed := d.rxLastUsed + 1 }, none) := by
  have htake : d.takeUsed = ({ d with rxLastUsed := d.rxLastUsed + 1 }, none) := by
    rw [takeUsed, if_neg h]
    exact dif_neg hid
  rw [receive, htake]

theorem receive_valid {d : VirtioNet} (h : d.HasUsed) (hid : d.UsedValid) : ∃ i packet,
    d.receive = ({ d with rxLastUsed := d.rxLastUsed + 1 }.recycle i, some packet) := by
  obtain ⟨i, packet, htake⟩ : ∃ i packet,
      d.takeUsed = ({ d with rxLastUsed := d.rxLastUsed + 1 }, some (i, packet)) := by
    rw [takeUsed, if_neg h]
    exact ⟨_, _, dif_pos hid⟩
  exact ⟨i, packet, by rw [receive, htake]⟩

theorem receive_txQueue (d : VirtioNet) : d.receive.1.txQueue = d.txQueue := by
  by_cases hused : d.HasUsed
  · by_cases hvalid : d.UsedValid
    · obtain ⟨i, packet, hreceive⟩ := receive_valid hused hvalid
      rw [hreceive]
      rfl
    · rw [receive_invalid hused hvalid]
  · rw [receive_none hused]

/-- `receive` writes nothing in the queue but what is logged. -/
theorem receive_read {d : VirtioNet} {published taken : Nat} {p : RingPlace}
    (h : ∀ a ∈ d.receiveAccesses published taken, a.place ≠ p) :
    p.read d.receive.1.rxQueue = p.read d.rxQueue := by
  by_cases hused : d.HasUsed
  · by_cases hvalid : d.UsedValid
    · rw [receiveAccesses, if_pos hused, if_pos hvalid] at h
      obtain ⟨i, packet, hreceive⟩ := receive_valid hused hvalid
      simp only [publishAccesses, List.forall_mem_cons] at h
      rw [hreceive]
      cases p with
      | availIdx => exact absurd rfl h.2.2.1
      | availRing j =>
        refine congrArg Sum.inl (Function.update_of_ne (fun hj => ?_) ..)
        exact h.2.2.2.1 (congrArg RingPlace.availRing hj.symm)
      | _ => rfl
    · rw [receive_invalid hused hvalid]
  · rw [receive_none hused]

theorem consume_spec {d d' : VirtioNet} {txBufAddr : UInt64} {frame : List UInt8}
    (h : d.consume txBufAddr frame = some d') :
    ∃ buf desc, d' = publishTx { d with txBuf := buf, txQueue := { d.txQueue with desc := desc } } := by
  unfold consume at h
  obtain ⟨d₁, h₁, h⟩ := Option.bind_eq_some_iff.1 h
  obtain ⟨d₂, h₂, h⟩ := Option.bind_eq_some_iff.1 h
  cases h
  obtain ⟨buf, rest, rfl, -⟩ := fillTxBuf_spec h₁
  obtain ⟨addr, -, rfl⟩ := describeTx_spec h₂
  exact ⟨buf, _, rfl⟩

/-- `consume` writes no other place than the three of a publication either. -/
theorem consume_read {d d' : VirtioNet} {txBufAddr : UInt64} {frame : List UInt8}
    (hconsume : d.consume txBufAddr frame = some d') {published : Nat} {p : RingPlace}
    (h : ∀ a ∈ publishAccesses d.txQueue published, a.place ≠ p) :
    p.read d'.txQueue = p.read d.txQueue := by
  obtain ⟨buf, desc, rfl⟩ := consume_spec hconsume
  simp only [publishAccesses, List.forall_mem_cons] at h
  cases p with
  | availIdx => exact absurd rfl h.1
  | availRing j =>
    refine congrArg Sum.inl (Function.update_of_ne (fun hj => ?_) ..)
    exact h.2.1 (congrArg RingPlace.availRing hj.symm)
  | _ => rfl

/-- An empty frame can always be sent from the first address of the physical window. -/
theorem exists_consume (d : VirtioNet) : ∃ d', d.consume d.physOffset [] = some d' := by
  have hempty : ([] : List UInt8).length ≤ PKT_SIZE := Nat.zero_le _
  obtain ⟨d₁, h₁⟩ := d.exists_fillTxBuf hempty
  obtain ⟨buf, rest, rfl, -⟩ := fillTxBuf_spec h₁
  rw [consume, h₁]
  have hsub : checkedSub d.physOffset d.physOffset = some (d.physOffset - d.physOffset) :=
    if_pos (UInt64.le_refl _)
  simp [describeTx, hsub]

end VirtioNet

/-! ## Runs -/

inductive QueueId where
  | rx
  | tx
deriving DecidableEq, Repr

/-- What has happened at one queue. -/
structure RingSide where
  published : Nat
  taken : Nat
  accesses : List RingAccess

structure RingWorld where
  driver : VirtioNet
  rx : RingSide
  tx : RingSide

inductive RingAction where
  | device
  | receive
  | consume (txBufAddr : UInt64) (frame : List UInt8)

namespace RingWorld

def side (w : RingWorld) : QueueId → RingSide
  | .rx => w.rx
  | .tx => w.tx

/-- The queue of the driver that a side is about. -/
def queue (w : RingWorld) : QueueId → Virtqueue
  | .rx => w.driver.rxQueue
  | .tx => w.driver.txQueue

/-- After `init`. -/
def start (d : VirtioNet) : RingWorld :=
  ⟨d, ⟨QUEUE_SIZE, 0, VirtioNet.initAccesses⟩, ⟨0, 0, []⟩⟩

/-- What the device may change of a queue. -/
def writeUsed (q : Virtqueue) (usedIdx : UInt16) (usedRing : Fin QUEUE_SIZE → VirtqUsedElem) :
    Virtqueue := { q with usedIdx, usedRing }

inductive Step : RingWorld → RingAction → RingWorld → Prop where
  | device {w : RingWorld} (rxBufs : Fin QUEUE_SIZE → Buf) (rxIdx txIdx : UInt16)
      (rxRing txRing : Fin QUEUE_SIZE → VirtqUsedElem) :
      Step w .device { w with driver := { w.driver with
        rxBufs := rxBufs
        rxQueue := writeUsed w.driver.rxQueue rxIdx rxRing
        txQueue := writeUsed w.driver.txQueue txIdx txRing } }
  | receive {w : RingWorld} :
      Step w .receive { w with
        driver := w.driver.receive.1
        rx :=
          { published := w.rx.published + w.driver.receive.2.toList.length
            taken := w.rx.taken + if w.driver.HasUsed then 1 else 0
            accesses := w.rx.accesses ++ w.driver.receiveAccesses w.rx.published w.rx.taken } }
  | consume {w : RingWorld} {txBufAddr : UInt64} {frame : List UInt8} {d : VirtioNet}
      (h : w.driver.consume txBufAddr frame = some d) :
      Step w (.consume txBufAddr frame) { w with
        driver := d
        tx := { w.tx with
          published := w.tx.published + 1
          accesses := w.tx.accesses ++ publishAccesses w.driver.txQueue w.tx.published } }

/-- The logs are complete: a step of the driver leaves every place alone that it adds no access to. -/
theorem Step.logged {w w' : RingWorld} {a : RingAction} (h : Step w a w') (ha : a ≠ .device)
    (q : QueueId) : ∃ new, (w'.side q).accesses = (w.side q).accesses ++ new ∧
      ∀ p : RingPlace, (∀ x ∈ new, x.place ≠ p) → p.read (w'.queue q) = p.read (w.queue q) := by
  cases h with
  | device => exact absurd rfl ha
  | receive =>
    cases q with
    | rx => exact ⟨_, rfl, fun p hp => VirtioNet.receive_read hp⟩
    | tx => exact ⟨[], (List.append_nil _).symm, fun p _ => by rw [queue, queue, VirtioNet.receive_txQueue]⟩
  | consume hconsume =>
    cases q with
    | rx =>
      obtain ⟨buf, desc, rfl⟩ := VirtioNet.consume_spec hconsume
      exact ⟨[], (List.append_nil _).symm, fun p _ => rfl⟩
    | tx => exact ⟨_, rfl, fun p hp => VirtioNet.consume_read hconsume hp⟩

/-- The wrapping indices count, and what was touched is where a device of size 16 has it. -/
structure Counted (w : RingWorld) : Prop where
  rxAvail : w.driver.rxQueue.availIdx = UInt16.ofNat w.rx.published
  txAvail : w.driver.txQueue.availIdx = UInt16.ofNat w.tx.published
  taken : w.driver.rxLastUsed = UInt16.ofNat w.rx.taken
  rx : ∀ a ∈ w.rx.accesses, a.Agrees 16
  tx : ∀ a ∈ w.tx.accesses, a.Agrees 16

theorem ringSlot_ofNat (n : Nat) : (ringSlot (UInt16.ofNat n)).val = n % 16 := by
  show (UInt16.ofNat n % 16).toNat = n % 16
  rw [UInt16.toNat_mod, UInt16.toNat_ofNat']
  exact Nat.mod_mod_of_dvd n (by decide)

theorem agrees_availIdx : RingAccess.Agrees 16 ⟨.availIdx, .availIdx⟩ := rfl

theorem agrees_usedIdx : RingAccess.Agrees 16 ⟨.usedIdx, .usedIdx⟩ := rfl

theorem agrees_availEntry {n : Nat} {i : Fin QUEUE_SIZE} (h : i.val = n % 16) :
    RingAccess.Agrees 16 ⟨.availEntry n, .availRing i⟩ := by
  simp [RingAccess.Agrees, RingItem.deviceOffset, h]

theorem agrees_usedElem {n : Nat} {i : Fin QUEUE_SIZE} (h : i.val = n % 16) :
    RingAccess.Agrees 16 ⟨.usedElem n, .usedRing i⟩ := by
  simp [RingAccess.Agrees, RingItem.deviceOffset, usedBase, alignUp, h]

theorem agrees_publish {q : Virtqueue} {n : Nat} (h : q.availIdx = UInt16.ofNat n) :
    ∀ a ∈ publishAccesses q n, a.Agrees 16 := by
  simp only [publishAccesses, List.forall_mem_cons]
  refine ⟨agrees_availIdx, agrees_availEntry ?_, agrees_availIdx, nofun⟩
  rw [h, ringSlot_ofNat]

theorem start_counted {allocs : VirtioNet.DmaAllocs} {offset : UInt64} {d : VirtioNet}
    {writes : List VirtioNet.IoWrite} (h : VirtioNet.Initialised allocs offset d writes) :
    Counted (start d) := by
  obtain ⟨q, -, hq⟩ := h.rxQueue
  refine ⟨by rw [start, hq], by rw [start, h.txQueue]; rfl, h.rxLastUsed, ?_, nofun⟩
  intro a ha
  rcases List.mem_append.1 ha with ha | ha
  · obtain ⟨i, -, rfl⟩ := List.mem_map.1 ha
    exact agrees_availEntry (Nat.mod_eq_of_lt i.isLt).symm
  · cases List.mem_singleton.1 ha
    exact agrees_availIdx

theorem Counted.receive {w : RingWorld} (h : Counted w) : ∀ w', Step w .receive w' → Counted w' := by
  rintro _ ⟨⟩
  have hsucc : ∀ {idx : UInt16} {n : Nat}, idx = UInt16.ofNat n → idx + 1 = UInt16.ofNat (n + 1) := by
    rintro _ n rfl
    rw [UInt16.ofNat_add]
    rfl
  have hused : RingAccess.Agrees 16 ⟨.usedElem w.rx.taken, .usedRing (ringSlot w.driver.rxLastUsed)⟩ :=
    agrees_usedElem (by rw [h.taken, ringSlot_ofNat])
  by_cases hhas : w.driver.HasUsed
  · by_cases hvalid : w.driver.UsedValid
    · obtain ⟨i, packet, hreceive⟩ := VirtioNet.receive_valid hhas hvalid
      have haccesses : w.driver.receiveAccesses w.rx.published w.rx.taken = [⟨.usedIdx, .usedIdx⟩,
          ⟨.usedElem w.rx.taken, .usedRing (ringSlot w.driver.rxLastUsed)⟩] ++
            publishAccesses w.driver.rxQueue w.rx.published := by
        rw [VirtioNet.receiveAccesses, if_pos hhas, if_pos hvalid]
        rfl
      rw [hreceive, if_pos hhas, haccesses]
      refine ⟨hsucc h.rxAvail, h.txAvail, hsucc h.taken, ?_, h.tx⟩
      simp only [List.forall_mem_append, List.forall_mem_cons]
      exact ⟨h.rx, ⟨agrees_usedIdx, hused, nofun⟩, agrees_publish h.rxAvail⟩
    · have haccesses : w.driver.receiveAccesses w.rx.published w.rx.taken = [⟨.usedIdx, .usedIdx⟩,
          ⟨.usedElem w.rx.taken, .usedRing (ringSlot w.driver.rxLastUsed)⟩] := by
        rw [VirtioNet.receiveAccesses, if_pos hhas, if_neg hvalid]
      rw [VirtioNet.receive_invalid hhas hvalid, if_pos hhas, haccesses]
      refine ⟨h.rxAvail, h.txAvail, hsucc h.taken, ?_, h.tx⟩
      simp only [List.forall_mem_append, List.forall_mem_cons]
      exact ⟨h.rx, agrees_usedIdx, hused, nofun⟩
  · have haccesses : w.driver.receiveAccesses w.rx.published w.rx.taken = [⟨.usedIdx, .usedIdx⟩] := by
      rw [VirtioNet.receiveAccesses, if_neg hhas]
    rw [VirtioNet.receive_none hhas, if_neg hhas, haccesses]
    refine ⟨h.rxAvail, h.txAvail, h.taken, ?_, h.tx⟩
    simp only [List.forall_mem_append, List.forall_mem_cons]
    exact ⟨h.rx, agrees_usedIdx, nofun⟩

theorem Counted.step {w w' : RingWorld} {a : RingAction} (h : Counted w) (hstep : Step w a w') :
    Counted w' := by
  cases hstep with
  | device => exact ⟨h.rxAvail, h.txAvail, h.taken, h.rx, h.tx⟩
  | receive => exact h.receive _ .receive
  | consume hconsume =>
    obtain ⟨buf, desc, rfl⟩ := VirtioNet.consume_spec hconsume
    refine ⟨h.rxAvail, ?_, h.taken, h.rx, ?_⟩
    · show w.driver.txQueue.availIdx + 1 = _
      rw [h.txAvail, UInt16.ofNat_add]
      rfl
    · exact List.forall_mem_append.2 ⟨h.tx, agrees_publish h.txAvail⟩

/-- Some run touches the available index of either queue. -/
theorem exists_availIdx (d : VirtioNet) (q : QueueId) : ∃ as w, Run Step (start d) as w ∧
    ⟨.availIdx, .availIdx⟩ ∈ (w.side q).accesses := by
  cases q with
  | rx => exact ⟨[], _, .nil, by simp [start, side, VirtioNet.initAccesses]⟩
  | tx =>
    obtain ⟨d', hconsume⟩ := d.exists_consume
    exact ⟨_, _, .single (.consume hconsume), by simp [side, publishAccesses]⟩

/-- Whatever the driver touches in the rings, in any run from `init` on, is where a device of the reported
size has that item, and the used ring is where that device has it, if and only if the size is 16; and
the driver writes no place of a ring but those it is logged to touch. -/
theorem agrees_iff {pci : VirtioNet.PciDevice} {allocs : VirtioNet.DmaAllocs} {offset : UInt64}
    {d : VirtioNet} {writes : List VirtioNet.IoWrite}
    (hinit : VirtioNet.init pci allocs offset = some (some (d, writes))) (q : QueueId)
    (reported : UInt16) :
    (((∀ as w, Run Step (start d) as w → ∀ a ∈ (w.side q).accesses, a.Agrees reported.toNat) ∧
      Virtqueue.offsetOf .usedFlags = usedBase reported.toNat) ↔ reported = 16) ∧
    ∀ as w a w', Run Step (start d) as w → Step w a w' → a ≠ .device →
      ∃ new, (w'.side q).accesses = (w.side q).accesses ++ new ∧
        ∀ p : RingPlace, (∀ x ∈ new, x.place ≠ p) → p.read (w'.queue q) = p.read (w.queue q) := by
  refine ⟨?_, fun _ _ _ _ _ hstep ha => hstep.logged ha q⟩
  constructor
  · rintro ⟨hall, -⟩
    obtain ⟨as, w, hrun, hmem⟩ := exists_availIdx d q
    have hidx : 258 = 16 * reported.toNat + 2 := hall as w hrun _ hmem
    have h16 : UInt16.toNat 16 = 16 := rfl
    exact UInt16.toNat_inj.1 (by omega)
  · rintro rfl
    refine ⟨fun as w hrun a ha => ?_, rfl⟩
    have hcounted : Counted w :=
      hrun.invariant (fun _ _ _ h hstep => h.step hstep) (start_counted (VirtioNet.init_spec hinit))
    cases q with
    | rx => exact hcounted.rx a ha
    | tx => exact hcounted.tx a ha

theorem agrees_sixteen : ∃ d writes,
    VirtioNet.init ⟨fun _ => 0, fun _ => 0, fun _ => 0⟩ ⟨0x1000, 0x3000, 0x5000⟩ 0 =
      some (some (d, writes)) ∧
    ∀ as w, Run Step (start d) as w → ∀ a ∈ (w.side .rx).accesses, a.Agrees 16 := by
  have hinit : ∃ d writes,
      VirtioNet.init ⟨fun _ => 0, fun _ => 0, fun _ => 0⟩ ⟨0x1000, 0x3000, 0x5000⟩ 0 =
        some (some (d, writes)) := ⟨_, _, rfl⟩
  obtain ⟨d, writes, hinit⟩ := hinit
  exact ⟨d, writes, hinit, ((agrees_iff hinit .rx 16).1.2 rfl).1⟩

/-- A device with 256 entries has its used ring behind the two pages of the driver. -/
theorem disagrees_256 : ∃ d writes,
    VirtioNet.init ⟨fun _ => 0, fun _ => 0, fun _ => 0⟩ ⟨0x1000, 0x3000, 0x5000⟩ 0 =
      some (some (d, writes)) ∧
    ¬ ((∀ as w, Run Step (start d) as w → ∀ a ∈ (w.side .rx).accesses, a.Agrees 256) ∧
      Virtqueue.offsetOf .usedFlags = usedBase 256) := by
  refine ⟨_, _, rfl, ?_⟩
  rintro ⟨-, hused⟩
  have : usedBase 256 = 8192 := rfl
  have : Virtqueue.offsetOf .usedFlags = 4096 := rfl
  omega

end RingWorld
end OciKernel
