import OciKernel.Lib.Pool
import OciKernel.Net.VirtioNet

/-!
# Net.RxQueue

The receive queue, with the driver's `receive` and a device running side by side. The device takes
descriptors that the available ring publishes, holds as many as it likes, writes a packet into the
buffer of one that it holds, and publishes used elements in any order. `receive` is cut in two, so that
the device may also run between the copy of a packet and the recycling of its descriptor.

* `Represents`: the two rings, read between their wrapping indices, are the stages of a pool of
  sixteen descriptors.
* `Represents.step`: every step of the queue is a move of the pool, or none.
* `received_in_order`: over any run, `receive` returns the completed frames in order, each once, and
  every descriptor is in exactly one place.
-/

namespace OciKernel

open Transition

structure RxWorld where
  driver : VirtioNet
  /-- How far the device is in the available ring. -/
  pos : UInt16
  held : List (Fin QUEUE_SIZE)
  written : List (Fin QUEUE_SIZE × List UInt8)
  /-- The packet that a running `receive` has copied. -/
  receiving : Option (Fin QUEUE_SIZE × List UInt8)
  completed : List (List UInt8)
  received : List (List UInt8)

inductive RxAction where
  | take (id : Fin QUEUE_SIZE)
  | write (id : Fin QUEUE_SIZE) (data : List UInt8)
  | publish (id : Fin QUEUE_SIZE) (data : List UInt8)
  | takeUsed
  | recycle

namespace RxWorld

def start (driver : VirtioNet) : RxWorld := ⟨driver, 0, [], [], none, [], []⟩

def Enabled (w : RxWorld) : RxAction → Prop
  | .take id => w.pos ≠ w.driver.rxQueue.availIdx ∧
      w.driver.rxQueue.availRing (ringSlot w.pos) = UInt16.ofNat id
  | .write id data => id ∈ w.held ∧ HDR_LEN ≤ data.length ∧ data.length ≤ BUF_SIZE
  | .publish id data => (id, data) ∈ w.written
  | .takeUsed => w.receiving = none
  | .recycle => w.receiving ≠ none

instance (w : RxWorld) (a : RxAction) : Decidable (w.Enabled a) := by
  cases a <;> unfold Enabled <;> infer_instance

/-- The device's DMA write into the buffer of descriptor `id`. -/
def dmaWrite (d : VirtioNet) (id : Fin QUEUE_SIZE) (data : List UInt8) : VirtioNet :=
  match (d.rxBufs id).write 0 data with
  | some buf => { d with rxBufs := Function.update d.rxBufs id buf }
  | none => d

/-- The device's used element for descriptor `id`. -/
def publishUsed (d : VirtioNet) (id : Fin QUEUE_SIZE) (data : List UInt8) : VirtioNet :=
  let usedIdx := d.rxQueue.usedIdx
  { d with rxQueue := { d.rxQueue with
    usedRing := Function.update d.rxQueue.usedRing (ringSlot usedIdx)
      ⟨UInt32.ofNat id, UInt32.ofNat data.length⟩
    usedIdx := usedIdx + 1 } }

def next (w : RxWorld) : RxAction → RxWorld
  | .take id => { w with pos := w.pos + 1, held := w.held ++ [id] }
  | .write id data => { w with
      driver := dmaWrite w.driver id data
      held := w.held.erase id
      written := w.written ++ [(id, data)] }
  | .publish id data => { w with
      driver := publishUsed w.driver id data
      written := w.written.erase (id, data)
      completed := w.completed ++ [data.drop HDR_LEN] }
  | .takeUsed => { w with driver := w.driver.takeUsed.1, receiving := w.driver.takeUsed.2 }
  | .recycle =>
    match w.receiving with
    | some (id, packet) => { w with
        driver := w.driver.recycle id
        receiving := none
        received := w.received ++ [packet] }
    | none => w

def Step (w : RxWorld) (a : RxAction) (w' : RxWorld) : Prop := w.Enabled a ∧ w' = w.next a

/-! ## Where the descriptors are -/

/-- The entries between the device's position and the driver's available index. -/
def availEntries (w : RxWorld) : List UInt16 :=
  unread w.driver.rxQueue.availRing w.pos w.driver.rxQueue.availIdx

/-- The used elements that no `receive` has looked at. -/
def usedEntries (w : RxWorld) : List VirtqUsedElem :=
  unread w.driver.rxQueue.usedRing w.driver.rxLastUsed w.driver.rxQueue.usedIdx

def available (w : RxWorld) : List Nat := w.availEntries.map UInt16.toNat

def heldByDevice (w : RxWorld) : List Nat := (w.held ++ w.written.map Prod.fst).map Fin.val

/-- Used and not yet received; a running `receive` has not received its packet. -/
def used (w : RxWorld) : List Nat :=
  w.receiving.toList.map (fun r => r.1.val) ++ w.usedEntries.map fun e => e.id.toNat

/-- The driver steps of one call of `receive`. -/
def receiveSteps (d : VirtioNet) : List RxAction :=
  .takeUsed :: d.receive.2.toList.map fun _ => .recycle

/-- After a call of `receive`, with what it returned in the log. -/
def afterReceive (w : RxWorld) : RxWorld :=
  { w with driver := w.driver.receive.1, received := w.received ++ w.driver.receive.2.toList }

/-- `receive` called on its own is those steps after one another. -/
theorem run_receive {w : RxWorld} (h : w.receiving = none) :
    Run Step w (receiveSteps w.driver) w.afterReceive := by
  unfold receiveSteps afterReceive VirtioNet.receive
  cases ht : w.driver.takeUsed with
  | mk d r =>
    have hs : Step w .takeUsed { w with driver := d, receiving := r } :=
      ⟨h, by simp only [next, ht]⟩
    cases r with
    | none =>
      rw [← h] at hs
      simpa using Run.single hs
    | some r =>
      refine .cons hs (.single ⟨by simp [Enabled], ?_⟩)
      simp only [next, Option.toList_some]
      rw [← h]

/-! ## The pool behind the rings -/

/-- All sixteen descriptors. -/
def descriptors : Multiset (Fin QUEUE_SIZE) := (List.finRange QUEUE_SIZE : List (Fin QUEUE_SIZE))

abbrev RxPool := Pool.State (Fin QUEUE_SIZE) (List UInt8)

def availEntry (id : Fin QUEUE_SIZE) : UInt16 := UInt16.ofNat id

def usedEntry (x : Fin QUEUE_SIZE × List UInt8) : VirtqUsedElem :=
  ⟨UInt32.ofNat x.1, UInt32.ofNat x.2.length⟩

/-- The buffer of a filled descriptor starts with the packet the device wrote. -/
structure Filled (bufs : Fin QUEUE_SIZE → Buf) (x : Fin QUEUE_SIZE × List UInt8) : Prop where
  fits : x.2.length ≤ BUF_SIZE
  stored : ∃ rest, (bufs x.1).bytes = x.2 ++ rest

structure Represents (w : RxWorld) (p : RxPool) : Prop where
  available : w.availEntries = p.available.map availEntry
  held : w.held = p.held
  written : w.written = p.filled
  used : w.usedEntries = p.used.map usedEntry
  receiving : w.receiving = p.busy.map fun x => (x.1, x.2.drop HDR_LEN)
  filled : ∀ x ∈ p.filled ++ p.used, Filled w.driver.rxBufs x
  completed : w.completed = p.completed.map (List.drop HDR_LEN)
  received : w.received = p.received.map (List.drop HDR_LEN)

theorem availEntry_toNat (i : Fin QUEUE_SIZE) : (availEntry i).toNat = i.val := toNat_descIdx i

theorem availEntry_injective : Function.Injective availEntry := by
  intro i j h
  have h' := congrArg UInt16.toNat h
  rw [availEntry_toNat, availEntry_toNat] at h'
  exact Fin.ext h'

theorem usedEntry_id (x : Fin QUEUE_SIZE × List UInt8) : (usedEntry x).id.toNat = x.1.val := by
  have hi : x.1.val < 16 := x.1.isLt
  exact UInt32.toNat_ofNat_of_lt' (Nat.lt_trans hi (by decide))

theorem usedEntry_len {x : Fin QUEUE_SIZE × List UInt8} (h : x.2.length ≤ BUF_SIZE) :
    (usedEntry x).len.toNat = x.2.length :=
  UInt32.toNat_ofNat_of_lt' (Nat.lt_of_le_of_lt h (by decide))

section Steps

variable {w : RxWorld} {p : RxPool}

theorem Represents.take (h : Represents w p) {id : Fin QUEUE_SIZE} (he : w.Enabled (.take id)) :
    ∃ p', Pool.Step p .take p' ∧ Represents (w.next (.take id)) p' := by
  obtain ⟨hne, hid⟩ := he
  have ha := h.available
  unfold availEntries at ha
  rw [unread_of_ne _ hne, hid] at ha
  cases hp : p.available with
  | nil => rw [hp] at ha; cases ha
  | cons i rest =>
    rw [hp, List.map_cons, List.cons_eq_cons] at ha
    cases availEntry_injective ha.1
    refine ⟨_, .take hp, ?_⟩
    exact { h with
      available := ha.2
      held := by simp [next, h.held] }

theorem Represents.write (h : Represents w p) (hc : Pool.Conserved descriptors p)
    {id : Fin QUEUE_SIZE} {data : List UInt8} (he : w.Enabled (.write id data)) :
    ∃ p', Pool.Step p (.fill id data) p' ∧ Represents (w.next (.write id data)) p' := by
  obtain ⟨hid, _, hhi⟩ := he
  rw [h.held] at hid
  obtain ⟨buf, hwrite, hbytes⟩ := (w.driver.rxBufs id).write_zero hhi
  have hdma : dmaWrite w.driver id data =
      { w.driver with rxBufs := Function.update w.driver.rxBufs id buf } := by
    simp only [dmaWrite, hwrite]
  refine ⟨_, .fill data hid, ?_⟩
  have hfilled : ∀ x ∈ p.filled ++ [(id, data)] ++ p.used,
      Filled (Function.update w.driver.rxBufs id buf) x := by
    intro x hx
    by_cases hxd : x = (id, data)
    · subst hxd
      exact ⟨hhi, _, by rw [Function.update_self, hbytes]⟩
    · have hx' : x ∈ p.filled ++ p.used := by simpa [hxd] using hx
      have hne := hc.ne_of_held (List.nodup_finRange _) hid hx'
      obtain ⟨h₁, rest, h₂⟩ := h.filled x hx'
      exact ⟨h₁, rest, by rw [Function.update_of_ne hne, h₂]⟩
  simp only [next, hdma]
  exact { h with
    held := by simp [h.held]
    written := by simp [h.written]
    filled := hfilled }

theorem Represents.publish (h : Represents w p) (hc : Pool.Conserved descriptors p)
    {id : Fin QUEUE_SIZE} {data : List UInt8} (he : w.Enabled (.publish id data)) :
    ∃ p', Pool.Step p (.handOver id data) p' ∧ Represents (w.next (.publish id data)) p' := by
  have hmem : (id, data) ∈ p.filled := h.written ▸ he
  have hroom : w.usedEntries.length < QUEUE_SIZE := by
    have hlen := hc.length
    have hpos := List.length_pos_of_mem hmem
    rw [h.used, List.length_map]
    simp only [descriptors, Multiset.coe_card, List.length_finRange] at hlen
    omega
  refine ⟨_, .handOver hmem, ?_⟩
  refine { h with used := ?_, written := ?_, filled := ?_, completed := ?_ }
  · simp only [next, h.written]
  · have hput := unread_put w.driver.rxQueue.usedRing (usedEntry (id, data)) hroom
    rw [List.map_append, ← h.used]
    exact hput
  · intro x hx
    apply h.filled
    simp only [List.mem_append, List.mem_singleton] at hx ⊢
    rcases hx with hx | hx | rfl
    · exact .inl (List.mem_of_mem_erase hx)
    · exact .inr hx
    · exact .inl hmem
  · simp [next, h.completed]

/-- `receive` finds no used element, or the oldest filled descriptor and its packet. -/
theorem Represents.takeUsed_eq (h : Represents w p) :
    (p.used = [] ∧ w.driver.takeUsed = (w.driver, none)) ∨
    ∃ x rest, p.used = x :: rest ∧
      w.driver.takeUsed = ({ w.driver with rxLastUsed := w.driver.rxLastUsed + 1 },
        some (x.1, x.2.drop HDR_LEN)) ∧
      unread w.driver.rxQueue.usedRing (w.driver.rxLastUsed + 1) w.driver.rxQueue.usedIdx =
        rest.map usedEntry := by
  by_cases hne : w.driver.rxLastUsed = w.driver.rxQueue.usedIdx
  · have hu := h.used
    unfold usedEntries at hu
    rw [hne, unread_self] at hu
    exact .inl ⟨List.map_eq_nil_iff.1 hu.symm, by rw [VirtioNet.takeUsed, if_pos hne]⟩
  · right
    have hu := h.used
    unfold usedEntries at hu
    rw [unread_of_ne _ hne] at hu
    cases hp : p.used with
    | nil => rw [hp] at hu; cases hu
    | cons x rest =>
      rw [hp, List.map_cons, List.cons_eq_cons] at hu
      obtain ⟨hx, hrest⟩ := hu
      have hf := h.filled x (by simp [hp])
      obtain ⟨tail, htail⟩ := hf.stored
      have hmin : min (x.2.length - HDR_LEN) PKT_SIZE = x.2.length - HDR_LEN := by
        have := hf.fits
        unfold BUF_SIZE at this
        omega
      refine ⟨x, rest, rfl, ?_, hrest⟩
      rw [VirtioNet.takeUsed, if_neg hne]
      simp only [hx, usedEntry_id, usedEntry_len hf.fits, hmin, Fin.is_lt, dif_pos,
        Buf.slice_of_prefix htail]

theorem Represents.takeUsed (h : Represents w p) (he : w.Enabled .takeUsed) :
    ∃ ms p', Run Pool.Step p ms p' ∧ Represents (w.next .takeUsed) p' := by
  have hbusy : p.busy = none := by
    have := h.receiving
    rw [show w.receiving = none from he] at this
    simpa using this.symm
  rcases h.takeUsed_eq with ⟨-, ht⟩ | ⟨x, rest, hp, ht, hrest⟩
  · refine ⟨[], p, .nil, ?_⟩
    simp only [next, ht]
    exact { h with receiving := by simp [hbusy] }
  · refine ⟨_, _, .single (.pick hbusy hp), ?_⟩
    simp only [next, ht]
    refine { h with used := hrest, receiving := rfl, filled := ?_ }
    intro y hy
    apply h.filled
    rw [hp]
    simp only [List.mem_append, List.mem_cons] at hy ⊢
    tauto

theorem Represents.recycle (h : Represents w p) (hc : Pool.Conserved descriptors p)
    (he : w.Enabled .recycle) :
    ∃ p', Pool.Step p .release p' ∧ Represents (w.next .recycle) p' := by
  have hr := h.receiving
  cases hb : p.busy with
  | none =>
    rw [hb] at hr
    exact absurd hr he
  | some x =>
    have hroom : w.availEntries.length < QUEUE_SIZE := by
      have hlen := hc.length
      rw [h.available, List.length_map]
      simp only [descriptors, Multiset.coe_card, List.length_finRange, hb, Option.toList_some,
        List.length_singleton] at hlen
      omega
    rw [hb] at hr
    refine ⟨_, .release hb, ?_⟩
    simp only [next, hr, Option.map_some]
    refine { h with available := ?_, receiving := rfl, received := ?_ }
    · have hput := unread_put w.driver.rxQueue.availRing (availEntry x.1) hroom
      rw [List.map_append, ← h.available]
      exact hput
    · simp [h.received]

theorem Represents.step (h : Represents w p) (hc : Pool.Conserved descriptors p) {a : RxAction}
    {w' : RxWorld} (hs : Step w a w') :
    ∃ ms p', Run Pool.Step p ms p' ∧ Represents w' p' := by
  obtain ⟨he, rfl⟩ := hs
  cases a with
  | take id =>
    obtain ⟨p', hp, hr⟩ := h.take he
    exact ⟨_, p', .single hp, hr⟩
  | write id data =>
    obtain ⟨p', hp, hr⟩ := h.write hc he
    exact ⟨_, p', .single hp, hr⟩
  | publish id data =>
    obtain ⟨p', hp, hr⟩ := h.publish hc he
    exact ⟨_, p', .single hp, hr⟩
  | takeUsed => exact h.takeUsed he
  | recycle =>
    obtain ⟨p', hp, hr⟩ := h.recycle hc he
    exact ⟨_, p', .single hp, hr⟩

end Steps

/-! ## Runs -/

/-- The pool that `init` builds: every descriptor is available. -/
def fullPool : RxPool := ⟨List.finRange QUEUE_SIZE, [], [], [], none, [], []⟩

theorem fullPool_conserved : Pool.Conserved descriptors fullPool := by
  constructor
  · simp [Pool.State.items, fullPool, descriptors]
  · rfl

theorem start_represents {allocs : VirtioNet.DmaAllocs} {offset : UInt64} {d : VirtioNet}
    {writes : List VirtioNet.IoWrite} (h : VirtioNet.Initialised allocs offset d writes) :
    Represents (start d) fullPool := by
  obtain ⟨q, hfill, hq⟩ := h.rxQueue
  obtain ⟨hring, _, _, husedIdx, _⟩ := VirtioNet.foldlM_fillRx hfill
  have havail : q.availRing = availEntry := by
    funext i
    exact (hring i (List.mem_finRange i)).2
  constructor
  · simp only [start, availEntries, hq, havail]
    decide
  · rfl
  · rfl
  · simp only [start, usedEntries, hq, h.rxLastUsed, husedIdx, Virtqueue.zeroed]
    exact unread_self _
  · rfl
  · intro x hx
    cases hx
  · rfl
  · rfl

theorem Represents.run {w w' : RxWorld} {p : RxPool} {as : List RxAction} (h : Represents w p)
    (hc : Pool.Conserved descriptors p) (hr : Run Step w as w') :
    ∃ p', Pool.Conserved descriptors p' ∧ Represents w' p' := by
  induction hr generalizing p with
  | nil => exact ⟨p, hc, h⟩
  | cons hs _ ih =>
    obtain ⟨ms, p₁, hp, h₁⟩ := h.step hc hs
    exact ih h₁ (hc.run hp)

/-- Each descriptor is in exactly one place. -/
theorem Represents.places {w : RxWorld} {p : RxPool} (h : Represents w p)
    (hc : Pool.Conserved descriptors p) :
    (w.available ++ w.heldByDevice ++ w.used).Perm (List.range QUEUE_SIZE) := by
  have hitems : (p.available ++ (p.held ++ p.filled.map Prod.fst) ++
      (p.busy.toList ++ p.used).map Prod.fst).Perm (List.finRange QUEUE_SIZE) := by
    rw [← Multiset.coe_eq_coe, ← Multiset.coe_add, ← Multiset.coe_add, ← Multiset.coe_add,
      ← Multiset.map_coe, ← Multiset.map_coe, ← add_assoc]
    exact hc.items
  have havail : w.available = p.available.map Fin.val := by
    simp [RxWorld.available, h.available, availEntry_toNat, Function.comp_def]
  have hheld : w.heldByDevice = (p.held ++ p.filled.map Prod.fst).map Fin.val := by
    rw [heldByDevice, h.held, h.written]
  have hused : w.used = ((p.busy.toList ++ p.used).map Prod.fst).map Fin.val := by
    unfold RxWorld.used
    rw [h.used, h.receiving]
    cases p.busy <;> simp [usedEntry_id, Function.comp_def]
  rw [havail, hheld, hused, ← List.map_append, ← List.map_append,
    ← List.map_coe_finRange_eq_range]
  exact hitems.map _

theorem Represents.completed_eq {w : RxWorld} {p : RxPool} (h : Represents w p)
    (hc : Pool.Conserved descriptors p) :
    w.completed = w.received ++ p.pending.map (List.drop HDR_LEN) := by
  rw [h.completed, hc.order, h.received, List.map_append]

/-- A call of `receive` returns the oldest of the packets that are still missing. -/
theorem Represents.receive_eq {w : RxWorld} {p : RxPool} (h : Represents w p)
    (hc : Pool.Conserved descriptors p) (hidle : w.receiving = none) :
    w.driver.receive.2 = (w.completed.drop w.received.length).head? := by
  have hbusy : p.busy = none := by
    have hr := h.receiving
    rw [hidle] at hr
    simpa using hr.symm
  rw [h.completed_eq hc, List.drop_left, Pool.State.pending, hbusy, Option.toList_none,
    List.nil_append, VirtioNet.receive]
  rcases h.takeUsed_eq with ⟨hp, ht⟩ | ⟨x, rest, hp, ht, -⟩
  · rw [hp, ht]
    rfl
  · rw [hp, ht]
    rfl

theorem Represents.used_length {w : RxWorld} {p : RxPool} (h : Represents w p) :
    w.used.length = p.pending.length := by
  unfold RxWorld.used Pool.State.pending
  rw [h.used, h.receiving]
  cases p.busy <;> simp

/-- Over any run from the state `init` builds, the packets returned by `receive` are the completed
frames in completion order, each once: the ones still missing are exactly as many as the used
descriptors. A call of `receive` is a run of its steps; it returns the oldest frame still missing, and
nothing only when no descriptor is used. Each of the sixteen descriptors is available, held by the
device, or used. -/
theorem received_in_order {pci : VirtioNet.PciDevice} {allocs : VirtioNet.DmaAllocs}
    {offset : UInt64} {d : VirtioNet} {writes : List VirtioNet.IoWrite}
    (hinit : VirtioNet.init pci allocs offset = some (some (d, writes))) {w : RxWorld}
    {as : List RxAction} (hrun : Run Step (start d) as w) :
    w.received <+: w.completed ∧ w.completed.length = w.received.length + w.used.length ∧
      (w.receiving = none →
        w.driver.receive.2 = (w.completed.drop w.received.length).head? ∧
        (w.driver.receive.2 = none ↔ w.used = []) ∧
        Run Step w (receiveSteps w.driver) w.afterReceive) ∧
      (w.available ++ w.heldByDevice ++ w.used).Perm (List.range QUEUE_SIZE) := by
  obtain ⟨p, hc, h⟩ := (start_represents (VirtioNet.init_spec hinit)).run fullPool_conserved hrun
  have hcompleted := h.completed_eq hc
  have hlength : w.completed.length = w.received.length + w.used.length := by
    rw [hcompleted, h.used_length, List.length_append, List.length_map]
  refine ⟨⟨_, hcompleted.symm⟩, hlength, fun hidle => ?_, h.places hc⟩
  have hreceive := h.receive_eq hc hidle
  refine ⟨hreceive, ?_, run_receive hidle⟩
  rw [hreceive, List.head?_eq_none_iff, List.drop_eq_nil_iff, hlength, ← List.length_eq_zero_iff]
  omega

/-- Two packets, the first of them received: a call of `receive` returns the second. -/
theorem received_in_order_two : ∃ d writes w,
    VirtioNet.init ⟨fun _ => 0, fun _ => 0, fun _ => 0⟩ ⟨0x1000, 0x3000, 0x5000⟩ 0 =
      some (some (d, writes)) ∧
    Run Step (start d) [.take 0, .take 1, .write 1 (List.replicate 10 0 ++ [7, 8]),
      .publish 1 (List.replicate 10 0 ++ [7, 8]), .write 0 (List.replicate 10 0 ++ [9]),
      .publish 0 (List.replicate 10 0 ++ [9]), .takeUsed, .recycle] w ∧
    w.received = [[7, 8]] ∧ w.driver.receive.2 = (w.completed.drop w.received.length).head? ∧
    w.completed = [[7, 8], [9]] := by
  refine ⟨_, _, _, rfl, StepsMeet.run ?_, by decide, ((received_in_order
    (show VirtioNet.init ⟨fun _ => 0, fun _ => 0, fun _ => 0⟩ ⟨0x1000, 0x3000, 0x5000⟩ 0 = _ from rfl)
    (StepsMeet.run ?_)).2.2.1 (by decide)).1, by decide⟩
  all_goals
    refine stepsMeet_cons.2 ⟨by decide, stepsMeet_cons.2 ⟨by decide, stepsMeet_cons.2 ⟨by decide,
      stepsMeet_cons.2 ⟨by decide, stepsMeet_cons.2 ⟨by decide, stepsMeet_cons.2 ⟨by decide,
        stepsMeet_cons.2 ⟨by decide, stepsMeet_cons.2 ⟨by decide, stepsMeet_nil⟩⟩⟩⟩⟩⟩⟩⟩

end RxWorld

end OciKernel
