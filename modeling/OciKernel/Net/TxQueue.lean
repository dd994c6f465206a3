import OciKernel.Lib.Run
import OciKernel.Net.VirtioNet

/-!
# Net.TxQueue

The transmit queue, with the driver's `consume` and a device running side by side. The driver has one
buffer and one descriptor, and `transmit` always returns a token; `consume` is cut in three, so that
the device may also run between its writes. The device takes published entries in ring order, reads
the descriptor, then the buffer, and then publishes a used element.

* `read_prefix_of_undisturbed`: as long as a frame is put into the buffer only while the frames the
  device has still to read have the same bytes, the device reads the queued frames in order.
* `unread_frame_overwritten`: two different frames in a row, and the device reads the second one first.
-/

namespace OciKernel

open Transition

/-- How far the driver is in `consume`. -/
inductive Sending where
  | idle
  | filled (frame : List UInt8)
  | described (frame : List UInt8)

/-- How far the device is with an available entry. -/
inductive Fetching where
  | idle
  | taken (id : Fin QUEUE_SIZE)
  | described (id : Fin QUEUE_SIZE) (desc : VirtqDesc)
  | read (id : Fin QUEUE_SIZE)

/-- Entries the device has taken but not read. -/
def Fetching.unread : Fetching → Nat
  | .taken _ => 1
  | .described _ _ => 1
  | _ => 0

structure TxWorld where
  driver : VirtioNet
  sending : Sending
  /-- How far the device is in the available ring. -/
  pos : UInt16
  fetching : Fetching
  queued : List (List UInt8)
  read : List (List UInt8)

inductive TxAction where
  | fill (frame : List UInt8)
  | describe
  | publish
  | take
  | readDesc
  | readBuf
  | complete (len : UInt32)

namespace TxWorld

def start (driver : VirtioNet) : TxWorld := ⟨driver, .idle, 0, .idle, [], []⟩

/-- The device's used element for descriptor `id`. -/
def publishUsed (d : VirtioNet) (id : Fin QUEUE_SIZE) (len : UInt32) : VirtioNet :=
  let usedIdx := d.txQueue.usedIdx
  { d with txQueue := { d.txQueue with
    usedRing := Function.update d.txQueue.usedRing (ringSlot usedIdx) ⟨UInt32.ofNat id, len⟩
    usedIdx := usedIdx + 1 } }

/-- The buffer of the driver is at `txBufAddr`; the device finds it at that address less the offset of
the physical window, the address in the descriptor. It strips the header of what it reads. -/
inductive Step (txBufAddr : UInt64) : TxWorld → TxAction → TxWorld → Prop where
  | fill {w : TxWorld} {frame : List UInt8} {d : VirtioNet} (hs : w.sending = .idle)
      (h : w.driver.fillTxBuf frame = some d) :
      Step txBufAddr w (.fill frame) { w with driver := d, sending := .filled frame }
  | describe {w : TxWorld} {frame : List UInt8} {d : VirtioNet} (hs : w.sending = .filled frame)
      (h : w.driver.describeTx txBufAddr frame.length = some d) :
      Step txBufAddr w .describe { w with driver := d, sending := .described frame }
  | publish {w : TxWorld} {frame : List UInt8} (hs : w.sending = .described frame) :
      Step txBufAddr w .publish { w with
        driver := w.driver.publishTx
        sending := .idle
        queued := w.queued ++ [frame] }
  | take {w : TxWorld} {id : Fin QUEUE_SIZE} (hf : w.fetching = .idle)
      (hne : w.pos ≠ w.driver.txQueue.availIdx)
      (hid : w.driver.txQueue.availRing (ringSlot w.pos) = UInt16.ofNat id) :
      Step txBufAddr w .take { w with pos := w.pos + 1, fetching := .taken id }
  | readDesc {w : TxWorld} {id : Fin QUEUE_SIZE} (hf : w.fetching = .taken id) :
      Step txBufAddr w .readDesc { w with fetching := .described id (w.driver.txQueue.desc id) }
  | readBuf {w : TxWorld} {id : Fin QUEUE_SIZE} {desc : VirtqDesc}
      (hf : w.fetching = .described id desc)
      (ha : checkedSub txBufAddr w.driver.physOffset = some desc.addr) :
      Step txBufAddr w .readBuf { w with
        fetching := .read id
        read := w.read ++ [(w.driver.txBuf.slice 0 desc.len.toNat).drop HDR_LEN] }
  | complete {w : TxWorld} {id : Fin QUEUE_SIZE} (len : UInt32) (hf : w.fetching = .read id) :
      Step txBufAddr w (.complete len) { w with
        driver := publishUsed w.driver id len
        fetching := .idle }

/-- The queued frames that the device has not read. -/
def pending (w : TxWorld) : List (List UInt8) := w.queued.drop w.read.length

/-- A frame is put into the buffer only while every frame still to be read has the same bytes. -/
def Undisturbed (w : TxWorld) : TxAction → Prop
  | .fill frame => ∀ g ∈ w.pending, g = frame
  | _ => True

/-- `consume` called on its own is the three driver steps after one another, and disturbs nothing if
its first step does not. -/
theorem run_consume {txBufAddr : UInt64} {w : TxWorld} {frame : List UInt8} {d : VirtioNet}
    (hs : w.sending = .idle) (h : w.driver.consume txBufAddr frame = some d)
    (hu : w.Undisturbed (.fill frame)) :
    Run (fun w a w' => Step txBufAddr w a w' ∧ w.Undisturbed a) w [.fill frame, .describe, .publish]
      { w with driver := d, queued := w.queued ++ [frame] } := by
  unfold VirtioNet.consume at h
  obtain ⟨d₁, h₁, h⟩ := Option.bind_eq_some_iff.1 h
  obtain ⟨d₂, h₂, h⟩ := Option.bind_eq_some_iff.1 h
  cases h
  cases w with
  | mk driver sending pos fetching queued read =>
    cases hs
    exact .cons ⟨.fill rfl h₁, hu⟩
      (.cons ⟨.describe rfl h₂, trivial⟩ (.single ⟨.publish rfl, trivial⟩))

/-- The transmit buffer starts with the zeroed header and `frame`. -/
def Stored (d : VirtioNet) (frame : List UInt8) : Prop :=
  ∃ rest, d.txBuf.bytes = List.replicate HDR_LEN 0 ++ frame ++ rest

def Covers (desc : VirtqDesc) (frame : List UInt8) : Prop :=
  desc.len = UInt32.ofNat (HDR_LEN + frame.length)

/-- A descriptor for a stored frame makes the device read that frame. -/
theorem Stored.slice {d : VirtioNet} {frame : List UInt8} (h : Stored d frame) {desc : VirtqDesc}
    (hc : Covers desc frame) : (d.txBuf.slice 0 desc.len.toNat).drop HDR_LEN = frame := by
  obtain ⟨rest, hbytes⟩ := h
  have hsize := d.txBuf.size
  rw [hbytes] at hsize
  simp only [List.length_append, List.length_replicate] at hsize
  have hlen : desc.len.toNat = (List.replicate HDR_LEN (0 : UInt8) ++ frame).length := by
    rw [hc, List.length_append, List.length_replicate]
    apply UInt32.toNat_ofNat_of_lt'
    have : BUF_SIZE < UInt32.size := by decide
    omega
  have hslice := Buf.slice_of_prefix hbytes 0
  rw [Nat.sub_zero, List.drop_zero] at hslice
  rw [hlen, hslice]
  simp

/-! ## The invariant -/

structure Inv (w : TxWorld) : Prop where
  ordered : w.read <+: w.queued
  ring : ∀ i, w.driver.txQueue.availRing i = 0
  availIdx : w.driver.txQueue.availIdx = UInt16.ofNat w.queued.length
  pos : w.pos = UInt16.ofNat (w.read.length + w.fetching.unread)
  unread_le : w.fetching.unread ≤ w.pending.length
  stored : ∀ g ∈ w.pending, Stored w.driver g ∧ Covers (w.driver.txQueue.desc 0) g
  filled : ∀ f, w.sending = .filled f → Stored w.driver f ∧ ∀ g ∈ w.pending, g = f
  described : ∀ f, w.sending = .described f →
    Stored w.driver f ∧ Covers (w.driver.txQueue.desc 0) f ∧ ∀ g ∈ w.pending, g = f
  taken : ∀ id, w.fetching = .taken id → id = 0
  fetched : ∀ id desc, w.fetching = .described id desc → ∀ g ∈ w.pending, Covers desc g

section Steps

variable {txBufAddr : UInt64} {w : TxWorld}

theorem Inv.queued_eq (h : Inv w) : w.queued = w.read ++ w.pending := by
  obtain ⟨t, ht⟩ := h.ordered
  rw [pending, ← ht, List.drop_left]

theorem Inv.fill (h : Inv w) {frame : List UInt8} {d : VirtioNet}
    (hd : w.driver.fillTxBuf frame = some d) (hu : w.Undisturbed (.fill frame)) :
    Inv { w with driver := d, sending := .filled frame } := by
  obtain ⟨buf, rest, rfl, hbuf⟩ := VirtioNet.fillTxBuf_spec hd
  have hstored : Stored { w.driver with txBuf := buf } frame := ⟨rest, hbuf⟩
  refine { h with stored := ?_, filled := ?_, described := ?_ }
  · intro g hg
    refine ⟨?_, (h.stored g hg).2⟩
    rw [hu g hg]
    exact hstored
  · intro f hf
    cases hf
    exact ⟨hstored, hu⟩
  · intro f hf
    cases hf

theorem Inv.describe (h : Inv w) {frame : List UInt8} {d : VirtioNet}
    (hs : w.sending = .filled frame) (hd : w.driver.describeTx txBufAddr frame.length = some d) :
    Inv { w with driver := d, sending := .described frame } := by
  obtain ⟨addr, _, rfl⟩ := VirtioNet.describeTx_spec hd
  obtain ⟨hstored, hsame⟩ := h.filled frame hs
  have hcovers : Covers (Function.update w.driver.txQueue.desc 0
      ⟨addr, UInt32.ofNat (HDR_LEN + frame.length), 0, 0⟩ 0) frame := by
    rw [Function.update_self]
    rfl
  refine { h with stored := ?_, filled := ?_, described := ?_ }
  · intro g hg
    rw [hsame g hg]
    exact ⟨hstored, hcovers⟩
  · intro f hf
    cases hf
  · intro f hf
    cases hf
    exact ⟨hstored, hcovers, hsame⟩

theorem Inv.publish (h : Inv w) {frame : List UInt8} (hs : w.sending = .described frame) :
    Inv { w with driver := w.driver.publishTx, sending := .idle, queued := w.queued ++ [frame] } := by
  obtain ⟨hstored, hcovers, hsame⟩ := h.described frame hs
  have hle := h.ordered.length_le
  have hpend : (w.queued ++ [frame]).drop w.read.length = w.pending ++ [frame] :=
    List.drop_append_of_le_length hle
  have hall : ∀ g ∈ w.pending ++ [frame], g = frame := by
    intro g hg
    cases List.mem_append.1 hg with
    | inl hg => exact hsame g hg
    | inr hg => exact List.mem_singleton.1 hg
  constructor
  · exact h.ordered.trans (List.prefix_append _ _)
  · intro i
    by_cases hi : i = ringSlot w.driver.txQueue.availIdx
    · simp [VirtioNet.publishTx, hi]
    · simp [VirtioNet.publishTx, hi, h.ring i]
  · show w.driver.txQueue.availIdx + 1 = _
    rw [h.availIdx, List.length_append, List.length_singleton, UInt16.ofNat_add]
    rfl
  · exact h.pos
  · have := h.unread_le
    simp only [pending] at hpend ⊢
    rw [hpend, List.length_append]
    unfold pending at this
    omega
  · intro g hg
    unfold pending at hg
    rw [hpend] at hg
    rw [hall g hg]
    exact ⟨hstored, hcovers⟩
  · intro f hf
    cases hf
  · intro f hf
    cases hf
  · exact h.taken
  · intro id desc hf g hg
    unfold pending at hg
    rw [hpend] at hg
    rw [hall g hg]
    have := h.unread_le
    rw [show w.fetching = .described id desc from hf] at this
    obtain ⟨g', hg'⟩ := List.exists_mem_of_length_pos (show 0 < w.pending.length from this)
    exact hsame g' hg' ▸ h.fetched id desc hf g' hg'

theorem Inv.take (h : Inv w) {id : Fin QUEUE_SIZE} (hf : w.fetching = .idle)
    (hne : w.pos ≠ w.driver.txQueue.availIdx)
    (hid : w.driver.txQueue.availRing (ringSlot w.pos) = UInt16.ofNat id) :
    Inv { w with pos := w.pos + 1, fetching := .taken id } := by
  have hpos := h.pos
  rw [hf] at hpos
  have hlt : 0 < w.pending.length := by
    have hle := h.ordered.length_le
    have hne' : w.read.length ≠ w.queued.length := by
      intro he
      exact hne (by rw [hpos, h.availIdx, ← he]; rfl)
    unfold pending
    rw [List.length_drop]
    omega
  refine { h with pos := ?_, unread_le := hlt, taken := ?_, fetched := ?_ }
  · show w.pos + 1 = UInt16.ofNat (w.read.length + 1)
    rw [UInt16.ofNat_add, hpos]
    rfl
  · intro id' he
    cases he
    rw [h.ring] at hid
    have hz := congrArg UInt16.toNat hid
    rw [toNat_descIdx] at hz
    exact Fin.ext hz.symm
  · intro id' desc he
    cases he

theorem Inv.readDesc (h : Inv w) {id : Fin QUEUE_SIZE} (hf : w.fetching = .taken id) :
    Inv { w with fetching := .described id (w.driver.txQueue.desc id) } := by
  have hpos := h.pos
  have hle := h.unread_le
  rw [hf] at hpos hle
  refine { h with pos := hpos, unread_le := hle, taken := ?_, fetched := ?_ }
  · intro id' he
    cases he
  · intro id' desc he g hg
    cases he
    rw [h.taken id hf]
    exact (h.stored g hg).2

/-- The device reads the oldest pending frame. -/
theorem Inv.readBuf (h : Inv w) {id : Fin QUEUE_SIZE} {desc : VirtqDesc}
    (hf : w.fetching = .described id desc) :
    Inv { w with
      fetching := .read id
      read := w.read ++ [(w.driver.txBuf.slice 0 desc.len.toNat).drop HDR_LEN] } := by
  have hpos := h.pos
  have hle := h.unread_le
  rw [hf] at hpos hle
  cases hp : w.pending with
  | nil =>
    rw [hp] at hle
    cases hle
  | cons g rest =>
    have hg : g ∈ w.pending := by simp [hp]
    have hq : w.queued = w.read ++ g :: rest := hp ▸ h.queued_eq
    rw [(h.stored g hg).1.slice (h.fetched id desc hf g hg)]
    have hpend : ({ w with fetching := .read id, read := w.read ++ [g] } : TxWorld).pending =
        rest := by
      unfold pending
      simp [hq]
    have hsub : ∀ x ∈ rest, x ∈ w.pending := by
      intro x hx
      simp [hp, hx]
    refine { h with
      ordered := ⟨rest, by simp [hq]⟩, pos := by simpa [Fetching.unread] using hpos,
      unread_le := Nat.zero_le _, stored := ?_, filled := ?_, described := ?_, taken := ?_,
      fetched := ?_ }
    · intro x hx
      exact h.stored x (hsub x (hpend ▸ hx))
    · intro f hs
      exact ⟨(h.filled f hs).1, fun x hx => (h.filled f hs).2 x (hsub x (hpend ▸ hx))⟩
    · intro f hs
      obtain ⟨h₁, h₂, h₃⟩ := h.described f hs
      exact ⟨h₁, h₂, fun x hx => h₃ x (hsub x (hpend ▸ hx))⟩
    · intro id' he
      cases he
    · intro id' desc' he
      cases he

theorem Inv.complete (h : Inv w) {id : Fin QUEUE_SIZE} (len : UInt32) (hf : w.fetching = .read id) :
    Inv { w with driver := publishUsed w.driver id len, fetching := .idle } := by
  have hpos := h.pos
  rw [hf] at hpos
  refine { h with pos := hpos, unread_le := Nat.zero_le _, taken := ?_, fetched := ?_ }
  · intro id' he
    cases he
  · intro id' desc he
    cases he

theorem Inv.step (h : Inv w) {a : TxAction} {w' : TxWorld} (hs : Step txBufAddr w a w')
    (hu : w.Undisturbed a) : Inv w' := by
  cases hs with
  | fill _ hd => exact h.fill hd hu
  | describe hs hd => exact h.describe hs hd
  | publish hs => exact h.publish hs
  | take hf hne hid => exact h.take hf hne hid
  | readDesc hf => exact h.readDesc hf
  | readBuf hf _ => exact h.readBuf hf
  | complete len hf => exact h.complete len hf

/-- All pending frames are the one in the buffer. -/
theorem Inv.pending_eq (h : Inv w) {f g : List UInt8} (hf : f ∈ w.pending) (hg : g ∈ w.pending) :
    f = g := by
  rw [← (h.stored f hf).1.slice (h.stored f hf).2, ← (h.stored g hg).1.slice (h.stored g hg).2]

/-- After a whole `consume`, the device may take the next entry and reads the frame just queued. -/
theorem Inv.run_read (h : Inv w) (hs : w.sending = .idle) (hf : w.fetching = .idle)
    {frame : List UInt8} (hlen : frame.length ≤ PKT_SIZE) (haddr : w.driver.physOffset ≤ txBufAddr)
    (hwrap : w.pending.length + 1 < 2 ^ 16) :
    ∃ w', Run (Step txBufAddr) w
        [.fill frame, .describe, .publish, .take, .readDesc, .readBuf] w' ∧
      w'.read = w.read ++ [frame] ∧ w'.queued = w.queued ++ [frame] := by
  obtain ⟨d₁, hd₁⟩ := w.driver.exists_fillTxBuf hlen
  have hfacts₁ : Stored d₁ frame ∧ d₁.txQueue = w.driver.txQueue ∧
      d₁.physOffset = w.driver.physOffset := by
    obtain ⟨buf, rest, rfl, hbuf⟩ := VirtioNet.fillTxBuf_spec hd₁
    exact ⟨⟨rest, hbuf⟩, rfl, rfl⟩
  obtain ⟨hstored, hq₁, ho₁⟩ := hfacts₁
  obtain ⟨addr, ha⟩ : ∃ addr, checkedSub txBufAddr d₁.physOffset = some addr :=
    ⟨_, if_pos (ho₁ ▸ haddr)⟩
  obtain ⟨d₂, hd₂⟩ : ∃ d₂, d₁.describeTx txBufAddr frame.length = some d₂ := by
    simp [VirtioNet.describeTx, ha]
  have hfacts₂ : d₂.txBuf = d₁.txBuf ∧ d₂.physOffset = d₁.physOffset ∧
      d₂.txQueue.availRing = w.driver.txQueue.availRing ∧
      d₂.txQueue.availIdx = w.driver.txQueue.availIdx ∧
      d₂.txQueue.desc 0 = ⟨addr, UInt32.ofNat (HDR_LEN + frame.length), 0, 0⟩ := by
    obtain ⟨addr', ha', rfl⟩ := VirtioNet.describeTx_spec hd₂
    cases ha.symm.trans ha'
    exact ⟨rfl, rfl, by rw [← hq₁], by rw [← hq₁], by simp⟩
  obtain ⟨hbuf, ho₂, hring₂, hidx₂, hdesc⟩ := hfacts₂
  have hne : w.pos ≠ d₂.publishTx.txQueue.availIdx := by
    show w.pos ≠ d₂.txQueue.availIdx + 1
    intro he
    have hpos := h.pos
    have hq := congrArg List.length h.queued_eq
    rw [List.length_append] at hq
    rw [hf] at hpos
    rw [hpos, hidx₂, h.availIdx, hq] at he
    have := congrArg UInt16.toNat he
    simp [Fetching.unread] at this
    omega
  have hring : d₂.publishTx.txQueue.availRing (ringSlot w.pos) =
      UInt16.ofNat (0 : Fin QUEUE_SIZE) := by
    show Function.update d₂.txQueue.availRing _ 0 _ = 0
    by_cases hi : ringSlot w.pos = ringSlot d₂.txQueue.availIdx
    · simp [hi]
    · simp [hi, hring₂, h.ring]
  have haddr₂ : checkedSub txBufAddr d₂.publishTx.physOffset = some (d₂.txQueue.desc 0).addr := by
    rw [hdesc]
    exact ho₂ ▸ ha
  refine ⟨_, .cons (.fill hs hd₁) <| .cons (.describe rfl hd₂) <| .cons (.publish rfl) <|
    .cons (.take hf hne hring) <| .cons (.readDesc rfl) <| .single (.readBuf rfl haddr₂), ?_, rfl⟩
  show w.read ++ [(d₂.txBuf.slice 0 (d₂.txQueue.desc 0).len.toNat).drop HDR_LEN] = _
  rw [hbuf, hstored.slice (congrArg VirtqDesc.len hdesc)]

/-- The condition is sharp: if the device is between entries, a frame put over a different one that it
has still to read is read in its place. -/
theorem Inv.disordered_of_disturbed (h : Inv w) (hs : w.sending = .idle) (hf : w.fetching = .idle)
    {frame : List UInt8} (hlen : frame.length ≤ PKT_SIZE) (haddr : w.driver.physOffset ≤ txBufAddr)
    (hwrap : w.pending.length + 1 < 2 ^ 16) (hu : ¬ w.Undisturbed (.fill frame)) :
    ∃ as w', Run (Step txBufAddr) w (.fill frame :: as) w' ∧ ¬ w'.read <+: w'.queued := by
  obtain ⟨w', hrun, hread, hqueued⟩ := h.run_read hs hf hlen haddr hwrap
  refine ⟨_, w', hrun, ?_⟩
  intro hprefix
  apply hu
  intro g hg
  cases hp : w.pending with
  | nil =>
    rw [hp] at hg
    cases hg
  | cons g' rest =>
    rw [hread, hqueued, h.queued_eq, hp, List.append_assoc, List.prefix_append_right_inj] at hprefix
    obtain ⟨hhead, _⟩ := List.cons_prefix_cons.1 hprefix
    rw [hhead]
    exact h.pending_eq hg (by simp [hp])

end Steps

theorem start_inv {allocs : VirtioNet.DmaAllocs} {offset : UInt64} {d : VirtioNet}
    {writes : List VirtioNet.IoWrite} (h : VirtioNet.Initialised allocs offset d writes) :
    Inv (start d) := by
  constructor <;> simp [start, pending, h.txQueue, Virtqueue.zeroed, Fetching.unread]

/-- Over any run from the state `init` builds in which a frame is put into the buffer only while the
frames the device has still to read have the same bytes, the frames the device reads are a prefix of
the queued ones. A whole call of `consume` under that condition continues such a run. -/
theorem read_prefix_of_undisturbed {pci : VirtioNet.PciDevice} {allocs : VirtioNet.DmaAllocs}
    {offset : UInt64} {d : VirtioNet} {writes : List VirtioNet.IoWrite}
    (hinit : VirtioNet.init pci allocs offset = some (some (d, writes))) {txBufAddr : UInt64}
    {w : TxWorld} {as : List TxAction}
    (hrun : Run (fun w a w' => Step txBufAddr w a w' ∧ w.Undisturbed a) (start d) as w) :
    w.read <+: w.queued ∧
    ∀ frame d', w.sending = .idle → w.Undisturbed (.fill frame) →
      w.driver.consume txBufAddr frame = some d' →
      Run (fun w a w' => Step txBufAddr w a w' ∧ w.Undisturbed a) (start d)
        (as ++ [.fill frame, .describe, .publish])
        { w with driver := d', queued := w.queued ++ [frame] } := by
  have hinv : Inv w :=
    hrun.invariant (fun _ _ _ h hs => h.step hs.1 hs.2) (start_inv (VirtioNet.init_spec hinit))
  refine ⟨hinv.ordered, ?_⟩
  intro frame d' hidle hu hconsume
  exact hrun.append (run_consume hidle hconsume hu)

/-- A driver that `init` returns for a device with all registers zero. -/
theorem exists_init : ∃ mac ioBase rxQueue rxBufs rxLastUsed writes,
    VirtioNet.init ⟨fun _ => 0, fun _ => 0, fun _ => 0⟩ ⟨0x1000, 0x3000, 0x5000⟩ 0 =
      some (some (⟨mac, ioBase, 0, rxQueue, rxBufs, rxLastUsed, .zeroed, .zeroed⟩, writes)) :=
  ⟨_, _, _, _, _, _, rfl⟩

/-- One frame, read by the device after it was published. -/
theorem read_prefix_one : ∃ d writes w,
    VirtioNet.init ⟨fun _ => 0, fun _ => 0, fun _ => 0⟩ ⟨0x1000, 0x3000, 0x5000⟩ 0 =
      some (some (d, writes)) ∧
    Run (fun w a w' => Step 0x9000 w a w' ∧ w.Undisturbed a) (start d)
      [.fill [7, 8], .describe, .publish, .take, .readDesc, .readBuf] w ∧
    w.read = [[7, 8]] ∧ w.read <+: w.queued := by
  obtain ⟨mac, ioBase, rxQueue, rxBufs, rxLastUsed, writes, hinit⟩ := exists_init
  have htake : (0 : UInt16) ≠ 1 := by decide
  have hid : (0 : UInt16) = UInt16.ofNat (0 : Fin QUEUE_SIZE) := rfl
  have hnone : ∀ g ∈ ([] : List (List UInt8)), g = [7, 8] := by simp
  have hrun : ∃ w, Run (fun w a w' => Step 0x9000 w a w' ∧ w.Undisturbed a)
      (start ⟨mac, ioBase, 0, rxQueue, rxBufs, rxLastUsed, .zeroed, .zeroed⟩)
      [.fill [7, 8], .describe, .publish, .take, .readDesc, .readBuf] w ∧ w.read = [[7, 8]] :=
    ⟨_, .cons ⟨.fill rfl rfl, hnone⟩ <| .cons ⟨.describe rfl rfl, trivial⟩ <|
      .cons ⟨.publish rfl, trivial⟩ <| .cons ⟨.take rfl htake hid, trivial⟩ <|
      .cons ⟨.readDesc rfl, trivial⟩ <| .single ⟨.readBuf rfl rfl, trivial⟩, rfl⟩
  obtain ⟨w, hrun, hread⟩ := hrun
  exact ⟨_, _, _, hinit, hrun, hread, (read_prefix_of_undisturbed hinit hrun).1⟩

/-- Two frames queued in a row: the device reads the second one where it should read the first. -/
theorem unread_frame_overwritten : ∃ d writes w,
    VirtioNet.init ⟨fun _ => 0, fun _ => 0, fun _ => 0⟩ ⟨0x1000, 0x3000, 0x5000⟩ 0 =
      some (some (d, writes)) ∧
    Run (Step 0x9000) (start d) [.fill [1], .describe, .publish, .fill [2], .describe, .publish,
      .take, .readDesc, .readBuf] w ∧ ¬ w.read <+: w.queued := by
  obtain ⟨mac, ioBase, rxQueue, rxBufs, rxLastUsed, writes, hinit⟩ := exists_init
  have htake : (0 : UInt16) ≠ 2 := by decide
  have hid : (0 : UInt16) = UInt16.ofNat (0 : Fin QUEUE_SIZE) := rfl
  have hread : ¬ [[(2 : UInt8)]] <+: [[1], [2]] := by decide
  exact ⟨_, _, _, hinit, .cons (.fill rfl rfl) <| .cons (.describe rfl rfl) <| .cons (.publish rfl) <|
    .cons (.fill rfl rfl) <| .cons (.describe rfl rfl) <| .cons (.publish rfl) <|
    .cons (.take rfl htake hid) <| .cons (.readDesc rfl) <| .single (.readBuf rfl rfl), hread⟩

end TxWorld

end OciKernel
