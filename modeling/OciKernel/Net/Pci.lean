import OciKernel.Net.VirtioNet

/-!
# Net.Pci

PCI configuration space behind the ports `0xCF8` and `0xCFC`, and `VirtioNet::probe`.

`PciBus` is the host bridge: the last address word written, and the registers of the devices. What a
device makes of a value written to a register is its own affair (`commit`).

* `decode_pciAddr`: the address word of `pci_read32` leads to the register it is meant for.
* `probe_spec`: the scan initialises the first virtio-net device of the bus and writes to no other
  register than that device's command register.
-/

namespace OciKernel

/-- A register of the configuration space; `reg` counts words of four bytes. -/
structure PciAddress where
  bus : Fin 256
  dev : Fin 32
  func : Fin 8
  reg : Fin 64
deriving DecidableEq

namespace PciAddress

/-- What the host bridge takes an address word for; the top bit enables it. -/
def decode (addr : UInt32) : Option PciAddress :=
  if addr.toNat < 2 ^ 31 then none
  else some ⟨Fin.ofNat 256 (addr.toNat / 2 ^ 16), Fin.ofNat 32 (addr.toNat / 2 ^ 11),
    Fin.ofNat 8 (addr.toNat / 2 ^ 8), Fin.ofNat 64 (addr.toNat / 4)⟩

end PciAddress

/-- The address word of `pci_read32` and `pci_write32`. -/
def pciAddr (bus dev func offset : UInt8) : UInt32 :=
  (0x80000000 : UInt32) ||| bus.toUInt32 <<< 16 ||| dev.toUInt32 <<< 11 ||| func.toUInt32 <<< 8 |||
    (offset &&& 0xFC).toUInt32

/-- The register that `pci_read32(bus, dev, func, offset)` is meant to read. -/
def pciRegister (bus dev func offset : UInt8) : PciAddress :=
  ⟨Fin.ofNat 256 bus.toNat, Fin.ofNat 32 dev.toNat, Fin.ofNat 8 func.toNat,
    Fin.ofNat 64 (offset.toNat / 4)⟩

section Address

variable {bus dev func offset : UInt8}

theorem or_eq_add {x y i : Nat} (hx : 2 ^ i ∣ x) (hy : y < 2 ^ i) : x ||| y = x + y := by
  obtain ⟨a, rfl⟩ := hx
  rw [Nat.mul_comm, ← Nat.shiftLeft_eq, Nat.shiftLeft_add_eq_or_of_lt hy]

theorem toNat_offset (offset : UInt8) : (offset &&& 0xFC).toNat = offset.toNat / 4 * 4 := by
  have hall : ∀ n < 256, n &&& 0xFC = n / 4 * 4 := by decide +kernel
  rw [UInt8.toNat_and]
  exact hall offset.toNat offset.toNat_lt

/-- The fields do not overlap. -/
theorem toNat_pciAddr (hdev : dev < 32) (hfunc : func < 8) : (pciAddr bus dev func offset).toNat =
    2 ^ 31 + bus.toNat * 2 ^ 16 + dev.toNat * 2 ^ 11 + func.toNat * 2 ^ 8 + offset.toNat / 4 * 4 := by
  have hbus := bus.toNat_lt
  have hdev : dev.toNat < 32 := hdev
  have hfunc : func.toNat < 8 := hfunc
  have hoffset := offset.toNat_lt
  have henable : (0x80000000 : UInt32).toNat = 2 ^ 31 := rfl
  have h16 : (16 : UInt32).toNat % 32 = 16 := rfl
  have h11 : (11 : UInt32).toNat % 32 = 11 := rfl
  have h8 : (8 : UInt32).toNat % 32 = 8 := rfl
  have hor₁ : 2 ^ 31 ||| bus.toNat * 2 ^ 16 = 2 ^ 31 + bus.toNat * 2 ^ 16 :=
    or_eq_add (i := 24) (by omega) (by omega)
  have hor₂ : 2 ^ 31 + bus.toNat * 2 ^ 16 ||| dev.toNat * 2 ^ 11 =
      2 ^ 31 + bus.toNat * 2 ^ 16 + dev.toNat * 2 ^ 11 := or_eq_add (i := 16) (by omega) (by omega)
  have hor₃ : 2 ^ 31 + bus.toNat * 2 ^ 16 + dev.toNat * 2 ^ 11 ||| func.toNat * 2 ^ 8 =
      2 ^ 31 + bus.toNat * 2 ^ 16 + dev.toNat * 2 ^ 11 + func.toNat * 2 ^ 8 :=
    or_eq_add (i := 11) (by omega) (by omega)
  simp only [pciAddr, UInt32.toNat_or, UInt32.toNat_shiftLeft, UInt8.toNat_toUInt32, toNat_offset,
    henable, h16, h11, h8, Nat.shiftLeft_eq]
  rw [Nat.mod_eq_of_lt (by omega), Nat.mod_eq_of_lt (by omega), Nat.mod_eq_of_lt (by omega), hor₁, hor₂,
    hor₃, or_eq_add (i := 8) (by omega) (by omega)]

theorem decode_pciAddr (hdev : dev < 32) (hfunc : func < 8) :
    PciAddress.decode (pciAddr bus dev func offset) = some (pciRegister bus dev func offset) := by
  have hbus := bus.toNat_lt
  have hdev' : dev.toNat < 32 := hdev
  have hfunc' : func.toNat < 8 := hfunc
  have hoffset := offset.toNat_lt
  rw [PciAddress.decode, toNat_pciAddr hdev hfunc, if_neg (by omega), pciRegister]
  congr 2 <;> refine Fin.ext ?_ <;> simp only [Fin.val_ofNat] <;> omega

end Address

/-! ## The ports -/

/-- The host bridge and the devices behind it. -/
structure PciBus where
  latch : UInt32
  space : PciAddress → UInt32
  /-- What a device keeps of a value written to one of its registers, after the old value. -/
  commit : PciAddress → UInt32 → UInt32 → UInt32

namespace PciBus

/-- A bus without devices. -/
def empty : PciBus := ⟨0, fun _ => 0xFFFFFFFF, fun _ _ value => value⟩

/-- A word written to `0xCF8`. -/
def outAddr (p : PciBus) (addr : UInt32) : PciBus := { p with latch := addr }

/-- A word read from `0xCFC`. -/
def inData (p : PciBus) : UInt32 :=
  match PciAddress.decode p.latch with
  | some a => p.space a
  | none => 0xFFFFFFFF

/-- A word written to `0xCFC`. -/
def outData (p : PciBus) (value : UInt32) : PciBus :=
  match PciAddress.decode p.latch with
  | some a => { p with space := Function.update p.space a (p.commit a (p.space a) value) }
  | none => p

end PciBus

def pciRead32 (p : PciBus) (bus dev func offset : UInt8) : UInt32 × PciBus :=
  let p := p.outAddr (pciAddr bus dev func offset)
  (p.inData, p)

def pciWrite32 (p : PciBus) (bus dev func offset : UInt8) (value : UInt32) : PciBus :=
  (p.outAddr (pciAddr bus dev func offset)).outData value

section Ports

variable {p : PciBus} {bus dev func offset : UInt8}

theorem pciRead32_eq (p : PciBus) (hdev : dev < 32) (hfunc : func < 8) :
    pciRead32 p bus dev func offset = (p.space (pciRegister bus dev func offset),
      { p with latch := pciAddr bus dev func offset }) := by
  simp only [pciRead32, PciBus.outAddr, PciBus.inData, decode_pciAddr hdev hfunc]

theorem pciWrite32_eq (p : PciBus) (hdev : dev < 32) (hfunc : func < 8) (value : UInt32) :
    pciWrite32 p bus dev func offset value =
      { p with
        latch := pciAddr bus dev func offset
        space := Function.update p.space (pciRegister bus dev func offset)
          (p.commit (pciRegister bus dev func offset) (p.space (pciRegister bus dev func offset)) value) } := by
  simp only [pciWrite32, PciBus.outAddr, PciBus.outData, decode_pciAddr hdev hfunc]

end Ports

/-! ## `probe` -/

/-- The buses and devices of the two loops, in their order. -/
def slots : List (UInt8 × UInt8) :=
  (List.range 256).flatMap fun bus => (List.range 32).map fun dev => (UInt8.ofNat bus, UInt8.ofNat dev)

/-- What is left of the scan, up to the device found. -/
def findDevice (p : PciBus) : List (UInt8 × UInt8) → Option (UInt8 × UInt8) × PciBus
  | [] => (none, p)
  | (bus, dev) :: rest =>
    let (val, p) := pciRead32 p bus dev 0 0
    if val = 0xFFFFFFFF then findDevice p rest
    else
      let vendor := (val &&& 0xFFFF).toUInt16
      let device := (val >>> 16).toUInt16
      if vendor = 0x1AF4 ∧ device = 0x1000 then (some (bus, dev), p) else findDevice p rest

/-- The device that `init` is given, as configuration space and ports show it. -/
def pciDevice (p : PciBus) (bus dev : UInt8) (in8 : UInt16 → UInt8) (in32 : UInt16 → UInt32) :
    VirtioNet.PciDevice :=
  ⟨fun offset => (pciRead32 p bus dev 0 offset).1, in8, in32⟩

/-- `init` enables the device in its command register before anything else. -/
def enableDevice (p : PciBus) (bus dev : UInt8) : PciBus :=
  let (cmd, p) := pciRead32 p bus dev 0 0x04
  pciWrite32 p bus dev 0 0x04 (cmd ||| 0x5)

/-- `VirtioNet::probe`; an outer `none` is a panic. -/
def probe (p : PciBus) (in8 : UInt16 → UInt8) (in32 : UInt16 → UInt32) (allocs : VirtioNet.DmaAllocs)
    (physOffset : UInt64) : Option (Option (VirtioNet × List VirtioNet.IoWrite)) × PciBus :=
  match findDevice p slots with
  | (none, p) => (some none, p)
  | (some (bus, dev), p) =>
    (VirtioNet.init (pciDevice p bus dev in8 in32) allocs physOffset, enableDevice p bus dev)

/-- Function 0 of the device carries the vendor and device ids of a virtio-net device. -/
def VirtioNetAt (space : PciAddress → UInt32) (slot : UInt8 × UInt8) : Prop :=
  space (pciRegister slot.1 slot.2 0 0) = 0x10001AF4

instance (space : PciAddress → UInt32) : DecidablePred (VirtioNetAt space) := fun _ =>
  inferInstanceAs (Decidable (_ = _))

/-- The order of the scan. -/
def Before (slot slot' : UInt8 × UInt8) : Prop :=
  slot.1 < slot'.1 ∨ slot.1 = slot'.1 ∧ slot.2 < slot'.2

section Probe

variable {p : PciBus} {slot : UInt8 × UInt8}

theorem mem_slots : slot ∈ slots ↔ slot.2 < 32 := by
  obtain ⟨bus, dev⟩ := slot
  simp only [slots, List.mem_flatMap, List.mem_map, List.mem_range, Prod.mk.injEq]
  constructor
  · rintro ⟨b, hb, d, hd, rfl, rfl⟩
    rw [UInt8.lt_iff_toNat_lt, UInt8.toNat_ofNat']
    exact Nat.lt_of_le_of_lt (Nat.mod_le _ _) hd
  · intro h
    exact ⟨bus.toNat, bus.toNat_lt, dev.toNat, h, UInt8.ofNat_toNat, UInt8.ofNat_toNat⟩

theorem ofNat_lt_ofNat {m n : Nat} (h : m < n) (hn : n < 256) : UInt8.ofNat m < UInt8.ofNat n := by
  rw [UInt8.lt_iff_toNat_lt, UInt8.toNat_ofNat_of_lt' hn, UInt8.toNat_ofNat_of_lt' (h.trans hn)]
  exact h

theorem pairwise_slots : slots.Pairwise Before := by
  refine List.pairwise_flatMap.2 ⟨fun b hb => ?_, ?_⟩
  · refine List.pairwise_map.2 (List.pairwise_lt_range.imp_of_mem fun hm hn hlt => .inr ⟨rfl, ?_⟩)
    exact ofNat_lt_ofNat hlt ((List.mem_range.1 hn).trans (by decide))
  · refine List.pairwise_lt_range.imp_of_mem fun hm hn hlt x hx y hy => .inl ?_
    obtain ⟨d, -, rfl⟩ := List.mem_map.1 hx
    obtain ⟨d', -, rfl⟩ := List.mem_map.1 hy
    exact ofNat_lt_ofNat hlt (List.mem_range.1 hn)

theorem not_before_of_mem {slot' : UInt8 × UInt8} {after : List (UInt8 × UInt8)}
    (h : (slot :: after).Pairwise Before) (hmem : slot' ∈ slot :: after) : ¬ Before slot' slot := by
  have hle : slot' = slot ∨ Before slot slot' :=
    (List.mem_cons.1 hmem).imp_right fun hmem => List.rel_of_pairwise_cons h hmem
  simp only [Before, UInt8.lt_iff_toNat_lt, ← UInt8.toNat_inj] at hle ⊢
  rcases hle with rfl | hle <;> omega

/-- The two halves of the id. -/
theorem id_halves (val : UInt32) :
    (val &&& 0xFFFF).toUInt16 = 0x1AF4 ∧ (val >>> 16).toUInt16 = 0x1000 ↔ val = 0x10001AF4 := by
  have hval := val.toNat_lt
  have hlow : (val &&& 0xFFFF).toUInt16.toNat = val.toNat % 2 ^ 16 := by
    rw [UInt32.toNat_toUInt16, UInt32.toNat_and, show (0xFFFF : UInt32).toNat = 2 ^ 16 - 1 from rfl,
      Nat.and_two_pow_sub_one_eq_mod, Nat.mod_mod]
  have hhigh : (val >>> 16).toUInt16.toNat = val.toNat / 2 ^ 16 := by
    rw [UInt32.toNat_toUInt16, UInt32.toNat_shiftRight, show (16 : UInt32).toNat % 32 = 16 from rfl,
      Nat.shiftRight_eq_div_pow, Nat.mod_eq_of_lt (by omega)]
  rw [← UInt16.toNat_inj, ← UInt16.toNat_inj, ← UInt32.toNat_inj, hlow, hhigh,
    show (0x1AF4 : UInt16).toNat = 0x1AF4 from rfl, show (0x1000 : UInt16).toNat = 0x1000 from rfl,
    show (0x10001AF4 : UInt32).toNat = 0x10001AF4 from rfl]
  omega

/-- By induction on the slots left; only the latch changes. -/
theorem findDevice_eq (p : PciBus) {rest : List (UInt8 × UInt8)} (h : ∀ s ∈ rest, s.2 < 32) :
    ∃ latch, findDevice p rest =
      (rest.find? fun s => VirtioNetAt p.space s, { p with latch }) := by
  induction rest generalizing p with
  | nil => exact ⟨p.latch, rfl⟩
  | cons s rest ih =>
    obtain ⟨bus, dev⟩ := s
    obtain ⟨hdev, h⟩ := List.forall_mem_cons.1 h
    have hread : pciRead32 p bus dev 0 0 =
        (p.space (pciRegister bus dev 0 0), { p with latch := pciAddr bus dev 0 0 }) :=
      pciRead32_eq p hdev (by decide)
    obtain ⟨latch, hrest⟩ := ih { p with latch := pciAddr bus dev 0 0 } h
    unfold findDevice
    rw [hread]
    simp only [id_halves]
    by_cases hat : VirtioNetAt p.space (bus, dev)
    · have hval : p.space (pciRegister bus dev 0 0) = 0x10001AF4 := hat
      refine ⟨pciAddr bus dev 0 0, ?_⟩
      rw [List.find?_cons_of_pos (by simpa using hat), hval, if_neg (by decide), if_pos rfl]
    · have hval : p.space (pciRegister bus dev 0 0) ≠ 0x10001AF4 := hat
      refine ⟨latch, ?_⟩
      rw [List.find?_cons_of_neg (by simpa using hat), if_neg hval, hrest, ite_self]

/-- What is written in the device's command register. -/
def enabled (p : PciBus) (slot : UInt8 × UInt8) : PciAddress → UInt32 :=
  let cmd := pciRegister slot.1 slot.2 0 0x04
  Function.update p.space cmd (p.commit cmd (p.space cmd) (p.space cmd ||| 0x5))

/-- Without a virtio-net device at function 0 of any slot the scan writes nothing. Otherwise the first one
in the order of the scan is initialised, whatever comes of it, and the only register written is its
command register. -/
theorem probe_spec (p : PciBus) (in8 : UInt16 → UInt8) (in32 : UInt16 → UInt32)
    (allocs : VirtioNet.DmaAllocs) (physOffset : UInt64) :
    ((∀ slot, slot.2 < 32 → ¬ VirtioNetAt p.space slot) ∧
      (probe p in8 in32 allocs physOffset).1 = some none ∧
      (probe p in8 in32 allocs physOffset).2.space = p.space) ∨
    ∃ slot : UInt8 × UInt8, slot.2 < 32 ∧ VirtioNetAt p.space slot ∧
      (∀ slot', slot'.2 < 32 → Before slot' slot → ¬ VirtioNetAt p.space slot') ∧
      (probe p in8 in32 allocs physOffset).1 = VirtioNet.init
        ⟨fun offset => p.space (pciRegister slot.1 slot.2 0 offset), in8, in32⟩ allocs physOffset ∧
      (probe p in8 in32 allocs physOffset).2.space = enabled p slot := by
  have hslots : ∀ s ∈ slots, s.2 < 32 := fun s hs => mem_slots.1 hs
  obtain ⟨latch, hfind⟩ := findDevice_eq p hslots
  unfold probe
  rw [hfind]
  cases hs : slots.find? fun s => VirtioNetAt p.space s with
  | none =>
    refine .inl ⟨fun slot hslot => ?_, rfl, rfl⟩
    simpa using List.find?_eq_none.1 hs slot (mem_slots.2 hslot)
  | some slot =>
    obtain ⟨hat, before, after, hsplit, hbefore⟩ := List.find?_eq_some_iff_append.1 hs
    have hdev : slot.2 < 32 := mem_slots.1 (List.mem_of_find?_eq_some hs)
    have hfunc : (0 : UInt8) < 8 := by decide
    refine .inr ⟨slot, hdev, by simpa using hat, fun slot' hslot' hlt => ?_, ?_, ?_⟩
    · -- an earlier slot is one of those before it in the scan
      have hmem : slot' ∈ before ++ slot :: after := hsplit ▸ mem_slots.2 hslot'
      have hpair := hsplit ▸ pairwise_slots
      rcases List.mem_append.1 hmem with hmem | hmem
      · simpa using hbefore slot' hmem
      · exact absurd hlt (not_before_of_mem (List.pairwise_append.1 hpair).2.1 hmem)
    · simp only [pciDevice, pciRead32_eq _ hdev hfunc]
    · simp only [enableDevice, pciRead32_eq _ hdev hfunc, pciWrite32_eq _ hdev hfunc, enabled]

end Probe

end OciKernel
