import OciKernel.Lib.Wire
import OciKernel.Net.Pci

/-!
# Host.Lsblk

The `lsblk` command of `host/getty.rs`: a scan of PCI bus 0 for mass-storage controllers.

* `scanFuncs_eq`: what the loop over the functions of a device lists, with its `continue` and `break`.
* `BlockRow.text_inj`: a line printed stands for one row.
* `lsblk_exact`: the listing shows exactly the storage functions that are visible, and two machines with
  the same listing have the same ones.
-/

namespace OciKernel

open Text

/-- A line of the listing. -/
structure BlockRow where
  dev : UInt8
  func : UInt8
  kind : Str
  vendor : UInt16
  device : UInt16

namespace BlockRow

/-- `{:02x}` and `{:04x}`. -/
def hex (width n : Nat) : Str := (Nat.toDigits 16 n).leftpad width '0'

/-- `00:{:02x}.{}  {:<8}  {:04x}:{:04x}` -/
def text (r : BlockRow) : Str :=
  "00:".toList ++ hex 2 r.dev.toNat ++ ".".toList ++ Nat.toDigits 10 r.func.toNat ++ "  ".toList ++
    r.kind.rightpad 8 ' ' ++ "  ".toList ++ hex 4 r.vendor.toNat ++ ":".toList ++ hex 4 r.device.toNat

end BlockRow

/-! ## The scan -/

namespace Lsblk

def kind (subclass : UInt8) : Str :=
  if subclass = 0x01 then "IDE/ATA".toList
  else if subclass = 0x06 then "SATA".toList
  else if subclass = 0x07 then "SAS".toList
  else if subclass = 0x08 then "NVMe".toList
  else "storage".toList

/-- `Port(0xCF8).write(addr)`, then `Port(0xCFC).read()`. -/
def readAt (p : PciBus) (addr : UInt32) : UInt32 × PciBus :=
  let p := p.outAddr addr
  (p.inData, p)

/-- The address word of the first register of a function on bus 0. -/
def funcAddr (dev func : UInt8) : UInt32 :=
  (0x80000000 : UInt32) ||| dev.toUInt32 <<< 11 ||| func.toUInt32 <<< 8

/-- The row of a function that is there, if its class is mass storage. -/
def storageRow (dev func : UInt8) (vendorDevice classInfo : UInt32) : List BlockRow :=
  let cls := (classInfo >>> 24).toUInt8
  let subclass := (classInfo >>> 16 &&& 0xFF).toUInt8
  if cls = 0x01 then
    let vendor := (vendorDevice &&& 0xFFFF).toUInt16
    let device := (vendorDevice >>> 16 &&& 0xFFFF).toUInt16
    [⟨dev, func, kind subclass, vendor, device⟩]
  else []

/-- The loop over the functions of a device, with the rows it prints. -/
def scanFuncs (dev : UInt8) : List UInt8 → PciBus → List BlockRow × PciBus
  | [], p => ([], p)
  | func :: rest, p =>
    let addr := funcAddr dev func
    let (vendorDevice, p) := readAt p addr
    if vendorDevice = 0xFFFFFFFF then scanFuncs dev rest p
    else
      let (classInfo, p) := readAt p (addr ||| 0x08)
      let row := storageRow dev func vendorDevice classInfo
      if func = 0 then
        let (hdr, p) := readAt p (addr ||| 0x0C)
        if (hdr >>> 16).toUInt8 &&& 0x80 = 0 then (row, p)
        else
          let (rows, p) := scanFuncs dev rest p
          (row ++ rows, p)
      else
        let (rows, p) := scanFuncs dev rest p
        (row ++ rows, p)

/-- The loop over the devices of bus 0. -/
def scanDevs : List UInt8 → PciBus → List BlockRow × PciBus
  | [], p => ([], p)
  | dev :: rest, p =>
    let (rows, p) := scanFuncs dev ((List.range 8).map UInt8.ofNat) p
    let (rows', p) := scanDevs rest p
    (rows ++ rows', p)

def scan (p : PciBus) : List BlockRow × PciBus := scanDevs ((List.range 32).map UInt8.ofNat) p

end Lsblk

/-- What `lsblk` prints, a list of lines. -/
def lsblk (p : PciBus) : List Str × PciBus :=
  let (rows, p) := Lsblk.scan p
  (["NAME       TYPE      PCI ID".toList, "─────────  ────────  ──────────────".toList] ++
    if rows = [] then ["(no mass-storage controllers detected)".toList] else rows.map BlockRow.text, p)

namespace Lsblk

/-! ## What is listed -/

variable {space : PciAddress → UInt32} {dev func : UInt8}

/-- There is a function. -/
def Present (space : PciAddress → UInt32) (dev func : UInt8) : Prop :=
  space (pciRegister 0 dev func 0x00) ≠ 0xFFFFFFFF

/-- Function 0 of the device is there and says that it is the only one. -/
def Single (space : PciAddress → UInt32) (dev : UInt8) : Prop :=
  Present space dev 0 ∧ (space (pciRegister 0 dev 0 0x0C) >>> 16).toUInt8 &&& 0x80 = 0

def Storage (space : PciAddress → UInt32) (dev func : UInt8) : Prop :=
  (space (pciRegister 0 dev func 0x08) >>> 24).toUInt8 = 0x01

/-- A mass-storage function that the scan gets to see. -/
def Listed (space : PciAddress → UInt32) (dev func : UInt8) : Prop :=
  Present space dev func ∧ Storage space dev func ∧ (func = 0 ∨ ¬ Single space dev)

instance : Decidable (Present space dev func) := inferInstanceAs (Decidable (_ ≠ _))
instance : Decidable (Single space dev) := inferInstanceAs (Decidable (_ ∧ _))
instance : Decidable (Storage space dev func) := inferInstanceAs (Decidable (_ = _))
instance : Decidable (Listed space dev func) := inferInstanceAs (Decidable (_ ∧ _ ∧ (_ ∨ _)))

def row (space : PciAddress → UInt32) (dev func : UInt8) : BlockRow :=
  let id := space (pciRegister 0 dev func 0x00)
  ⟨dev, func, kind (space (pciRegister 0 dev func 0x08) >>> 16 &&& 0xFF).toUInt8,
    (id &&& 0xFFFF).toUInt16, (id >>> 16 &&& 0xFFFF).toUInt16⟩

theorem funcAddr_eq (dev func : UInt8) : funcAddr dev func = pciAddr 0 dev func 0x00 := by
  simp [funcAddr, pciAddr]

theorem readAt_eq (p : PciBus) (hdev : dev < 32) (hfunc : func < 8) :
    readAt p (funcAddr dev func) = (p.space (pciRegister 0 dev func 0x00),
        { p with latch := pciAddr 0 dev func 0x00 }) ∧
      readAt p (funcAddr dev func ||| 0x08) = (p.space (pciRegister 0 dev func 0x08),
        { p with latch := pciAddr 0 dev func 0x08 }) ∧
      readAt p (funcAddr dev func ||| 0x0C) = (p.space (pciRegister 0 dev func 0x0C),
        { p with latch := pciAddr 0 dev func 0x0C }) := by
  have h8 : funcAddr dev func ||| 0x08 = pciAddr 0 dev func 0x08 := by
    rw [funcAddr_eq, pciAddr, pciAddr, UInt32.or_assoc _ _ 0x08]
    rfl
  have hc : funcAddr dev func ||| 0x0C = pciAddr 0 dev func 0x0C := by
    rw [funcAddr_eq, pciAddr, pciAddr, UInt32.or_assoc _ _ 0x0C]
    rfl
  rw [h8, hc, funcAddr_eq]
  exact ⟨pciRead32_eq p hdev hfunc, pciRead32_eq p hdev hfunc, pciRead32_eq p hdev hfunc⟩

/-- The rows of a function. -/
def found (space : PciAddress → UInt32) (dev func : UInt8) : List BlockRow :=
  if Present space dev func ∧ Storage space dev func then [row space dev func] else []

theorem storageRow_eq (hp : Present space dev func) :
    storageRow dev func (space (pciRegister 0 dev func 0x00)) (space (pciRegister 0 dev func 0x08)) =
      found space dev func := by
  by_cases hs : Storage space dev func
  · rw [found, if_pos ⟨hp, hs⟩]
    exact if_pos hs
  · rw [found, if_neg fun hf => hs hf.2]
    exact if_neg hs

/-- The other functions of a device, by induction on those left; only the latch changes. -/
theorem scanFuncs_others (hdev : dev < 32) {rest : List UInt8} (h : ∀ f ∈ rest, f < 8 ∧ f ≠ 0)
    (p : PciBus) : ∃ latch, scanFuncs dev rest p =
      (rest.flatMap (found p.space dev), { p with latch }) := by
  induction rest generalizing p with
  | nil => exact ⟨p.latch, rfl⟩
  | cons func rest ih =>
    obtain ⟨⟨hfunc, hne⟩, h⟩ := List.forall_mem_cons.1 h
    obtain ⟨hid, -, -⟩ := readAt_eq p hdev hfunc
    obtain ⟨-, hclass, -⟩ := readAt_eq { p with latch := pciAddr 0 dev func 0x00 } hdev hfunc
    unfold scanFuncs
    simp only [hid, hclass, if_neg hne]
    by_cases hp : Present p.space dev func
    · obtain ⟨latch, hrest⟩ := ih h { p with latch := pciAddr 0 dev func 0x08 }
      exact ⟨latch, by rw [if_neg hp, hrest, storageRow_eq hp, List.flatMap_cons]⟩
    · obtain ⟨latch, hrest⟩ := ih h { p with latch := pciAddr 0 dev func 0x00 }
      have hfound : found p.space dev func = [] := if_neg fun hf => hp hf.1
      exact ⟨latch, by rw [if_pos (not_not.1 hp), hrest, List.flatMap_cons, hfound, List.nil_append]⟩

/-- What the listing has of the functions of a device. -/
def listed (space : PciAddress → UInt32) (dev : UInt8) (funcs : List UInt8) : List BlockRow :=
  (funcs.filter fun func => Listed space dev func).map (row space dev)

theorem listed_cons (func : UInt8) (rest : List UInt8) : listed space dev (func :: rest) =
    (if func = 0 ∨ ¬ Single space dev then found space dev func else []) ++ listed space dev rest := by
  unfold listed
  by_cases hl : Listed space dev func
  · obtain ⟨hp, hs, hv⟩ := hl
    rw [List.filter_cons_of_pos (by simpa using ⟨hp, hs, hv⟩), if_pos hv, found, if_pos ⟨hp, hs⟩]
    rfl
  · rw [List.filter_cons_of_neg (by simpa using hl)]
    split
    · rename_i hv
      rw [found, if_neg fun hf => hl ⟨hf.1, hf.2, hv⟩, List.nil_append]
    · rfl

theorem listed_others {rest : List UInt8} (h : ∀ f ∈ rest, f ≠ 0) : listed space dev rest =
    if Single space dev then [] else rest.flatMap (found space dev) := by
  induction rest with
  | nil => simp [listed]
  | cons func rest ih =>
    obtain ⟨hne, h⟩ := List.forall_mem_cons.1 h
    rw [listed_cons, ih h]
    by_cases hs : Single space dev
    · rw [if_neg (by simp [hne, hs]), if_pos hs, if_pos hs, List.append_nil]
    · rw [if_pos (.inr hs), if_neg hs, if_neg hs, List.flatMap_cons]

/-- All functions of a device. The `break` is at function 0, if it is there. -/
theorem scanFuncs_eq (hdev : dev < 32) {rest : List UInt8} (h : ∀ f ∈ rest, f < 8 ∧ f ≠ 0)
    (p : PciBus) : ∃ latch, scanFuncs dev (0 :: rest) p =
      (listed p.space dev (0 :: rest), { p with latch }) := by
  have hfunc : (0 : UInt8) < 8 := by decide
  obtain ⟨hid, -, -⟩ := readAt_eq p hdev hfunc
  obtain ⟨-, hclass, -⟩ := readAt_eq { p with latch := pciAddr 0 dev 0 0x00 } hdev hfunc
  obtain ⟨-, -, hhdr⟩ := readAt_eq { p with latch := pciAddr 0 dev 0 0x08 } hdev hfunc
  unfold scanFuncs
  simp only [hid, hclass, hhdr, if_true]
  have hlisted : listed p.space dev (0 :: rest) = found p.space dev 0 ++
      if Single p.space dev then [] else rest.flatMap (found p.space dev) := by
    rw [listed_cons, if_pos (.inl rfl), listed_others fun f hf => (h f hf).2]
  rw [hlisted]
  by_cases hp : Present p.space dev 0
  · by_cases hm : (p.space (pciRegister 0 dev 0 0x0C) >>> 16).toUInt8 &&& 0x80 = 0
    · refine ⟨pciAddr 0 dev 0 0x0C, ?_⟩
      rw [if_neg hp, if_pos hm, if_pos ⟨hp, hm⟩, storageRow_eq hp, List.append_nil]
    · obtain ⟨latch, hrest⟩ := scanFuncs_others hdev h { p with latch := pciAddr 0 dev 0 0x0C }
      refine ⟨latch, ?_⟩
      rw [if_neg hp, if_neg hm, if_neg fun hs => hm hs.2, hrest, storageRow_eq hp]
  · obtain ⟨latch, hrest⟩ := scanFuncs_others hdev h { p with latch := pciAddr 0 dev 0 0x00 }
    have hfound : found p.space dev 0 = [] := if_neg fun hf => hp hf.1
    refine ⟨latch, ?_⟩
    rw [if_pos (not_not.1 hp), if_neg fun hs => hp hs.1, hrest, hfound, List.nil_append]

/-- The functions of bus 0 in the order of the scan. -/
def grid : List (UInt8 × UInt8) :=
  ((List.range 32).map UInt8.ofNat).flatMap fun dev =>
    ((List.range 8).map UInt8.ofNat).map fun func => (dev, func)

/-- The rows that should be listed. -/
def inventory (space : PciAddress → UInt32) : List BlockRow :=
  (grid.filter fun (dev, func) => Listed space dev func).map fun (dev, func) => row space dev func

theorem scanDevs_eq {devs : List UInt8} (h : ∀ d ∈ devs, d < 32) (p : PciBus) : ∃ latch,
    scanDevs devs p =
      (devs.flatMap fun dev => listed p.space dev ((List.range 8).map UInt8.ofNat),
        { p with latch }) := by
  induction devs generalizing p with
  | nil => exact ⟨p.latch, rfl⟩
  | cons dev devs ih =>
    obtain ⟨hdev, h⟩ := List.forall_mem_cons.1 h
    have hothers : ∀ f ∈ (List.range 7).map fun n => UInt8.ofNat (n + 1), f < 8 ∧ f ≠ 0 :=
      List.forall_mem_map.2 (by decide)
    obtain ⟨latch, hfuncs⟩ := scanFuncs_eq hdev hothers p
    obtain ⟨latch', hrest⟩ := ih h { p with latch }
    refine ⟨latch', ?_⟩
    have hrange : (List.range 8).map UInt8.ofNat =
        0 :: (List.range 7).map fun n => UInt8.ofNat (n + 1) := rfl
    rw [scanDevs, hrange, hfuncs]
    dsimp only
    rw [hrest, List.flatMap_cons, hrange]

theorem scan_eq (p : PciBus) : ∃ latch, scan p = (inventory p.space, { p with latch }) := by
  have hdevs : ∀ d ∈ (List.range 32).map UInt8.ofNat, d < 32 := List.forall_mem_map.2 (by decide)
  obtain ⟨latch, h⟩ := scanDevs_eq hdevs p
  refine ⟨latch, h.trans ?_⟩
  rw [inventory, grid, List.filter_flatMap, List.map_flatMap]
  simp only [listed, List.filter_map, List.map_map]
  rfl

/-! ## The text of a row -/

section Text

open BlockRow

theorem length_hex {width n : Nat} (hw : 0 < width) (h : n < 16 ^ width) : (hex width n).length = width := by
  have hlen := (Nat.length_toDigits_le_iff (b := 16) (by decide) hw).2 h
  rw [hex, List.length_leftpad]
  omega

theorem hex_inj {width m n : Nat} (h : hex width m = hex width n) : m = n := by
  have hread : ∀ k, parseRadix 16 0 (hex width k) = some k := by
    intro k
    rw [hex, List.leftpad, parseRadix_append, parseRadix_zeros 16 (by decide), Option.bind_some,
      parseRadix_toDigits (by decide) (by decide)]
  rw [← Option.some_inj, ← hread m, ← hread n, h]

/-- A row that fits its columns. -/
structure Fits (r : BlockRow) : Prop where
  func : r.func < 8
  kind : ∃ subclass, r.kind = kind subclass

theorem kind_cases (subclass : UInt8) : kind subclass ∈
    ["IDE/ATA".toList, "SATA".toList, "SAS".toList, "NVMe".toList, "storage".toList] := by
  unfold kind
  repeat' split
  all_goals simp

theorem length_kind (subclass : UInt8) : ((kind subclass).rightpad 8 ' ').length = 8 := by
  have hall : ∀ k ∈ ["IDE/ATA".toList, "SATA".toList, "SAS".toList, "NVMe".toList, "storage".toList],
      (List.rightpad 8 ' ' k).length = 8 := by decide
  exact hall _ (kind_cases subclass)

theorem kind_inj {subclass subclass' : UInt8}
    (h : (kind subclass).rightpad 8 ' ' = (kind subclass').rightpad 8 ' ') :
    kind subclass = kind subclass' := by
  have hall : ∀ k ∈ ["IDE/ATA".toList, "SATA".toList, "SAS".toList, "NVMe".toList, "storage".toList],
      ∀ k' ∈ ["IDE/ATA".toList, "SATA".toList, "SAS".toList, "NVMe".toList, "storage".toList],
      List.rightpad 8 ' ' k = List.rightpad 8 ' ' k' → k = k' := by decide
  exact hall _ (kind_cases subclass) _ (kind_cases subclass') h

theorem toDigits_func {func : UInt8} (h : func < 8) :
    Nat.toDigits 10 func.toNat = [Nat.digitChar func.toNat] :=
  Nat.toDigits_of_lt_base (Nat.lt_trans (UInt8.lt_iff_toNat_lt.1 h) (by decide))

/-- Every column has one width, so each is read back in its place. -/
theorem text_inj {r r' : BlockRow} (hr : Fits r) (hr' : Fits r') (h : r.text = r'.text) : r = r' := by
  obtain ⟨dev, func, k, vendor, device⟩ := r
  obtain ⟨dev', func', k', vendor', device'⟩ := r'
  obtain ⟨hfunc, sub, hkind⟩ := hr
  obtain ⟨hfunc', sub', hkind'⟩ := hr'
  dsimp only at hfunc hfunc' hkind hkind'
  subst hkind hkind'
  have hhex : ∀ x : UInt16, (hex 4 x.toNat).length = 4 := fun x => length_hex (by decide) x.toNat_lt
  have hdev : ∀ x : UInt8, (hex 2 x.toNat).length = 2 := fun x => length_hex (by decide) x.toNat_lt
  unfold text at h
  simp only [toDigits_func hfunc, toDigits_func hfunc', List.append_assoc] at h
  have h := List.append_cancel_left h
  obtain ⟨h₁, h⟩ := List.append_inj h (by rw [hdev, hdev])
  have h := List.append_cancel_left h
  obtain ⟨h₂, h⟩ := List.append_inj h (by rw [List.length_singleton, List.length_singleton])
  have h := List.append_cancel_left h
  obtain ⟨h₃, h⟩ := List.append_inj h (by rw [length_kind, length_kind])
  have h := List.append_cancel_left h
  obtain ⟨h₄, h⟩ := List.append_inj h (by rw [hhex, hhex])
  have h₅ := List.append_cancel_left h
  have hdigit : ∀ m < 8, ∀ n < 8, Nat.digitChar m = Nat.digitChar n → m = n := by decide
  have hf := hdigit _ hfunc _ hfunc' (List.singleton_inj.1 h₂)
  rw [UInt8.toNat_inj.1 (hex_inj h₁), UInt8.toNat_inj.1 hf, kind_inj h₃, UInt16.toNat_inj.1 (hex_inj h₄),
    UInt16.toNat_inj.1 (hex_inj h₅)]

theorem text_ne (r : BlockRow) : r.text ≠ "(no mass-storage controllers detected)".toList := by
  intro h
  have hhead : r.text.head? = some '0' := by
    unfold text
    simp only [List.append_assoc]
    rfl
  rw [h] at hhead
  cases hhead

theorem map_text_inj {rows rows' : List BlockRow} (h : ∀ r ∈ rows, Fits r) (h' : ∀ r ∈ rows', Fits r)
    (heq : rows.map text = rows'.map text) : rows = rows' := by
  induction rows generalizing rows' with
  | nil => exact (List.map_eq_nil_iff.1 heq.symm).symm
  | cons r rows ih =>
    cases rows' with
    | nil => cases heq
    | cons r' rows' =>
      obtain ⟨hr, h⟩ := List.forall_mem_cons.1 h
      obtain ⟨hr', h'⟩ := List.forall_mem_cons.1 h'
      obtain ⟨hhead, htail⟩ := List.cons.inj heq
      rw [text_inj hr hr' hhead, ih h h' htail]

theorem fits_inventory (space : PciAddress → UInt32) : ∀ r ∈ inventory space, Fits r := by
  intro r hr
  obtain ⟨⟨dev, func⟩, hmem, rfl⟩ := List.mem_map.1 hr
  have hgrid := (List.mem_filter.1 hmem).1
  rw [grid, List.mem_flatMap] at hgrid
  obtain ⟨d, -, hgrid⟩ := hgrid
  obtain ⟨f, hf, he⟩ := List.mem_map.1 hgrid
  cases he
  have hall : ∀ f ∈ (List.range 8).map UInt8.ofNat, f < 8 := List.forall_mem_map.2 (by decide)
  exact ⟨hall func hf, _, rfl⟩

end Text

/-- The listing shows the storage functions that the scan gets to see, in its order, and the scan writes
to no register. Two machines with the same listing have the same inventory. -/
theorem lsblk_exact (p : PciBus) :
    (lsblk p).2.space = p.space ∧
    (lsblk p).1 = ["NAME       TYPE      PCI ID".toList, "─────────  ────────  ──────────────".toList] ++
      (if inventory p.space = [] then ["(no mass-storage controllers detected)".toList]
        else (inventory p.space).map BlockRow.text) ∧
    ∀ p' : PciBus, (lsblk p').1 = (lsblk p).1 ↔ inventory p'.space = inventory p.space := by
  have hscan : ∀ p : PciBus, (lsblk p).2.space = p.space ∧ (lsblk p).1 =
      ["NAME       TYPE      PCI ID".toList, "─────────  ────────  ──────────────".toList] ++
        (if inventory p.space = [] then ["(no mass-storage controllers detected)".toList]
          else (inventory p.space).map BlockRow.text) := by
    intro p
    obtain ⟨latch, h⟩ := scan_eq p
    rw [lsblk, h]
    exact ⟨rfl, rfl⟩
  refine ⟨(hscan p).1, (hscan p).2, fun p' => ?_⟩
  rw [(hscan p).2, (hscan p').2, List.append_cancel_left_eq]
  constructor
  · intro h
    split at h
    · rename_i hnil
      split at h
      · rename_i hnil'
        rw [hnil, hnil']
      · cases hrows : inventory p.space with
        | nil => contradiction
        | cons r rows =>
          rw [hrows, List.map_cons] at h
          exact absurd (List.cons.inj h).1 (text_ne r).symm
    · split at h
      · cases hrows : inventory p'.space with
        | nil => contradiction
        | cons r rows =>
          rw [hrows, List.map_cons] at h
          exact absurd (List.cons.inj h).1 (text_ne r)
      · exact map_text_inj (fits_inventory _) (fits_inventory _) h
  · intro h
    rw [h]

end Lsblk

end OciKernel
