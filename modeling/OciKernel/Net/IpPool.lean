import OciKernel.Lib.Register
import Mathlib.Algebra.Ring.Nat
import Mathlib.Data.Finset.Card

/-!
# Net.IpPool

The address pool of a container subnet, `net/vswitch.rs`, over the base address `base` with prefix
length `mask`. `next` is a cursor: the search for an address starts there, and a release moves it
back.

* `Inv`: every host address below the cursor is in use.
* `allocate_spec`: one allocation takes the first unused address from the cursor on.
* `allocate_least`: over any run, an allocation returns the least host address not held.
-/

namespace OciKernel

/-- `[u8; 4]`, an address in network byte order. -/
structure Ipv4Addr where
  a : UInt8
  b : UInt8
  c : UInt8
  d : UInt8
deriving DecidableEq, Repr

namespace Ipv4Addr

/-- `u32::from_be_bytes`. -/
def fromBeBytes (ip : Ipv4Addr) : UInt32 :=
  UInt32.ofNat (((ip.a.toNat * 256 + ip.b.toNat) * 256 + ip.c.toNat) * 256 + ip.d.toNat)

/-- `u32::to_be_bytes`. -/
def toBeBytes (n : UInt32) : Ipv4Addr :=
  ⟨.ofNat (n.toNat / 2 ^ 24), .ofNat (n.toNat / 2 ^ 16), .ofNat (n.toNat / 2 ^ 8), .ofNat n.toNat⟩

theorem fromBeBytes_toBeBytes (n : UInt32) : fromBeBytes (toBeBytes n) = n := by
  apply UInt32.toNat.inj
  have hn : n.toNat < 2 ^ 32 := n.toNat_lt
  simp only [fromBeBytes, toBeBytes, UInt32.toNat_ofNat', UInt8.toNat_ofNat']
  omega

end Ipv4Addr

structure IpPool where
  base : UInt32
  mask : UInt8
  used : Finset UInt32
  next : UInt32

inductive IpOp where
  | allocate
  | release (ip : Ipv4Addr)

namespace IpPool

/-- `base + 2` panics on overflow. -/
def new (base : Ipv4Addr) (mask : UInt8) : Option IpPool :=
  let b := base.fromBeBytes
  if b.toNat + 2 < 2 ^ 32 then some { base := b, mask, used := ∅, next := b + 2 } else none

/-- `1u32.checked_shl(32u32.saturating_sub(mask)).unwrap_or(0)`. -/
def size (p : IpPool) : UInt32 :=
  if 32 - p.mask.toNat < 32 then 1 <<< UInt32.ofNat (32 - p.mask.toNat) else 0

/-- `base.saturating_add(size).saturating_sub(1)`. -/
def max (p : IpPool) : UInt32 :=
  UInt32.ofNat (min (p.base.toNat + p.size.toNat) (2 ^ 32 - 1) - 1)

/-- The `while self.next < max` loop. Each round moves `next`, so `max - next` rounds suffice. -/
def search (max : UInt32) : Nat → IpPool → IpPool × Option Ipv4Addr
  | 0, p => (p, none)
  | rounds + 1, p =>
    if p.next < max then
      let candidate := p.next
      let p := { p with next := p.next + 1 }
      if candidate ∉ p.used then
        ({ p with used := insert candidate p.used }, some (.toBeBytes candidate))
      else search max rounds p
    else (p, none)

def allocate (p : IpPool) : IpPool × Option Ipv4Addr :=
  search p.max (p.max.toNat - p.next.toNat) p

def release (p : IpPool) (ip : Ipv4Addr) : IpPool :=
  let n := ip.fromBeBytes
  let removed := n ∈ p.used
  let p := { p with used := p.used.erase n }
  if removed ∧ n < p.next then { p with next := n } else p

/-- Without the network address, the gateway and the broadcast address. -/
def available (p : IpPool) : Bool := p.used.card < p.size.toNat - 3

/-- A release has no result. -/
def apply (p : IpPool) : IpOp → IpPool × Option Ipv4Addr
  | .allocate => p.allocate
  | .release ip => (p.release ip, none)

/-! ## One call -/

variable {p p' : IpPool} {max : UInt32} {rounds : Nat} {ip : Ipv4Addr} {x : UInt32}

theorem toNat_add_one {x y : UInt32} (h : x < y) : (x + 1).toNat = x.toNat + 1 := by
  have hy := y.toNat_lt
  have hxy := UInt32.lt_iff_toNat_lt.1 h
  rw [UInt32.toNat_add]
  exact Nat.mod_eq_of_lt (by simp; omega)

/-- A search ends at the first address from the cursor on that is not in use, or at `max`. -/
theorem search_cases (hr : rounds = max.toNat - p.next.toNat) :
    (∃ c : UInt32, p.next ≤ c ∧ c < max ∧ c ∉ p.used ∧ (∀ x, p.next ≤ x → x < c → x ∈ p.used) ∧
      search max rounds p = ({ p with used := insert c p.used, next := c + 1 }, some (.toBeBytes c))) ∨
    (∃ next : UInt32, p.next ≤ next ∧ max ≤ next ∧ (∀ x, p.next ≤ x → x < next → x ∈ p.used) ∧
      search max rounds p = ({ p with next }, none)) := by
  induction rounds generalizing p with
  | zero =>
    refine .inr ⟨p.next, UInt32.le_refl _, UInt32.le_iff_toNat_le.2 (by omega), ?_, rfl⟩
    intro x h₁ h₂
    exact absurd (UInt32.lt_of_le_of_lt h₁ h₂) (UInt32.lt_irrefl _)
  | succ rounds ih =>
    have hlt : p.next < max := UInt32.lt_iff_toNat_lt.2 (by omega)
    have hsucc := toNat_add_one hlt
    unfold search
    rw [if_pos hlt]
    dsimp only
    split
    · rename_i hfree
      refine .inl ⟨p.next, UInt32.le_refl _, hlt, hfree, ?_, rfl⟩
      intro x h₁ h₂
      exact absurd (UInt32.lt_of_le_of_lt h₁ h₂) (UInt32.lt_irrefl _)
    · rename_i hused
      have hused : p.next ∈ p.used := by simpa using hused
      -- the address passed over is in use
      have hpassed : ∀ x y : UInt32, (∀ x, p.next + 1 ≤ x → x < y → x ∈ p.used) → p.next ≤ x →
          x < y → x ∈ p.used := by
        intro x y h h₁ h₂
        by_cases he : x = p.next
        · exact he ▸ hused
        · refine h x (UInt32.le_iff_toNat_le.2 ?_) h₂
          have hne : x.toNat ≠ p.next.toNat := fun hn => he (UInt32.toNat.inj hn)
          have := UInt32.le_iff_toNat_le.1 h₁
          omega
      have hle : p.next ≤ p.next + 1 := UInt32.le_iff_toNat_le.2 (by omega)
      rcases ih (p := { p with next := p.next + 1 }) (by simp only; omega) with
        ⟨c, h₁, h₂, h₃, h₄, h₅⟩ | ⟨next, h₁, h₂, h₃, h₄⟩
      · exact .inl ⟨c, UInt32.le_trans hle h₁, h₂, h₃, fun x => hpassed x c h₄, h₅⟩
      · exact .inr ⟨next, UInt32.le_trans hle h₁, h₂, fun x => hpassed x next h₃, h₄⟩

theorem allocate_cases (p : IpPool) :
    (∃ c : UInt32, p.next ≤ c ∧ c < p.max ∧ c ∉ p.used ∧
      (∀ x, p.next ≤ x → x < c → x ∈ p.used) ∧
      p.allocate = ({ p with used := insert c p.used, next := c + 1 }, some (.toBeBytes c))) ∨
    (∃ next : UInt32, p.next ≤ next ∧ p.max ≤ next ∧ (∀ x, p.next ≤ x → x < next → x ∈ p.used) ∧
      p.allocate = ({ p with next }, none)) := search_cases rfl

/-- An address not in use is released without effect. -/
theorem release_of_notMem (h : ip.fromBeBytes ∉ p.used) : p.release ip = p := by
  unfold release
  dsimp only
  rw [if_neg fun hc => h hc.1, Finset.erase_eq_of_notMem h]

theorem release_cases (p : IpPool) (ip : Ipv4Addr) :
    (p.release ip).base = p.base ∧ (p.release ip).mask = p.mask ∧
      (p.release ip).used = p.used.erase ip.fromBeBytes ∧
      ((p.release ip).next = p.next ∧ (ip.fromBeBytes ∈ p.used → p.next ≤ ip.fromBeBytes) ∨
        (p.release ip).next = ip.fromBeBytes ∧ ip.fromBeBytes ∈ p.used ∧
          ip.fromBeBytes < p.next) := by
  unfold release
  dsimp only
  split
  · rename_i h
    exact ⟨rfl, rfl, rfl, .inr ⟨rfl, h⟩⟩
  · rename_i h
    exact ⟨rfl, rfl, rfl, .inl ⟨rfl, fun hm => UInt32.not_lt.1 fun hlt => h ⟨hm, hlt⟩⟩⟩

/-! ## The cursor -/

/-- Addresses in use are above the gateway, and every one below the cursor is in use. -/
structure Inv (p : IpPool) : Prop where
  next_ge : p.base.toNat + 2 ≤ p.next.toNat
  used_ge : ∀ x ∈ p.used, p.base.toNat + 2 ≤ x.toNat
  below_next : ∀ x : UInt32, p.base.toNat + 2 ≤ x.toNat → x < p.next → x ∈ p.used

theorem Inv.allocate (h : p.Inv) : p.allocate.1.Inv := by
  rcases p.allocate_cases with ⟨c, hle, hlt, _, hused, heq⟩ | ⟨next, hle, _, hused, heq⟩
  · rw [heq]
    have hc : p.next.toNat ≤ c.toNat := UInt32.le_iff_toNat_le.1 hle
    have hsucc := toNat_add_one hlt
    have hge := h.next_ge
    refine ⟨by dsimp only; omega, ?_, ?_⟩
    · intro x hx
      rcases Finset.mem_insert.1 hx with rfl | hx
      · exact hge.trans hc
      · exact h.used_ge x hx
    · intro x hx hxc
      have hxc : x.toNat < c.toNat + 1 := hsucc ▸ UInt32.lt_iff_toNat_lt.1 hxc
      rcases Nat.lt_succ_iff_lt_or_eq.1 hxc with hlt | he
      · refine Finset.mem_insert_of_mem ?_
        by_cases hxn : x < p.next
        · exact h.below_next x hx hxn
        · exact hused x (UInt32.not_lt.1 hxn) (UInt32.lt_iff_toNat_lt.2 hlt)
      · exact Finset.mem_insert.2 (.inl (UInt32.toNat.inj he))
  · rw [heq]
    refine ⟨h.next_ge.trans (UInt32.le_iff_toNat_le.1 hle), h.used_ge, ?_⟩
    intro x hx hxn
    by_cases hxp : x < p.next
    · exact h.below_next x hx hxp
    · exact hused x (UInt32.not_lt.1 hxp) hxn

theorem Inv.release (h : p.Inv) (ip : Ipv4Addr) : (p.release ip).Inv := by
  obtain ⟨hbase, _, hused, hnext⟩ := p.release_cases ip
  have hmem : ∀ x, x ∈ (p.release ip).used ↔ x ≠ ip.fromBeBytes ∧ x ∈ p.used := by
    intro x
    rw [hused, Finset.mem_erase]
  rcases hnext with ⟨hnext, hle⟩ | ⟨hnext, hm, hlt⟩
  · refine ⟨by rw [hbase, hnext]; exact h.next_ge, ?_, ?_⟩
    · intro x hx
      rw [hbase]
      exact h.used_ge x ((hmem x).1 hx).2
    · intro x hx hxn
      rw [hbase] at hx
      rw [hnext] at hxn
      have hxu := h.below_next x hx hxn
      refine (hmem x).2 ⟨?_, hxu⟩
      rintro rfl
      exact UInt32.lt_irrefl _ (UInt32.lt_of_lt_of_le hxn (hle hxu))
  · refine ⟨by rw [hbase, hnext]; exact h.used_ge _ hm, ?_, ?_⟩
    · intro x hx
      rw [hbase]
      exact h.used_ge x ((hmem x).1 hx).2
    · intro x hx hxn
      rw [hbase] at hx
      rw [hnext] at hxn
      refine (hmem x).2 ⟨?_, h.below_next x hx (UInt32.lt_trans hxn hlt)⟩
      rintro rfl
      exact UInt32.lt_irrefl _ hxn

theorem Inv.apply (h : p.Inv) (op : IpOp) : (p.apply op).1.Inv := by
  cases op with
  | allocate => exact h.allocate
  | release ip => exact h.release ip

/-- A call changes neither base address nor prefix length. -/
theorem apply_subnet (p : IpPool) (op : IpOp) :
    (p.apply op).1.base = p.base ∧ (p.apply op).1.mask = p.mask := by
  cases op with
  | allocate =>
    rcases p.allocate_cases with ⟨_, _, _, _, _, heq⟩ | ⟨_, _, _, _, heq⟩ <;>
      rw [IpPool.apply, heq] <;> exact ⟨rfl, rfl⟩
  | release ip =>
    obtain ⟨hbase, hmask, _⟩ := p.release_cases ip
    exact ⟨hbase, hmask⟩

/-! ## Addresses held -/

/-- What an event says about `x`: allocated, released, or nothing. -/
def holds (x : UInt32) : IpOp × Option Ipv4Addr → Option Bool
  | (.allocate, some a) => if a.fromBeBytes = x then some true else none
  | (.allocate, none) => none
  | (.release ip, _) => if ip.fromBeBytes = x then some false else none

/-- `x` was allocated and not released since. -/
def Held (es : List (IpOp × Option Ipv4Addr)) (x : UInt32) : Prop :=
  Register.LastSet (holds x) es true

theorem apply_used (p : IpPool) (op : IpOp) (x : UInt32) :
    decide (x ∈ (p.apply op).1.used) = (holds x (op, (p.apply op).2)).getD (decide (x ∈ p.used)) := by
  cases op with
  | allocate =>
    rcases p.allocate_cases with ⟨c, _, _, _, _, heq⟩ | ⟨_, _, _, _, heq⟩
    · rw [IpPool.apply, heq]
      simp only [holds, Ipv4Addr.fromBeBytes_toBeBytes, Finset.mem_insert]
      by_cases hc : c = x
      · simp [hc]
      · have hx : x ≠ c := fun he => hc he.symm
        simp [hc, hx]
    · rw [IpPool.apply, heq]
      rfl
  | release ip =>
    obtain ⟨_, _, hused, _⟩ := p.release_cases ip
    simp only [IpPool.apply, hused, holds, Finset.mem_erase]
    by_cases hc : ip.fromBeBytes = x
    · simp [hc]
    · have hx : x ≠ ip.fromBeBytes := fun he => hc he.symm
      simp [hc, hx]

/-- In a pool that started empty, the addresses in use are those held. -/
theorem mem_used_iff (hempty : p.used = ∅) (ops : List IpOp) (x : UInt32) :
    x ∈ (Transition.final apply p ops).used ↔ Held (Transition.trace apply p ops) x := by
  have hreg := Register.component_final (g := fun p : IpPool => decide (x ∈ p.used))
    (fun p op => apply_used p op x) p ops
  have hfirst : decide (x ∈ p.used) = false := by simp [hempty]
  refine decide_eq_true_iff.symm.trans ?_
  rw [hreg, hfirst]
  exact Register.value_eq_iff (by decide)

/-! ## Allocation over a run -/

/-- The addresses between the gateway and the broadcast address of a subnet. -/
def IsHost (base : UInt32) (mask : UInt8) (x : UInt32) : Prop :=
  base.toNat + 1 < x.toNat ∧ x.toNat < base.toNat + 2 ^ (32 - mask.toNat) - 1

theorem size_toNat (h₁ : 1 ≤ p.mask.toNat) : p.size.toNat = 2 ^ (32 - p.mask.toNat) := by
  have hlt : 32 - p.mask.toNat < 32 := by omega
  have hpow : 2 ^ (32 - p.mask.toNat) < 2 ^ 32 := Nat.pow_lt_pow_right (by omega) hlt
  have hone : UInt32.toNat 1 = 1 := rfl
  rw [size, if_pos hlt, UInt32.toNat_shiftLeft, UInt32.toNat_ofNat',
    Nat.mod_eq_of_lt (a := 32 - p.mask.toNat) (by omega), Nat.mod_eq_of_lt hlt, Nat.shiftLeft_eq,
    hone, Nat.one_mul]
  exact Nat.mod_eq_of_lt hpow

theorem max_le (h₁ : 1 ≤ p.mask.toNat) :
    p.max.toNat ≤ p.base.toNat + 2 ^ (32 - p.mask.toNat) - 1 := by
  rw [IpPool.max, size_toNat h₁, UInt32.toNat_ofNat']
  omega

theorem size_congr {p q : IpPool} (hmask : p.mask = q.mask) : p.size = q.size := by
  rw [size, size, hmask]

theorem max_congr {p q : IpPool} (hbase : p.base = q.base) (hmask : p.mask = q.mask) : p.max = q.max := by
  rw [IpPool.max, IpPool.max, hbase, size_congr hmask]

theorem final_subnet (p : IpPool) (ops : List IpOp) :
    (Transition.final apply p ops).base = p.base ∧ (Transition.final apply p ops).mask = p.mask :=
  Transition.final_invariant (P := fun p' => p'.base = p.base ∧ p'.mask = p.mask)
    (fun p' op h => ⟨(apply_subnet p' op).1.trans h.1, (apply_subnet p' op).2.trans h.2⟩)
    ⟨rfl, rfl⟩ ops

theorem new_of_fits {base : Ipv4Addr} (mask : UInt8) (hfits : base.fromBeBytes.toNat + 2 < 2 ^ 32) :
    ∃ p : IpPool, new base mask = some p ∧ p.base = base.fromBeBytes ∧ p.mask = mask ∧ p.used = ∅ ∧
      p.next.toNat = p.base.toNat + 2 ∧ p.Inv := by
  have hnext : (base.fromBeBytes + 2).toNat = base.fromBeBytes.toNat + 2 := by
    rw [UInt32.toNat_add]
    exact Nat.mod_eq_of_lt hfits
  refine ⟨_, if_pos hfits, rfl, rfl, rfl, hnext, hnext.ge, nofun, ?_⟩
  intro x hx hlt
  have := UInt32.lt_iff_toNat_lt.1 hlt
  dsimp only at hx this
  omega

/-- A pool on a subnet of at least four addresses. -/
theorem new_eq {base : Ipv4Addr} {mask : UInt8} (h₂ : mask.toNat ≤ 30)
    (hbase : base.fromBeBytes.toNat % 2 ^ (32 - mask.toNat) = 0) :
    ∃ p : IpPool, new base mask = some p ∧ p.base = base.fromBeBytes ∧ p.mask = mask ∧
      p.used = ∅ ∧ p.Inv := by
  have hpow : 2 ^ 2 ∣ 2 ^ (32 - mask.toNat) := Nat.pow_dvd_pow 2 (by omega)
  have hfour : base.fromBeBytes.toNat % 4 = 0 :=
    Nat.mod_eq_zero_of_dvd (Nat.dvd_trans hpow (Nat.dvd_of_mod_eq_zero hbase))
  have hlt := base.fromBeBytes.toNat_lt
  have hfits : base.fromBeBytes.toNat + 2 < 2 ^ 32 := by omega
  obtain ⟨p, hnew, hb, hm, hused, _, hinv⟩ := new_of_fits mask hfits
  exact ⟨p, hnew, hb, hm, hused, hinv⟩

/-- On a subnet with prefix length 1 to 30, in every reachable state: an allocated address is the
least host address that is not held, and releasing an address that is not held changes nothing. -/
theorem allocate_least (base : Ipv4Addr) (mask : UInt8) (h₁ : 1 ≤ mask.toNat) (h₂ : mask.toNat ≤ 30)
    (hbase : base.fromBeBytes.toNat % 2 ^ (32 - mask.toNat) = 0) (ops : List IpOp) :
    ∃ p₀, new base mask = some p₀ ∧
      (∀ a, (Transition.final apply p₀ ops).allocate.2 = some a →
        IsHost base.fromBeBytes mask a.fromBeBytes ∧
        ¬ Held (Transition.trace apply p₀ ops) a.fromBeBytes ∧
        ∀ b, IsHost base.fromBeBytes mask b → ¬ Held (Transition.trace apply p₀ ops) b →
          a.fromBeBytes ≤ b) ∧
      ∀ ip, ¬ Held (Transition.trace apply p₀ ops) ip.fromBeBytes →
        (Transition.final apply p₀ ops).release ip = Transition.final apply p₀ ops := by
  obtain ⟨p₀, hnew, hb, hm, hempty, hinv⟩ := new_eq h₂ hbase
  refine ⟨p₀, hnew, ?_⟩
  have hused := mem_used_iff hempty ops
  have hinv : (Transition.final apply p₀ ops).Inv :=
    Transition.final_invariant (P := Inv) (fun _ op h => Inv.apply h op) hinv ops
  obtain ⟨hpb, hpm⟩ := final_subnet p₀ ops
  rw [hb] at hpb
  rw [hm] at hpm
  generalize Transition.final apply p₀ ops = p at hused hinv hpb hpm ⊢
  have hmax := max_le (p := p) (hpm ▸ h₁)
  rw [hpb, hpm] at hmax
  have hge := hinv.next_ge
  have hbelow := hinv.below_next
  rw [hpb] at hge hbelow
  constructor
  · intro a ha
    rcases p.allocate_cases with ⟨c, hle, hlt, hfree, hpassed, heq⟩ | ⟨next, _, _, _, heq⟩
    · rw [heq] at ha
      cases ha
      rw [Ipv4Addr.fromBeBytes_toBeBytes]
      have hle' := UInt32.le_iff_toNat_le.1 hle
      have hlt' := UInt32.lt_iff_toNat_lt.1 hlt
      refine ⟨⟨by omega, by omega⟩, fun h => hfree ((hused c).2 h), ?_⟩
      intro b hb hnot
      -- a smaller host address is below the cursor, or was passed over
      refine UInt32.not_lt.1 fun hbc => hnot ((hused b).1 ?_)
      by_cases hbn : b < p.next
      · exact hbelow b hb.1 hbn
      · exact hpassed b (UInt32.not_lt.1 hbn) hbc
    · rw [heq] at ha
      cases ha
  · exact fun ip h => release_of_notMem fun hm => h ((hused _).1 hm)

/-- In 10.0.0.0/28 with .2 and .3 held, after .4 and then .2 were released and .2 was handed out again. -/
def reuseOps : List IpOp :=
  [.allocate, .allocate, .allocate, .release ⟨10, 0, 0, 4⟩, .release ⟨10, 0, 0, 2⟩, .allocate]

theorem allocate_least_reused : ∃ p₀, new ⟨10, 0, 0, 0⟩ 28 = some p₀ ∧
    (Transition.final apply p₀ reuseOps).allocate.2 = some ⟨10, 0, 0, 4⟩ ∧
    ¬ Held (Transition.trace apply p₀ reuseOps) (Ipv4Addr.fromBeBytes ⟨10, 0, 0, 4⟩) ∧
    ∀ b, IsHost (Ipv4Addr.fromBeBytes ⟨10, 0, 0, 0⟩) 28 b → ¬ Held (Transition.trace apply p₀ reuseOps) b →
      Ipv4Addr.fromBeBytes ⟨10, 0, 0, 4⟩ ≤ b := by
  obtain ⟨p₀, hnew, hleast, -⟩ :=
    allocate_least ⟨10, 0, 0, 0⟩ 28 (by decide) (by decide) (by decide) reuseOps
  have hfourth : (new ⟨10, 0, 0, 0⟩ 28).map (fun p => (Transition.final apply p reuseOps).allocate.2) =
      some (some ⟨10, 0, 0, 4⟩) := by
    decide +kernel
  rw [hnew, Option.map_some, Option.some_inj] at hfourth
  exact ⟨p₀, hnew, hfourth, (hleast _ hfourth).2⟩

end IpPool

end OciKernel
