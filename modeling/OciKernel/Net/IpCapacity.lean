import Mathlib.Order.Interval.Finset.Nat
import OciKernel.Net.IpPool

/-!
# Net.IpCapacity

How many addresses an `IpPool` has, and whether `available` knows.

* `allocate_isSome_iff`: an allocation succeeds while fewer addresses are in use than there are below
  `max`.
* `addresses_eq`: what repeated allocation from an empty pool gives.
* `fullCapacity_iff`: the subnets on which both are as they should be.
-/

namespace OciKernel

namespace IpPool

variable {p : IpPool}

/-! ## The last address -/

/-- `max` is the broadcast address, unless the subnet ends with the last address there is. -/
theorem max_toNat (h₁ : 1 ≤ p.mask.toNat) :
    p.max.toNat = min (p.base.toNat + 2 ^ (32 - p.mask.toNat)) (2 ^ 32 - 1) - 1 := by
  rw [IpPool.max, size_toNat h₁, UInt32.toNat_ofNat']
  omega

theorem max_of_mask_zero (h₀ : p.mask.toNat = 0) : p.max.toNat ≤ p.base.toNat ∧ p.size = 0 := by
  have hsize : p.size = 0 := by
    rw [size, if_neg (by omega)]
  have hbase := p.base.toNat_lt
  refine ⟨?_, hsize⟩
  rw [IpPool.max, hsize, UInt32.toNat_ofNat']
  simp only [UInt32.toNat_zero]
  omega

/-! ## Allocation succeeds -/

/-- The addresses in use are below `max`. -/
def Bounded (p : IpPool) : Prop := ∀ x ∈ p.used, x < p.max

theorem bounded_of_empty (h : p.used = ∅) : p.Bounded := by simp [Bounded, h]

theorem Bounded.apply (h : p.Bounded) (op : IpOp) : (p.apply op).1.Bounded := by
  intro x hx
  rw [max_congr (p.apply_subnet op).1 (p.apply_subnet op).2]
  cases op with
  | allocate =>
    rcases p.allocate_cases with ⟨c, _, hlt, _, _, heq⟩ | ⟨_, _, _, _, heq⟩
    · rw [IpPool.apply, heq] at hx
      rcases Finset.mem_insert.1 hx with rfl | hx
      · exact hlt
      · exact h x hx
    · rw [IpPool.apply, heq] at hx
      exact h x hx
  | release ip =>
    obtain ⟨_, _, hused, _⟩ := p.release_cases ip
    rw [IpPool.apply, hused] at hx
    exact h x (Finset.mem_of_mem_erase hx)

/-- The addresses in use, as numbers. -/
def taken (p : IpPool) : Finset Nat := p.used.image UInt32.toNat

theorem card_taken (p : IpPool) : p.taken.card = p.used.card :=
  Finset.card_image_of_injective _ fun _ _ => UInt32.toNat.inj

theorem mem_taken {x : UInt32} : x.toNat ∈ p.taken ↔ x ∈ p.used := by
  simp [taken, UInt32.toNat_inj]

theorem taken_subset (h : p.Inv) (hb : p.Bounded) :
    p.taken ⊆ Finset.Ico (p.base.toNat + 2) p.max.toNat := by
  intro n hn
  obtain ⟨x, hx, rfl⟩ := Finset.mem_image.1 hn
  exact Finset.mem_Ico.2 ⟨h.used_ge x hx, UInt32.lt_iff_toNat_lt.1 (hb x hx)⟩

theorem allocate_isSome_iff (h : p.Inv) (hb : p.Bounded) :
    p.allocate.2.isSome ↔ p.used.card < p.max.toNat - (p.base.toNat + 2) := by
  have hsub := taken_subset h hb
  rw [← card_taken, ← Nat.card_Ico]
  rcases p.allocate_cases with ⟨c, hle, hlt, hfree, _, heq⟩ | ⟨next, _, hmax, hused, heq⟩
  · rw [heq]
    refine iff_of_true rfl (Finset.card_lt_card (Finset.ssubset_iff_subset_ne.2 ⟨hsub, fun hall => ?_⟩))
    refine hfree (mem_taken.1 (hall ▸ Finset.mem_Ico.2 ⟨?_, UInt32.lt_iff_toNat_lt.1 hlt⟩))
    exact h.next_ge.trans (UInt32.le_iff_toNat_le.1 hle)
  · rw [heq]
    refine iff_of_false nofun (Nat.not_lt.2 (Finset.card_le_card fun n hn => ?_))
    obtain ⟨hge, hlt⟩ := Finset.mem_Ico.1 hn
    -- every address below `max` is below the cursor, or was passed over
    have hn32 : (UInt32.ofNat n).toNat = n := by
      have := p.max.toNat_lt
      rw [UInt32.toNat_ofNat']
      omega
    rw [← hn32] at hge hlt ⊢
    refine mem_taken.2 ?_
    by_cases hnext : UInt32.ofNat n < p.next
    · exact h.below_next _ hge hnext
    · refine hused _ (UInt32.not_lt.1 hnext) ?_
      exact UInt32.lt_of_lt_of_le (UInt32.lt_iff_toNat_lt.2 hlt) hmax

/-! ## Repeated allocation -/

/-- What `n` allocations give. -/
def addresses (p : IpPool) (n : Nat) : List Ipv4Addr :=
  (Transition.trace apply p (List.replicate n .allocate)).filterMap Prod.snd

theorem addresses_succ (p : IpPool) (n : Nat) :
    p.addresses (n + 1) = p.allocate.2.toList ++ p.allocate.1.addresses n := by
  rw [addresses, List.replicate_succ, Transition.trace_cons, List.filterMap_cons]
  dsimp only [apply]
  cases p.allocate.2 <;> rfl

/-- Nothing is in use from the cursor on. -/
def Fresh (p : IpPool) : Prop := ∀ x ∈ p.used, x < p.next

theorem fresh_of_empty (h : p.used = ∅) : p.Fresh := by simp [Fresh, h]

theorem Fresh.allocate (h : p.Fresh) : p.allocate = if p.next < p.max then
    ({ p with used := insert p.next p.used, next := p.next + 1 }, some (.toBeBytes p.next))
    else (p, none) := by
  -- no address is passed over
  have hstay {c : UInt32} (hle : p.next ≤ c) (hused : ∀ x, p.next ≤ x → x < c → x ∈ p.used) :
      c = p.next := by
    refine UInt32.le_antisymm (UInt32.not_lt.1 fun hlt => ?_) hle
    exact UInt32.lt_irrefl _ (h p.next (hused p.next (UInt32.le_refl _) hlt))
  rcases p.allocate_cases with ⟨c, hle, hlt, _, hused, heq⟩ | ⟨next, hle, hmax, hused, heq⟩
  · cases hstay hle hused
    rw [heq, if_pos hlt]
  · cases hstay hle hused
    rw [heq, if_neg (UInt32.not_lt.2 hmax)]

theorem addresses_eq (h : p.Fresh) (n : Nat) : p.addresses n =
    ((List.range (p.max.toNat - p.next.toNat)).map fun i => .toBeBytes (p.next + .ofNat i)).take n := by
  induction n generalizing p with
  | zero => rfl
  | succ n ih =>
    rw [addresses_succ, h.allocate]
    split
    · next hlt =>
      have hnext := toNat_add_one hlt
      have hlt := UInt32.lt_iff_toNat_lt.1 hlt
      have hsucc (i : Nat) : p.next + 1 + .ofNat i = p.next + .ofNat (i + 1) := by
        rw [Nat.add_comm i, UInt32.ofNat_add, UInt32.add_assoc]
        rfl
      have hfresh : Fresh { p with used := insert p.next p.used, next := p.next + 1 } := by
        intro x hx
        refine UInt32.lt_iff_toNat_lt.2 ?_
        dsimp only
        rw [hnext]
        rcases Finset.mem_insert.1 hx with rfl | hx
        · exact Nat.lt_succ_self _
        · exact (UInt32.lt_iff_toNat_lt.1 (h x hx)).trans (Nat.lt_succ_self _)
      have hmax : IpPool.max { p with used := insert p.next p.used, next := p.next + 1 } = p.max :=
        max_congr rfl rfl
      have hrange : p.max.toNat - p.next.toNat = p.max.toNat - (p.next.toNat + 1) + 1 := by omega
      rw [ih hfresh, hrange, List.range_succ_eq_map, List.map_cons, List.map_map, List.take_succ_cons]
      simp [hmax, hsucc, hnext, Function.comp_def]
    · next hge =>
      have hge : p.max.toNat ≤ p.next.toNat := UInt32.le_iff_toNat_le.1 (UInt32.not_lt.1 hge)
      rw [ih h, Nat.sub_eq_zero_of_le hge]
      simp

/-! ## The whole subnet -/

/-- All but the network address, the gateway and the broadcast address. -/
def hosts (base : UInt32) (mask : UInt8) : List Ipv4Addr :=
  (List.range (2 ^ (32 - mask.toNat) - 3)).map fun i => .toBeBytes (base + 2 + .ofNat i)

theorem mem_hosts {base x : UInt32} {mask : UInt8} (htop : base.toNat + 2 ^ (32 - mask.toNat) ≤ 2 ^ 32) :
    x ∈ (hosts base mask).map Ipv4Addr.fromBeBytes ↔ IsHost base mask x := by
  have htoNat {i : Nat} (hi : i < 2 ^ (32 - mask.toNat) - 3) :
      (base + 2 + .ofNat i).toNat = base.toNat + 2 + i := by
    rw [UInt32.toNat_add, UInt32.toNat_add, UInt32.toNat_ofNat']
    simp
    omega
  simp only [hosts, List.map_map, List.mem_map, List.mem_range, Function.comp_apply,
    Ipv4Addr.fromBeBytes_toBeBytes, IsHost]
  constructor
  · rintro ⟨i, hi, rfl⟩
    rw [htoNat hi]
    omega
  · rintro ⟨hgateway, hbroadcast⟩
    refine ⟨x.toNat - (base.toNat + 2), by omega, UInt32.toNat.inj ?_⟩
    rw [htoNat (by omega)]
    omega

/-- `available` predicts `allocate` after any calls, and repeated allocation gives every host address. -/
structure FullCapacity (p₀ : IpPool) : Prop where
  available : ∀ ops, (Transition.final apply p₀ ops).available =
    (Transition.final apply p₀ ops).allocate.2.isSome
  capacity : 1 ≤ p₀.mask.toNat → ∀ n, p₀.addresses n = (hosts p₀.base p₀.mask).take n

theorem available_iff (p : IpPool) : p.available = true ↔ p.used.card < p.size.toNat - 3 := decide_eq_true_iff

theorem fullCapacity_of_room {p₀ : IpPool} (hempty : p₀.used = ∅) (hinv : p₀.Inv)
    (hnext : p₀.next.toNat = p₀.base.toNat + 2)
    (hroom : p₀.max.toNat - (p₀.base.toNat + 2) = p₀.size.toNat - 3) : FullCapacity p₀ where
  available ops := by
    have hrun : (Transition.final apply p₀ ops).Inv ∧ (Transition.final apply p₀ ops).Bounded :=
      Transition.final_invariant (P := fun p : IpPool => p.Inv ∧ p.Bounded)
        (fun _ op h => ⟨h.1.apply op, h.2.apply op⟩) ⟨hinv, bounded_of_empty hempty⟩ ops
    obtain ⟨hbase, hmask⟩ := final_subnet p₀ ops
    generalize Transition.final apply p₀ ops = p at hrun hbase hmask ⊢
    rw [Bool.eq_iff_iff, available_iff, allocate_isSome_iff hrun.1 hrun.2, max_congr hbase hmask, hbase,
      hroom, size_congr hmask]
  capacity h₁ n := by
    have hfirst : p₀.next = p₀.base + 2 := by
      refine UInt32.toNat.inj (hnext.trans ?_)
      have := p₀.next.toNat_lt
      rw [UInt32.toNat_add]
      exact (Nat.mod_eq_of_lt (by simp; omega)).symm
    rw [addresses_eq (fresh_of_empty hempty), hosts, hnext, hroom, size_toNat h₁, hfirst]

/-- Repeated allocation gives too little when there is no room for it. -/
theorem room_of_capacity {p₀ : IpPool} (hempty : p₀.used = ∅) (hnext : p₀.next.toNat = p₀.base.toNat + 2)
    (h₁ : 1 ≤ p₀.mask.toNat) (h : FullCapacity p₀) :
    p₀.max.toNat - (p₀.base.toNat + 2) = p₀.size.toNat - 3 := by
  have hlen := congrArg List.length (h.capacity h₁ (p₀.max.toNat + p₀.size.toNat))
  rw [addresses_eq (fresh_of_empty hempty), hosts, hnext, ← size_toNat h₁] at hlen
  simp only [List.length_take, List.length_map, List.length_range] at hlen
  omega

theorem room_iff (hmask : p.mask.toNat ≤ 32) (hbase : p.base.toNat % 2 ^ (32 - p.mask.toNat) = 0)
    (hfits : p.base.toNat + 2 < 2 ^ 32) : p.max.toNat - (p.base.toNat + 2) = p.size.toNat - 3 ↔
      p.mask.toNat = 0 ∨ p.base.toNat + 2 ^ (32 - p.mask.toNat) < 2 ^ 32 := by
  by_cases h₀ : p.mask.toNat = 0
  · obtain ⟨hmax, hsize⟩ := max_of_mask_zero h₀
    rw [hsize, UInt32.toNat_zero]
    exact iff_of_true (by omega) (.inl h₀)
  · rw [or_iff_right h₀, max_toNat (by omega), size_toNat (by omega)]
    -- the subnet ends at `2 ^ 32` at the latest, and has at least four addresses if it ends there
    have htop : p.base.toNat + 2 ^ (32 - p.mask.toNat) ≤ 2 ^ 32 := by
      have hdvd : 2 ^ (32 - p.mask.toNat) ∣ 2 ^ 32 - p.base.toNat :=
        Nat.dvd_sub (Nat.pow_dvd_pow 2 (by omega)) (Nat.dvd_of_mod_eq_zero hbase)
      have := Nat.le_of_dvd (by omega) hdvd
      omega
    have hfour : 2 ^ (32 - p.mask.toNat) ≤ 2 ∨ 4 ≤ 2 ^ (32 - p.mask.toNat) := by
      rcases Nat.lt_or_ge (32 - p.mask.toNat) 2 with hlt | hge
      · exact .inl (Nat.pow_le_pow_right (by omega) (Nat.le_of_lt_succ hlt))
      · exact .inr (Nat.pow_le_pow_right (n := 2) (by omega) hge)
    omega

/-- The pool of a subnet is what it should be if and only if the subnet does not end with the last address
there is; /0 has no address to give. -/
theorem fullCapacity_iff (base : Ipv4Addr) (mask : UInt8) (hmask : mask.toNat ≤ 32)
    (hbase : base.fromBeBytes.toNat % 2 ^ (32 - mask.toNat) = 0)
    (hfits : base.fromBeBytes.toNat + 2 < 2 ^ 32) : ∃ p₀, new base mask = some p₀ ∧
      (FullCapacity p₀ ↔
        mask.toNat = 0 ∨ base.fromBeBytes.toNat + 2 ^ (32 - mask.toNat) < 2 ^ 32) := by
  obtain ⟨p₀, hnew, hb, hm, hempty, hnext, hinv⟩ := new_of_fits mask hfits
  refine ⟨p₀, hnew, ?_⟩
  rw [← hb, ← hm] at hbase ⊢
  rw [← hb] at hfits
  rw [← hm] at hmask
  have hroom := room_iff hmask hbase hfits
  constructor
  · intro h
    by_cases h₀ : p₀.mask.toNat = 0
    · exact .inl h₀
    · exact hroom.1 (room_of_capacity hempty hnext (by omega) h)
  · intro h
    exact fullCapacity_of_room hempty hinv hnext (hroom.2 h)

/-- 10.0.0.0/30. -/
theorem fullCapacity_small_subnet : ∃ p₀, new ⟨10, 0, 0, 0⟩ 30 = some p₀ ∧ FullCapacity p₀ := by
  obtain ⟨p₀, hnew, hfull⟩ := fullCapacity_iff ⟨10, 0, 0, 0⟩ 30 (by decide) (by decide) (by decide)
  exact ⟨p₀, hnew, hfull.2 (.inr (by decide))⟩

/-- The only address of 255.255.255.252/30 is available, and never given out. -/
theorem not_fullCapacity_top : ∃ p₀, new ⟨255, 255, 255, 252⟩ 30 = some p₀ ∧ p₀.available = true ∧
    p₀.allocate.2 = none := by
  refine ⟨_, rfl, ?_, ?_⟩
  all_goals decide

end IpPool

end OciKernel
