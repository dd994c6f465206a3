import OciKernel.Lib.Tiling
import Mathlib.Data.Nat.Bitwise
import Mathlib.Order.Interval.Finset.Nat
import Mathlib.Tactic.Ring

/-!
# Lib.Dyadic

Dyadic blocks of natural numbers: `⟨start, order⟩` stands for `[start, start + 2 ^ order)`, aligned
when `start` is a multiple of its size. The buddy of a block is its sibling in the dyadic tree, found
by flipping one bit of the start.

* `buddy_cases`: an aligned block is the lower or the upper half of its parent; its buddy is the
  other half. Every other fact about the xor follows from it.
* `nested_or_disjoint`: two aligned blocks never overlap partly.
* `Coalesced`: no block of the set has its buddy in the set. `Coalesced.exists_block_ge` is the point
  of coalescing: a coalesced tiling that covers an aligned block covers it with a single tile.
* `Coalesced.unique`: so a set has at most one coalesced tiling.
-/

namespace Dyadic

open Tiling

structure Block where
  start : Nat
  order : Nat
deriving DecidableEq, Repr

namespace Block

def size (b : Block) : Nat := 2 ^ b.order

def frames (b : Block) : Finset Nat := Finset.Ico b.start (b.start + b.size)

/-- The start is a multiple of the size. -/
def Aligned (b : Block) : Prop := b.size ∣ b.start

def buddy (b : Block) : Block := ⟨b.start ^^^ 2 ^ b.order, b.order⟩

/-- The block one order up that consists of `b` and its buddy. -/
def parent (b : Block) : Block := ⟨min b.start (b.start ^^^ 2 ^ b.order), b.order + 1⟩

instance (b : Block) : Decidable b.Aligned := inferInstanceAs (Decidable (_ ∣ _))

@[simp] theorem buddy_order (b : Block) : b.buddy.order = b.order := rfl
@[simp] theorem parent_order (b : Block) : b.parent.order = b.order + 1 := rfl

theorem size_pos (b : Block) : 0 < b.size := Nat.two_pow_pos _

theorem mem_frames {b : Block} {x : Nat} :
    x ∈ b.frames ↔ b.start ≤ x ∧ x < b.start + b.size := Finset.mem_Ico

theorem start_mem_frames (b : Block) : b.start ∈ b.frames :=
  mem_frames.2 ⟨Nat.le_refl _, Nat.lt_add_of_pos_right b.size_pos⟩

@[simp] theorem card_frames (b : Block) : b.frames.card = b.size := by simp [frames]

@[simp] theorem aligned_zero (f : Nat) : Aligned ⟨f, 0⟩ := by simp [Aligned, size]

@[simp] theorem buddy_buddy (b : Block) : b.buddy.buddy = b := by
  simp [buddy]

theorem buddy_ne (b : Block) : b.buddy ≠ b := by
  intro h
  have hs : b.start ^^^ 2 ^ b.order = b.start := congrArg start h
  have : 2 ^ b.order = 0 := by rw [← Nat.xor_xor_cancel_left b.start (2 ^ b.order), hs, Nat.xor_self]
  exact absurd this (Nat.two_pow_pos _).ne'

theorem xor_two_pow {f o : Nat} (h : 2 ^ o ∣ f) : f ^^^ 2 ^ o = 2 ^ o * (f / 2 ^ o ^^^ 1) := by
  have hmod : (f ^^^ 2 ^ o) % 2 ^ o = 0 := by
    rw [Nat.xor_mod_two_pow, Nat.mod_eq_zero_of_dvd h]; simp
  have hdiv : (f ^^^ 2 ^ o) / 2 ^ o = f / 2 ^ o ^^^ 1 := by
    rw [Nat.xor_div_two_pow, Nat.div_self (Nat.two_pow_pos o)]
  rw [← hdiv, Nat.mul_div_cancel' (Nat.dvd_of_mod_eq_zero hmod)]

/-- An aligned block is the lower half of its parent and its buddy the upper half, or the other way
round. -/
theorem buddy_cases {b : Block} (h : b.Aligned) :
    (b.parent.Aligned ∧ b.parent.start = b.start ∧ b.buddy.start = b.start + b.size) ∨
    (b.parent.Aligned ∧ b.parent.start = b.buddy.start ∧ b.start = b.buddy.start + b.size) := by
  obtain ⟨f, o⟩ := b
  obtain ⟨m, rfl⟩ : 2 ^ o ∣ f := h
  have hx : 2 ^ o * m ^^^ 2 ^ o = 2 ^ o * (m ^^^ 1) := by
    rw [xor_two_pow ⟨m, rfl⟩, Nat.mul_div_cancel_left m (Nat.two_pow_pos o)]
  simp only [Aligned, parent, buddy, size, hx, Nat.pow_succ]
  rcases Nat.even_or_odd m with hm | hm
  · left
    rw [Nat.xor_one_of_even hm]
    obtain ⟨k, rfl⟩ := hm
    have hmin : min (2 ^ o * (k + k)) (2 ^ o * (k + k + 1)) = 2 ^ o * (k + k) :=
      Nat.min_eq_left (Nat.mul_le_mul_left _ (Nat.le_succ _))
    rw [hmin]
    exact ⟨⟨k, by ring⟩, rfl, by ring⟩
  · right
    rw [Nat.xor_one_of_odd hm]
    obtain ⟨k, rfl⟩ := hm
    have hmin : min (2 ^ o * (2 * k + 1)) (2 ^ o * (2 * k + 1 - 1)) = 2 ^ o * (2 * k) :=
      Nat.min_eq_right (Nat.mul_le_mul_left _ (by omega))
    rw [hmin, Nat.add_sub_cancel]
    exact ⟨⟨k, by ring⟩, rfl, by ring⟩

theorem parent_size (b : Block) : b.parent.size = b.size + b.size := by
  simp [size, Nat.pow_succ, Nat.mul_two]

theorem parent_aligned {b : Block} (h : b.Aligned) : b.parent.Aligned := by
  rcases buddy_cases h with h | h <;> exact h.1

/-- A point of the parent lies in the block or in its buddy, never in both. -/
theorem mem_parent {b : Block} (h : b.Aligned) (x : Nat) :
    (x ∈ b.parent.frames ↔ x ∈ b.frames ∨ x ∈ b.buddy.frames) ∧
      ¬ (x ∈ b.frames ∧ x ∈ b.buddy.frames) := by
  have hs : b.buddy.size = b.size := rfl
  simp only [mem_frames, parent_size, hs]
  rcases buddy_cases h with ⟨_, hp, hb⟩ | ⟨_, hp, hb⟩ <;> rw [hp] <;> omega

/-- Merging a block with its buddy does not change what is covered. -/
theorem cover_parent {b : Block} (h : b.Aligned) (M : Multiset Block) (x : Nat) :
    cover frames (b.parent ::ₘ M) x = cover frames (b ::ₘ b.buddy ::ₘ M) x := by
  obtain ⟨hor, hand⟩ := mem_parent h x
  simp only [cover_cons]
  by_cases h₁ : x ∈ b.frames <;> by_cases h₂ : x ∈ b.buddy.frames
  · exact absurd ⟨h₁, h₂⟩ hand
  all_goals simp [hor, h₁, h₂]

/-- The two halves of a block: cutting it does not change what is covered. -/
theorem cover_halves (f o : Nat) (M : Multiset Block) (x : Nat) :
    cover frames (⟨f, o⟩ ::ₘ ⟨f + 2 ^ o, o⟩ ::ₘ M) x = cover frames (⟨f, o + 1⟩ ::ₘ M) x := by
  have hp : 0 < 2 ^ o := Nat.two_pow_pos o
  have h₁ : x ∈ frames ⟨f, o + 1⟩ ↔ x ∈ frames ⟨f, o⟩ ∨ x ∈ frames ⟨f + 2 ^ o, o⟩ := by
    simp only [mem_frames, size, Nat.pow_succ]; omega
  have h₂ : ¬ (x ∈ frames ⟨f, o⟩ ∧ x ∈ frames ⟨f + 2 ^ o, o⟩) := by
    simp only [mem_frames, size]; omega
  simp only [cover_cons]
  by_cases h₃ : x ∈ frames ⟨f, o⟩ <;> by_cases h₄ : x ∈ frames ⟨f + 2 ^ o, o⟩
  · exact absurd ⟨h₃, h₄⟩ h₂
  all_goals simp [h₁, h₃, h₄]

theorem lower_half_aligned {f o : Nat} (h : Aligned ⟨f, o + 1⟩) : Aligned ⟨f, o⟩ :=
  Nat.dvd_trans (Nat.pow_dvd_pow 2 (Nat.le_succ o)) h

theorem upper_half_aligned {f o : Nat} (h : Aligned ⟨f, o + 1⟩) : Aligned ⟨f + 2 ^ o, o⟩ :=
  Nat.dvd_add (lower_half_aligned h) (Nat.dvd_refl _)

/-- What cutting `⟨f, o + k⟩` down to `⟨f, o⟩` leaves over: the upper half of every cut. -/
def upperHalves (f o : Nat) : Nat → Multiset Block
  | 0 => 0
  | k + 1 => ⟨f + 2 ^ (o + k), o + k⟩ ::ₘ upperHalves f o k

theorem mem_upperHalves {f o k : Nat} {b : Block} :
    b ∈ upperHalves f o k ↔ ∃ j < k, b = ⟨f + 2 ^ (o + j), o + j⟩ := by
  induction k with
  | zero => simp [upperHalves]
  | succ k ih =>
    rw [upperHalves, Multiset.mem_cons, ih]
    constructor
    · rintro (rfl | ⟨j, hj, rfl⟩)
      · exact ⟨k, Nat.lt_succ_self k, rfl⟩
      · exact ⟨j, by omega, rfl⟩
    · rintro ⟨j, hj, rfl⟩
      rcases Nat.lt_succ_iff_lt_or_eq.1 hj with hj | rfl
      · exact .inr ⟨j, hj, rfl⟩
      · exact .inl rfl

theorem cover_upperHalves (f o k : Nat) (M : Multiset Block) (x : Nat) :
    cover frames (⟨f, o⟩ ::ₘ (upperHalves f o k + M)) x = cover frames (⟨f, o + k⟩ ::ₘ M) x := by
  induction k generalizing M with
  | zero => simp [upperHalves]
  | succ k ih =>
    have hM : upperHalves f o (k + 1) + M =
        upperHalves f o k + (⟨f + 2 ^ (o + k), o + k⟩ ::ₘ M) := by
      rw [upperHalves, Multiset.cons_add, Multiset.add_cons]
    rw [hM, ih, cover_halves]
    rfl

theorem aligned_of_le {f o p : Nat} (h : Aligned ⟨f, p⟩) (ho : o ≤ p) : Aligned ⟨f, o⟩ :=
  Nat.dvd_trans (Nat.pow_dvd_pow 2 ho) h

theorem upperHalves_aligned {f o k : Nat} (h : Aligned ⟨f, o + k⟩) :
    ∀ b ∈ upperHalves f o k, b.Aligned := by
  intro b hb
  obtain ⟨j, hj, rfl⟩ := mem_upperHalves.1 hb
  exact upper_half_aligned (aligned_of_le h (by omega))

/-- The upper half of an aligned block is the buddy of the lower half. -/
theorem buddy_lower_half {f o : Nat} (h : Aligned ⟨f, o + 1⟩) :
    buddy ⟨f, o⟩ = ⟨f + 2 ^ o, o⟩ := by
  rcases buddy_cases (lower_half_aligned h) with ⟨_, _, hb⟩ | ⟨hp, hs, hb⟩
  · simp only [buddy, size] at hb ⊢
    rw [hb]
  · -- the start of `⟨f, o⟩` would be an odd multiple of its size, against `2 ^ (o + 1) ∣ f`
    exfalso
    have hd : 2 ^ (o + 1) ∣ (buddy ⟨f, o⟩).start := by
      have := hp; simp only [Aligned, hs] at this; exact this
    have hsum : 2 ^ (o + 1) ∣ (buddy ⟨f, o⟩).start + 2 ^ o := by
      have : f = (buddy ⟨f, o⟩).start + 2 ^ o := hb
      rw [← this]; exact h
    have := (Nat.dvd_add_right hd).1 hsum
    exact absurd (Nat.le_of_dvd (Nat.two_pow_pos o) this)
      (by have := Nat.two_pow_pos o; rw [Nat.pow_succ]; omega)

/-- A block inside a block of the same order is that block. -/
theorem eq_of_frames_subset {b : Block} {f o : Nat} (ho : b.order = o)
    (h : frames ⟨f, o⟩ ⊆ b.frames) : b = ⟨f, o⟩ := by
  obtain ⟨s, o'⟩ := b
  obtain rfl : o' = o := ho
  have hp : 0 < 2 ^ o' := Nat.two_pow_pos o'
  have hlast : f + 2 ^ o' - 1 ∈ frames ⟨f, o'⟩ := by
    simp only [mem_frames, size]; omega
  have h₁ := mem_frames.1 (h (start_mem_frames ⟨f, o'⟩))
  have h₂ := mem_frames.1 (h hlast)
  simp only [size] at h₁ h₂
  rw [show s = f by omega]

theorem nested_or_disjoint {b c : Block} (hb : b.Aligned) (hc : c.Aligned)
    (ho : b.order ≤ c.order) : b.frames ⊆ c.frames ∨ Disjoint b.frames c.frames := by
  obtain ⟨m, hm⟩ := hb
  obtain ⟨d, hd⟩ : b.size ∣ c.size := Nat.pow_dvd_pow 2 ho
  obtain ⟨n, hn⟩ := hc
  have hsz := b.size_pos
  rw [or_iff_not_imp_right, Finset.not_disjoint_iff]
  rintro ⟨x, hxb, hxc⟩
  rw [mem_frames] at hxb hxc
  rw [hm] at hxb
  rw [hn, hd] at hxc
  -- all four bounds are multiples of the smaller size
  have h₁ : d * n ≤ m := by
    by_contra hlt
    have : b.size * (m + 1) ≤ b.size * (d * n) := Nat.mul_le_mul_left _ (by omega)
    rw [Nat.mul_add, Nat.mul_one] at this
    rw [← Nat.mul_assoc] at this
    omega
  have h₂ : m + 1 ≤ d * n + d := by
    by_contra hlt
    have : b.size * (d * n + d) ≤ b.size * m := Nat.mul_le_mul_left _ (by omega)
    rw [Nat.mul_add, ← Nat.mul_assoc] at this
    omega
  have h₃ := Nat.mul_le_mul_left b.size h₁
  have h₄ := Nat.mul_le_mul_left b.size h₂
  rw [Nat.mul_add, Nat.mul_one] at h₄
  rw [Nat.mul_add] at h₄
  intro y hy
  rw [mem_frames] at hy ⊢
  rw [hm] at hy
  rw [hn, hd, Nat.mul_assoc]
  omega

end Block

open Block

/-- No block of `M` has its buddy in `M`, below order `top`. -/
def Coalesced (top : Nat) (M : Multiset Block) : Prop :=
  ∀ b ∈ M, b.order < top → b.buddy ∉ M

theorem Coalesced.mono {top : Nat} {M N : Multiset Block} (h : Coalesced top N) (hs : M ⊆ N) :
    Coalesced top M := fun b hb ho hb' => h b (hs hb) ho (hs hb')

theorem Coalesced.cons {top : Nat} {M : Multiset Block} {b : Block} (h : Coalesced top M)
    (hb : b.order < top → b.buddy ∉ M) : Coalesced top (b ::ₘ M) := by
  intro c hc ho hc'
  rcases Multiset.mem_cons.1 hc with rfl | hc
  · rcases Multiset.mem_cons.1 hc' with he | hc'
    · exact buddy_ne c he
    · exact hb ho hc'
  · rcases Multiset.mem_cons.1 hc' with he | hc'
    · subst he
      exact hb ho (by rwa [buddy_buddy])
    · exact h c hc ho hc'

/-- Cutting a block below the orders present in the rest keeps the rest coalesced. -/
theorem Coalesced.cut {top f o k : Nat} {M : Multiset Block} (h : Coalesced top M)
    (ho : ∀ b ∈ M, b.order < o ∨ o + k ≤ b.order) : Coalesced top (upperHalves f o k + M) := by
  intro b hb hbo hb'
  rcases Multiset.mem_add.1 hb with hb | hb <;> rcases Multiset.mem_add.1 hb' with hb' | hb'
  · obtain ⟨i, hi, rfl⟩ := mem_upperHalves.1 hb
    obtain ⟨j, hj, he⟩ := mem_upperHalves.1 hb'
    have hij : o + i = o + j := congrArg order he
    rw [← hij] at he
    exact buddy_ne _ he
  · obtain ⟨i, hi, rfl⟩ := mem_upperHalves.1 hb
    have := ho _ hb'
    simp only [buddy_order] at this
    omega
  · obtain ⟨i, hi, he⟩ := mem_upperHalves.1 hb'
    have := ho _ hb
    have hbo : b.order = o + i := congrArg order he
    omega
  · exact h b hb hbo hb'

/-- A coalesced tiling that covers all of an aligned block covers it with one tile, of at least its
order. By induction on the order: each half lies in one tile, and two tiles of exactly the halves'
order would be buddies. -/
theorem Coalesced.exists_block_ge {top : Nat} {M : Multiset Block} {S : Finset Nat}
    (hc : Coalesced top M) (ha : ∀ b ∈ M, b.Aligned) (ht : Tiles frames M S) :
    ∀ {o f : Nat}, o ≤ top → Aligned ⟨f, o⟩ → frames ⟨f, o⟩ ⊆ S →
      ∃ b ∈ M, o ≤ b.order ∧ frames ⟨f, o⟩ ⊆ b.frames := by
  intro o
  induction o with
  | zero =>
    intro f _ _ hS
    obtain ⟨b, hb, hf⟩ := ht.mem_iff.1 (hS (start_mem_frames ⟨f, 0⟩))
    refine ⟨b, hb, Nat.zero_le _, ?_⟩
    intro x hx
    have : x = f := by
      have := mem_frames.1 hx
      simp only [size, Nat.pow_zero] at this
      omega
    exact this ▸ hf
  | succ o ih =>
    intro f hle hal hS
    have hp : 0 < 2 ^ o := Nat.two_pow_pos o
    have hlow : frames ⟨f, o⟩ ⊆ frames ⟨f, o + 1⟩ := by
      intro x hx
      simp only [mem_frames, size, Nat.pow_succ] at hx ⊢; omega
    have hup : frames ⟨f + 2 ^ o, o⟩ ⊆ frames ⟨f, o + 1⟩ := by
      intro x hx
      simp only [mem_frames, size, Nat.pow_succ] at hx ⊢; omega
    obtain ⟨b, hb, hbo, hbf⟩ := ih (by omega) (lower_half_aligned hal) (hlow.trans hS)
    obtain ⟨c, hcm, hco, hcf⟩ := ih (by omega) (upper_half_aligned hal) (hup.trans hS)
    -- a tile of higher order that meets the block contains all of it
    have hbig : ∀ d ∈ M, o + 1 ≤ d.order → ∀ x ∈ frames ⟨f, o + 1⟩, x ∈ d.frames →
        ∃ b ∈ M, o + 1 ≤ b.order ∧ frames ⟨f, o + 1⟩ ⊆ b.frames := by
      intro d hd ho x hx hxd
      rcases nested_or_disjoint hal (ha d hd) ho with hsub | hdis
      · exact ⟨d, hd, ho, hsub⟩
      · exact absurd hxd (Finset.disjoint_left.1 hdis hx)
    by_cases hbo' : o + 1 ≤ b.order
    · exact hbig b hb hbo' f (start_mem_frames _) (hbf (start_mem_frames _))
    by_cases hco' : o + 1 ≤ c.order
    · exact hbig c hcm hco' (f + 2 ^ o) (hup (start_mem_frames _)) (hcf (start_mem_frames _))
    -- otherwise both tiles are exactly the two halves
    exfalso
    have hb' : b = ⟨f, o⟩ := eq_of_frames_subset (by omega) hbf
    have hc' : c = ⟨f + 2 ^ o, o⟩ := eq_of_frames_subset (by omega) hcf
    apply hc b hb (by omega)
    rw [hb', buddy_lower_half hal, ← hc']
    exact hcm

/-- A set has one coalesced tiling. A tile of the one lies in a tile of the other, which lies in a tile
of the first: all three are the same block. -/
theorem Coalesced.subset {top : Nat} {M N : Multiset Block} {S : Finset Nat}
    (hcM : Coalesced top M) (haM : ∀ b ∈ M, b.Aligned) (hM : Tiles frames M S)
    (hcN : Coalesced top N) (haN : ∀ b ∈ N, b.Aligned) (hN : Tiles frames N S)
    (htM : ∀ b ∈ M, b.order ≤ top) (htN : ∀ b ∈ N, b.order ≤ top) : M ⊆ N := by
  intro b hb
  obtain ⟨c, hc, hbc, hsub⟩ := hcN.exists_block_ge haN hN (htM b hb) (haM b hb) (hM.subset hb)
  obtain ⟨d, hd, hcd, hsub'⟩ := hcM.exists_block_ge haM hM (htN c hc) (haN c hc) (hN.subset hc)
  have hdb : d = b :=
    hM.eq_of_mem hd hb (hsub' (hsub (start_mem_frames b))) (start_mem_frames b)
  subst hdb
  have hcb : c = d := eq_of_frames_subset (Nat.le_antisymm hcd hbc) hsub
  exact hcb ▸ hc

theorem Coalesced.unique {top : Nat} {M N : Multiset Block} {S : Finset Nat}
    (hcM : Coalesced top M) (haM : ∀ b ∈ M, b.Aligned) (hM : Tiles frames M S)
    (hcN : Coalesced top N) (haN : ∀ b ∈ N, b.Aligned) (hN : Tiles frames N S)
    (htM : ∀ b ∈ M, b.order ≤ top) (htN : ∀ b ∈ N, b.order ≤ top) : M = N := by
  have hne : ∀ b : Block, b.frames.Nonempty := fun b => ⟨b.start, start_mem_frames b⟩
  rw [Multiset.Nodup.ext (hM.nodup fun b _ => hne b) (hN.nodup fun b _ => hne b)]
  exact fun b => ⟨fun h => hcM.subset haM hM hcN haN hN htM htN h,
    fun h => hcN.subset haN hN hcM haM hM htN htM h⟩

end Dyadic
