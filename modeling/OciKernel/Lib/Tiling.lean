import Mathlib.Algebra.BigOperators.Group.Finset.Basic
import Mathlib.Data.Finset.Card
import Mathlib.Data.Multiset.Filter

/-!
# Lib.Tiling

Tilings of a finite set by a multiset of tiles, over arbitrary tile and point types. A tile `b`
occupies the points `pts b`.

`cover pts M x` counts the tiles of `M` that occupy `x`; `M` tiles `S` when that count is one on
`S` and zero elsewhere. The one equation says three things at once: the tiles are pairwise disjoint
(`Tiles.pairwise`), their union is `S` (`Tiles.mem_iff`), and their sizes add up to the size of `S`
(`Tiles.sum_card`). Because `cover` is additive, an operation that replaces tiles by others with the
same cover keeps a tiling (`Tiles.congr`).
-/

namespace Tiling

variable {ι α : Type*} [DecidableEq α] {pts : ι → Finset α}

/-- How many tiles of `M` occupy `x`. -/
def cover (pts : ι → Finset α) (M : Multiset ι) (x : α) : Nat := M.countP fun b => x ∈ pts b

@[simp] theorem cover_zero (x : α) : cover pts 0 x = 0 := rfl

@[simp] theorem cover_cons (b : ι) (M : Multiset ι) (x : α) :
    cover pts (b ::ₘ M) x = cover pts M x + if x ∈ pts b then 1 else 0 := by
  simp [cover, Multiset.countP_cons]

@[simp] theorem cover_add (M N : Multiset ι) (x : α) :
    cover pts (M + N) x = cover pts M x + cover pts N x := by
  simp [cover, Multiset.countP_add]

theorem cover_pos {M : Multiset ι} {x : α} : 0 < cover pts M x ↔ ∃ b ∈ M, x ∈ pts b :=
  Multiset.countP_pos

theorem cover_mono {M N : Multiset ι} (h : M ≤ N) (x : α) : cover pts M x ≤ cover pts N x :=
  Multiset.countP_le_of_le _ h

/-- `M` tiles `S`: every point of `S` lies in exactly one tile, every other point in none. -/
def Tiles (pts : ι → Finset α) (M : Multiset ι) (S : Finset α) : Prop :=
  ∀ x, cover pts M x = if x ∈ S then 1 else 0

namespace Tiles

variable {M N : Multiset ι} {S T : Finset α}

theorem zero : Tiles pts 0 ∅ := by intro x; simp

/-- Tiles with the same cover tile the same set. -/
theorem congr (h : Tiles pts M S) (hc : ∀ x, cover pts N x = cover pts M x) : Tiles pts N S :=
  fun x => (hc x).trans (h x)

theorem cover_le_one (h : Tiles pts M S) (x : α) : cover pts M x ≤ 1 := by
  rw [h x]; split <;> omega

theorem mem_iff (h : Tiles pts M S) {x : α} : x ∈ S ↔ ∃ b ∈ M, x ∈ pts b :=
  calc x ∈ S ↔ 0 < cover pts M x := by rw [h x]; split <;> simp_all
    _ ↔ ∃ b ∈ M, x ∈ pts b := cover_pos

theorem subset (h : Tiles pts M S) {b : ι} (hb : b ∈ M) : pts b ⊆ S :=
  fun _ hx => h.mem_iff.2 ⟨b, hb, hx⟩

theorem insert (h : Tiles pts M S) {b : ι} (hb : Disjoint (pts b) S) :
    Tiles pts (b ::ₘ M) (pts b ∪ S) := by
  intro x
  have hx : x ∈ pts b → x ∉ S := fun h₁ h₂ => Finset.disjoint_left.1 hb h₁ h₂
  rw [cover_cons, h x]
  by_cases h₁ : x ∈ pts b <;> by_cases h₂ : x ∈ S <;> simp_all

/-- Two tiles that share a point are the same tile. -/
theorem eq_of_mem (h : Tiles pts M S) {b c : ι} {x : α} (hb : b ∈ M) (hc : c ∈ M) (hxb : x ∈ pts b)
    (hxc : x ∈ pts c) : b = c := by
  by_contra hne
  obtain ⟨N, rfl⟩ := Multiset.exists_cons_of_mem hb
  obtain ⟨N, rfl⟩ := Multiset.exists_cons_of_mem
    ((Multiset.mem_cons.1 hc).resolve_left fun he => hne he.symm)
  have := h.cover_le_one x
  rw [cover_cons, cover_cons, if_pos hxb, if_pos hxc] at this
  omega

/-- Tiles that occupy some point each are listed once. -/
theorem nodup (h : Tiles pts M S) (hne : ∀ b ∈ M, (pts b).Nonempty) : M.Nodup := by
  rw [Multiset.nodup_iff_ne_cons_cons]
  rintro b N rfl
  obtain ⟨x, hx⟩ := hne b (Multiset.mem_cons_self _ _)
  have := h.cover_le_one x
  rw [cover_cons, cover_cons, if_pos hx] at this
  omega

/-- Some of the tiles tile the points they occupy. -/
theorem sub (h : Tiles pts M S) (hN : N ≤ M) : Tiles pts N (S.filter fun x => 0 < cover pts N x) := by
  intro x
  have hle : cover pts N x ≤ 1 := (cover_mono hN x).trans (h.cover_le_one x)
  have hx : 0 < cover pts N x → x ∈ S := by
    intro hpos
    obtain ⟨b, hb, hxb⟩ := cover_pos.1 hpos
    exact h.subset (Multiset.mem_of_le hN hb) hxb
  split
  · rename_i hm
    have := (Finset.mem_filter.1 hm).2
    omega
  · rename_i hm
    by_contra hne
    exact hm (Finset.mem_filter.2 ⟨hx (Nat.pos_of_ne_zero hne), Nat.pos_of_ne_zero hne⟩)

/-- Listed in any order, the tiles are pairwise disjoint. -/
theorem pairwise {l : List ι} (h : Tiles pts (l : Multiset ι) S) :
    l.Pairwise fun b c => Disjoint (pts b) (pts c) := by
  rw [List.pairwise_iff_forall_sublist]
  intro b c hs
  rw [Finset.disjoint_left]
  intro x hb hc
  have h₁ : ((↑[b, c] : Multiset ι)) ≤ (l : Multiset ι) := Multiset.coe_le.2 hs.subperm
  have h₂ : cover pts [b, c] x ≤ 1 := (cover_mono h₁ x).trans (h.cover_le_one x)
  simp only [← Multiset.cons_coe, cover_cons, if_pos hb, if_pos hc] at h₂
  omega

/-- The sizes of the tiles add up to the size of the set. -/
theorem sum_card (h : Tiles pts M S) : (M.map fun b => (pts b).card).sum = S.card := by
  induction M using Multiset.induction generalizing S with
  | empty =>
    have : S = ∅ := Finset.eq_empty_of_forall_notMem fun x hx => by
      obtain ⟨b, hb, _⟩ := h.mem_iff.1 hx
      cases hb
    simp [this]
  | cons b M ih =>
    have hb : pts b ⊆ S := h.subset (Multiset.mem_cons_self b M)
    have hM : Tiles pts M (S \ pts b) := by
      intro x
      have hx := h x
      have hbx : x ∈ pts b → x ∈ S := fun hx => hb hx
      rw [cover_cons] at hx
      by_cases h₁ : x ∈ pts b <;> by_cases h₂ : x ∈ S <;> simp_all
    rw [Multiset.map_cons, Multiset.sum_cons, ih hM, Finset.card_sdiff_of_subset hb]
    have := Finset.card_le_card hb
    omega

end Tiles

end Tiling
