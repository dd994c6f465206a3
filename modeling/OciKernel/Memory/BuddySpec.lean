import OciKernel.Memory.Buddy

/-!
# Memory.BuddySpec

What each operation of the buddy allocator does to the multiset of free blocks.

* `exists_set`: replacing one list is one block less.
* `coalesce_spec`: the coalescing loop of `free` turns the freed block and the free blocks into a
  block and a sub-multiset with the same cover, whose buddy is not free.
* `allocateFrom_spec`: the search of `allocate` either finds every list from `order` on empty, or
  takes a block out and leaves its upper halves behind.
* `free_spec`, `allocate_spec`: the same for the two public functions.
-/

namespace OciKernel
namespace Memory

open Dyadic Tiling

/-! ## Lists -/

namespace FreeLists

variable {l : FreeLists} {o f : Nat} {v : List Nat}

theorem exists_push (h : o < MAX_ORDER) :
    ∃ l', l.push o f = some l' ∧
      (l'.blocks : Multiset Block) = ⟨f, o⟩ ::ₘ (l.blocks : Multiset Block) := by
  refine ⟨_, push_eq h, ?_⟩
  have := blocks_update l ⟨o, h⟩ (l ⟨o, h⟩ ++ [f])
  simp only [level, List.map_append, List.map_cons, List.map_nil, ← Multiset.coe_add,
    Multiset.coe_singleton] at this
  rw [Multiset.add_assoc] at this
  exact add_left_cancel this

/-- Replacing `free_lists[o]` by a list with one block less. -/
theorem exists_set (h : o < MAX_ORDER)
    (hv : (level o (l ⟨o, h⟩) : Multiset Block) = ⟨f, o⟩ ::ₘ (level o v : Multiset Block)) :
    ∃ l', l.set o v = some l' ∧
      (l.blocks : Multiset Block) = ⟨f, o⟩ ::ₘ (l'.blocks : Multiset Block) := by
  refine ⟨_, set_eq h, ?_⟩
  have := blocks_update l ⟨o, h⟩ v
  simp only [hv, Multiset.cons_add] at this
  rw [← Multiset.add_cons] at this
  exact (add_left_cancel this).symm

theorem exists_set_eraseIdx (h : o < MAX_ORDER) {pos : Nat}
    (hpos : (l ⟨o, h⟩).idxOf? f = some pos) :
    ∃ l', l.set o ((l ⟨o, h⟩).eraseIdx pos) = some l' ∧
      (l.blocks : Multiset Block) = ⟨f, o⟩ ::ₘ (l'.blocks : Multiset Block) := by
  have hmem : f ∈ l ⟨o, h⟩ := by
    rw [← List.isSome_idxOf?, hpos]; rfl
  have herase : (l ⟨o, h⟩).erase f = (l ⟨o, h⟩).eraseIdx pos := by
    rw [List.erase_eq_eraseIdx, hpos]
  refine exists_set h (Multiset.coe_eq_coe.2 ?_)
  rw [← herase]
  exact (List.perm_cons_erase hmem).map _

theorem exists_set_dropLast (h : o < MAX_ORDER) (hf : (l ⟨o, h⟩).getLast? = some f) :
    ∃ l', l.set o (l ⟨o, h⟩).dropLast = some l' ∧
      (l.blocks : Multiset Block) = ⟨f, o⟩ ::ₘ (l'.blocks : Multiset Block) := by
  refine exists_set h (Multiset.coe_eq_coe.2 ?_)
  have hl : l ⟨o, h⟩ = (l ⟨o, h⟩).dropLast ++ [f] := (List.dropLast_append_getLast? f hf).symm
  conv_lhs => rw [hl]
  exact (List.perm_append_singleton f _).map _

end FreeLists

open FreeLists

/-! ## Orders -/

theorem trailingZeros_two_pow {k : Nat} (h : k < 64) : trailingZeros (2 ^ k) = k := by
  have : (List.range 64).find? (2 ^ k).testBit = some k := by
    rw [List.find?_range_eq_some]
    refine ⟨Nat.testBit_two_pow_self, List.mem_range.2 h, ?_⟩
    intro j hj
    rw [Nat.testBit_two_pow_of_ne (by omega)]; rfl
  rw [trailingZeros, this]; rfl

theorem orderOf_eq {count : Nat} (h : count ≤ 2 ^ 63) : orderOf count = some (Nat.clog 2 count) := by
  have hlt : Nat.clog 2 count < 64 :=
    Nat.lt_succ_of_le (Nat.clog_le_of_le_pow h)
  rw [orderOf, nextPowerOfTwo, if_pos h]
  exact congrArg some (trailingZeros_two_pow hlt)

/-! ## `free` -/

/-- What the coalescing loop makes of block `b` and the free lists `l`. -/
structure Coalesces (l : FreeLists) (b : Block) (l' : FreeLists) (b' : Block) : Prop where
  aligned : b'.Aligned
  order_le : b'.order ≤ MAX_ORDER
  sub : (l'.blocks : Multiset Block) ≤ (l.blocks : Multiset Block)
  cover_eq : ∀ x, cover Block.frames (b' ::ₘ (l'.blocks : Multiset Block)) x =
    cover Block.frames (b ::ₘ (l.blocks : Multiset Block)) x
  no_buddy : b'.order < MAX_ORDER → b'.buddy ∉ l'.blocks

theorem coalesce_spec : ∀ (n : Nat) (l : FreeLists) (current currentOrder : Nat),
    n + currentOrder = MAX_ORDER → Block.Aligned ⟨current, currentOrder⟩ →
    ∃ l' b', coalesce n l current currentOrder = some (l', b'.start, b'.order) ∧
      Coalesces l ⟨current, currentOrder⟩ l' b' := by
  intro n
  induction n with
  | zero =>
    intro l c o hn ha
    exact ⟨l, ⟨c, o⟩, rfl, ha, by simp only; omega, le_refl _, fun _ => rfl,
      fun h => absurd h (by simp only; omega)⟩
  | succ n ih =>
    intro l c o hn ha
    have ho : o < MAX_ORDER := by omega
    let b : Block := ⟨c, o⟩
    have hb : c ^^^ 1 <<< o = b.buddy.start := by simp [b, Block.buddy, Nat.one_shiftLeft]
    simp only [coalesce, get_eq ho, hb]
    cases hpos : (l ⟨o, ho⟩).idxOf? b.buddy.start with
    | none =>
      refine ⟨l, b, by simp [hpos, b], ha, by simp only [b]; omega, le_refl _, fun _ => rfl, ?_⟩
      intro _ hm
      obtain ⟨_, hm⟩ := mem_blocks.1 hm
      exact List.idxOf?_eq_none_iff.1 hpos hm
    | some pos =>
      obtain ⟨l₁, hset, hblocks⟩ := exists_set_eraseIdx ho hpos
      have hmin : min c b.buddy.start = b.parent.start := rfl
      obtain ⟨l', b', hco, hc⟩ := ih l₁ b.parent.start (o + 1) (by omega)
        (Block.parent_aligned ha)
      refine ⟨l', b', by simp [hpos, hset, hmin, hco], hc.aligned, hc.order_le, ?_, fun x => ?_,
        hc.no_buddy⟩
      · rw [hblocks]
        exact hc.sub.trans (Multiset.le_cons_self _ _)
      · rw [hc.cover_eq x, hblocks]
        exact Block.cover_parent (b := b) ha _ x

/-- `free` panics exactly when the freed block coalesces up to `MAX_ORDER`; otherwise it adds the
freed block to the cover of the free blocks. -/
theorem free_spec {a : BuddyAllocator} {frame count : Nat} (hcount : Nat.clog 2 count ≤ MAX_ORDER)
    (ha : Block.Aligned ⟨frame, Nat.clog 2 count⟩) :
    (a.free frame count = none ∧ ∃ f, Block.Aligned ⟨f, MAX_ORDER⟩ ∧
      ∀ x ∈ Block.frames ⟨f, MAX_ORDER⟩, 0 < cover Block.frames
        (⟨frame, Nat.clog 2 count⟩ ::ₘ (a.freeLists.blocks : Multiset Block)) x) ∨
    ∃ a' b', a.free frame count = some a' ∧ a'.totalFrames = a.totalFrames ∧
      ∃ l', Coalesces a.freeLists ⟨frame, Nat.clog 2 count⟩ l' b' ∧
        (a'.freeLists.blocks : Multiset Block) = b' ::ₘ (l'.blocks : Multiset Block) := by
  have hle : count ≤ 2 ^ 63 :=
    ((Nat.clog_le_iff_le_pow (by omega)).1 hcount).trans (by decide)
  obtain ⟨l', b', hco, hc⟩ := coalesce_spec (MAX_ORDER - Nat.clog 2 count) a.freeLists frame
    (Nat.clog 2 count) (by omega) ha
  by_cases ho : b'.order < MAX_ORDER
  · obtain ⟨l'', hpush, hblocks⟩ := exists_push (l := l') (f := b'.start) ho
    exact .inr ⟨⟨l'', a.totalFrames⟩, b', by simp [BuddyAllocator.free, orderOf_eq hle, hco, hpush],
      rfl, l', hc, hblocks⟩
  · left
    have hbo : b'.order = MAX_ORDER := by have := hc.order_le; omega
    have hb' : (⟨b'.start, MAX_ORDER⟩ : Block) = b' := by rw [← hbo]
    refine ⟨by simp [BuddyAllocator.free, orderOf_eq hle, hco, push_eq_none ho], b'.start,
      hb' ▸ hc.aligned, fun x hx => ?_⟩
    rw [← hc.cover_eq x]
    exact cover_pos.2 ⟨b', Multiset.mem_cons_self _ _, hb' ▸ hx⟩

/-! ## `allocate` -/

theorem splitDown_spec : ∀ (k : Nat) (l : FreeLists) (frame order : Nat), order + k ≤ MAX_ORDER →
    ∃ l', splitDown k l frame order = some l' ∧
      (l'.blocks : Multiset Block) =
        Block.upperHalves frame order k + (l.blocks : Multiset Block) := by
  intro k
  induction k with
  | zero => intro l frame order _; exact ⟨l, rfl, by simp [Block.upperHalves]⟩
  | succ k ih =>
    intro l frame order hk
    obtain ⟨l₁, hpush, h₁⟩ := exists_push (l := l) (o := order + k)
      (f := frame + 1 <<< (order + k)) (by omega)
    obtain ⟨l', hsplit, h'⟩ := ih l₁ frame order (by omega)
    refine ⟨l', by simp [splitDown, hpush, hsplit], ?_⟩
    rw [h', h₁, Nat.one_shiftLeft, Block.upperHalves, Multiset.cons_add, Multiset.add_cons]

/-- What `allocate` returns and leaves behind when it finds a block: it takes a free block of order
`order + k` that starts at `frame`, and frees the upper halves. -/
structure Takes (l : FreeLists) (frame order k : Nat) (l' : FreeLists) (rest : Multiset Block) :
    Prop where
  order_lt : order + k < MAX_ORDER
  before : (l.blocks : Multiset Block) = ⟨frame, order + k⟩ ::ₘ rest
  after : (l'.blocks : Multiset Block) = Block.upperHalves frame order k + rest
  /-- No smaller free block would have done. -/
  smallest : ∀ b ∈ rest, b.order < order ∨ order + k ≤ b.order

theorem allocateFrom_spec : ∀ (n : Nat) (l : FreeLists) (order o : Nat),
    n + o = MAX_ORDER → order ≤ o → (∀ b ∈ l.blocks, b.order < order ∨ o ≤ b.order) →
    (allocateFrom n l order o = some (none, l) ∧ ∀ b ∈ l.blocks, b.order < order) ∨
    ∃ frame l' k rest, allocateFrom n l order o = some (some frame, l') ∧
      Takes l frame order k l' rest := by
  intro n
  induction n with
  | zero =>
    intro l order o hn _ hlow
    refine .inl ⟨rfl, ?_⟩
    intro b hb
    rcases hlow b hb with h | h
    · exact h
    · exact absurd (order_lt hb) (by omega)
  | succ n ih =>
    intro l order o hn hle hlow
    have ho : o < MAX_ORDER := by omega
    simp only [allocateFrom, get_eq ho]
    cases hlast : (l ⟨o, ho⟩).getLast? with
    | none =>
      have hnil : l ⟨o, ho⟩ = [] := List.getLast?_eq_none_iff.1 hlast
      have := ih l order (o + 1) (by omega) (by omega) fun b hb => by
        rcases hlow b hb with h | h
        · exact .inl h
        · obtain ⟨hb', hm⟩ := mem_blocks.1 hb
          rcases Nat.lt_or_eq_of_le h with h | rfl
          · exact .inr h
          · rw [hnil] at hm; cases hm
      simpa [hlast] using this
    | some frame =>
      obtain ⟨l₁, hset, h₁⟩ := exists_set_dropLast ho hlast
      obtain ⟨l', hsplit, h'⟩ := splitDown_spec (o - order) l₁ frame order (by omega)
      have hk : order + (o - order) = o := by omega
      refine .inr ⟨frame, l', o - order, l₁.blocks, by simp [hlast, hset, hsplit], ?_⟩
      refine ⟨by omega, by rw [hk, h₁], h', ?_⟩
      intro b hb
      rw [hk]
      exact hlow b (Multiset.mem_coe.1 (h₁ ▸ Multiset.mem_cons_of_mem hb))

/-- `allocate` never panics on a legal count; it fails only when no free block is large enough. -/
theorem allocate_spec {a : BuddyAllocator} {count : Nat} (hcount : count ≤ 2 ^ 63) :
    (a.allocate count = some (none, a) ∧
      ∀ b ∈ a.freeLists.blocks, b.order < Nat.clog 2 count) ∨
    ∃ frame l' k rest, a.allocate count = some (some frame, ⟨l', a.totalFrames⟩) ∧
      Takes a.freeLists frame (Nat.clog 2 count) k l' rest := by
  have hord := orderOf_eq hcount
  by_cases h : Nat.clog 2 count ≤ MAX_ORDER
  · rcases allocateFrom_spec (MAX_ORDER - Nat.clog 2 count) a.freeLists
      (Nat.clog 2 count) (Nat.clog 2 count) (by omega) (le_refl _)
      (fun b _ => Nat.lt_or_ge _ _) with ⟨h₁, h₂⟩ | ⟨frame, l', k, rest, h₁, h₂⟩
    · exact .inl ⟨by simp [BuddyAllocator.allocate, hord, h₁], h₂⟩
    · exact .inr ⟨frame, l', k, rest, by simp [BuddyAllocator.allocate, hord, h₁], h₂⟩
  · left
    have hz : MAX_ORDER - Nat.clog 2 count = 0 := by omega
    refine ⟨by simp [BuddyAllocator.allocate, hord, hz, allocateFrom], ?_⟩
    intro b hb
    have := order_lt hb
    omega

end Memory
end OciKernel
