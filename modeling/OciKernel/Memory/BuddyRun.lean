import OciKernel.Lib.Run
import OciKernel.Memory.BuddySpec

/-!
# Memory.BuddyRun

Runs of the buddy allocator: construction from a list of frames, then any sequence of `allocate`
calls and of `free` calls that each return an outstanding block with its original count.

`Inv S` is what every reachable state satisfies: the free blocks and the outstanding blocks together
tile the initial frames `S`, all of them aligned, and the free blocks are coalesced. Conservation,
disjointness and the exact condition under which no operation panics are read off it.

* `Inv.step`: one legal call that does not panic keeps the invariant.
* `Inv.run`: so every run does.
* `neverPanics_iff`: no call panics, in any run, iff the frames hold no aligned group of
  `2 ^ MAX_ORDER` frames.
* `blocks_partition`: conservation and disjointness in every reachable state.
-/

namespace OciKernel
namespace Memory

open Dyadic Tiling Transition

/-- The allocator and the `(frame, count)` pairs handed out and not yet returned. -/
structure Session where
  allocator : BuddyAllocator
  outstanding : List (Nat × Nat)

inductive Op where
  | allocate (count : Nat)
  | free (frame count : Nat)

namespace Session

/-- The block `[frame, frame + next_power_of_two(count))`. -/
def outBlock (p : Nat × Nat) : Block := ⟨p.1, Nat.clog 2 p.2⟩

def blocks (s : Session) : List Block := s.allocator.freeLists.blocks ++ s.outstanding.map outBlock

def start (frames : List Nat) : Option Session := do
  let a ← BuddyAllocator.newFromFrames frames
  some ⟨a, []⟩

/-- `none` is a panic. -/
def exec (s : Session) : Op → Option Session
  | .allocate count => do
    match ← s.allocator.allocate count with
    | (some frame, a) => some ⟨a, (frame, count) :: s.outstanding⟩
    | (none, a) => some ⟨a, s.outstanding⟩
  | .free frame count => do
    let a ← s.allocator.free frame count
    some ⟨a, s.outstanding.erase (frame, count)⟩

/-- What the callers promise. A count of 0 is no exception: its next power of two is 1, so it takes a
frame. -/
def Legal (s : Session) : Op → Prop
  | .allocate count => count ≤ 2 ^ 63
  | .free frame count => (frame, count) ∈ s.outstanding

def Step (s : Session) (op : Op) (s' : Session) : Prop := s.Legal op ∧ s.exec op = some s'

end Session

/-- Construction from `frames` and every legal call after it complete. -/
def NeverPanics (frames : List Nat) : Prop :=
  ∃ s, Session.start frames = some s ∧
    ∀ ops s' op, Run Session.Step s ops s' → s'.Legal op → (s'.exec op).isSome

/-- `frames` holds all of some aligned group of `2 ^ MAX_ORDER` frames. -/
def HasTopGroup (frames : List Nat) : Prop :=
  ∃ k, ∀ i < 2 ^ MAX_ORDER, 2 ^ MAX_ORDER * k + i ∈ frames

/-! ## The invariant -/

structure Inv (S : Finset Nat) (s : Session) : Prop where
  tiles : Tiles Block.frames (s.blocks : Multiset Block) S
  aligned : ∀ b ∈ s.blocks, b.Aligned
  coalesced : Coalesced MAX_ORDER (s.allocator.freeLists.blocks : Multiset Block)
  order_lt : ∀ p ∈ s.outstanding, Nat.clog 2 p.2 < MAX_ORDER
  total : s.allocator.totalFrames = S.card

theorem inv_empty : Inv ∅ ⟨BuddyAllocator.empty, []⟩ := by
  have hnil : BuddyAllocator.empty.freeLists.blocks = [] := by
    rw [List.eq_nil_iff_forall_not_mem]
    intro b hb
    obtain ⟨_, hb⟩ := FreeLists.mem_blocks.1 hb
    cases hb
  refine ⟨?_, ?_, ?_, by simp, rfl⟩
  · simpa [Session.blocks, hnil] using Tiles.zero
  · simp [Session.blocks, hnil]
  · intro b hb; simp [hnil] at hb

/-- Freeing block `b` next to the other blocks `M`: it panics only when all of some aligned group of
`2 ^ MAX_ORDER` frames is free, and otherwise leaves a coalesced tiling of the same set. -/
theorem free_tiles {a : BuddyAllocator} {M : Multiset Block} {S : Finset Nat} {frame count : Nat}
    (hcount : Nat.clog 2 count < MAX_ORDER)
    (ht : Tiles Block.frames
      (⟨frame, Nat.clog 2 count⟩ ::ₘ ((a.freeLists.blocks : Multiset Block) + M)) S)
    (hb : Block.Aligned ⟨frame, Nat.clog 2 count⟩) (ha : ∀ b ∈ a.freeLists.blocks, b.Aligned)
    (hc : Coalesced MAX_ORDER (a.freeLists.blocks : Multiset Block)) :
    (a.free frame count = none ∧
      ∃ f, Block.Aligned ⟨f, MAX_ORDER⟩ ∧ Block.frames ⟨f, MAX_ORDER⟩ ⊆ S) ∨
    ∃ a', a.free frame count = some a' ∧ a'.totalFrames = a.totalFrames ∧
      Tiles Block.frames ((a'.freeLists.blocks : Multiset Block) + M) S ∧
      (∀ b ∈ a'.freeLists.blocks, b.Aligned) ∧
      Coalesced MAX_ORDER (a'.freeLists.blocks : Multiset Block) := by
  rcases free_spec (a := a) hcount.le hb with
    ⟨hnone, f, hf, hcov⟩ | ⟨a', b', hsome, htot, l', hco, hbl⟩
  · refine .inl ⟨hnone, f, hf, ?_⟩
    intro x hx
    have h₁ := hcov x hx
    have h₂ := ht x
    rw [← Multiset.cons_add, cover_add] at h₂
    by_contra hxS
    rw [if_neg hxS] at h₂
    omega
  · have hsub : ∀ b ∈ l'.blocks, b ∈ a.freeLists.blocks := fun b hb =>
      Multiset.mem_coe.1 (Multiset.mem_of_le hco.sub (Multiset.mem_coe.2 hb))
    refine .inr ⟨a', hsome, htot, ht.congr fun x => ?_, fun b hb => ?_, ?_⟩
    · rw [hbl, ← Multiset.cons_add, cover_add, cover_add, hco.cover_eq x]
    · rcases Multiset.mem_cons.1 (hbl ▸ Multiset.mem_coe.2 hb) with rfl | hb
      · exact hco.aligned
      · exact ha b (hsub b (Multiset.mem_coe.1 hb))
    · rw [hbl]
      exact (hc.mono (Multiset.subset_of_le hco.sub)).cons fun ho hm =>
        hco.no_buddy ho (Multiset.mem_coe.1 hm)

section Inv

variable {S : Finset Nat} {s : Session}

theorem Inv.out_aligned (h : Inv S s) {p : Nat × Nat} (hp : p ∈ s.outstanding) :
    (Session.outBlock p).Aligned :=
  h.aligned _ (List.mem_append_right _ (List.mem_map_of_mem hp))

theorem Inv.free_aligned (h : Inv S s) : ∀ b ∈ s.allocator.freeLists.blocks, b.Aligned :=
  fun b hb => h.aligned b (List.mem_append_left _ hb)

/-- With one outstanding block singled out, the blocks are that block, the free blocks and the other
outstanding blocks. -/
theorem coe_blocks_erase {p : Nat × Nat} (hp : p ∈ s.outstanding) :
    (s.blocks : Multiset Block) = Session.outBlock p ::ₘ
      ((s.allocator.freeLists.blocks : Multiset Block) +
        ((s.outstanding.erase p).map Session.outBlock : List Block)) := by
  rw [Session.blocks, ← Multiset.coe_add, ← Multiset.add_cons, Multiset.cons_coe]
  congr 1
  exact Multiset.coe_eq_coe.2 ((List.perm_cons_erase hp).map Session.outBlock)

theorem Inv.free (h : Inv S s) {frame count : Nat} (hp : (frame, count) ∈ s.outstanding) :
    (s.exec (.free frame count) = none ∧
      ∃ f, Block.Aligned ⟨f, MAX_ORDER⟩ ∧ Block.frames ⟨f, MAX_ORDER⟩ ⊆ S) ∨
    ∃ s', s.exec (.free frame count) = some s' ∧ Inv S s' := by
  have ht := h.tiles
  rw [coe_blocks_erase hp] at ht
  rcases free_tiles (h.order_lt _ hp) ht (h.out_aligned hp) h.free_aligned h.coalesced with
    ⟨hnone, hf⟩ | ⟨a', hsome, htot, ht', ha', hc'⟩
  · exact .inl ⟨by simp [Session.exec, hnone], hf⟩
  · refine .inr ⟨⟨a', s.outstanding.erase (frame, count)⟩, by simp [Session.exec, hsome], ?_, ?_, hc',
      fun p hp => h.order_lt p (List.mem_of_mem_erase hp), htot ▸ h.total⟩
    · simpa [Session.blocks] using ht'
    · intro b hb
      rcases List.mem_append.1 hb with hb | hb
      · exact ha' b hb
      · obtain ⟨p, hp, rfl⟩ := List.mem_map.1 hb
        exact h.out_aligned (List.mem_of_mem_erase hp)

theorem Takes.tiles {l l' : FreeLists} {frame order k : Nat} {rest M : Multiset Block}
    (h : Takes l frame order k l' rest)
    (ht : Tiles Block.frames ((l.blocks : Multiset Block) + M) S) :
    Tiles Block.frames (⟨frame, order⟩ ::ₘ ((l'.blocks : Multiset Block) + M)) S := by
  refine ht.congr ?_
  intro x
  rw [h.after, h.before, Multiset.add_assoc, Block.cover_upperHalves, Multiset.cons_add]

theorem Inv.allocate (h : Inv S s) {count : Nat} (hcount : count ≤ 2 ^ 63) :
    ∃ s', s.exec (.allocate count) = some s' ∧ Inv S s' := by
  rcases allocate_spec (a := s.allocator) hcount with ⟨hnone, _⟩ | ⟨frame, l', k, rest, hsome, htk⟩
  · exact ⟨s, by simp [Session.exec, hnone], h⟩
  · refine ⟨⟨⟨l', s.allocator.totalFrames⟩, (frame, count) :: s.outstanding⟩,
      by simp [Session.exec, hsome], ?_, ?_, ?_, ?_, h.total⟩
    · have ht := h.tiles
      rw [Session.blocks, ← Multiset.coe_add] at ht
      have := htk.tiles ht
      rw [← Multiset.add_cons, Multiset.cons_coe] at this
      simpa [Session.blocks, Session.outBlock] using this
    · have hbig : Block.Aligned ⟨frame, Nat.clog 2 count + k⟩ := by
        refine h.free_aligned _ (Multiset.mem_coe.1 ?_)
        rw [htk.before]
        exact Multiset.mem_cons_self _ _
      intro b hb
      rcases List.mem_append.1 hb with hb | hb
      · rcases Multiset.mem_add.1 (htk.after ▸ Multiset.mem_coe.2 hb) with hb | hb
        · exact Block.upperHalves_aligned hbig b hb
        · refine h.free_aligned b (Multiset.mem_coe.1 ?_)
          rw [htk.before]
          exact Multiset.mem_cons_of_mem hb
      · rcases List.mem_cons.1 hb with rfl | hb
        · exact Block.aligned_of_le hbig (Nat.le_add_right _ _)
        · exact h.aligned b (List.mem_append_right _ hb)
    · have hrest : Coalesced MAX_ORDER rest :=
        h.coalesced.mono (htk.before ▸ Multiset.subset_cons _ _)
      rw [htk.after]
      exact hrest.cut htk.smallest
    · intro p hp
      rcases List.mem_cons.1 hp with rfl | hp
      · have := htk.order_lt
        simp only
        omega
      · exact h.order_lt p hp

theorem Inv.step {op : Op} {s' : Session} (h : Inv S s) (hs : s.Step op s') : Inv S s' := by
  obtain ⟨hl, he⟩ := hs
  cases op with
  | allocate count =>
    obtain ⟨s'', he', hi⟩ := h.allocate hl
    cases he.symm.trans he'
    exact hi
  | free frame count =>
    rcases h.free hl with ⟨hnone, _⟩ | ⟨s'', he', hi⟩
    · cases he.symm.trans hnone
    · cases he.symm.trans he'
      exact hi

theorem Inv.run {ops : List Op} {s' : Session} (h : Inv S s) (hr : Run Session.Step s ops s') :
    Inv S s' :=
  hr.invariant (fun _ _ _ h hs => h.step hs) h

/-- A coalesced tiling has no room for a block of order `MAX_ORDER`, so when nothing is outstanding no
aligned group of that size is among the frames. -/
theorem Inv.no_top_block (h : Inv S s) (hout : s.outstanding = []) {f : Nat}
    (hf : Block.Aligned ⟨f, MAX_ORDER⟩) : ¬ Block.frames ⟨f, MAX_ORDER⟩ ⊆ S := by
  intro hS
  have ht := h.tiles
  simp only [Session.blocks, hout, List.map_nil, List.append_nil] at ht
  obtain ⟨b, hb, ho, _⟩ := h.coalesced.exists_block_ge h.free_aligned ht (le_refl _) hf hS
  have := FreeLists.order_lt (Multiset.mem_coe.1 hb)
  omega

end Inv

/-! ## Construction -/

theorem addFrame_inv {S : Finset Nat} {a : BuddyAllocator} {frame : Nat}
    (h : Inv S ⟨a, []⟩) (hfr : frame ∉ S) :
    (a.addFrame frame = none ∧
      ∃ f, Block.Aligned ⟨f, MAX_ORDER⟩ ∧ Block.frames ⟨f, MAX_ORDER⟩ ⊆ insert frame S) ∨
    ∃ a', a.addFrame frame = some a' ∧ Inv (insert frame S) ⟨a', []⟩ := by
  have hpts : Block.frames ⟨frame, 0⟩ = {frame} := by
    ext x; simp only [Block.mem_frames, Block.size, Nat.pow_zero, Finset.mem_singleton]; omega
  have ht : Tiles Block.frames (⟨frame, 0⟩ ::ₘ ((a.freeLists.blocks : Multiset Block) + 0))
      (insert frame S) := by
    have := h.tiles.insert (b := ⟨frame, 0⟩) (by rw [hpts]; exact Finset.disjoint_singleton_left.2 hfr)
    rw [hpts, ← Finset.insert_eq] at this
    simpa [Session.blocks] using this
  have h1 : Nat.clog 2 1 = 0 := Nat.clog_one_right 2
  have hlt : Nat.clog 2 1 < MAX_ORDER := by rw [h1]; decide
  rcases free_tiles (a := { a with totalFrames := a.totalFrames + 1 }) hlt (by rw [h1]; exact ht)
    (by rw [h1]; exact Block.aligned_zero frame) h.free_aligned h.coalesced with
    ⟨hnone, hf⟩ | ⟨a', hsome, htot, ht', ha', hc'⟩
  · exact .inl ⟨hnone, hf⟩
  · refine .inr ⟨a', hsome, ?_, by simpa [Session.blocks] using ha', hc', by simp, ?_⟩
    · simpa [Session.blocks] using ht'
    · rw [htot, Finset.card_insert_of_notMem hfr]
      exact congrArg (· + 1) h.total

/-- The construction loop, by induction on the frames left. -/
theorem foldlM_addFrame {a : BuddyAllocator} : ∀ {frames : List Nat} {S : Finset Nat},
    Inv S ⟨a, []⟩ → frames.Nodup → (∀ f ∈ frames, f ∉ S) →
    (frames.foldlM BuddyAllocator.addFrame a = none ∧
      ∃ f, Block.Aligned ⟨f, MAX_ORDER⟩ ∧ Block.frames ⟨f, MAX_ORDER⟩ ⊆ frames.toFinset ∪ S) ∨
    ∃ a', frames.foldlM BuddyAllocator.addFrame a = some a' ∧ Inv (frames.toFinset ∪ S) ⟨a', []⟩ := by
  intro frames
  induction frames generalizing a with
  | nil => intro S h _ _; exact .inr ⟨a, rfl, by simpa using h⟩
  | cons frame frames ih =>
    intro S h hnd hS
    obtain ⟨hfr, hnd⟩ := List.nodup_cons.1 hnd
    have hset : (frame :: frames).toFinset ∪ S = frames.toFinset ∪ insert frame S := by
      ext x; simp only [List.toFinset_cons, Finset.mem_union, Finset.mem_insert]; tauto
    rw [hset]
    rcases addFrame_inv h (hS frame (List.mem_cons_self ..)) with
      ⟨hnone, f, hf, hsub⟩ | ⟨a₁, hsome, h₁⟩
    · exact .inl ⟨by simp [hnone], f, hf, hsub.trans Finset.subset_union_right⟩
    · have := ih h₁ hnd fun f hf => by
        rw [Finset.mem_insert, not_or]
        exact ⟨fun he => hfr (he ▸ hf), hS f (List.mem_cons_of_mem _ hf)⟩
      simpa [hsome] using this

/-- `new_from_frames` panics, or yields a state in which all the given frames are free. -/
theorem start_inv {frames : List Nat} (hnd : frames.Nodup) :
    (Session.start frames = none ∧ HasTopGroup frames) ∨
    ∃ s, Session.start frames = some s ∧ s.outstanding = [] ∧ Inv frames.toFinset s := by
  rcases foldlM_addFrame inv_empty hnd (fun _ _ => Finset.notMem_empty _) with
    ⟨hnone, f, ⟨k, hk⟩, hsub⟩ | ⟨a, hsome, h⟩
  · refine .inl ⟨by simp [Session.start, BuddyAllocator.newFromFrames, hnone], k, ?_⟩
    intro i hi
    have hf : f = 2 ^ MAX_ORDER * k := hk
    have : 2 ^ MAX_ORDER * k + i ∈ frames.toFinset ∪ ∅ := hsub (Block.mem_frames.2 (by
      simp only [Block.size]; omega))
    simpa using this
  · refine .inr ⟨⟨a, []⟩, by simp [Session.start, BuddyAllocator.newFromFrames, hsome], rfl, ?_⟩
    simpa using h

/-- Every state that a panic-free run reaches satisfies the invariant. -/
theorem reachable_inv {frames : List Nat} {s₀ s : Session} {ops : List Op} (hnd : frames.Nodup)
    (h₀ : Session.start frames = some s₀) (hr : Run Session.Step s₀ ops s) :
    Inv frames.toFinset s := by
  rcases start_inv hnd with ⟨hnone, _⟩ | ⟨s₁, hs, _, h⟩
  · rw [h₀] at hnone; cases hnone
  · rw [h₀] at hs; cases hs
    exact h.run hr

theorem hasTopGroup_iff {frames : List Nat} : HasTopGroup frames ↔
    ∃ f, Block.Aligned ⟨f, MAX_ORDER⟩ ∧ Block.frames ⟨f, MAX_ORDER⟩ ⊆ frames.toFinset := by
  constructor
  · rintro ⟨k, hk⟩
    refine ⟨2 ^ MAX_ORDER * k, ⟨k, rfl⟩, ?_⟩
    intro x hx
    have hx := Block.mem_frames.1 hx
    simp only [Block.size] at hx
    have := hk (x - 2 ^ MAX_ORDER * k) (by omega)
    rw [Nat.add_sub_cancel' hx.1] at this
    exact List.mem_toFinset.2 this
  · rintro ⟨f, ⟨k, hk⟩, hsub⟩
    have hf : f = 2 ^ MAX_ORDER * k := hk
    refine ⟨k, fun i hi => List.mem_toFinset.1 (hsub (Block.mem_frames.2 ?_))⟩
    simp only [Block.size]
    omega

theorem start_eq_none_iff {frames : List Nat} (hnd : frames.Nodup) :
    Session.start frames = none ↔ HasTopGroup frames := by
  rcases start_inv hnd with ⟨hnone, htop⟩ | ⟨s, hsome, hout, h⟩
  · exact ⟨fun _ => htop, fun _ => hnone⟩
  · refine ⟨fun hnone => ?_, fun htop => ?_⟩
    · rw [hsome] at hnone; cases hnone
    · obtain ⟨f, hf, hsub⟩ := hasTopGroup_iff.1 htop
      exact absurd hsub (h.no_top_block hout hf)

/-! ## Main results -/

/-- No construction, allocation or free ever indexes `free_lists` out of range, in any run, exactly
when the frames hold no aligned group of `2 ^ MAX_ORDER` frames. -/
theorem neverPanics_iff {frames : List Nat} (hnd : frames.Nodup) :
    NeverPanics frames ↔ ¬ HasTopGroup frames := by
  rw [← start_eq_none_iff hnd]
  constructor
  · rintro ⟨s, hs, _⟩ hnone
    rw [hs] at hnone; cases hnone
  · intro hne
    rcases start_inv hnd with ⟨hnone, _⟩ | ⟨s, hs, _, h⟩
    · exact absurd hnone hne
    refine ⟨s, hs, ?_⟩
    intro ops s' op hr hl
    have h' := h.run hr
    cases op with
    | allocate count =>
      obtain ⟨s'', he, _⟩ := h'.allocate hl
      rw [he]; rfl
    | free frame count =>
      rcases h'.free hl with ⟨_, f, hf, hsub⟩ | ⟨s'', he, _⟩
      · exact absurd ((start_eq_none_iff hnd).2 (hasTopGroup_iff.2 ⟨f, hf, hsub⟩)) hne
      · rw [he]; rfl

theorem neverPanics_three : NeverPanics [0, 1, 5] :=
  (neverPanics_iff (by decide)).2 fun ⟨k, hk⟩ => by
    have h2 := hk 2 (by decide)
    have h3 := hk 3 (by decide)
    simp only [MAX_ORDER, List.mem_cons, List.not_mem_nil, or_false] at h2 h3
    omega

/-- Two adjacent blocks of the top order: construction itself panics. -/
theorem range_2048_panics :
    (List.range 2048).Nodup ∧ BuddyAllocator.newFromFrames (List.range 2048) = none := by
  have hnd : (List.range 2048).Nodup := List.nodup_range
  have htop : HasTopGroup (List.range 2048) :=
    ⟨0, fun i hi => List.mem_range.2 (by simp only [MAX_ORDER] at hi ⊢; omega)⟩
  have := (start_eq_none_iff hnd).2 htop
  refine ⟨hnd, ?_⟩
  cases hn : BuddyAllocator.newFromFrames (List.range 2048) with
  | none => rfl
  | some a => simp [Session.start, hn] at this

/-- In every reachable state the free and the outstanding blocks are pairwise disjoint, each aligned
to its own size, together exactly the initial frames, with sizes that add up to `total_frames`; and a
successful `allocate` hands out initial frames only, none of them outstanding. -/
theorem blocks_partition {frames : List Nat} {s₀ s : Session} {ops : List Op} (hnd : frames.Nodup)
    (h₀ : Session.start frames = some s₀) (hr : Run Session.Step s₀ ops s) :
    s.blocks.Pairwise (fun b c => Disjoint b.frames c.frames) ∧
    (∀ b ∈ s.blocks, b.size ∣ b.start) ∧
    (∀ x, x ∈ frames ↔ ∃ b ∈ s.blocks, x ∈ b.frames) ∧
    (s.blocks.map Block.size).sum = s.allocator.totalFrames ∧
    s.allocator.totalFrames = frames.length ∧
    ∀ count frame a', count ≤ 2 ^ 63 →
      s.allocator.allocate count = some (some frame, a') →
        (∀ x ∈ (Session.outBlock (frame, count)).frames, x ∈ frames) ∧
        ∀ p ∈ s.outstanding,
          Disjoint (Session.outBlock (frame, count)).frames (Session.outBlock p).frames := by
  have h : Inv frames.toFinset s := reachable_inv hnd h₀ hr
  refine ⟨h.tiles.pairwise, h.aligned, fun x => ?_, ?_, ?_, fun count frame a' hc he => ?_⟩
  · rw [← List.mem_toFinset, h.tiles.mem_iff]; simp
  · rw [h.total, ← h.tiles.sum_card]; simp
  · rw [h.total, List.toFinset_card_of_nodup hnd]
  · obtain ⟨s', he', h'⟩ := h.allocate hc
    obtain rfl : s' = ⟨a', (frame, count) :: s.outstanding⟩ := by
      simpa [Session.exec, he] using he'.symm
    have hmem : Session.outBlock (frame, count) ∈
        Session.blocks ⟨a', (frame, count) :: s.outstanding⟩ :=
      List.mem_append_right _ (List.mem_cons_self ..)
    refine ⟨fun x hx => List.mem_toFinset.1 (h'.tiles.subset hmem hx), ?_⟩
    intro p hp
    have hpw := (List.pairwise_append.1 h'.tiles.pairwise).2.1
    rw [List.map_cons, List.pairwise_cons] at hpw
    exact hpw.1 _ (List.mem_map_of_mem hp)

/-- Two allocations from four frames, the second of them of no frames. -/
theorem run_four : ∃ s₀ s, Session.start [4, 5, 6, 7] = some s₀ ∧
    Run Session.Step s₀ [.allocate 1, .allocate 0] s := by
  have hnd : [4, 5, 6, 7].Nodup := by decide
  rcases start_inv hnd with ⟨_, k, hk⟩ | ⟨s₀, h₀, _, h⟩
  · have h4 := hk 4 (by decide)
    have h8 := hk 8 (by decide)
    simp only [MAX_ORDER, List.mem_cons, List.not_mem_nil, or_false] at h4 h8
    omega
  · have h1 : 1 ≤ 2 ^ 63 := by decide
    obtain ⟨s₁, hs₁, h₁⟩ := h.allocate h1
    obtain ⟨s₂, hs₂, _⟩ := h₁.allocate (Nat.zero_le (2 ^ 63))
    exact ⟨s₀, s₂, h₀, .cons ⟨h1, hs₁⟩ (.single ⟨Nat.zero_le _, hs₂⟩)⟩

theorem blocks_partition_four : ∃ s₀ s, Session.start [4, 5, 6, 7] = some s₀ ∧
    Run Session.Step s₀ [.allocate 1, .allocate 0] s ∧
    s.blocks.Pairwise fun b c => Disjoint b.frames c.frames := by
  obtain ⟨s₀, s, h₀, hr⟩ := run_four
  exact ⟨s₀, s, h₀, hr, (blocks_partition (by decide) h₀ hr).1⟩

end Memory
end OciKernel
