import OciKernel.Memory.BuddyRun

/-!
# Memory.BuddyCanonical

The free lists of the buddy allocator are canonical: in a reachable state they hold the unique
coalesced tiling of the free frames, so they depend on nothing but which frames are free.

* `Inv.freeLists_perm`: two reachable states with the same free frames have the same lists, up to
  the order inside each list.
* `Inv.freeFrame_iff`: the free frames are those not outstanding.
* `freeLists_canonical`: the statement over runs, with allocate-then-free and reordered frees as
  instances.
* `allocate_none_iff`: so `allocate` fails only when no aligned group of its size is free.
-/

namespace OciKernel
namespace Memory

open Dyadic Tiling Transition

/-- Frame `x` lies in a block on the free lists. -/
def Session.FreeFrame (s : Session) (x : Nat) : Prop :=
  ∃ b ∈ s.allocator.freeLists.blocks, x ∈ b.frames

section Canonical

variable {S T : Finset Nat} {s s' : Session}

theorem Inv.freeFrame_iff (h : Inv S s) (x : Nat) :
    s.FreeFrame x ↔ x ∈ S ∧ ∀ p ∈ s.outstanding, x ∉ (Session.outBlock p).frames := by
  have hpw := h.tiles.pairwise
  rw [Session.blocks, List.pairwise_append] at hpw
  constructor
  · rintro ⟨b, hb, hx⟩
    refine ⟨h.tiles.mem_iff.2 ⟨b, List.mem_append_left _ hb, hx⟩, ?_⟩
    intro p hp hxp
    exact Finset.disjoint_left.1 (hpw.2.2 b hb _ (List.mem_map_of_mem hp)) hx hxp
  · rintro ⟨hS, hout⟩
    obtain ⟨b, hb, hx⟩ := h.tiles.mem_iff.1 hS
    rcases List.mem_append.1 (Multiset.mem_coe.1 hb) with hb | hb
    · exact ⟨b, hb, hx⟩
    · obtain ⟨p, hp, rfl⟩ := List.mem_map.1 hb
      exact absurd hx (hout p hp)

/-- The free blocks tile the free frames. -/
theorem Inv.free_tiles (h : Inv S s) : ∃ F : Finset Nat, (∀ x, x ∈ F ↔ s.FreeFrame x) ∧
    Tiles Block.frames (s.allocator.freeLists.blocks : Multiset Block) F := by
  have hle : (s.allocator.freeLists.blocks : Multiset Block) ≤ (s.blocks : Multiset Block) := by
    rw [Session.blocks, ← Multiset.coe_add]
    exact Multiset.le_add_right _ _
  refine ⟨_, ?_, h.tiles.sub hle⟩
  intro x
  rw [Finset.mem_filter]
  constructor
  · exact fun hx => cover_pos.1 hx.2
  · rintro ⟨b, hb, hx⟩
    exact ⟨h.tiles.subset (List.mem_append_left _ hb) hx, cover_pos.2 ⟨b, hb, hx⟩⟩

/-- The free blocks are determined by the free frames. -/
theorem Inv.free_blocks_eq (h : Inv S s) (h' : Inv T s')
    (hfree : ∀ x, s.FreeFrame x ↔ s'.FreeFrame x) :
    (s.allocator.freeLists.blocks : Multiset Block) =
      (s'.allocator.freeLists.blocks : Multiset Block) := by
  obtain ⟨F, hF, ht⟩ := h.free_tiles
  obtain ⟨F', hF', ht'⟩ := h'.free_tiles
  have hFF : F' = F := Finset.ext fun x => by rw [hF', hF, hfree]
  subst hFF
  exact h.coalesced.unique h.free_aligned ht h'.coalesced h'.free_aligned ht'
    (fun _ hb => (FreeLists.order_lt (Multiset.mem_coe.1 hb)).le)
    (fun _ hb => (FreeLists.order_lt (Multiset.mem_coe.1 hb)).le)

theorem Inv.nodup_list (h : Inv S s) (o : Fin MAX_ORDER) : (s.allocator.freeLists o).Nodup := by
  obtain ⟨_, _, ht⟩ := h.free_tiles
  have hnd : s.allocator.freeLists.blocks.Nodup :=
    Multiset.coe_nodup.1 (ht.nodup fun b _ => ⟨b.start, Block.start_mem_frames b⟩)
  have hlevel := (List.nodup_flatMap.1 hnd).1 o (List.mem_finRange o)
  exact List.Nodup.of_map _ hlevel

theorem Inv.freeLists_perm (h : Inv S s) (h' : Inv T s')
    (hfree : ∀ x, s.FreeFrame x ↔ s'.FreeFrame x) (o : Fin MAX_ORDER) :
    (s.allocator.freeLists o).Perm (s'.allocator.freeLists o) := by
  rw [List.perm_ext_iff_of_nodup (h.nodup_list o) (h'.nodup_list o)]
  intro f
  have hmem : ∀ l : FreeLists, f ∈ l o ↔ (⟨f, o⟩ : Block) ∈ (l.blocks : Multiset Block) :=
    fun l => ⟨fun hf => FreeLists.mem_blocks.2 ⟨o.isLt, hf⟩, fun hb => (FreeLists.mem_blocks.1 hb).2⟩
  rw [hmem, hmem, h.free_blocks_eq h' hfree]

/-- The same blocks outstanding, the same lists. -/
theorem Inv.freeLists_perm_of_outstanding (h : Inv S s) (h' : Inv S s')
    (hout : s.outstanding.Perm s'.outstanding) (o : Fin MAX_ORDER) :
    (s.allocator.freeLists o).Perm (s'.allocator.freeLists o) := by
  refine h.freeLists_perm h' (fun x => ?_) o
  rw [h.freeFrame_iff, h'.freeFrame_iff]
  simp only [hout.mem_iff]

/-- No list holds a block together with its buddy. -/
theorem Inv.no_buddies (h : Inv S s) (o : Fin MAX_ORDER) {f : Nat}
    (hf : f ∈ s.allocator.freeLists o) : f ^^^ 2 ^ (o : Nat) ∉ s.allocator.freeLists o := by
  intro hbuddy
  have hb : (⟨f, o⟩ : Block) ∈ s.allocator.freeLists.blocks := FreeLists.mem_blocks.2 ⟨o.isLt, hf⟩
  exact h.coalesced _ hb o.isLt (FreeLists.mem_blocks.2 ⟨o.isLt, hbuddy⟩)

end Canonical

/-! ## Runs -/

/-- The calls that free the blocks `bs`, in that order. -/
def frees (bs : List (Nat × Nat)) : List Op := bs.map fun p => .free p.1 p.2

/-- Freeing the blocks `bs` takes them off the outstanding list. -/
theorem outstanding_of_frees {s s' : Session} {bs : List (Nat × Nat)}
    (hr : Run Session.Step s (frees bs) s') :
    s'.outstanding = s.outstanding.diff bs := by
  induction bs generalizing s with
  | nil =>
    cases hr
    rw [List.diff_nil]
  | cons p bs ih =>
    cases hr with
    | cons hstep hrest =>
      rename_i s₁
      have hout : s₁.outstanding = s.outstanding.erase p := by
        have he := hstep.2
        simp only [Session.exec, Option.bind_eq_bind, Option.bind_eq_some_iff] at he
        obtain ⟨a, _, he⟩ := he
        cases he
        rfl
      rw [ih hrest, hout, List.diff_cons]

/-- In every state that a panic-free run reaches: no list holds two buddies; any state reached in any
run with the same free frames has the same lists up to order; allocating and freeing restores the
lists; and so does freeing the same blocks in another order. -/
theorem freeLists_canonical {frames : List Nat} {s₀ s : Session} {ops : List Op}
    (hnd : frames.Nodup) (h₀ : Session.start frames = some s₀) (hr : Run Session.Step s₀ ops s) :
    (∀ o f, f ∈ s.allocator.freeLists o → f ^^^ 2 ^ (o : Nat) ∉ s.allocator.freeLists o) ∧
    (∀ frames' s₀' ops' s', frames'.Nodup → Session.start frames' = some s₀' →
      Run Session.Step s₀' ops' s' → (∀ x, s.FreeFrame x ↔ s'.FreeFrame x) →
        ∀ o, (s.allocator.freeLists o).Perm (s'.allocator.freeLists o)) ∧
    (∀ count frame a₁, count ≤ 2 ^ 63 →
      s.allocator.allocate count = some (some frame, a₁) →
        ∃ a₂, a₁.free frame count = some a₂ ∧
          ∀ o, (a₂.freeLists o).Perm (s.allocator.freeLists o)) ∧
    ∀ (bs bs' : List (Nat × Nat)) s₁ s₂, bs.Perm bs' → Run Session.Step s (frees bs) s₁ →
      Run Session.Step s (frees bs') s₂ →
        ∀ o, (s₁.allocator.freeLists o).Perm (s₂.allocator.freeLists o) := by
  have h := reachable_inv hnd h₀ hr
  refine ⟨fun o f hf => h.no_buddies o hf, ?_, ?_, ?_⟩
  · intro frames' s₀' ops' s' hnd' h₀' hr' hfree
    exact h.freeLists_perm (reachable_inv hnd' h₀' hr') hfree
  · intro count frame a₁ hc he
    obtain ⟨s₁, he₁, h₁⟩ := h.allocate hc
    obtain rfl : s₁ = ⟨a₁, (frame, count) :: s.outstanding⟩ := by
      simpa [Session.exec, he] using he₁.symm
    rcases h₁.free (List.mem_cons_self ..) with ⟨_, f, hf, hsub⟩ | ⟨s₂, he₂, h₂⟩
    · -- the construction would have panicked
      have hnone := (start_eq_none_iff hnd).2 (hasTopGroup_iff.2 ⟨f, hf, hsub⟩)
      rw [h₀] at hnone
      cases hnone
    · simp only [Session.exec, Option.bind_eq_bind, Option.bind_eq_some_iff] at he₂
      obtain ⟨a₂, hfree, he₂⟩ := he₂
      cases he₂
      refine ⟨a₂, hfree, h₂.freeLists_perm_of_outstanding h ?_⟩
      rw [List.erase_cons_head]
  · intro bs bs' s₁ s₂ hperm hr₁ hr₂
    refine (h.run hr₁).freeLists_perm_of_outstanding (h.run hr₂) ?_
    rw [outstanding_of_frees hr₁, outstanding_of_frees hr₂, List.Perm.diff_left _ hperm]

theorem freeLists_canonical_four : ∃ s₀ s, Session.start [4, 5, 6, 7] = some s₀ ∧
    Run Session.Step s₀ [.allocate 1, .allocate 0] s ∧
    ∀ o f, f ∈ s.allocator.freeLists o → f ^^^ 2 ^ (o : Nat) ∉ s.allocator.freeLists o := by
  obtain ⟨s₀, s, h₀, hr⟩ := run_four
  exact ⟨s₀, s, h₀, hr, (freeLists_canonical (by decide) h₀ hr).1⟩

/-! ## When `allocate` fails -/

/-- Frame `x` was given to the allocator and lies in no outstanding block. -/
def Session.Available (s : Session) (frames : List Nat) (x : Nat) : Prop :=
  x ∈ frames ∧ ∀ p ∈ s.outstanding, x ∉ (Session.outBlock p).frames

theorem Inv.freeFrame_iff_available {frames : List Nat} {s : Session} (h : Inv frames.toFinset s)
    (x : Nat) : s.FreeFrame x ↔ s.Available frames x := by
  rw [h.freeFrame_iff, List.mem_toFinset]
  rfl

/-- All frames of an aligned block are free iff some block on the free lists contains it. -/
theorem Inv.free_block_iff {S : Finset Nat} {s : Session} (h : Inv S s) {k : Nat}
    (hk : k < MAX_ORDER) :
    (∃ f, 2 ^ k ∣ f ∧ ∀ i < 2 ^ k, s.FreeFrame (f + i)) ↔
      ∃ b ∈ s.allocator.freeLists.blocks, k ≤ b.order := by
  constructor
  · rintro ⟨f, hf, hfree⟩
    obtain ⟨F, hF, ht⟩ := h.free_tiles
    have hsub : Block.frames ⟨f, k⟩ ⊆ F := by
      intro x hx
      obtain ⟨hle, hlt⟩ := Block.mem_frames.1 hx
      simp only [Block.size] at hle hlt
      rw [hF, ← Nat.add_sub_cancel' hle]
      exact hfree _ (by omega)
    -- the free blocks are coalesced, so one of them covers the whole group
    obtain ⟨b, hb, hkb, -⟩ := h.coalesced.exists_block_ge h.free_aligned ht hk.le hf hsub
    exact ⟨b, hb, hkb⟩
  · rintro ⟨b, hb, hkb⟩
    have hpow : 2 ^ k ≤ b.size := Nat.pow_le_pow_right (by omega) hkb
    have hdvd : 2 ^ k ∣ b.size := Nat.pow_dvd_pow 2 hkb
    refine ⟨b.start, hdvd.trans (h.free_aligned b hb), fun i hi => ⟨b, hb, ?_⟩⟩
    exact Block.mem_frames.2 ⟨by omega, by omega⟩

theorem nextPowerOfTwo_eq {count k : Nat} (h : nextPowerOfTwo count = some (2 ^ k)) :
    count ≤ 2 ^ 63 ∧ Nat.clog 2 count = k := by
  unfold nextPowerOfTwo at h
  split at h
  · rename_i hle
    exact ⟨hle, Nat.pow_right_injective (le_refl 2) (Option.some.inj h)⟩
  · cases h

/-- In every state that a panic-free run reaches, `allocate` fails iff no aligned group of the size
asked for is available; above the largest order it always does, and changes nothing. -/
theorem allocate_none_iff {frames : List Nat} {s₀ s : Session} {ops : List Op} (hnd : frames.Nodup)
    (h₀ : Session.start frames = some s₀) (hr : Run Session.Step s₀ ops s) {count k : Nat}
    (hk : nextPowerOfTwo count = some (2 ^ k)) :
    (k ≤ 10 → ((∃ a, s.allocator.allocate count = some (none, a)) ↔
      ¬ ∃ f, 2 ^ k ∣ f ∧ ∀ i < 2 ^ k, s.Available frames (f + i))) ∧
    (11 ≤ k → s.allocator.allocate count = some (none, s.allocator)) := by
  have h := reachable_inv hnd h₀ hr
  obtain ⟨hcount, hclog⟩ := nextPowerOfTwo_eq hk
  have hspec := allocate_spec (a := s.allocator) hcount
  rw [hclog] at hspec
  refine ⟨fun hle => ?_, fun hlarge => ?_⟩
  · simp only [← h.freeFrame_iff_available]
    rw [h.free_block_iff (show k < MAX_ORDER from Nat.lt_succ_of_le hle)]
    rcases hspec with ⟨hnone, hsmall⟩ | ⟨frame, l', j, rest, hsome, htakes⟩
    · refine iff_of_true ⟨_, hnone⟩ ?_
      rintro ⟨b, hb, hkb⟩
      exact absurd (hsmall b hb) (Nat.not_lt.2 hkb)
    · refine iff_of_false ?_ (not_not_intro ?_)
      · rintro ⟨a, hnone⟩
        rw [hsome] at hnone
        cases hnone
      · have hmem : (⟨frame, k + j⟩ : Block) ∈ (s.allocator.freeLists.blocks : Multiset Block) := by
          rw [htakes.before]
          exact Multiset.mem_cons_self ..
        exact ⟨_, hmem, Nat.le_add_right k j⟩
  · rcases hspec with ⟨hnone, -⟩ | ⟨frame, l', j, rest, -, htakes⟩
    · exact hnone
    · have hlt : k + j < 11 := htakes.order_lt
      omega

theorem allocate_none_iff_four : ∃ s₀ s, Session.start [4, 5, 6, 7] = some s₀ ∧
    Run Session.Step s₀ [.allocate 1, .allocate 0] s ∧
    ((∃ a, s.allocator.allocate 3 = some (none, a)) ↔
      ¬ ∃ f, 2 ^ 2 ∣ f ∧ ∀ i < 2 ^ 2, s.Available [4, 5, 6, 7] (f + i)) := by
  obtain ⟨s₀, s, h₀, hr⟩ := run_four
  have hpow : nextPowerOfTwo 3 = some (2 ^ 2) := by simp [nextPowerOfTwo, show Nat.clog 2 3 = 2 from rfl]
  exact ⟨s₀, s, h₀, hr, (allocate_none_iff (by decide) h₀ hr hpow).1 (by decide)⟩

end Memory
end OciKernel
