import OciKernel.Lib.Dyadic
import Mathlib.Data.Nat.Log

/-!
# Memory.Buddy

The physical frame allocator of `memory/buddy.rs`: eleven free lists, one for each block order, with
splitting in `allocate` and coalescing in `free`.

`Option` at the top of a result is a panic: `none` is an out-of-range index into `free_lists` or an
overflow in `next_power_of_two`. Every access to the array goes through `FreeLists.get` and
`FreeLists.set`, which check the index.
-/

namespace OciKernel
namespace Memory

open Dyadic

def MAX_ORDER : Nat := 11

/-- `[Vec<usize>; MAX_ORDER]`. -/
abbrev FreeLists := Fin MAX_ORDER → List Nat

namespace FreeLists

def get (l : FreeLists) (o : Nat) : Option (List Nat) :=
  if h : o < MAX_ORDER then some (l ⟨o, h⟩) else none

def set (l : FreeLists) (o : Nat) (v : List Nat) : Option FreeLists :=
  if h : o < MAX_ORDER then some (Function.update l ⟨o, h⟩ v) else none

/-- `self.free_lists[o].push(frame)`. -/
def push (l : FreeLists) (o frame : Nat) : Option FreeLists := do
  let list ← l.get o
  l.set o (list ++ [frame])

end FreeLists

structure BuddyAllocator where
  freeLists : FreeLists
  totalFrames : Nat

/-- `usize::next_power_of_two`, which overflows above `2 ^ 63`. -/
def nextPowerOfTwo (count : Nat) : Option Nat :=
  if count ≤ 2 ^ 63 then some (2 ^ Nat.clog 2 count) else none

/-- `usize::trailing_zeros`: the index of the lowest set bit, `64` for zero. -/
def trailingZeros (n : Nat) : Nat := ((List.range 64).find? n.testBit).getD 64

/-- `count.next_power_of_two().trailing_zeros()`. -/
def orderOf (count : Nat) : Option Nat := do
  let n ← nextPowerOfTwo count
  some (trailingZeros n)

/-- The splitting loop of `allocate`, `for split_order in (order..o).rev()`, with `k = o - order`
rounds left: the round at `k + 1` has `split_order = order + k`. -/
def splitDown : Nat → FreeLists → Nat → Nat → Option FreeLists
  | 0, l, _, _ => some l
  | k + 1, l, frame, order => do
    let buddy := frame + 1 <<< (order + k)
    let l ← l.push (order + k) buddy
    splitDown k l frame order

/-- The search loop of `allocate`, `for o in order..MAX_ORDER`, with `n = MAX_ORDER - o` rounds
left. -/
def allocateFrom : Nat → FreeLists → Nat → Nat → Option (Option Nat × FreeLists)
  | 0, l, _, _ => some (none, l)
  | n + 1, l, order, o => do
    let list ← l.get o
    match list.getLast? with
    | some frame =>
      let l ← l.set o list.dropLast
      let l ← splitDown (o - order) l frame order
      some (some frame, l)
    | none => allocateFrom n l order (o + 1)

/-- The coalescing loop of `free`, with `n = MAX_ORDER - current_order` rounds left, so that `0` is
the source's `current_order >= MAX_ORDER`. Returns the lists, `current` and `current_order` as the
loop leaves them. -/
def coalesce : Nat → FreeLists → Nat → Nat → Option (FreeLists × Nat × Nat)
  | 0, l, current, currentOrder => some (l, current, currentOrder)
  | n + 1, l, current, currentOrder => do
    let buddy := current ^^^ 1 <<< currentOrder
    let list ← l.get currentOrder
    match list.idxOf? buddy with
    | some pos =>
      let l ← l.set currentOrder (list.eraseIdx pos)
      coalesce n l (min current buddy) (currentOrder + 1)
    | none => some (l, current, currentOrder)

namespace BuddyAllocator

def allocate (a : BuddyAllocator) (count : Nat) : Option (Option Nat × BuddyAllocator) := do
  let order ← orderOf count
  let (frame, l) ← allocateFrom (MAX_ORDER - order) a.freeLists order order
  some (frame, { a with freeLists := l })

def free (a : BuddyAllocator) (frame count : Nat) : Option BuddyAllocator := do
  let order ← orderOf count
  let (l, current, currentOrder) ← coalesce (MAX_ORDER - order) a.freeLists frame order
  let l ← l.push currentOrder current
  some { a with freeLists := l }

def empty : BuddyAllocator := ⟨fun _ => [], 0⟩

/-- One round of the loop of `new_from_frames`. -/
def addFrame (a : BuddyAllocator) (frame : Nat) : Option BuddyAllocator :=
  free { a with totalFrames := a.totalFrames + 1 } frame 1

def newFromFrames (frames : List Nat) : Option BuddyAllocator := frames.foldlM addFrame empty

end BuddyAllocator

/-! ## The free lists as a multiset of blocks -/

namespace FreeLists

/-- The blocks of order `o` that start at the frames `v`. -/
def level (o : Nat) (v : List Nat) : List Block := v.map fun f => ⟨f, o⟩

/-- The blocks `[f, f + 2 ^ o)` for `f` in `free_lists[o]`. -/
def blocks (l : FreeLists) : List Block :=
  (List.finRange MAX_ORDER).flatMap fun o : Fin MAX_ORDER => level o (l o)

variable {l l' : FreeLists} {o f : Nat} {v : List Nat}

theorem get_eq (h : o < MAX_ORDER) : l.get o = some (l ⟨o, h⟩) := dif_pos h

theorem set_eq (h : o < MAX_ORDER) : l.set o v = some (Function.update l ⟨o, h⟩ v) := dif_pos h

theorem push_eq (h : o < MAX_ORDER) :
    l.push o f = some (Function.update l ⟨o, h⟩ (l ⟨o, h⟩ ++ [f])) := by
  simp [push, get_eq h, set_eq h]

theorem push_eq_none (h : ¬ o < MAX_ORDER) : l.push o f = none := by simp [push, get, h]

theorem mem_blocks {b : Block} :
    b ∈ l.blocks ↔ ∃ h : b.order < MAX_ORDER, b.start ∈ l ⟨b.order, h⟩ := by
  obtain ⟨f, o⟩ := b
  simp only [blocks, level, List.mem_flatMap, List.mem_finRange, true_and, List.mem_map, Block.mk.injEq]
  constructor
  · rintro ⟨o', f', hf, rfl, rfl⟩; exact ⟨o'.isLt, hf⟩
  · rintro ⟨h, hf⟩; exact ⟨⟨o, h⟩, f, hf, rfl, rfl⟩

theorem order_lt {b : Block} (h : b ∈ l.blocks) : b.order < MAX_ORDER := (mem_blocks.1 h).1

theorem coe_blocks (l : FreeLists) :
    (l.blocks : Multiset Block) = ∑ o : Fin MAX_ORDER, (level o (l o) : Multiset Block) := by
  rw [blocks, ← Multiset.coe_bind]
  rfl

/-- Replacing one list exchanges the blocks of that list. -/
theorem blocks_update (l : FreeLists) (i : Fin MAX_ORDER) (v : List Nat) :
    (level i (l i) : Multiset Block) + blocks (Function.update l i v) =
      (level i v : Multiset Block) + l.blocks := by
  simp only [coe_blocks]
  rw [← Finset.add_sum_erase _ _ (Finset.mem_univ i),
    ← Finset.add_sum_erase _ (fun o : Fin MAX_ORDER => (level o (l o) : Multiset Block))
      (Finset.mem_univ i),
    Function.update_self, add_left_comm]
  congr 2
  refine Finset.sum_congr rfl ?_
  intro o ho
  rw [Function.update_of_ne (Finset.ne_of_mem_erase ho)]

end FreeLists

end Memory
end OciKernel
