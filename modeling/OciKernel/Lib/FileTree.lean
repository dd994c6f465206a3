import Mathlib.Data.Set.Function

/-!
# Lib.FileTree

A tree of files over arbitrary types of names and contents, in two layers: what was written lies over a base
that stays. Directories are implicit, so a location is one as long as a file lies below it.

* `Tree.file`, `IsDir`: what is found at a location.
* `Represents`: a store under keys that holds the files at the keys of their locations and nothing else.
  `Represents.update`: it is kept by a change at the key of one location.
-/

namespace FileTree

universe u v w

structure Tree (N : Type u) (B : Type v) where
  base : List N → Option B
  written : List N → Option B

namespace Tree

variable {N : Type u} {B : Type v} [DecidableEq N]

def file (t : Tree N B) (loc : List N) : Option B := (t.written loc).or (t.base loc)

def IsDir (t : Tree N B) (loc : List N) : Prop :=
  loc = [] ∨ ∃ names ≠ [], (t.file (loc ++ names)).isSome

def write (t : Tree N B) (loc : List N) (data : B) : Tree N B :=
  { t with written := Function.update t.written loc (some data) }

/-- Only what was written goes away. -/
def remove (t : Tree N B) (loc : List N) : Tree N B :=
  { t with written := Function.update t.written loc none }

end Tree

section Represents

variable {L : Type u} {K : Type v} {B : Type w} {key : L → K} {store : K → Option B} {files : L → Option B}

structure Represents (key : L → K) (store : K → Option B) (files : L → Option B) : Prop where
  at_key : ∀ loc, store (key loc) = files loc
  keys : ∀ k, (store k).isSome → ∃ loc, key loc = k

theorem Represents.update [DecidableEq L] [DecidableEq K] (hkey : key.Injective)
    (h : Represents key store files) (loc : L) (v : Option B) :
    Represents key (Function.update store (key loc) v) (Function.update files loc v) := by
  refine ⟨fun loc' => ?_, fun k hk => ?_⟩
  · by_cases hloc : loc' = loc
    · rw [hloc, Function.update_self, Function.update_self]
    · rw [Function.update_of_ne (hkey.ne hloc), Function.update_of_ne hloc, h.at_key]
  · by_cases hkl : k = key loc
    · exact ⟨loc, hkl.symm⟩
    · rw [Function.update_of_ne hkl] at hk
      exact h.keys k hk

/-- Two stores, one over the other, hold one file system over the other. -/
theorem Represents.or {lower : K → Option B} {base : L → Option B} (h : Represents key store files)
    (hl : Represents key lower base) :
    Represents key (fun k => (store k).or (lower k)) fun loc => (files loc).or (base loc) := by
  refine ⟨fun loc => by rw [h.at_key, hl.at_key], fun k hk => ?_⟩
  cases hs : store k with
  | some data => exact h.keys k (by rw [hs]; rfl)
  | none =>
    rw [hs, Option.none_or] at hk
    exact hl.keys k hk

end Represents

end FileTree
