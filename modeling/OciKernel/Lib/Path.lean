import Mathlib.Data.List.Infix

/-!
# Lib.Path

Paths in a tree, over an arbitrary type of names. A location is the list of the names that lead to it
from the root, and a path is a list of moves.

* `walk_append`: a path is walked in parts.
* `walk_down`: a location is reached from the root by its own names.
* `walk_up`: at the root, going up stays there.
* `mem_walk`: a location has no other names than the start and the path.
* `walk_map`: walking commutes with renaming.
-/

namespace Path

universe u

inductive Move (N : Type u) where
  | stay
  | up
  | down (name : N)
deriving DecidableEq, Repr

variable {N : Type u}

def move (loc : List N) : Move N → List N
  | .stay => loc
  | .up => loc.dropLast
  | .down name => loc ++ [name]

def walk (loc : List N) (moves : List (Move N)) : List N := moves.foldl move loc

@[simp] theorem walk_nil (loc : List N) : walk loc [] = loc := rfl

@[simp] theorem walk_cons (loc : List N) (m : Move N) (moves : List (Move N)) :
    walk loc (m :: moves) = walk (move loc m) moves := rfl

theorem walk_append (loc : List N) (moves moves' : List (Move N)) :
    walk loc (moves ++ moves') = walk (walk loc moves) moves' := List.foldl_append

theorem walk_down (loc names : List N) : walk loc (names.map .down) = loc ++ names := by
  induction names generalizing loc with
  | nil => simp
  | cons name names ih => simp [ih, move]

theorem walk_up (n : Nat) (moves : List (Move N)) :
    walk [] (List.replicate n .up ++ moves) = walk [] moves := by
  induction n with
  | zero => rfl
  | succ n ih => simpa [List.replicate_succ, move] using ih

theorem mem_walk {loc : List N} {moves : List (Move N)} {name : N} (h : name ∈ walk loc moves) :
    name ∈ loc ∨ .down name ∈ moves := by
  induction moves generalizing loc with
  | nil => exact .inl h
  | cons m moves ih =>
    rcases ih h with hloc | hmoves
    · cases m with
      | stay => exact .inl hloc
      | up => exact .inl (List.mem_of_mem_dropLast hloc)
      | down name' =>
        rcases List.mem_append.1 hloc with hloc | hname
        · exact .inl hloc
        · rw [List.mem_singleton.1 hname]
          exact .inr (List.mem_cons_self ..)
    · exact .inr (List.mem_cons_of_mem _ hmoves)

def Move.map {N' : Type u} (f : N → N') : Move N → Move N'
  | .stay => .stay
  | .up => .up
  | .down name => .down (f name)

theorem walk_map {N' : Type u} (f : N → N') (loc : List N) (moves : List (Move N)) :
    (walk loc moves).map f = walk (loc.map f) (moves.map (Move.map f)) := by
  induction moves generalizing loc with
  | nil => rfl
  | cons m moves ih =>
    rw [walk_cons, ih, List.map_cons, walk_cons]
    cases m with
    | stay => rfl
    | up =>
      rw [move, List.map_dropLast]
      rfl
    | down name =>
      rw [move, List.map_append]
      rfl

end Path
