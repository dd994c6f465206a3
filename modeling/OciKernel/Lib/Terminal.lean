import OciKernel.Lib.Text

/-!
# Lib.Terminal

Editing of a line on a terminal, over an arbitrary type of letters. The program keeps the line and prints an
echo; the display keeps the cells left and right of its cursor. `"\x08 \x08"` steps back, blanks the cell
and steps back again.

* `edit`, `echo`: what a key does to the line, and what is printed for it.
* `Shows`: the display has the line left of its cursor and nothing but blanks to the right.
* `prints_echo`, `prints_keys`: one key, and any keys, keep the display in step with the line, and what
  stood on the display before stays.
-/

namespace Terminal

open Text

universe u

variable {α : Type u}

inductive Key (α : Type u) where
  | put (a : α)
  | erase
  | other

def edit (line : List α) : Key α → List α
  | .put a => line ++ [a]
  | .erase => line.dropLast
  | .other => line

def echo (glyph : α → Char) (line : List α) : Key α → Str
  | .put a => [glyph a]
  | .erase => if line = [] then [] else "\x08 \x08".toList
  | .other => []

/-- The line of a display that the cursor is on. -/
structure Display where
  left : Str
  right : Str

namespace Display

def print (d : Display) (c : Char) : Display :=
  if c = '\n' then ⟨[], []⟩
  else if c = '\x08' then
    match d.left.getLast? with
    | some cell => ⟨d.left.dropLast, cell :: d.right⟩
    | none => d
  else ⟨d.left ++ [c], d.right.tail⟩

def prints (d : Display) (s : Str) : Display := s.foldl print d

theorem prints_append (d : Display) (s t : Str) : d.prints (s ++ t) = (d.prints s).prints t :=
  List.foldl_append

/-- The display with `line` typed after what stood on it. -/
structure Shows (base : Str) (glyph : α → Char) (line : List α) (d : Display) : Prop where
  left : d.left = base ++ line.map glyph
  right : ∀ c ∈ d.right, c = ' '

section Echo

variable {base : Str} {glyph : α → Char} {line : List α} {d : Display} {key : Key α}

theorem print_glyph {c : Char} (hn : c ≠ '\n') (hb : c ≠ '\x08') (d : Display) :
    d.print c = ⟨d.left ++ [c], d.right.tail⟩ := by
  rw [print, if_neg hn, if_neg hb]

/-- The last cell goes, and what is left of it is a blank to the right. -/
theorem prints_erase (left : Str) (cell : Char) (right : Str) :
    prints ⟨left ++ [cell], right⟩ "\x08 \x08".toList = ⟨left, ' ' :: right⟩ := by
  have hback : print ⟨left ++ [cell], right⟩ '\x08' = ⟨left, cell :: right⟩ := by
    simp [print]
  have hblank : print ⟨left, cell :: right⟩ ' ' = ⟨left ++ [' '], right⟩ := by
    simp [print]
  have hback' : print ⟨left ++ [' '], right⟩ '\x08' = ⟨left, ' ' :: right⟩ := by
    simp [print]
  have hchars : "\x08 \x08".toList = ['\x08', ' ', '\x08'] := rfl
  rw [hchars, prints, List.foldl_cons, hback, List.foldl_cons, hblank, List.foldl_cons, hback',
    List.foldl_nil]

/-- A letter is shown as neither of the two control characters. -/
def Glyph (glyph : α → Char) : Key α → Prop
  | .put a => glyph a ≠ '\n' ∧ glyph a ≠ '\x08'
  | _ => True

theorem prints_echo (hglyph : Glyph glyph key) (h : Shows base glyph line d) :
    Shows base glyph (edit line key) (d.prints (echo glyph line key)) := by
  obtain ⟨hleft, hright⟩ := h
  cases key with
  | put a =>
    have hprint : d.prints (echo glyph line (.put a)) = ⟨d.left ++ [glyph a], d.right.tail⟩ :=
      print_glyph hglyph.1 hglyph.2 d
    rw [hprint]
    refine ⟨?_, fun c hc => hright c (List.mem_of_mem_tail hc)⟩
    rw [hleft, edit, List.map_append, List.append_assoc]
    rfl
  | erase =>
    rcases List.eq_nil_or_concat' line with rfl | ⟨line, a, rfl⟩
    · exact ⟨hleft, hright⟩
    · obtain ⟨left, right⟩ := d
      dsimp only at hleft hright
      have hecho : echo glyph (line ++ [a]) .erase = "\x08 \x08".toList := if_neg (by simp)
      rw [List.map_append, ← List.append_assoc] at hleft
      subst hleft
      rw [hecho, List.map_singleton, prints_erase, edit, List.dropLast_concat]
      exact ⟨rfl, List.forall_mem_cons.2 ⟨rfl, hright⟩⟩
  | other => exact ⟨hleft, hright⟩

/-- What is printed for several keys. -/
def echoes (glyph : α → Char) : List α → List (Key α) → Str
  | _, [] => []
  | line, key :: keys => echo glyph line key ++ echoes glyph (edit line key) keys

/-- By induction on the keys. -/
theorem prints_keys {keys : List (Key α)} (hglyph : ∀ key ∈ keys, Glyph glyph key)
    (h : Shows base glyph line d) :
    Shows base glyph (keys.foldl edit line) (d.prints (echoes glyph line keys)) := by
  induction keys generalizing line d with
  | nil => exact h
  | cons key keys ih =>
    obtain ⟨hkey, hkeys⟩ := List.forall_mem_cons.1 hglyph
    rw [echoes, prints_append]
    exact ih hkeys (prints_echo hkey h)

end Echo

end Display

end Terminal
