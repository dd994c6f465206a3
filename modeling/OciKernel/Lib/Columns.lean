import OciKernel.Lib.Wire

/-!
# Lib.Columns

Rows of a printed table. A cell is padded on the right to the width of its column, two blanks stand between
the columns, and the last cell stands as it is.

* `readRow_row`: first and last cell are words, so a row is read back however long its cells are.
* `lines_println`: lines printed one after the other are read back.
-/

namespace Text

/-- A cell of a column, with the blanks before the next one: `{:<width}  `. -/
def cell (width : Nat) (s : Str) : Str := s.rightpad width ' ' ++ "  ".toList

/-- The first word, what stands in between, and the last word. -/
def readRow (row : Str) : Str × Str × Str :=
  let rest := row.dropWhile (· ≠ ' ')
  (row.takeWhile (· ≠ ' '), trim (rest.rdropWhile (· ≠ ' ')), rest.rtakeWhile (· ≠ ' '))

def println (s : Str) : Str := s ++ ['\n']

section Row

variable {first mid last : Str} {width width' : Nat}

theorem cell_eq (width : Nat) (s : Str) : ∃ n, cell width s = s ++ List.replicate (n + 1) ' ' := by
  refine ⟨width - s.length + 1, ?_⟩
  have htwo : "  ".toList = List.replicate 2 ' ' := rfl
  rw [cell, List.rightpad, List.append_assoc, htwo, List.replicate_append_replicate]

theorem isWhitespace_blanks (n : Nat) : ∀ c ∈ List.replicate n ' ', isWhitespace c = true := by
  intro c hc
  rw [List.eq_of_mem_replicate hc]
  rfl

theorem trim_blanks (m n : Nat) (s : Str) :
    trim (List.replicate m ' ' ++ (s ++ List.replicate n ' ')) = trim s := by
  rw [trim, trimStart_append (isWhitespace_blanks m), ← trim, ← trim_trimEnd,
    trimEnd_append_of_all (isWhitespace_blanks n), trim_trimEnd]

theorem decide_ne_blank {s : Str} (h : ' ' ∉ s) : ∀ c ∈ s, decide (c ≠ ' ') = true := by
  intro c hc
  rw [decide_eq_true_iff]
  rintro rfl
  exact h hc

/-- A row whose middle is `mid` among blanks. -/
theorem readRow_blanks (hfirst : ' ' ∉ first) (hlast : ' ' ∉ last) {rest : Str}
    (hrest : trim (' ' :: rest ++ [' ']) = mid) :
    readRow (first ++ (' ' :: rest ++ ' ' :: last)) = (first, mid, last) := by
  have hdrop : (first ++ (' ' :: rest ++ ' ' :: last)).dropWhile (· ≠ ' ') =
      ' ' :: rest ++ ' ' :: last := by
    rw [List.dropWhile_append_of_pos (decide_ne_blank hfirst)]
    rfl
  have hlast' : ∀ c ∈ last.reverse, decide (c ≠ ' ') = true :=
    fun c hc => decide_ne_blank hlast c (List.mem_reverse.1 hc)
  have hrev : (' ' :: rest ++ ' ' :: last).reverse = last.reverse ++ ' ' :: (' ' :: rest).reverse := by
    rw [List.reverse_append, List.reverse_cons, List.append_assoc]
    rfl
  have htake : (' ' :: rest ++ ' ' :: last).rtakeWhile (· ≠ ' ') = last := by
    rw [List.rtakeWhile, hrev, List.takeWhile_append_of_pos hlast', List.takeWhile_cons_of_neg (by simp),
      List.append_nil, List.reverse_reverse]
  have hrdrop : (' ' :: rest ++ ' ' :: last).rdropWhile (· ≠ ' ') = ' ' :: rest ++ [' '] := by
    rw [List.rdropWhile, hrev, List.dropWhile_append_of_pos hlast', List.dropWhile_cons_of_neg (by simp),
      List.reverse_cons, List.reverse_reverse]
  rw [readRow, hdrop, htake, hrdrop, hrest, List.cons_append, takeWhile_ne_append hfirst]

/-- Three columns. -/
theorem readRow_row (hfirst : ' ' ∉ first) (hmid : trim mid = mid) (hlast : ' ' ∉ last) :
    readRow (cell width first ++ cell width' mid ++ last) = (first, mid, last) := by
  obtain ⟨m, hm⟩ := cell_eq width first
  obtain ⟨n, hn⟩ := cell_eq width' mid
  have hrow : cell width first ++ cell width' mid ++ last =
      first ++ (' ' :: (List.replicate m ' ' ++ (mid ++ List.replicate n ' ')) ++ ' ' :: last) := by
    rw [hm, hn, List.replicate_succ, List.replicate_succ']
    simp only [List.append_assoc, List.cons_append, List.nil_append]
  have hall : trim (' ' :: (List.replicate m ' ' ++ (mid ++ List.replicate n ' ')) ++ [' ']) = mid := by
    have hblanks := trim_blanks (m + 1) (n + 1) mid
    rw [List.replicate_succ, List.replicate_succ'] at hblanks
    simpa [hmid] using hblanks
  rw [hrow, readRow_blanks hfirst hlast hall]

/-- Two columns. -/
theorem readRow_pair (hfirst : ' ' ∉ first) (hlast : ' ' ∉ last) :
    readRow (cell width first ++ last) = (first, [], last) := by
  have hrow : cell width first ++ last =
      first ++ (' ' :: List.replicate (width - first.length) ' ' ++ ' ' :: last) := by
    have htwo : "  ".toList = [' ', ' '] := rfl
    have hcomm : List.replicate (width - first.length) ' ' ++ [' '] =
        ' ' :: List.replicate (width - first.length) ' ' := by
      rw [← List.replicate_succ', List.replicate_succ]
    rw [cell, List.rightpad, htwo, ← hcomm]
    simp
  have hall : trim (' ' :: List.replicate (width - first.length) ' ' ++ [' ']) = [] := by
    have hblanks := trim_blanks (width - first.length + 1) 1 []
    rw [List.replicate_succ] at hblanks
    exact hblanks
  rw [hrow, readRow_blanks hfirst hlast hall]

end Row

theorem stripCr_of_getLast {s : Str} (h : s.getLast? ≠ some '\r') : stripCr s = s := if_neg h

theorem lines_println {ls : List Str} (h : ∀ l ∈ ls, '\n' ∉ l ∧ l.getLast? ≠ some '\r') :
    lines (ls.flatMap println) = ls := by
  have hlines := lines_flatMap [] fun l hl => (h l hl).1
  have hnil : lines [] = [] := rfl
  rw [List.append_nil, hnil, List.append_nil] at hlines
  have hstrip : ls.map stripCr = ls.map id :=
    List.map_congr_left fun l hl => stripCr_of_getLast (h l hl).2
  exact hlines.trans (hstrip.trans (List.map_id ls))

end Text
