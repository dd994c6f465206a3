import Mathlib.Algebra.Ring.Nat
import Mathlib.Data.List.DropRight
import Mathlib.Data.List.Infix

/-!
# Lib.Text

Some string operations of the Rust standard library, on a string as its
list of `char`s.

* `trim`, `trimStart`, `trimEnd`: Unicode `White_Space` is removed.
* `lines`: cut after each `\n`; a `\r` right before the `\n` goes with it.
* `afterFirst`: the second part of `splitn(2, c)`.
* `parseUnsigned bound`: `str::parse` at an unsigned type with values below `bound`: an optional `+`,
  then at least one decimal digit.
-/

namespace Text

abbrev Str := List Char

/-- `char::is_whitespace`, the Unicode property `White_Space`. -/
def isWhitespace (c : Char) : Bool :=
  let n := c.toNat
  (9 ≤ n && n ≤ 13) || n == 0x20 || n == 0x85 || n == 0xA0 || n == 0x1680 ||
    (0x2000 ≤ n && n ≤ 0x200A) || n == 0x2028 || n == 0x2029 || n == 0x202F || n == 0x205F ||
    n == 0x3000

def trimStart (s : Str) : Str := s.dropWhile isWhitespace

def trimEnd (s : Str) : Str := s.rdropWhile isWhitespace

def trim (s : Str) : Str := trimEnd (trimStart s)

/-- `str::len`, in bytes. -/
def utf8Len (s : Str) : Nat := (s.map Char.utf8Size).sum

/-- `strip_suffix('\r').unwrap_or(line)`. -/
def stripCr (s : Str) : Str := if s.getLast? = some '\r' then s.dropLast else s

/-- The lines of `acc.reverse ++ s`, where `acc` holds the current line read so far. -/
def linesFrom : Str → Str → List Str
  | [], [] => []
  | acc, [] => [acc.reverse]
  | acc, c :: s => if c = '\n' then stripCr acc.reverse :: linesFrom [] s else linesFrom (c :: acc) s

def lines (s : Str) : List Str := linesFrom [] s

/-- What follows the first `c`, if there is one. -/
def afterFirst (c : Char) : Str → Option Str
  | [] => none
  | d :: s => if d = c then some s else afterFirst c s

/-- `split_once`: what stands before and after the first `c`. -/
def splitOnce (c : Char) (s : Str) : Option (Str × Str) :=
  (afterFirst c s).map fun rest => (s.takeWhile (· ≠ c), rest)

/-- `split_whitespace`. -/
def splitWhitespace (s : Str) : List Str := (s.splitOnP isWhitespace).filter (· ≠ [])

/-- `join(" ")`. -/
def unwords (words : List Str) : Str := [' '].intercalate words

def stripSuffix (suffix s : Str) : Option Str :=
  if suffix.isSuffixOf s then some (s.take (s.length - suffix.length)) else none

def digit? (c : Char) : Option Nat :=
  if '0' ≤ c ∧ c ≤ '9' then some (c.toNat - '0'.toNat) else none

/-- The decimal number read from `n` on. -/
def parseDigits : Nat → Str → Option Nat
  | n, [] => some n
  | n, c :: s => do
    let d ← digit? c
    parseDigits (10 * n + d) s

def parseUnsigned (bound : Nat) (s : Str) : Option Nat := do
  let digits := match s with
    | '+' :: s => s
    | s => s
  if digits = [] then none
  else
    let n ← parseDigits 0 digits
    if n < bound then some n else none

/-! ## Trimming -/

theorem trimStart_append {a b : Str} (ha : ∀ c ∈ a, isWhitespace c) :
    trimStart (a ++ b) = trimStart b := by
  induction a with
  | nil => rfl
  | cons c a ih =>
    have hc : isWhitespace c = true := ha c (List.mem_cons_self ..)
    rw [List.cons_append, trimStart, List.dropWhile_cons_of_pos hc]
    exact ih fun d hd => ha d (List.mem_cons_of_mem _ hd)

theorem trimStart_of_head {c : Char} {s : Str} (hc : isWhitespace c = false) :
    trimStart (c :: s) = c :: s := List.dropWhile_cons_of_neg (by simp [hc])

theorem trimEnd_append_of_all {a b : Str} (hb : ∀ c ∈ b, isWhitespace c) :
    trimEnd (a ++ b) = trimEnd a := by
  have hrev : ∀ c ∈ b.reverse, isWhitespace c := fun c hc => hb c (List.mem_reverse.1 hc)
  rw [trimEnd, List.rdropWhile, List.reverse_append]
  exact congrArg List.reverse (trimStart_append hrev)

/-- Trimming stops at a character that is not whitespace. -/
theorem trimEnd_append {a b : Str} {c : Char} (hc : isWhitespace c = false) :
    trimEnd (a ++ c :: b) = a ++ c :: trimEnd b := by
  induction b using List.reverseRecOn with
  | nil =>
    rw [trimEnd, List.rdropWhile_concat_neg _ _ _ (by simp [hc])]
    rfl
  | append_singleton b d ih =>
    by_cases hd : isWhitespace d
    · have h₁ : trimEnd (a ++ c :: (b ++ [d])) = trimEnd (a ++ c :: b) := by
        have := trimEnd_append_of_all (a := a ++ c :: b) (b := [d]) (by simpa using hd)
        simpa using this
      have h₂ : trimEnd (b ++ [d]) = trimEnd b := trimEnd_append_of_all (by simpa using hd)
      rw [h₁, h₂, ih]
    · have h₁ : trimEnd ((a ++ c :: b) ++ [d]) = (a ++ c :: b) ++ [d] :=
        List.rdropWhile_concat_neg _ _ _ hd
      have h₂ : trimEnd (b ++ [d]) = b ++ [d] := List.rdropWhile_concat_neg _ _ _ hd
      rw [h₂]
      simpa using h₁

theorem trimEnd_trimEnd (s : Str) : trimEnd (trimEnd s) = trimEnd s := List.rdropWhile_idempotent _ s

/-- A string is whitespace, or has a first character that is not. -/
theorem all_or_split (s : Str) : (∀ c ∈ s, isWhitespace c) ∨
    ∃ a c b, s = a ++ c :: b ∧ (∀ d ∈ a, isWhitespace d) ∧ isWhitespace c = false := by
  induction s with
  | nil => exact .inl (by simp)
  | cons c s ih =>
    cases hc : isWhitespace c with
    | false => exact .inr ⟨[], c, s, rfl, by simp, hc⟩
    | true =>
      rcases ih with h | ⟨a, d, b, rfl, ha, hd⟩
      · exact .inl (by simpa [hc] using h)
      · exact .inr ⟨c :: a, d, b, rfl, by simpa [hc] using ha, hd⟩

theorem trimEnd_of_all {s : Str} (h : ∀ c ∈ s, isWhitespace c) : trimEnd s = [] :=
  trimEnd_append_of_all (a := []) h

theorem trimStart_of_all {s : Str} (h : ∀ c ∈ s, isWhitespace c) : trimStart s = [] := by
  have := trimStart_append (b := []) h
  rwa [List.append_nil] at this

theorem trim_trimEnd (s : Str) : trim (trimEnd s) = trim s := by
  rcases all_or_split s with h | ⟨a, c, b, rfl, ha, hc⟩
  · rw [trimEnd_of_all h, trim, trim, trimStart_of_all h]
    rfl
  · have hcons : ∀ t, trimEnd (c :: t) = c :: trimEnd t := fun t => trimEnd_append (a := []) hc
    rw [trimEnd_append hc, trim, trim, trimStart_append ha, trimStart_append ha,
      trimStart_of_head hc, trimStart_of_head hc, hcons, hcons, trimEnd_trimEnd]

theorem trimStart_trim (s : Str) : trimStart (trim s) = trim s := by
  rcases all_or_split s with h | ⟨a, c, b, rfl, ha, hc⟩
  · rw [trim, trimStart_of_all h]
    rfl
  · have hcons : trimEnd (c :: b) = c :: trimEnd b := trimEnd_append (a := []) hc
    rw [trim, trimStart_append ha, trimStart_of_head hc, hcons, trimStart_of_head hc]

theorem trim_trim (s : Str) : trim (trim s) = trim s := by
  rw [trim, trimStart_trim, trim, trimEnd_trimEnd]

/-- Whitespace around a string goes with the trimming. -/
theorem trim_subset (s : Str) : trim s ⊆ s := by
  intro c hc
  have hstart : c ∈ trimStart s := (List.rdropWhile_prefix isWhitespace (trimStart s)).subset hc
  exact (List.dropWhile_suffix isWhitespace).subset hstart

theorem trim_cons {c : Char} (hc : isWhitespace c) (s : Str) : trim (c :: s) = trim s := by
  rw [trim, trim]
  exact congrArg trimEnd (trimStart_append (a := [c]) (by simpa using hc))

theorem trim_eq_self {s : Str} (hhead : ∀ c ∈ s.head?, isWhitespace c = false)
    (hlast : ∀ c ∈ s.getLast?, isWhitespace c = false) : trim s = s := by
  have hstart : trimStart s = s := by
    cases s with
    | nil => rfl
    | cons c s => exact trimStart_of_head (hhead c rfl)
  rw [trim, hstart]
  rcases List.eq_nil_or_concat' s with rfl | ⟨a, c, rfl⟩
  · rfl
  · exact trimEnd_append (hlast c (List.getLast?_concat ..))

theorem trim_head (s : Str) : ∀ c ∈ (trim s).head?, isWhitespace c = false := by
  intro c hc
  have hself : (trim s).dropWhile isWhitespace = trim s := trimStart_trim s
  cases ht : trim s with
  | nil =>
    rw [ht] at hc
    cases hc
  | cons d t =>
    rw [ht] at hc hself
    cases hc
    have hnot : ¬ isWhitespace c = true := List.dropWhile_eq_self_iff.1 hself (Nat.zero_lt_succ _)
    simpa using hnot

theorem trim_getLast (s : Str) : ∀ c ∈ (trim s).getLast?, isWhitespace c = false := by
  intro c hc
  have hself : (trim s).rdropWhile isWhitespace = trim s := trimEnd_trimEnd (trimStart s)
  obtain ⟨hne, rfl⟩ := List.mem_getLast?_eq_getLast hc
  simpa using List.rdropWhile_eq_self_iff.1 hself hne

/-! ## Lines -/

theorem stripCr_of_notMem {s : Str} (h : '\r' ∉ s) : stripCr s = s := by
  unfold stripCr
  split
  · rename_i he
    exact absurd (List.mem_of_getLast? he) h
  · rfl

theorem linesFrom_append {line rest acc : Str} (h : '\n' ∉ line) :
    linesFrom acc (line ++ '\n' :: rest) = stripCr (acc.reverse ++ line) :: lines rest := by
  induction line generalizing acc with
  | nil => simp [linesFrom, lines]
  | cons c line ih =>
    have hc : c ≠ '\n' := fun he => h (he ▸ List.mem_cons_self ..)
    have hi : linesFrom (c :: acc) (line ++ '\n' :: rest) =
        stripCr ((c :: acc).reverse ++ line) :: lines rest :=
      ih fun hm => h (List.mem_cons_of_mem _ hm)
    rw [List.cons_append, linesFrom.eq_def]
    simpa [hc] using hi

theorem lines_append {line rest : Str} (h : '\n' ∉ line) :
    lines (line ++ '\n' :: rest) = stripCr line :: lines rest := linesFrom_append h

/-- Text made of terminated lines, followed by more text. -/
theorem lines_flatMap {ls : List Str} (rest : Str) (h : ∀ l ∈ ls, '\n' ∉ l) :
    lines (ls.flatMap (· ++ ['\n']) ++ rest) = ls.map stripCr ++ lines rest := by
  induction ls with
  | nil => rfl
  | cons l ls ih =>
    rw [List.flatMap_cons, List.append_assoc, List.append_assoc, List.singleton_append,
      lines_append (h l (List.mem_cons_self ..)), ih fun l hl => h l (List.mem_cons_of_mem _ hl)]
    rfl

theorem stripCr_subset (s : Str) : stripCr s ⊆ s := by
  unfold stripCr
  split
  · exact List.dropLast_subset s
  · exact List.Subset.refl s

/-- No line has a line feed; by recursion on the text, with the line so far. -/
theorem newline_notMem_linesFrom {acc s l : Str} (hacc : '\n' ∉ acc) (h : l ∈ linesFrom acc s) : '\n' ∉ l := by
  induction acc, s using linesFrom.induct with
  | case1 =>
    rw [linesFrom] at h
    cases h
  | case2 acc hne =>
    rw [linesFrom.eq_2 _ hne, List.mem_singleton] at h
    rw [h, List.mem_reverse]
    exact hacc
  | case3 acc s ih =>
    rw [linesFrom, if_pos rfl] at h
    rcases List.mem_cons.1 h with rfl | h
    · exact fun hmem => hacc (List.mem_reverse.1 (stripCr_subset _ hmem))
    · exact ih List.not_mem_nil h
  | case4 acc c s hc ih =>
    rw [linesFrom, if_neg hc] at h
    exact ih (by simp [hacc, Ne.symm hc]) h

theorem newline_notMem_lines {s l : Str} (h : l ∈ lines s) : '\n' ∉ l :=
  newline_notMem_linesFrom List.not_mem_nil h

/-! ## Splitting -/

theorem afterFirst_append {c : Char} {before : Str} (h : c ∉ before) (rest : Str) :
    afterFirst c (before ++ c :: rest) = some rest := by
  induction before with
  | nil => simp [afterFirst]
  | cons d before ih =>
    have hd : d ≠ c := fun he => h (he ▸ List.mem_cons_self ..)
    rw [List.cons_append, afterFirst, if_neg hd]
    exact ih fun hm => h (List.mem_cons_of_mem _ hm)

/-- What stands before the first `c`, if there is one. -/
theorem takeWhile_ne_append {c : Char} {before : Str} (h : c ∉ before) (rest : Str) :
    (before ++ c :: rest).takeWhile (· ≠ c) = before := by
  induction before with
  | nil => simp
  | cons d before ih =>
    have hd : d ≠ c := fun he => h (he ▸ List.mem_cons_self ..)
    rw [List.cons_append, List.takeWhile_cons_of_pos (by simpa using hd),
      ih fun hm => h (List.mem_cons_of_mem _ hm)]

theorem afterFirst_eq_none {c : Char} {s : Str} (h : c ∉ s) : afterFirst c s = none := by
  induction s with
  | nil => rfl
  | cons d s ih =>
    have hd : d ≠ c := fun he => h (he ▸ List.mem_cons_self ..)
    rw [afterFirst, if_neg hd]
    exact ih fun hm => h (List.mem_cons_of_mem _ hm)

theorem splitOnce_append {c : Char} {before : Str} (h : c ∉ before) (rest : Str) :
    splitOnce c (before ++ c :: rest) = some (before, rest) := by
  rw [splitOnce, afterFirst_append h, Option.map_some, takeWhile_ne_append h]

theorem splitOnce_eq_none {c : Char} {s : Str} (h : c ∉ s) : splitOnce c s = none := by
  rw [splitOnce, afterFirst_eq_none h, Option.map_none]

theorem afterFirst_eq_some {c : Char} {s rest : Str} (h : afterFirst c s = some rest) :
    s = s.takeWhile (· ≠ c) ++ c :: rest := by
  induction s with
  | nil => cases h
  | cons d s ih =>
    unfold afterFirst at h
    split at h
    · rename_i hd
      subst hd
      cases h
      simp
    · rename_i hd
      rw [List.takeWhile_cons_of_pos (by simpa using hd), List.cons_append, ← ih h]

/-- What stands before the first `c` has none. -/
theorem splitOnce_eq_some {c : Char} {s before rest : Str} (h : splitOnce c s = some (before, rest)) :
    s = before ++ c :: rest ∧ c ∉ before := by
  obtain ⟨r, hr, he⟩ := Option.map_eq_some_iff.1 h
  cases he
  refine ⟨afterFirst_eq_some hr, fun hc => ?_⟩
  simpa using List.mem_takeWhile_imp hc

theorem notMem_of_splitOnce {c : Char} {s : Str} (h : splitOnce c s = none) : c ∉ s := by
  intro hc
  obtain ⟨before, rest, rfl, hbefore⟩ := List.eq_append_cons_of_mem hc
  rw [splitOnce_append hbefore] at h
  cases h
theorem isPrefixOf?_append (pre rest : Str) : pre.isPrefixOf? (pre ++ rest) = some rest :=
  List.isPrefixOf?_eq_some_iff_append_eq.2 rfl

theorem stripSuffix_append (s suffix : Str) : stripSuffix suffix (s ++ suffix) = some s := by
  have hsuffix : suffix.isSuffixOf (s ++ suffix) = true := by
    rw [List.isSuffixOf_iff_suffix]
    exact List.suffix_append ..
  rw [stripSuffix, if_pos hsuffix]
  simp

theorem stripSuffix_eq_some {s suffix x : Str} (h : stripSuffix suffix s = some x) :
    s = x ++ suffix := by
  by_cases hsuffix : suffix.isSuffixOf s = true
  · obtain ⟨t, rfl⟩ := List.isSuffixOf_iff_suffix.1 hsuffix
    rw [stripSuffix_append] at h
    rw [Option.some.inj h]
  · rw [stripSuffix, if_neg hsuffix] at h
    cases h

theorem stripSuffix_eq_none {s suffix : Str} (h : ¬ suffix <:+ s) : stripSuffix suffix s = none :=
  if_neg (by rwa [List.isSuffixOf_iff_suffix])

/-- Two suffixes of the same length are the same. -/
theorem stripSuffix_ne {s suffix suffix' : Str} (hlen : suffix.length = suffix'.length)
    (hne : suffix ≠ suffix') : stripSuffix suffix (s ++ suffix') = none := by
  refine stripSuffix_eq_none fun h => hne ?_
  rcases List.suffix_or_suffix_of_suffix h (List.suffix_append s suffix') with h | h
  · exact h.eq_of_length hlen
  · exact (h.eq_of_length hlen.symm).symm

theorem not_of_mem_splitOnP {α : Type*} {p : α → Bool} {xs seg : List α} (h : seg ∈ xs.splitOnP p) :
    ∀ x ∈ seg, p x = false := by
  induction xs generalizing seg with
  | nil =>
    rw [List.splitOnP_nil, List.mem_singleton] at h
    subst h
    exact nofun
  | cons y xs ih =>
    rw [List.splitOnP_cons_eq_if_modifyHead] at h
    split at h
    · rcases List.mem_cons.1 h with rfl | h
      · exact nofun
      · exact ih h
    · rename_i hy
      obtain ⟨seg₀, segs, hsplit⟩ := List.exists_cons_of_ne_nil (List.splitOnP_ne_nil p xs)
      rw [hsplit, List.modifyHead_cons] at h
      rw [hsplit] at ih
      rcases List.mem_cons.1 h with rfl | h
      · intro x hx
        rcases List.mem_cons.1 hx with rfl | hx
        · simpa using hy
        · exact ih (List.mem_cons_self ..) x hx
      · exact ih (List.mem_cons_of_mem _ h)

/-! ## Words -/

theorem splitWhitespace_append {c : Char} (hc : isWhitespace c) (s t : Str) :
    splitWhitespace (s ++ c :: t) = splitWhitespace s ++ splitWhitespace t := by
  rw [splitWhitespace, List.splitOnP_append_cons s t hc, List.filter_append]
  rfl

theorem splitWhitespace_of_all {s : Str} (h : ∀ c ∈ s, isWhitespace c) : splitWhitespace s = [] := by
  induction s with
  | nil => simp [splitWhitespace]
  | cons c s ih =>
    obtain ⟨hc, h⟩ := List.forall_mem_cons.1 h
    rw [← List.nil_append (c :: s), splitWhitespace_append hc, ih h]
    simp [splitWhitespace]

/-- Whitespace at either end separates nothing. -/
theorem splitWhitespace_trim (s : Str) : splitWhitespace (trim s) = splitWhitespace s := by
  have hleft : ∀ a b : Str, (∀ c ∈ a, isWhitespace c) →
      splitWhitespace (a ++ b) = splitWhitespace b := by
    intro a b ha
    induction a with
    | nil => rfl
    | cons c a ih =>
      obtain ⟨hc, ha⟩ := List.forall_mem_cons.1 ha
      rw [List.cons_append, ← List.nil_append (c :: (a ++ b)), splitWhitespace_append hc, ih ha,
        splitWhitespace_of_all (by simp)]
      rfl
  have hright : ∀ a b : Str, (∀ c ∈ b, isWhitespace c) →
      splitWhitespace (a ++ b) = splitWhitespace a := by
    intro a b hb
    cases b with
    | nil => rw [List.append_nil]
    | cons c b =>
      obtain ⟨hc, hb⟩ := List.forall_mem_cons.1 hb
      rw [splitWhitespace_append hc, splitWhitespace_of_all hb, List.append_nil]
  have hstart : ∀ t : Str, splitWhitespace (trimStart t) = splitWhitespace t := by
    intro t
    have := hleft (t.takeWhile isWhitespace) (t.dropWhile isWhitespace) fun c hc =>
      List.mem_takeWhile_imp hc
    rw [List.takeWhile_append_dropWhile] at this
    exact this.symm
  have hend : ∀ t : Str, splitWhitespace (trimEnd t) = splitWhitespace t := by
    intro t
    have := hright (t.rdropWhile isWhitespace) (t.rtakeWhile isWhitespace) fun c hc =>
      List.mem_rtakeWhile_imp hc
    rw [List.rdropWhile_append_rtakeWhile] at this
    exact this.symm
  rw [trim, hend, hstart]

structure IsWord (s : Str) : Prop where
  ne_nil : s ≠ []
  notWhitespace : ∀ c ∈ s, isWhitespace c = false

theorem not_isWhitespace_of_all {s : Str} (h : s.all (!isWhitespace ·) = true) :
    ∀ c ∈ s, isWhitespace c = false := by
  simpa using h

instance (s : Str) : Decidable (IsWord s) :=
  decidable_of_iff (s.isEmpty = false ∧ s.all (!isWhitespace ·) = true)
    ⟨fun h => ⟨by simpa using h.1, not_isWhitespace_of_all h.2⟩,
      fun h => ⟨by simpa using h.ne_nil, by simpa using h.notWhitespace⟩⟩

theorem splitWhitespace_word {s : Str} (h : IsWord s) : splitWhitespace s = [s] := by
  rw [splitWhitespace, List.splitOnP_eq_singleton h.notWhitespace]
  simp [h.ne_nil]

theorem splitWhitespace_unwords {words : List Str} (h : ∀ w ∈ words, IsWord w) :
    splitWhitespace (unwords words) = words := by
  induction words with
  | nil => simp [splitWhitespace, unwords]
  | cons w words ih =>
    obtain ⟨hw, h⟩ := List.forall_mem_cons.1 h
    cases words with
    | nil => simp [unwords, splitWhitespace_word hw]
    | cons w' words =>
      have hcons : unwords (w :: w' :: words) = w ++ ' ' :: unwords (w' :: words) := by
        rw [unwords, List.intercalate_cons_cons, List.append_assoc]
        rfl
      rw [hcons, splitWhitespace_append (by decide), splitWhitespace_word hw, ih h]
      rfl

theorem notMem_of_mem_splitOn {c : Char} {s seg : Str} (h : seg ∈ s.splitOn c) : c ∉ seg := by
  rw [List.splitOn_eq_splitOnP] at h
  intro hc
  simpa using not_of_mem_splitOnP h c hc

end Text
