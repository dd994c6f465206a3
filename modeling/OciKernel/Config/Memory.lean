import OciKernel.Config.Declared
import OciKernel.Config.Counts
import OciKernel.Container.Runtime

/-!
# Config.Memory

Memory sizes in any boot configuration, from the text of the value to the limit of the container.

* `Writes`: what a text says, a decimal number in a unit. `parseMemory_of_writes`: what `parse_memory`
  makes of it; a product over `usize::MAX` is an overflow, a number over it is not read.
* `Item.memoryValues`: the memory values of a list item. `given`: those that reach its container, which are
  more where the parser does not see the next item or the next key.
* `parseLines_memories`: the parser panics on one that reaches a container, or the last one counts.
* `memoryKept_iff`, `memoryKept_items_iff`: whether the containers that are made have the memory that is
  written, and whether every item gets one that has.
* `memory_exact_iff`: which values are exact or rejected, and which configurations keep what they say.
-/

namespace OciKernel

open Text

/-! ## Values -/

/-- Trimmed and in lower case, `s` is the number `n`, and blanks and the unit unless it is bytes. -/
def Writes (s : Str) (n : Nat) (u : MemoryUnit) : Prop :=
  ∃ number blanks, toLowercase (trim s) = number ++ (blanks ++ u.text) ∧ IsDecimal number n ∧
    (∀ c ∈ blanks, isWhitespace c) ∧ (u = .bytes → blanks = [])

/-- The number, or nothing when it is none or out of range, and only then. -/
structure MemoryExact (s : Str) : Prop where
  exact : ∀ v, parseMemory s = some (some v) → ∃ n u, Writes s n u ∧ v = n * u.factor ∧ v < 2 ^ 64
  rejected : ∀ n u, Writes s n u → 2 ^ 64 ≤ n * u.factor → parseMemory s = some none

/-- The lower case of a character is no whitespace unless the character is. -/
theorem toLowerChar_not_isWhitespace {c : Char} (h : isWhitespace c = false) :
    ∀ d ∈ toLowerChar c, isWhitespace d = false := by
  have hletter : ∀ n < 26, isWhitespace (Char.ofNat (65 + n)).toLower = false := by decide
  intro d hd
  unfold toLowerChar at hd
  split_ifs at hd
  · rw [List.mem_singleton.1 hd]
    decide
  · rcases List.mem_cons.1 hd with rfl | hd
    · decide
    · rw [List.mem_singleton.1 hd]
      decide
  · rw [List.mem_singleton.1 hd]
    rcases toLower_eq_or c with he | ⟨n, hn, rfl⟩
    · rw [he, h]
    · exact hletter n hn

theorem toLowerChar_ne_nil (c : Char) : toLowerChar c ≠ [] := by
  unfold toLowerChar
  split_ifs <;> simp

/-- Lower case keeps a trimmed text trimmed. -/
theorem trim_toLowercase (s : Str) : trim (toLowercase (trim s)) = toLowercase (trim s) := by
  refine trim_eq_self ?_ ?_
  · intro d hd
    cases ht : trim s with
    | nil =>
      rw [ht] at hd
      cases hd
    | cons c t =>
      have hc := trim_head s c (by rw [ht]; rfl)
      rw [ht, toLowercase, List.flatMap_cons, List.head?_append_of_ne_nil _ (toLowerChar_ne_nil c)] at hd
      exact toLowerChar_not_isWhitespace hc d (List.mem_of_mem_head? hd)
  · intro d hd
    rcases List.eq_nil_or_concat' (trim s) with ht | ⟨t, c, ht⟩
    · rw [ht] at hd
      cases hd
    · have hc := trim_getLast s c (by rw [ht]; simp)
      rw [ht, toLowercase, List.flatMap_append, List.flatMap_singleton,
        List.getLast?_append_of_ne_nil _ (toLowerChar_ne_nil c)] at hd
      exact toLowerChar_not_isWhitespace hc d (List.mem_of_mem_getLast? hd)

theorem notMem_of_isDecimal {s : Str} {n : Nat} (h : IsDecimal s n) : 'b' ∉ s := by
  intro hb
  rcases h.chars 'b' hb with he | hdigit
  · simp at he
  · simp [toDigit, digitValue] at hdigit

section Unit

variable {s x : Str} {n : Nat} {u u' : MemoryUnit}

/-- With a unit behind. -/
theorem writes_unit (hu : u ≠ .bytes) (hx : toLowercase (trim s) = x ++ u.text) :
    Writes s n u' ↔ u' = u ∧ IsDecimal (trim x) n := by
  constructor
  · rintro ⟨number, blanks, hs, hdec, hblanks, hbytes⟩
    have hunit : u' ≠ .bytes := by
      rintro rfl
      have hb : 'b' ∈ number := by
        have : 'b' ∈ x ++ u.text := List.mem_append_right _ (MemoryUnit.text_b hu)
        rw [← hx, hs, hbytes rfl] at this
        simpa [MemoryUnit.text] using this
      exact notMem_of_isDecimal hdec hb
    rw [hx, ← List.append_assoc] at hs
    obtain rfl := MemoryUnit.text_inj hu hunit hs
    rw [List.append_cancel_right hs, hdec.trim_append hblanks]
    exact ⟨rfl, hdec⟩
  · rintro ⟨rfl, hdec⟩
    refine ⟨trim x, x.rtakeWhile isWhitespace, ?_, hdec, fun c hc => List.mem_rtakeWhile_imp hc,
      fun h => absurd h hu⟩
    -- nothing is cut off in front, where the trimmed text starts
    have hstart : trimStart x = x := by
      cases x with
      | nil => rfl
      | cons c x =>
        refine trimStart_of_head ?_
        have := trim_head (toLowercase (trim s)) c
        rw [trim_toLowercase, hx] at this
        exact this rfl
    rw [hx, ← List.append_assoc, trim, hstart, trimEnd, List.rdropWhile_append_rtakeWhile]

/-- Without one. -/
theorem writes_bytes (hnone : ∀ u : MemoryUnit, u ≠ .bytes →
    stripSuffix u.text (toLowercase (trim s)) = none) :
    Writes s n u' ↔ u' = .bytes ∧ IsDecimal (trim (toLowercase (trim s))) n := by
  rw [trim_toLowercase]
  constructor
  · rintro ⟨number, blanks, hs, hdec, hblanks, hbytes⟩
    by_cases hu : u' = .bytes
    · subst hu
      rw [hs, hbytes rfl]
      exact ⟨rfl, by simpa [MemoryUnit.text] using hdec⟩
    · have := hnone u' hu
      rw [hs, ← List.append_assoc, stripSuffix_append] at this
      cases this
  · rintro ⟨rfl, hdec⟩
    exact ⟨toLowercase (trim s), [], by simp [MemoryUnit.text], hdec, List.forall_mem_nil _,
      fun _ => rfl⟩

/-- The branch that `parse_memory` takes is that of the unit that may have been written. -/
theorem parseMemory_unit (s : Str) : ∃ u x, parseMemory s = parseScaled x u.factor ∧
    ∀ n u', Writes s n u' ↔ u' = u ∧ IsDecimal (trim x) n := by
  unfold parseMemory
  dsimp only
  split
  · rename_i mb hmb
    exact ⟨.mb, mb, rfl, fun n u' => writes_unit (by simp) (stripSuffix_eq_some hmb)⟩
  · rename_i hmb
    split
    · rename_i gb hgb
      exact ⟨.gb, gb, rfl, fun n u' => writes_unit (by simp) (stripSuffix_eq_some hgb)⟩
    · rename_i hgb
      split
      · rename_i kb hkb
        exact ⟨.kb, kb, rfl, fun n u' => writes_unit (by simp) (stripSuffix_eq_some hkb)⟩
      · rename_i hkb
        refine ⟨.bytes, toLowercase (trim s), ?_, fun n u' => writes_bytes fun u hu => ?_⟩
        · rw [parseScaled, trim_toLowercase]
          cases hn : parseUsize (toLowercase (trim s)) with
          | none => rfl
          | some n =>
            have hlt : n * 1 < 2 ^ 64 := by
              rw [Nat.mul_one]
              exact (parseUnsigned_eq_some_iff.1 hn).2
            dsimp only
            rw [MemoryUnit.factor, mulUsize, if_pos hlt, Nat.mul_one]
            rfl
        · cases u with
          | bytes => exact absurd rfl hu
          | kb => exact hkb
          | mb => exact hmb
          | gb => exact hgb

/-- A number in range is multiplied, where an overflow panics; another one is not read. -/
theorem parseMemory_of_writes (h : Writes s n u) : parseMemory s =
    if n < 2 ^ 64 then (if n * u.factor < 2 ^ 64 then some (some (n * u.factor)) else none)
    else some none := by
  obtain ⟨u₀, x, hparse, hwrites⟩ := parseMemory_unit s
  obtain ⟨rfl, hdec⟩ := (hwrites n u).1 h
  rw [hparse, parseScaled, parseUsize, hdec.parseUnsigned]
  split_ifs with hn hfits
  · dsimp only
    rw [mulUsize, if_pos hfits]
    rfl
  · dsimp only
    rw [mulUsize, if_neg hfits]
    rfl
  · rfl

theorem parseMemory_of_not_writes (h : ∀ n u, ¬ Writes s n u) : parseMemory s = some none := by
  obtain ⟨u, x, hparse, hwrites⟩ := parseMemory_unit s
  have hnone : parseUsize (trim x) = none := by
    rw [Option.eq_none_iff_forall_ne_some]
    intro n hn
    exact h n u ((hwrites n u).2 ⟨rfl, (parseUnsigned_eq_some_iff.1 hn).1⟩)
  rw [hparse, parseScaled, hnone]

/-- A text writes one size at most. -/
theorem Writes.unique {m : Nat} (h : Writes s n u) (h' : Writes s m u') : n = m ∧ u = u' := by
  obtain ⟨u₀, x, _, hwrites⟩ := parseMemory_unit s
  obtain ⟨rfl, hdec⟩ := (hwrites n u).1 h
  obtain ⟨rfl, hdec'⟩ := (hwrites m u').1 h'
  exact ⟨hdec.unique hdec', rfl⟩

/-- Only an overflow panics. -/
theorem parseMemory_eq_none_iff :
    parseMemory s = none ↔ ∃ n u, Writes s n u ∧ n < 2 ^ 64 ∧ 2 ^ 64 ≤ n * u.factor := by
  constructor
  · intro hnone
    by_cases hw : ∃ n u, Writes s n u
    · obtain ⟨n, u, hw⟩ := hw
      rw [parseMemory_of_writes hw] at hnone
      split_ifs at hnone with hn hfits
      exact ⟨n, u, hw, hn, Nat.le_of_not_lt hfits⟩
    · rw [parseMemory_of_not_writes fun n u h => hw ⟨n, u, h⟩] at hnone
      cases hnone
  · rintro ⟨n, u, hw, hn, hover⟩
    rw [parseMemory_of_writes hw, if_pos hn, if_neg (Nat.not_lt.2 hover)]

theorem parseMemory_exact {v : Nat} (h : parseMemory s = some (some v)) :
    ∃ n u, Writes s n u ∧ v = n * u.factor ∧ v < 2 ^ 64 := by
  by_cases hw : ∃ n u, Writes s n u
  · obtain ⟨n, u, hw⟩ := hw
    rw [parseMemory_of_writes hw] at h
    split_ifs at h with hn hfits
    · obtain rfl : n * u.factor = v := by simpa using h
      exact ⟨n, u, hw, rfl, hfits⟩
    · simp at h
  · rw [parseMemory_of_not_writes fun n u h => hw ⟨n, u, h⟩] at h
    cases h

theorem memoryExact_iff :
    MemoryExact s ↔ ∀ n u, Writes s n u → n < 2 ^ 64 → n * u.factor < 2 ^ 64 := by
  constructor
  · intro hex n u hw hn
    by_contra hover
    have hrej := hex.rejected n u hw (Nat.le_of_not_lt hover)
    rw [parseMemory_eq_none_iff.2 ⟨n, u, hw, hn, Nat.le_of_not_lt hover⟩] at hrej
    cases hrej
  · intro hfits
    refine ⟨fun v => parseMemory_exact, fun n u hw hover => ?_⟩
    have hn : ¬ n < 2 ^ 64 := fun hn => Nat.not_lt.2 hover (hfits n u hw hn)
    rw [parseMemory_of_writes hw, if_neg hn]

end Unit

/-! ## The values of a text -/

/-- What reads like a memory value. -/
def Decl.memory? : Decl → Option Str
  | .memory _ v => some v
  | _ => none

/-- What is one. -/
def Decl.placedMemory? : Decl → Option Str
  | .memory true v => some v
  | _ => none

def memoriesFrom (mode : Mode) (ls : List Line) : List Str := (declsFrom mode ls).filterMap Decl.memory?

/-- The memory values of an item, in the order of the lines. -/
def Item.memoryValues (i : Item) : List Str := i.decls.filterMap Decl.placedMemory?

/-- The parser goes on reading limits below a key that no container has. -/
example : (items ("containers:\n  - image: web\n    resources:\n      memory: 1gb\n    labels:\n" ++
      "      memory: 1kb\n").toList).map (fun i => (i.memoryValues, memoriesFrom .none i.lines)) =
    [(["1gb".toList], ["1gb".toList, "1kb".toList])] := by
  decide +kernel

/-- The lines of the items from here on that do not start with an image: the parser reads them on as lines
of the container before. -/
def readOn : List Group → List Line
  | [] => []
  | g :: groups =>
    match g.head with
    | .item text => if startsWith text "- image:" then [] else g.body ++ readOn groups
    | _ => []

/-- The items that containers are made of, each with the memory values that reach the container. -/
def given : List Group → List (Item × List Str)
  | [] => []
  | g :: groups =>
    (match g.head with
      | .item text =>
        if startsWith text "- image:" then
          [(⟨some text, g.body, !groups.isEmpty⟩,
            memoriesFrom .none (⟨4, entryKey text⟩ :: g.body ++ readOn groups))]
        else []
      | _ => []) ++ given groups

/-- The second item does not start with its image, and its size replaces that of the first. -/
example : (given (segment false (shownLines ("containers:\n  - image: web\n    resources:\n" ++
      "      memory: 1gb\n  - restart: always\n    resources:\n      memory: 1kb\n" ++
      "    image: db\n").toList)).2).map Prod.snd = [["1gb".toList, "1kb".toList]] := by
  decide +kernel

/-- The container has the size that the last of the values writes, or more. -/
def LimitKept (values : List Str) (spec : ContainerSpec) : Prop :=
  ∀ s ∈ values.getLast?, ∀ n u, Writes s n u → n * u.factor ≤ Container.memoryLimit spec

/-- The configuration is read without a panic, and the items `is` get the containers, in order, none with
less memory than its item writes. -/
structure MemoryKept (yaml : Str) (is : List Item) : Prop where
  noPanic : KernelConfig.fromYaml yaml ≠ ExceptT.mk none
  kept : ∀ config, KernelConfig.fromYaml yaml = pure config →
    List.Forall₂ (fun i spec => i.image? = some spec.image ∧ LimitKept i.memoryValues spec)
      is config.containers

/-- A container whose last value is `t` has at least this limit: the size written, or the default where no
size other than zero is written that fits in `usize`. -/
def AtLeast (t : Str) (size : Nat) : Prop :=
  (∃ n u, Writes t n u ∧ n * u.factor < 2 ^ 64 ∧ size ≤ n * u.factor) ∨
  (size ≤ 256 * 1024 * 1024 ∧ ∀ n u, Writes t n u → n * u.factor = 0 ∨ 2 ^ 64 ≤ n * u.factor)

/-- No value that reaches a container overflows, and the last that reaches it gives no less than the last of
its own. A number that does not even fit without its unit may stand where a later value replaces it. -/
def MemoryFits (yaml : Str) : Prop :=
  ∀ g ∈ given (segment false (shownLines yaml)).2,
    (∀ s ∈ g.2, ∀ n u, Writes s n u → n < 2 ^ 64 → n * u.factor < 2 ^ 64) ∧
    ∀ s ∈ g.1.memoryValues.getLast?, ∀ t ∈ g.2.getLast?, ∀ n u, Writes s n u → AtLeast t (n * u.factor)

section Given

variable {inList : Bool} {l : Line} (ls : List Line)

theorem given_top (h : l.indent = 0) : given (segment inList (l :: ls)).2 =
    given (segment (decide (l.text = "containers:".toList)) ls).2 := by
  rw [segment_top ls h, given]
  by_cases hcontainers : l.text = "containers:".toList
  · rw [if_pos hcontainers, List.nil_append]
  · rw [if_neg hcontainers, List.nil_append]

theorem readOn_top (h : l.indent = 0) : readOn (segment inList (l :: ls)).2 = [] := by
  rw [segment_top ls h, readOn]
  by_cases hcontainers : l.text = "containers:".toList
  · rw [if_pos hcontainers]
  · rw [if_neg hcontainers]

theorem given_item (h : l.indent ≠ 0) (hitem : l.IsItem) : given (segment true (l :: ls)).2 =
    (if startsWith l.text "- image:" then
      [(⟨some l.text, (segment true ls).1, !(segment true ls).2.isEmpty⟩,
        memoriesFrom .none (⟨4, entryKey l.text⟩ :: (segment true ls).1 ++ readOn (segment true ls).2))]
      else []) ++ given (segment true ls).2 := by
  rw [segment_item ls h hitem, given]

theorem readOn_item (h : l.indent ≠ 0) (hitem : l.IsItem) : readOn (segment true (l :: ls)).2 =
    if startsWith l.text "- image:" then [] else (segment true ls).1 ++ readOn (segment true ls).2 := by
  rw [segment_item ls h hitem, readOn]

end Given

/-- These are the items that start with their images. -/
theorem given_starting (groups : List Group) : (given groups).map Prod.fst = starting groups := by
  induction groups with
  | nil => rfl
  | cons g groups ih =>
    rw [given, starting_cons, List.map_append, ih]
    congr 1
    cases g.head with
    | top => rfl
    | list => rfl
    | item text =>
      dsimp only
      split <;> rfl

/-- The first line of such an item sets no memory. -/
theorem memoriesFrom_image {text : Str} (h : startsWith text "- image:" = true) (ls : List Line) :
    memoriesFrom .none (⟨4, entryKey text⟩ :: ls) = memoriesFrom .none ls := by
  obtain ⟨rest, rfl⟩ := List.isPrefixOf_iff_prefix.1 h
  rfl

theorem memoriesFrom_cons (mode : Mode) (l : Line) (ls : List Line) : memoriesFrom mode (l :: ls) =
    (l.decls mode).filterMap Decl.memory? ++ memoriesFrom (l.next mode) ls := by
  rw [memoriesFrom, declsFrom, List.filterMap_append]
  rfl

/-- What reaches a container begins with what reads like a value in its own item. -/
theorem memoriesFrom_append (mode : Mode) (ls ls' : List Line) :
    memoriesFrom mode ls <+: memoriesFrom mode (ls ++ ls') := by
  induction ls generalizing mode with
  | nil => exact List.nil_prefix
  | cons l ls ih =>
    rw [List.cons_append, memoriesFrom_cons, memoriesFrom_cons, List.prefix_append_right_inj]
    exact ih _

theorem memoryValues_sublist (i : Item) : i.memoryValues.Sublist (memoriesFrom .none i.lines) := by
  unfold Item.memoryValues Item.decls memoriesFrom
  induction declsFrom .none i.lines with
  | nil => exact .slnil
  | cons decl decls ih =>
    rw [List.filterMap_cons, List.filterMap_cons]
    cases decl with
    | memory placed v =>
      cases placed with
      | true => exact ih.cons_cons v
      | false => exact ih.cons v
    | _ => exact ih

theorem own_reaches {groups : List Group} : ∀ g ∈ given groups, g.1.memoryValues.Sublist g.2 := by
  induction groups with
  | nil => exact nofun
  | cons g groups ih =>
    rw [given, List.forall_mem_append]
    refine ⟨?_, ih⟩
    cases g.head with
    | top => exact nofun
    | list => exact nofun
    | item text =>
      dsimp only
      split
      · rw [List.forall_mem_singleton]
        exact (memoryValues_sublist _).trans (memoriesFrom_append _ _ _).sublist
      · exact nofun

/-! ## The memory of the containers -/

/-- The `memory_bytes` of a builder after the values, of which the last one counts. -/
def memoryAfter (memoryBytes : Option Nat) (values : List Str) : Option Nat :=
  values.foldl (fun _ s => (parseMemory s).join) memoryBytes

def memoryOf (spec : ContainerSpec) : Nat := spec.resources.memoryBytes

def orDefault (memoryBytes : Option Nat) : Nat :=
  memoryBytes.getD ResourceLimits.default.memoryBytes

namespace ParseState

/-- The memory of the containers so far, and of the one in progress after the values. -/
def memories (st : ParseState) (values : List Str) : List Nat :=
  st.containers.map memoryOf ++
    st.current.toList.map fun b => orDefault (memoryAfter b.memoryBytes values)

theorem memories_congr {st st' : ParseState} (hcontainers : st'.containers = st.containers)
    (hmemory : st'.current.map (·.memoryBytes) = st.current.map (·.memoryBytes)) (values : List Str) :
    st'.memories values = st.memories values := by
  have hmap : ∀ st : ParseState, (st.current.toList.map fun b =>
      orDefault (memoryAfter b.memoryBytes values)) =
      (st.current.map (·.memoryBytes)).toList.map fun m => orDefault (memoryAfter m values) := by
    intro st
    cases st.current <;> rfl
  rw [memories, memories, hcontainers, hmap, hmap, hmemory]

theorem memories_built {st : ParseState} {specs : List ContainerSpec}
    (h : List.Forall₂ Built st.current.toList specs) :
    (st.containers ++ specs).map memoryOf = st.memories [] := by
  have hspecs : specs.map memoryOf = st.current.toList.map fun b => orDefault b.memoryBytes :=
    map_built (fun _ _ hb => hb.memory) h
  rw [List.map_append, hspecs]
  rfl

theorem memory_flushPort (st : ParseState) :
    st.flushPort.current.map (·.memoryBytes) = st.current.map (·.memoryBytes) := by
  unfold flushPort
  split
  · simp [mapCurrent, Function.comp_def]
  · rfl

/-- A line of an item sets no memory, or the value that it declares. -/
theorem BodyStep.memory_cases {st : ParseState} {mode next : Mode} {l : Line} {decls : List Decl}
    {r : Option ParseState} (h : BodyStep st mode l decls next r) :
    (decls.filterMap Decl.memory? = [] ∧ ∃ st', r = some st' ∧
      st'.current.map (·.memoryBytes) = st.current.map (·.memoryBytes)) ∨
    ∃ placed v, decls = [.memory placed v] ∧ r = st.setMemory v := by
  cases h with
  | port => exact .inl ⟨rfl, _, rfl, st.memory_flushPort⟩
  | skipped _ _ decls st' hst' hmemory =>
    refine .inl ⟨List.filterMap_eq_nil_iff.2 fun decl hdecl => ?_, st', rfl, ?_⟩
    · cases decl with
      | memory placed v =>
        rcases List.mem_cons.1 hdecl with hdecl | hdecl
        · cases hdecl
        · exact absurd hdecl (hmemory placed v)
      | _ => rfl
    · rcases hst' with rfl | rfl
      · rfl
      · exact st.memory_flushPort
  | strayPort => exact .inl ⟨rfl, _, rfl, st.memory_flushPort⟩
  | restart =>
    refine .inl ⟨rfl, _, rfl, Eq.trans ?_ st.memory_flushPort⟩
    simp [mapCurrent, Function.comp_def]
  | key => exact .inl ⟨rfl, _, rfl, st.memory_flushPort⟩
  | host => exact .inl ⟨rfl, _, rfl, rfl⟩
  | container => exact .inl ⟨rfl, _, rfl, rfl⟩
  | memory placed v => exact .inr ⟨placed, v, rfl, rfl⟩
  | pidsMax =>
    refine .inl ⟨rfl, _, rfl, ?_⟩
    simp [mapCurrent, Function.comp_def]
  | other => exact .inl ⟨rfl, _, rfl, rfl⟩

/-- Outside the list there is no container in progress. -/
def Closed (st : ParseState) : Prop := st.inContainers = false → st.current = none

end ParseState

/-! ## Whole texts -/

/-- The values that reach the container in progress, and those of the containers to come. -/
def valuesAhead (opened inList : Bool) (mode : Mode) (ls : List Line) : List Str × List (List Str) :=
  (if opened then memoriesFrom mode ((segment inList ls).1 ++ readOn (segment inList ls).2) else [],
    (given (segment inList ls).2).map Prod.snd)

section Ahead

variable (opened : Bool) {inList : Bool} (mode : Mode) {l : Line} (ls : List Line)

theorem valuesAhead_top (h : l.indent = 0) : valuesAhead opened inList mode (l :: ls) =
    valuesAhead false (decide (l.text = "containers:".toList)) .none ls := by
  have hbody : (segment inList (l :: ls)).1 = [] := by rw [segment_top ls h]
  unfold valuesAhead
  rw [hbody, readOn_top ls h, given_top ls h]
  exact Prod.ext (ite_self _) rfl

theorem valuesAhead_start (h : l.indent ≠ 0) (hitem : l.IsItem)
    (himage : startsWith l.text "- image:" = true) : valuesAhead opened true mode (l :: ls) =
      ([], (valuesAhead true true .none ls).1 :: (valuesAhead true true .none ls).2) := by
  have hbody : (segment true (l :: ls)).1 = [] := by rw [segment_item ls h hitem]
  unfold valuesAhead
  rw [hbody, readOn_item ls h hitem, given_item ls h hitem, if_pos himage, if_pos himage, if_pos rfl,
    List.singleton_append, List.map_cons, List.cons_append, memoriesFrom_image himage]
  exact Prod.ext (ite_self _) rfl

theorem valuesAhead_skipped (h : l.indent ≠ 0) (hitem : l.IsItem)
    (himage : ¬ startsWith l.text "- image:" = true) :
    valuesAhead opened true mode (l :: ls) = valuesAhead opened true mode ls := by
  have hbody : (segment true (l :: ls)).1 = [] := by rw [segment_item ls h hitem]
  unfold valuesAhead
  rw [hbody, readOn_item ls h hitem, given_item ls h hitem, if_neg himage, if_neg himage]
  rfl

theorem valuesAhead_body (h : l.indent ≠ 0) (hitem : ¬ (inList = true ∧ l.IsItem)) :
    valuesAhead opened inList mode (l :: ls) =
      ((if opened then (l.decls mode).filterMap Decl.memory? else []) ++
        (valuesAhead opened inList (l.next mode) ls).1, (valuesAhead opened inList (l.next mode) ls).2) := by
  unfold valuesAhead
  rw [segment_body ls h hitem]
  cases opened with
  | false => rfl
  | true =>
    dsimp only
    rw [if_pos rfl, if_pos rfl, if_pos rfl, List.cons_append, memoriesFrom_cons]

end Ahead

/-- The parse panics on one of the values, or each container gets the last of its values. -/
def Reads (values : List Str × List (List Str)) (st : ParseState) (r : Parse KernelConfig) : Prop :=
  (∃ s ∈ values.1 ++ values.2.flatten, parseMemory s = none) ∧ r = ExceptT.mk none ∨
  (∀ s ∈ values.1 ++ values.2.flatten, parseMemory s ≠ none) ∧ ∃ config, r = pure config ∧
    config.containers.map memoryOf = st.memories values.1 ++
      values.2.map fun values => orDefault (memoryAfter none values)

theorem parseLines_nil_memories {st : ParseState} (hst : st.Named) :
    ∃ config, parseLines st [] = pure config ∧ config.containers.map memoryOf = st.memories [] := by
  obtain ⟨specs, hflush, hbuilt⟩ := ParseState.flushContainer_named (st.keeps_flushPort.named hst)
  refine ⟨⟨st.flushPort.containers ++ specs⟩, ?_, ?_⟩
  · unfold parseLines ParseState.finish
    rw [List.foldlM_nil, pure_bind, hflush]
    rfl
  · rw [ParseState.memories_built hbuilt]
    exact ParseState.memories_congr st.keeps_flushPort.containers st.memory_flushPort []

section Reads

variable {values : List Str × List (List Str)} {st st' : ParseState} {r : Parse KernelConfig}

theorem Reads.congr (h : Reads values st' r) (hmem : st'.memories values.1 = st.memories values.1) :
    Reads values st r := by
  rw [Reads, hmem] at h
  exact h

theorem Reads.set {v : Str} (h : Reads values st' r) (hparse : parseMemory v ≠ none)
    (hmem : st'.memories values.1 = st.memories (v :: values.1)) : Reads (v :: values.1, values.2) st r := by
  rcases h with ⟨⟨s, hs, hnone⟩, hpanic⟩ | ⟨hall, config, hr, hcontainers⟩
  · exact .inl ⟨⟨s, List.mem_cons_of_mem _ hs, hnone⟩, hpanic⟩
  · refine .inr ⟨List.forall_mem_cons.2 ⟨hparse, hall⟩, config, hr, ?_⟩
    rw [hcontainers, hmem]

theorem Reads.start (h : Reads values st' r)
    (hmem : st'.memories values.1 = st.memories [] ++ [orDefault (memoryAfter none values.1)]) :
    Reads ([], values.1 :: values.2) st r := by
  rcases h with ⟨hpanics, hpanic⟩ | ⟨hall, config, hr, hcontainers⟩
  · exact .inl ⟨hpanics, hpanic⟩
  · refine .inr ⟨hall, config, hr, ?_⟩
    rw [hcontainers, hmem, List.append_assoc]
    rfl

end Reads

/-- By induction on the lines. -/
theorem parseLines_memories {st : ParseState} {mode : Mode} (hst : st.Named) (hmode : st.InMode mode)
    (hclosed : st.Closed) (ls : List Line) :
    Reads (valuesAhead st.current.isSome st.inContainers mode ls) st (parseLines st ls) := by
  induction ls generalizing mode st with
  | nil =>
    obtain ⟨config, hparse, hmem⟩ := parseLines_nil_memories hst
    have hnil : valuesAhead st.current.isSome st.inContainers mode [] = ([], []) :=
      Prod.ext (ite_self _) rfl
    rw [hnil]
    exact .inr ⟨nofun, config, hparse, hmem.trans (List.append_nil _).symm⟩
  | cons l ls ih =>
    cases lineStep hst hmode l with
    | top h0 specs hbuilt hstep =>
      obtain ⟨st', hstep, hst'⟩ : ∃ st', st.stepLine l = pure st' ∧ st' = _ := ⟨_, hstep, rfl⟩
      have hcurrent : st'.current = none := congrArg ParseState.current hst'
      have hin : st'.inContainers = decide (l.text = "containers:".toList) :=
        congrArg ParseState.inContainers hst'
      have hreads := ih (ParseState.named_none hcurrent) (ParseState.inMode_none
        (congrArg ParseState.inPorts hst') (congrArg ParseState.inResources hst')) fun _ => hcurrent
      rw [hcurrent, hin] at hreads
      rw [parseLines_of_stepLine hstep, valuesAhead_top _ _ _ h0]
      refine hreads.congr ?_
      rw [hst']
      exact (List.append_nil _).trans (ParseState.memories_built hbuilt)
    | start h0 hin hitem himage specs hbuilt hstep =>
      obtain ⟨st', hstep, hst'⟩ : ∃ st', st.stepLine l = pure st' ∧ st' = _ := ⟨_, hstep, rfl⟩
      have hcurrent := congrArg ParseState.current hst'
      have hin' : st'.inContainers = true := (congrArg ParseState.inContainers hst').trans hin
      have hreads := ih (ParseState.named_some hcurrent rfl) (ParseState.inMode_none
        (congrArg ParseState.inPorts hst') (congrArg ParseState.inResources hst'))
        fun h => absurd (hin'.symm.trans h) (by decide)
      rw [hcurrent, hin'] at hreads
      rw [parseLines_of_stepLine hstep, hin, valuesAhead_start _ _ _ h0 hitem himage]
      refine hreads.start ?_
      rw [hst']
      exact congrArg (· ++ _) (ParseState.memories_built hbuilt)
    | skipped h0 hin hitem himage hstep =>
      have hreads := ih hst hmode hclosed
      rw [hin] at hreads
      rw [parseLines_of_stepLine hstep, hin, valuesAhead_skipped _ _ _ h0 hitem himage]
      exact hreads
    | body h0 hin hitem r hbody hstep =>
      rw [valuesAhead_body _ _ _ h0 fun hi => hitem hi.2]
      rcases hbody.memory_cases with ⟨hnone, st', rfl, hmem⟩ | ⟨placed, v, hdecls, rfl⟩
      · have hkeeps := hbody.keeps rfl
        have hsome : st'.current.isSome = st.current.isSome := by
          simpa using congrArg Option.isSome hmem
        have hin' := hkeeps.inContainers
        have hreads := ih (hkeeps.named hst) (hbody.inMode rfl hmode)
          fun h => absurd (hin.symm.trans (hin'.symm.trans h)) (by decide)
        rw [parseLines_of_stepLine hstep, hnone, ite_self, List.nil_append]
        rw [hsome, hin'] at hreads
        exact hreads.congr (ParseState.memories_congr hkeeps.containers hmem _)
      · have hvalue : (l.decls mode).filterMap Decl.memory? = [v] := by rw [hdecls]; rfl
        rw [hvalue]
        cases hcurrent : st.current with
        | none =>
          have hset : st.setMemory v = some st := by rw [ParseState.setMemory, hcurrent]
          rw [hset] at hbody hstep
          have hreads := ih hst (hbody.inMode rfl hmode) hclosed
          rw [hcurrent] at hreads
          rw [parseLines_of_stepLine hstep]
          exact hreads
        | some b =>
          have hset : st.setMemory v = (parseMemory v).map fun bytes =>
              { st with current := some { b with memoryBytes := bytes } } := by
            rw [ParseState.setMemory, hcurrent]
          rw [hset] at hbody hstep
          cases hparse : parseMemory v with
          | none =>
            rw [hparse] at hstep
            rw [parseLines_cons, hstep]
            exact .inl ⟨⟨v, by simp, hparse⟩, rfl⟩
          | some bytes =>
            rw [hparse] at hbody hstep
            obtain ⟨st', hst'⟩ : ∃ st', st' = { st with
              current := some { b with memoryBytes := bytes } } := ⟨_, rfl⟩
            rw [Option.map_some, ← hst'] at hbody hstep
            have hkeeps := hbody.keeps rfl
            have hreads := ih (hkeeps.named hst) (hbody.inMode rfl hmode)
              fun h => absurd (hin.symm.trans (hkeeps.inContainers.symm.trans h)) (by decide)
            rw [hkeeps.inContainers, hst'] at hreads
            rw [parseLines_of_stepLine hstep, hst']
            refine hreads.set (by simp [hparse]) ?_
            simp [ParseState.memories, hcurrent, memoryAfter, hparse]
    | outside h0 hin hstep =>
      have hreads := ih hst hmode hclosed
      rw [hclosed hin] at hreads ⊢
      rw [parseLines_of_stepLine hstep, valuesAhead_body _ _ _ h0 (by simp [hin])]
      exact hreads

/-- The last value counts. -/
theorem memoryAfter_eq (memoryBytes : Option Nat) (values : List Str) :
    memoryAfter memoryBytes values =
      values.getLast?.elim memoryBytes fun s => (parseMemory s).join := by
  induction values using List.reverseRecOn with
  | nil => rfl
  | append_singleton values s _ => simp [memoryAfter]

/-- What `from_yaml` makes of the memory values of a text. -/
theorem fromYaml_memories (yaml : Str) :
    (∃ g ∈ given (segment false (shownLines yaml)).2, ∃ s ∈ g.2, parseMemory s = none) ∧
      KernelConfig.fromYaml yaml = ExceptT.mk none ∨
    (∀ g ∈ given (segment false (shownLines yaml)).2, ∀ s ∈ g.2, parseMemory s ≠ none) ∧
      ∃ config, KernelConfig.fromYaml yaml = pure config ∧ config.containers.map memoryOf =
        (given (segment false (shownLines yaml)).2).map fun g => orDefault (memoryAfter none g.2) := by
  have hreads : Reads ([], (given (segment false (shownLines yaml)).2).map Prod.snd) .init
      (parseLines .init (shownLines yaml)) := by
    have hnamed : ParseState.init.Named := ParseState.named_none rfl
    have hmode : ParseState.init.InMode .none := ParseState.inMode_none rfl rfl
    exact parseLines_memories hnamed hmode (fun _ => rfl) _
  rw [← fromYaml_parseLines, Reads, List.nil_append, List.map_map] at hreads
  rcases hreads with ⟨⟨s, hs, hnone⟩, hpanic⟩ | ⟨hall, config, hr, hcontainers⟩
  · obtain ⟨values, hv, hs⟩ := List.mem_flatten.1 hs
    obtain ⟨g, hg, rfl⟩ := List.mem_map.1 hv
    exact .inl ⟨⟨g, hg, s, hs, hnone⟩, hpanic⟩
  · exact .inr ⟨fun g hg s hs => hall s (List.mem_flatten.2 ⟨g.2, List.mem_map_of_mem hg, hs⟩), config,
      hr, hcontainers⟩

/-! ## Limits -/

theorem forall₂_iff_forall_mem {α β : Type*} {R Q : α → β → Prop} {P : α → Prop} {as : List α}
    {bs : List β} (hR : List.Forall₂ R as bs) (h : ∀ a ∈ as, ∀ b, R a b → (Q a b ↔ P a)) :
    List.Forall₂ Q as bs ↔ ∀ a ∈ as, P a := by
  induction hR with
  | nil => simp
  | cons hab _ ih =>
    rw [List.forall₂_cons, List.forall_mem_cons, h _ (List.mem_cons_self ..) _ hab,
      ih fun a ha => h a (List.mem_cons_of_mem _ ha)]

theorem forall₂_of_map {α β γ δ : Type*} {f : β → γ} {g : α → γ} {f' : β → δ} {g' : α → δ} {as : List α}
    {bs : List β} (h : bs.map f = as.map g) (h' : bs.map f' = as.map g') :
    List.Forall₂ (fun a b => g a = f b ∧ f' b = g' a) as bs := by
  induction as generalizing bs with
  | nil =>
    rw [List.map_nil, List.map_eq_nil_iff] at h
    exact h ▸ .nil
  | cons a as ih =>
    cases bs with
    | nil => cases h
    | cons b bs =>
      rw [List.map_cons, List.map_cons, List.cons.injEq] at h h'
      exact .cons ⟨h.1.symm, h'.1⟩ (ih h.2 h'.2)

section Limit

variable {own values : List Str} {t : Str} {spec : ContainerSpec} {n size : Nat} {u : MemoryUnit}

theorem atLeast_of_writes (h : Writes t n u) : AtLeast t size ↔
    n * u.factor < 2 ^ 64 ∧ size ≤ n * u.factor ∨
      size ≤ 256 * 1024 * 1024 ∧ (n * u.factor = 0 ∨ 2 ^ 64 ≤ n * u.factor) := by
  constructor
  · rintro (⟨m, w, hw, hfits, hle⟩ | ⟨hle, hall⟩)
    · obtain ⟨rfl, rfl⟩ := h.unique hw
      exact .inl ⟨hfits, hle⟩
    · exact .inr ⟨hle, hall n u h⟩
  · rintro (⟨hfits, hle⟩ | ⟨hle, hsize⟩)
    · exact .inl ⟨n, u, h, hfits, hle⟩
    · refine .inr ⟨hle, fun m w hw => ?_⟩
      obtain ⟨rfl, rfl⟩ := h.unique hw
      exact hsize

/-- The limit that a last value gives: a rejected one, or a zero, leaves the default. -/
theorem le_memoryLimit_iff (hmem : memoryOf spec = orDefault (parseMemory t).join)
    (hread : parseMemory t ≠ none) : size ≤ Container.memoryLimit spec ↔ AtLeast t size := by
  have hlimit : Container.memoryLimit spec =
      if memoryOf spec = 0 then 256 * 1024 * 1024 else memoryOf spec := rfl
  by_cases hw : ∃ n u, Writes t n u
  · obtain ⟨n, u, hw⟩ := hw
    have hparse := parseMemory_of_writes hw
    rw [atLeast_of_writes hw, hlimit]
    by_cases hfits : n * u.factor < 2 ^ 64
    · have hn : n < 2 ^ 64 := Nat.lt_of_le_of_lt (Nat.le_mul_of_pos_right n u.factor_pos) hfits
      rw [if_pos hn, if_pos hfits] at hparse
      have hsize : memoryOf spec = n * u.factor := by
        rw [hmem, hparse]
        rfl
      rw [hsize]
      split <;> omega
    · have hn : ¬ n < 2 ^ 64 := by
        intro hn
        rw [if_pos hn, if_neg hfits] at hparse
        exact hread hparse
      rw [if_neg hn] at hparse
      have hsize : memoryOf spec = 256 * 1024 * 1024 := by
        rw [hmem, hparse]
        rfl
      rw [hsize, if_neg (by decide)]
      omega
  · have hparse := parseMemory_of_not_writes fun n u h => hw ⟨n, u, h⟩
    have hsize : memoryOf spec = 256 * 1024 * 1024 := by
      rw [hmem, hparse]
      rfl
    rw [hlimit, hsize, if_neg (by decide)]
    constructor
    · exact fun hle => .inr ⟨hle, fun n u h => absurd ⟨n, u, h⟩ hw⟩
    · rintro (⟨n, u, h, _⟩ | ⟨hle, _⟩)
      · exact absurd ⟨n, u, h⟩ hw
      · exact hle

/-- A container keeps what its item writes iff its last value gives as much. -/
theorem limitKept_iff (hown : own.Sublist values) (hmem : memoryOf spec = orDefault (memoryAfter none values))
    (hread : ∀ s ∈ values, parseMemory s ≠ none) : LimitKept own spec ↔
      ∀ s ∈ own.getLast?, ∀ t ∈ values.getLast?, ∀ n u, Writes s n u → AtLeast t (n * u.factor) := by
  rw [memoryAfter_eq] at hmem
  refine forall_congr' fun s => forall_congr' fun hs => ?_
  have hne : values ≠ [] := by
    rintro rfl
    rw [List.sublist_nil] at hown
    rw [hown] at hs
    cases hs
  have hlast := List.getLast?_eq_some_getLast hne
  rw [hlast] at hmem ⊢
  have hlimit : ∀ size, size ≤ Container.memoryLimit spec ↔ AtLeast (values.getLast hne) size :=
    fun _ => le_memoryLimit_iff hmem (hread _ (List.getLast_mem hne))
  simp only [hlimit, Option.mem_some_iff, forall_eq']

end Limit

theorem memoryKept_iff (yaml : Str) :
    MemoryKept yaml ((items yaml).filter (Item.Starts ·)) ↔ MemoryFits yaml := by
  rcases fromYaml_memories yaml with ⟨⟨g, hg, s, hs, hnone⟩, hpanic⟩ | ⟨hall, config, hr, hcontainers⟩
  · refine iff_of_false (fun h => h.noPanic hpanic) fun h => ?_
    obtain ⟨n, u, hw, hn, hover⟩ := parseMemory_eq_none_iff.1 hnone
    exact Nat.not_lt.2 hover ((h g hg).1 s hs n u hw hn)
  · have hstarting : (items yaml).filter (Item.Starts ·) =
        (given (segment false (shownLines yaml)).2).map Prod.fst := (given_starting _).symm
    have himages := fromYaml_images hr
    rw [hstarting, List.map_map] at himages
    have hmem : List.Forall₂ (fun g spec => g.1.image? = some spec.image ∧
        memoryOf spec = orDefault (memoryAfter none g.2))
        (given (segment false (shownLines yaml)).2) config.containers :=
      forall₂_of_map himages hcontainers
    have hkept := forall₂_iff_forall_mem
      (Q := fun g spec => g.1.image? = some spec.image ∧ LimitKept g.1.memoryValues spec) hmem
      fun g hg spec hspec => (and_iff_right hspec.1).trans
        (limitKept_iff (own_reaches g hg) hspec.2 (hall g hg))
    constructor
    · intro h
      have hconfig := h.kept config hr
      rw [hstarting, List.forall₂_map_left_iff] at hconfig
      intro g hg
      refine ⟨fun s hs n u hw hn => ?_, hkept.1 hconfig g hg⟩
      by_contra hover
      exact hall g hg s hs (parseMemory_eq_none_iff.2 ⟨n, u, hw, hn, Nat.le_of_not_lt hover⟩)
    · intro h
      refine ⟨fun hpanic => ?_, fun config' hr' => ?_⟩
      · rw [hr] at hpanic
        cases hpanic
      · rw [hr] at hr'
        cases hr'
        rw [hstarting, List.forall₂_map_left_iff]
        exact hkept.2 fun g hg => (h g hg).2

/-- Every item gets a container with its memory iff besides every item starts with its image. -/
theorem memoryKept_items_iff (yaml : Str) :
    MemoryKept yaml (items yaml) ↔ (∀ i ∈ items yaml, i.Starts) ∧ MemoryFits yaml := by
  have hall : (∀ i ∈ items yaml, i.Starts) → (items yaml).filter (Item.Starts ·) = items yaml :=
    fun hstarts => List.filter_eq_self.2 fun i hi => decide_eq_true (hstarts i hi)
  have hfits := memoryKept_iff yaml
  constructor
  · intro h
    have hstarts : ∀ i ∈ items yaml, i.Starts := by
      obtain ⟨_, hpanic⟩ | ⟨_, config, hr, _⟩ := fromYaml_memories yaml
      · exact absurd hpanic h.noPanic
      -- as many containers as items, and as many as items that start with an image
      have hlength := (h.kept config hr).length_eq
      have hmade := congrArg List.length (fromYaml_images hr)
      simp only [List.length_map] at hmade
      have hsame := List.filter_sublist.eq_of_length (hmade.symm.trans hlength.symm)
      intro i hi
      rw [← hsame] at hi
      exact of_decide_eq_true (List.mem_filter.1 hi).2
    rw [hall hstarts] at hfits
    exact ⟨hstarts, hfits.1 h⟩
  · rintro ⟨hstarts, h⟩
    rw [hall hstarts] at hfits
    exact hfits.2 h

/-- `parse_memory` is exact or rejects unless the product overflows. The items that get a container have the
memory they write iff no size that reaches the container overflows and the last one gives no less than the
item's own; every item gets a container with the memory it writes iff besides they all start with their
images. -/
theorem memory_exact_iff (s yaml : Str) :
    (MemoryExact s ↔ ∀ n u, Writes s n u → n < 2 ^ 64 → n * u.factor < 2 ^ 64) ∧
    (MemoryKept yaml ((items yaml).filter (Item.Starts ·)) ↔ MemoryFits yaml) ∧
    (MemoryKept yaml (items yaml) ↔ (∀ i ∈ items yaml, i.Starts) ∧ MemoryFits yaml) :=
  ⟨memoryExact_iff, memoryKept_iff yaml, memoryKept_items_iff yaml⟩

/-- The first number of gigabytes that does not fit: the boot panics. -/
theorem gigabytes_panic : ¬ MemoryExact "17179869184gb".toList ∧ ∀ is, ¬ MemoryKept
    ("containers:\n  - image: web\n    resources:\n      memory: 17179869184gb\n").toList is := by
  constructor
  · intro h
    have hw : Writes "17179869184gb".toList 17179869184 .gb :=
      ⟨"17179869184".toList, [], by decide, ⟨_, .inl rfl, 0, by decide⟩, List.forall_mem_nil _,
        fun h => by cases h⟩
    have hrejected := h.rejected _ _ hw (by decide)
    exact absurd hrejected (by decide)
  · intro is h
    exact h.noPanic (by decide +kernel)

end OciKernel
