import OciKernel.Config.Lines

/-!
# Config.Reading

What any text declares, item by item, and what the parser does at a line of an item. The lines under
`containers:` are cut into list items, and the lines of an item are read as declarations. Unlike the parser,
a reading fails on a value that does not parse, on a port without both numbers and on a value that is out of
place, and does not depend on which key comes first.

* `segment`, `items`: the list items of a text; `Item.container?`: the container an item declares.
* `ParseState.bodyStep`: what the parser does at a line, against what the line declares.
* `Draft.stepLine_toBlock`: as long as a reading succeeds, the parser does the same.
-/

namespace OciKernel

open Text

/-! ## Items -/

/-- An entry of a list: a dash, alone or before a key. -/
def IsEntry (text : Str) : Prop := text = ['-'] ∨ startsWith text "- "

instance : DecidablePred IsEntry := fun _ => inferInstanceAs (Decidable (_ ∨ _))

/-- What follows the dash. -/
def entryKey (text : Str) : Str := trimStart (text.drop 1)

/-- A line that starts a list item. -/
def Line.IsItem (l : Line) : Prop := l.indent = 2 ∧ IsEntry l.text

instance : DecidablePred Line.IsItem := fun _ => inferInstanceAs (Decidable (_ ∧ _))

/-- What a run of lines belongs to. -/
inductive Head where
  | top
  | list
  | item (text : Str)
deriving DecidableEq

structure Group where
  head : Head
  body : List Line

/-- The lines before the next head, and the groups from there on. -/
def segment (inList : Bool) : List Line → List Line × List Group
  | [] => ([], [])
  | l :: ls =>
    if l.indent = 0 then
      let inList := decide (l.text = "containers:".toList)
      match segment inList ls with
      | (body, groups) => ([], ⟨if inList then .list else .top, body⟩ :: groups)
    else
      match segment inList ls with
      | (body, groups) =>
        if inList ∧ l.IsItem then ([], ⟨.item l.text, body⟩ :: groups) else (l :: body, groups)

/-- An item under `containers:`, with the lines up to the next head. -/
structure Item where
  /-- The line with the dash, or `none` for a container's keys before the first dash. -/
  first : Option Str
  body : List Line
  followed : Bool

def Group.item? (g : Group) (followed : Bool) : Option Item :=
  match g.head with
  | .top => none
  | .list => if ∃ l ∈ g.body, l.indent = 4 then some ⟨none, g.body, followed⟩ else none
  | .item text => some ⟨some text, g.body, followed⟩

def itemsOf : List Group → List Item
  | [] => []
  | g :: gs => (g.item? !gs.isEmpty).toList ++ itemsOf gs

def items (yaml : Str) : List Item := itemsOf (segment false (shownLines yaml)).2

/-! ## Declarations -/

/-- What a line of an item says: that a port begins, one of the numbers, the policy, or any other key of the
container. What reads like a port or a number and is not `placed` stands below another key, or too far in. -/
inductive Decl where
  | key
  | restart (v : Str)
  | port
  | host (v : Str)
  | strayPort
  | container (placed : Bool) (v : Str)
  | memory (placed : Bool) (v : Str)
  | pidsMax (placed : Bool) (v : Str)

/-- The key that a line is under: the ports, whose first entry gives the indent of them all, the limits, or a
key after one of these that no container has. -/
inductive Mode where
  | none
  | ports (entry : Option Nat)
  | resources
  | pastPorts
  | pastResources
deriving DecidableEq

namespace Mode

/-- After a key that no container has. -/
def past : Mode → Mode
  | .ports _ => .pastPorts
  | .resources => .pastResources
  | mode => mode

/-- The parser goes on reading ports. -/
def inPorts : Mode → Bool
  | .ports _ => true
  | .pastPorts => true
  | _ => false

/-- The parser goes on reading limits. -/
def inResources : Mode → Bool
  | .resources => true
  | .pastResources => true
  | _ => false

/-- Whether an entry of the ports stands at an indent. -/
def takes (n : Nat) : Mode → Bool
  | .ports .none => true
  | .ports (some m) => decide (m = n)
  | _ => false

/-- Whether a key of a port stands at an indent. -/
def keyed (n : Nat) : Mode → Bool
  | .ports (some m) => decide (m + 2 = n)
  | _ => false

end Mode

namespace Line

variable (mode : Mode) (l : Line)

/-- A line that starts an entry of a list of ports. -/
def IsPort : Prop := mode.takes l.indent = true ∧ (l.indent = 4 ∨ l.indent = 6) ∧ IsEntry l.text

instance : Decidable (IsPort mode l) := inferInstanceAs (Decidable (_ ∧ _))

/-- A line that the parser takes for the start of a port. -/
def OpensPort : Prop :=
  mode.inPorts = true ∧ (l.indent = 4 ∨ l.indent = 6) ∧ startsWith l.text "- host:" = true

instance : Decidable (OpensPort mode l) := inferInstanceAs (Decidable (_ ∧ _))

end Line

def portDecls (placed : Bool) (text : Str) : List Decl :=
  if placed = true ∧ startsWith text "host:" = true then [.host (valueAfterColon text)]
  else if startsWith text "container:" then [.container placed (valueAfterColon text)]
  else []

def limitDecls (placed : Bool) (text : Str) : List Decl :=
  if startsWith text "memory:" then [.memory placed (valueAfterColon text)]
  else if startsWith text "pids_max:" then [.pidsMax placed (valueAfterColon text)]
  else []

/-- What a line declares, whatever the order of the keys. -/
def Line.decls (mode : Mode) (l : Line) : List Decl :=
  if l.IsPort mode then .port :: portDecls true (entryKey l.text)
  else if l.OpensPort mode then [.strayPort]
  else if l.indent = 4 then
    if startsWith l.text "restart:" then [.restart (valueAfterColon l.text)] else [.key]
  else if mode.inPorts = true ∧ (l.indent = 6 ∨ l.indent = 8) then portDecls (mode.keyed l.indent) l.text
  else if mode.inResources = true ∧ l.indent = 6 then limitDecls (mode = .resources) l.text
  else []

/-- The key that the lines after it are under. -/
def Line.next (mode : Mode) (l : Line) : Mode :=
  if l.indent = 4 ∧ ¬ IsEntry l.text then
    if l.text = "ports:".toList then .ports none
    else if l.text = "resources:".toList then .resources
    else if startsWith l.text "restart:" then .none
    else mode.past
  else if l.IsPort mode then .ports (some l.indent)
  else mode

def declsFrom (mode : Mode) : List Line → List Decl
  | [] => []
  | l :: ls => l.decls mode ++ declsFrom (l.next mode) ls

/-- The lines that start a port. -/
def portLines (mode : Mode) : List Line → List Line
  | [] => []
  | l :: ls => if l.IsPort mode then l :: portLines (l.next mode) ls else portLines (l.next mode) ls

/-- A value where the layout has it. -/
def Decl.placed : Decl → Bool
  | .strayPort => false
  | .container placed _ => placed
  | .memory placed _ => placed
  | .pidsMax placed _ => placed
  | _ => true

/-- A container in the making, with the port in progress. -/
structure Draft where
  ports : List PortMapping
  port : Option (Option UInt16 × Option UInt16)
  restart : RestartPolicy
  memoryBytes : Option Nat
  pidsMax : Option Nat

namespace Draft

def new : Draft := ⟨[], none, .never, none, none⟩

/-- A port needs both numbers. -/
def close (d : Draft) : Option Draft :=
  match d.port with
  | none => some d
  | some (some host, some container) =>
    some { d with ports := d.ports ++ [⟨host, container⟩], port := none }
  | some _ => none

/-- Of a key that is given twice, the last value counts, but for the host of a port. A value out of place is not
to be taken for one of the container; the second number of a port is for none where there is no port. -/
def step (d : Draft) : Decl → Option Draft
  | .key => d.close
  | .restart v => d.close.map fun d => { d with restart := parseRestart v }
  | .port => d.close.map fun d => { d with port := some (none, none) }
  | .host v => do
    let (old, container) ← d.port
    let host ← parseU16 v
    some { d with port := some (old <|> some host, container) }
  | .strayPort => none
  | .container false _ => if d.port = none then some d else none
  | .container true v => do
    let (host, _) ← d.port
    let container ← parseU16 v
    some { d with port := some (host, some container) }
  | .memory false _ => none
  | .memory true v => do
    let bytes ← (parseMemory v).join
    some { d with memoryBytes := some bytes }
  | .pidsMax false _ => none
  | .pidsMax true v => do
    let n ← parseUsize v
    some { d with pidsMax := some n }

def spec (image : Str) (d : Draft) : ContainerSpec :=
  { ContainerSpec.new image [] with
    ports := d.ports
    restart := d.restart
    resources :=
      { memoryBytes := d.memoryBytes.getD ResourceLimits.default.memoryBytes
        pidsMax := d.pidsMax.getD ResourceLimits.default.pidsMax
        cpuShares := ResourceLimits.default.cpuShares } }

end Draft

namespace Item

/-- The lines, with what follows the dash as a line at the indent of a container's keys. -/
def lines (i : Item) : List Line :=
  match i.first with
  | some text => ⟨4, entryKey text⟩ :: i.body
  | none => i.body

def image? (i : Item) : Option Str :=
  (i.lines.find? fun l => l.indent = 4 ∧ startsWith l.text "image:").map (valueAfterColon ·.text)

def decls (i : Item) : List Decl := declsFrom .none i.lines

def draft? (i : Item) : Option Draft := i.decls.foldlM Draft.step .new

/-- The container that the item declares. -/
def container? (i : Item) : Option ContainerSpec := do
  let image ← i.image?
  let d ← i.draft?
  let d ← d.close
  some (d.spec image)

/-- The dash and the image are written as the parser looks for them. -/
def Starts (i : Item) : Prop := ∃ text ∈ i.first, startsWith text "- image:"

instance : DecidablePred Starts := fun i =>
  match h : i.first with
  | none => isFalse (by simp [Starts, h])
  | some text => decidable_of_iff (startsWith text "- image:" = true) (by simp [Starts, h])

/-- Each of its ports starts with the host, as the parser looks for it. -/
def PortsStart (i : Item) : Prop := ∀ l ∈ portLines .none i.lines, startsWith l.text "- host:"

/-- No key of the container comes after the last port. -/
def EndsWithPort (i : Item) : Prop := ∃ d, i.draft? = some d ∧ d.port ≠ none

end Item

/-! ## Lines of an item -/

theorem head_of_startsWith {text : Str} {key : String} {c : Char} {rest : Str}
    (hkey : key.toList = c :: rest) (h : startsWith text key = true) : text.head? = some c := by
  unfold startsWith at h
  rw [hkey, List.isPrefixOf_iff_prefix] at h
  obtain ⟨t, rfl⟩ := h
  rfl

/-- A line does not start with two keys, when these start differently. -/
theorem not_startsWith {text : Str} {key : String} {c c' : Char} {rest : Str}
    (hkey : key.toList = c :: rest) (hne : c ≠ c') (h : text.head? = some c') :
    startsWith text key = false := by
  rw [Bool.eq_false_iff]
  intro hstarts
  exact hne (Option.some.inj ((head_of_startsWith hkey hstarts).symm.trans h))

theorem IsEntry.head {text : Str} (h : IsEntry text) : text.head? = some '-' := by
  rcases h with rfl | h
  · rfl
  · exact head_of_startsWith rfl h

theorem isEntry_of_startsWith {text : Str} {key : String} {rest : Str}
    (hkey : key.toList = '-' :: ' ' :: rest) (h : startsWith text key = true) : IsEntry text := by
  refine .inr ?_
  unfold startsWith at h ⊢
  rw [List.isPrefixOf_iff_prefix] at h ⊢
  rw [hkey] at h
  exact List.IsPrefix.trans ⟨rest, rfl⟩ h

theorem isItem_of_image {l : Line} (h : l.indent = 2) (hstarts : startsWith l.text "- image:" = true) :
    l.IsItem := ⟨h, isEntry_of_startsWith rfl hstarts⟩

theorem Line.OpensPort.isEntry {mode : Mode} {l : Line} (h : l.OpensPort mode) : IsEntry l.text :=
  isEntry_of_startsWith rfl h.2.2

/-- Under `ports:`, and not past it. -/
theorem inPorts_of_takes {mode : Mode} {n : Nat} (h : mode.takes n = true) :
    mode.inPorts = true ∧ mode.inResources = false := by
  cases mode with
  | ports entry => exact ⟨rfl, rfl⟩
  | _ => cases h

/-- Any other line under `containers:` belongs to the container in progress. -/
theorem stepLine_body {st : ParseState} {l : Line} (h : l.indent ≠ 0) (hin : st.inContainers = true)
    (himage : ¬ (l.indent = 2 ∧ startsWith l.text "- image:" = true)) :
    st.stepLine l = ExceptT.lift (st.bodyLine l.indent l.text) := by
  rw [ParseState.stepLine, if_neg h, if_neg (by simp [hin]), if_neg himage]

namespace ParseState

/-- The parser's flags. -/
structure InMode (st : ParseState) (mode : Mode) : Prop where
  inPorts : st.inPorts = mode.inPorts
  inResources : st.inResources = mode.inResources

/-- Among the entries of the ports the flags do not change. -/
theorem InMode.ports {st : ParseState} {mode : Mode} (h : st.InMode mode) {n : Nat}
    (htakes : mode.takes n = true) (m : Nat) : st.InMode (.ports (some m)) :=
  ⟨h.inPorts.trans (inPorts_of_takes htakes).1, h.inResources.trans (inPorts_of_takes htakes).2⟩

theorem inMode_flushPort {st : ParseState} {mode : Mode} (h : st.InMode mode) :
    st.flushPort.InMode mode := by
  unfold flushPort
  split <;> exact ⟨h.inPorts, h.inResources⟩

/-- What a value does to the container in progress. The outer `none` is a panic. -/
def setMemory (st : ParseState) (v : Str) : Option ParseState :=
  match st.current with
  | some b => (parseMemory v).map fun bytes => { st with current := some { b with memoryBytes := bytes } }
  | none => some st

/-- What the parser does at a line of an item, against what the line declares. -/
inductive BodyStep (st : ParseState) (mode : Mode) (l : Line) :
    List Decl → Mode → Option ParseState → Prop where
  | port (hport : l.IsPort mode) (hhost : startsWith l.text "- host:" = true) :
    BodyStep st mode l [.port, .host (valueAfterColon l.text)] (.ports (some l.indent))
      (some { st.flushPort with currentPort := some (parseU16 (valueAfterColon l.text), none) })
  /-- A port that does not start with the host is none. -/
  | skipped (hport : l.IsPort mode) (hhost : ¬ startsWith l.text "- host:" = true)
      (decls : List Decl) (st' : ParseState) (hst' : st' = st ∨ st' = st.flushPort)
      (hmemory : ∀ placed v, .memory placed v ∉ decls) :
    BodyStep st mode l (.port :: decls) (.ports (some l.indent)) (some st')
  | strayPort (hopens : l.OpensPort mode) (v : Str) : BodyStep st mode l [.strayPort] mode
      (some { st.flushPort with currentPort := some (parseU16 v, none) })
  | restart (v : Str) : BodyStep st mode l [.restart v] .none
      (some { st.flushPort.mapCurrent fun b => { b with restart := parseRestart v } with
        inPorts := false, inResources := false })
  | key (next : Mode) : BodyStep st mode l [.key] next
      (some { st.flushPort with inPorts := next.inPorts, inResources := next.inResources })
  | host (v : Str) : BodyStep st mode l [.host v] mode (some st)
  | container (placed : Bool) : BodyStep st mode l [.container placed (valueAfterColon l.text)] mode
      (some (st.setContainerPort l.text))
  | memory (placed : Bool) (v : Str) : BodyStep st mode l [.memory placed v] mode (st.setMemory v)
  | pidsMax (placed : Bool) (v : Str) : BodyStep st mode l [.pidsMax placed v] mode
      (some (st.mapCurrent fun b => { b with pidsMax := parseUsize v }))
  | other : BodyStep st mode l [] mode (some st)

variable {st : ParseState} {mode : Mode} {l : Line}

theorem resourceLine_memory {line : Str} (h : startsWith line "memory:" = true) :
    st.resourceLine line = st.setMemory (valueAfterColon line) := by
  have hpids : startsWith line "pids_max:" = false :=
    not_startsWith rfl (by decide) (head_of_startsWith rfl h)
  unfold setMemory
  cases hb : st.current with
  | none => simp [resourceLine, h, hb, hpids]
  | some b => cases hm : parseMemory (valueAfterColon line) <;> simp [resourceLine, h, hb, hpids, hm]

theorem portDecls_entryKey {text : Str} (h : startsWith text "- host:" = true) :
    portDecls true (entryKey text) = [.host (valueAfterColon text)] := by
  obtain ⟨rest, rfl⟩ := List.isPrefixOf_iff_prefix.1 h
  rfl

theorem memory_notMem_portDecls (text : Str) (placed : Bool) (v : Str) :
    .memory placed v ∉ portDecls true text := by
  unfold portDecls
  split_ifs <;> simp

theorem decls_port (h : l.IsPort mode) : l.decls mode = .port :: portDecls true (entryKey l.text) :=
  if_pos h

/-- A dash is no key. -/
theorem next_entry (h : IsEntry l.text) :
    l.next mode = if l.IsPort mode then .ports (some l.indent) else mode :=
  if_neg fun hkey => hkey.2 h

theorem next_port (h : l.IsPort mode) : l.next mode = .ports (some l.indent) :=
  (next_entry h.2.2).trans (if_pos h)

/-- No key that the parser looks for is an entry. -/
theorem not_key_of_isEntry {text : Str} (h : IsEntry text) : text ≠ "ports:".toList ∧
    text ≠ "resources:".toList ∧ startsWith text "restart:" = false := by
  have hhead := h.head
  refine ⟨?_, ?_, not_startsWith rfl (by decide) hhead⟩
  · rintro rfl
    cases hhead
  · rintro rfl
    cases hhead

section Line

variable (hmode : st.InMode mode)

include hmode

/-- At the indent of a container's keys, with a dash. -/
theorem bodyStep_entry4 (h4 : l.indent = 4) (hentry : IsEntry l.text) :
    BodyStep st mode l (l.decls mode) (l.next mode) (some (st.indent4 l.text)) := by
  obtain ⟨hports, hresources, hrestart⟩ := not_key_of_isEntry hentry
  have hflags := inMode_flushPort hmode
  have hindent : st.indent4 l.text = if mode.inPorts && startsWith l.text "- host:" then
      { st.flushPort with currentPort := some (parseU16 (valueAfterColon l.text), none) }
      else st.flushPort := by
    unfold indent4
    dsimp only
    rw [if_neg hports, if_neg hresources, if_neg (by rw [hrestart]; exact Bool.false_ne_true),
      hflags.inPorts]
  rw [hindent, next_entry hentry]
  by_cases hport : l.IsPort mode
  · rw [decls_port hport, if_pos hport, (inPorts_of_takes hport.1).1, Bool.true_and]
    split
    · rename_i hhost
      rw [portDecls_entryKey hhost]
      exact .port hport hhost
    · rename_i hhost
      exact .skipped hport hhost _ _ (.inr rfl) fun placed v => memory_notMem_portDecls _ placed v
  · rw [Line.decls, if_neg hport, if_neg hport]
    by_cases hopens : l.OpensPort mode
    · rw [if_pos hopens, if_pos (by simp [hopens.1, hopens.2.2])]
      exact .strayPort hopens _
    · have hhost : ¬ (mode.inPorts && startsWith l.text "- host:") = true := by
        rw [Bool.and_eq_true]
        exact fun h => hopens ⟨h.1, .inl h4, h.2⟩
      have hkey : BodyStep st mode l [.key] mode _ := .key mode
      rw [← hflags.inPorts, ← hflags.inResources] at hkey
      rw [if_neg hopens, if_pos h4, hrestart, if_neg hhost]
      exact hkey

/-- A key of the container. -/
theorem bodyStep_key (h4 : l.indent = 4) (hkey : ¬ IsEntry l.text) :
    BodyStep st mode l (l.decls mode) (l.next mode) (some (st.indent4 l.text)) := by
  have hport : ¬ l.IsPort mode := fun h => hkey h.2.2
  have hopens : ¬ l.OpensPort mode := fun h => hkey h.isEntry
  have hhost : startsWith l.text "- host:" = false := by
    rw [Bool.eq_false_iff]
    exact fun h => hkey (isEntry_of_startsWith rfl h)
  have hk : l.indent = 4 ∧ ¬ IsEntry l.text := ⟨h4, hkey⟩
  unfold Line.decls Line.next indent4
  rw [if_neg hport, if_neg hopens, if_pos h4, if_pos hk, hhost]
  dsimp only
  by_cases hports : l.text = "ports:".toList
  · have hrestart : startsWith l.text "restart:" = false := by
      rw [hports]
      decide
    rw [if_pos hports, if_pos hports, hrestart]
    exact .key (.ports none)
  · rw [if_neg hports, if_neg hports]
    by_cases hresources : l.text = "resources:".toList
    · have hrestart : startsWith l.text "restart:" = false := by
        rw [hresources]
        decide
      rw [if_pos hresources, if_pos hresources, hrestart]
      exact .key .resources
    · rw [if_neg hresources, if_neg hresources]
      by_cases hrestart : startsWith l.text "restart:" = true
      · rw [if_pos hrestart, if_pos hrestart, if_pos hrestart]
        exact .restart _
      · have hpast : mode.past.inPorts = st.flushPort.inPorts ∧
            mode.past.inResources = st.flushPort.inResources := by
          have hflags := inMode_flushPort hmode
          rw [hflags.inPorts, hflags.inResources]
          cases mode <;> exact ⟨rfl, rfl⟩
        have hkey : BodyStep st mode l [.key] mode.past _ := .key mode.past
        rw [hpast.1, hpast.2] at hkey
        rw [if_neg hrestart, if_neg hrestart, if_neg hrestart, Bool.and_false, if_neg Bool.false_ne_true]
        exact hkey

/-- Further in, where the parser reads ports. -/
theorem bodyStep_ports (hin : mode.inPorts = true) (hres : mode.inResources = false) (h4 : l.indent ≠ 4) :
    BodyStep st mode l (l.decls mode) (l.next mode) (st.bodyLine l.indent l.text) := by
  have hin' : st.inPorts = true := hmode.inPorts.trans hin
  have hres' : st.inResources = false := hmode.inResources.trans hres
  rw [bodyLine, if_neg h4]
  by_cases hport : l.IsPort mode
  · have h6 : l.indent = 6 := hport.2.1.resolve_left h4
    have hcontainer : startsWith l.text "container:" = false :=
      not_startsWith rfl (by decide) hport.2.2.head
    rw [decls_port hport, next_port hport, if_pos h6]
    by_cases hhost : startsWith l.text "- host:" = true
    · have hindent : st.indent6 l.text = some { st.flushPort with
          currentPort := some (parseU16 (valueAfterColon l.text), none) } := by
        simp [indent6, hin', hhost]
      rw [portDecls_entryKey hhost, hindent]
      exact .port hport hhost
    · have hindent : st.indent6 l.text = some st := by
        simp [indent6, hin', hres', hhost, hcontainer]
      rw [hindent]
      exact .skipped hport hhost _ _ (.inl rfl) fun placed v => memory_notMem_portDecls _ placed v
  · have hnext : l.next mode = mode := by
      rw [Line.next, if_neg fun h => h4 h.1, if_neg hport]
    rw [hnext, Line.decls, if_neg hport]
    by_cases hopens : l.OpensPort mode
    · have hindent : st.indent6 l.text = some { st.flushPort with
          currentPort := some (parseU16 (valueAfterColon l.text), none) } := by
        simp [indent6, hin', hopens.2.2]
      rw [if_pos hopens, if_pos (hopens.2.1.resolve_left h4), hindent]
      exact .strayPort hopens _
    · rw [if_neg hopens, if_neg h4]
      by_cases h68 : l.indent = 6 ∨ l.indent = 8
      · have hline : (if l.indent = 6 then st.indent6 l.text
            else if l.indent = 8 then some (st.indent8 l.text) else some st) =
            some (if startsWith l.text "container:" then st.setContainerPort l.text else st) := by
          rcases h68 with h6 | h8
          · have hhost : ¬ startsWith l.text "- host:" = true := fun h => hopens ⟨hin, .inr h6, h⟩
            rw [if_pos h6]
            by_cases hcontainer : startsWith l.text "container:" = true <;>
              simp [indent6, hin', hres', hhost, hcontainer]
          · rw [if_neg (by omega), if_pos h8, indent8, hin', Bool.true_and]
        rw [hline, if_pos ⟨hin, h68⟩, portDecls]
        by_cases hhost : mode.keyed l.indent = true ∧ startsWith l.text "host:" = true
        · have hcontainer : startsWith l.text "container:" = false :=
            not_startsWith rfl (by decide) (head_of_startsWith rfl hhost.2)
          rw [if_pos hhost, hcontainer]
          exact .host _
        · rw [if_neg hhost]
          by_cases hcontainer : startsWith l.text "container:" = true
          · rw [if_pos hcontainer, if_pos hcontainer]
            exact .container _
          · rw [if_neg hcontainer, if_neg hcontainer]
            exact .other
      · rw [if_neg fun h => h68 h.2, if_neg fun h => h68 (.inl h.2), if_neg fun h => h68 (.inl h),
          if_neg fun h => h68 (.inr h)]
        exact .other

/-- Further in, where the parser reads limits. -/
theorem bodyStep_resources (hin : mode.inPorts = false) (hres : mode.inResources = true)
    (h4 : l.indent ≠ 4) :
    BodyStep st mode l (l.decls mode) mode (st.bodyLine l.indent l.text) := by
  have hin' : st.inPorts = false := hmode.inPorts.trans hin
  have hres' : st.inResources = true := hmode.inResources.trans hres
  have hnone : ¬ mode.inPorts = true := by simp [hin]
  have hport : ¬ l.IsPort mode := fun h => hnone (inPorts_of_takes h.1).1
  rw [bodyLine, if_neg h4, Line.decls, if_neg hport, if_neg fun h => hnone h.1, if_neg h4,
    if_neg fun h => hnone h.1]
  by_cases h6 : l.indent = 6
  · have hindent : st.indent6 l.text = st.resourceLine l.text := by
      simp [indent6, hin', hres']
    rw [if_pos h6, if_pos ⟨hres, h6⟩, hindent, limitDecls]
    by_cases hm : startsWith l.text "memory:" = true
    · rw [if_pos hm, resourceLine_memory hm]
      exact .memory _ _
    · rw [if_neg hm]
      by_cases hp : startsWith l.text "pids_max:" = true
      · have hline : st.resourceLine l.text =
            some (st.mapCurrent fun b => { b with pidsMax := parseUsize (valueAfterColon l.text) }) := by
          simp [resourceLine, hm, hp]
        rw [if_pos hp, hline]
        exact .pidsMax _ _
      · have hline : st.resourceLine l.text = some st := by
          simp [resourceLine, hm, hp]
        rw [if_neg hp, hline]
        exact .other
  · rw [if_neg h6, if_neg fun h => h6 h.2]
    have hindent : (if l.indent = 8 then some (st.indent8 l.text) else some st) = some st := by
      split
      · rw [indent8, hin', Bool.false_and]
        rfl
      · rfl
    rw [hindent]
    exact .other

/-- Further in, under any other key. -/
theorem bodyStep_none (hin : mode.inPorts = false) (hres : mode.inResources = false)
    (h4 : l.indent ≠ 4) :
    BodyStep st mode l (l.decls mode) mode (st.bodyLine l.indent l.text) := by
  have hline : st.bodyLine l.indent l.text = some st := by
    rw [bodyLine, if_neg h4, indent6, indent8, hmode.inPorts, hin, hmode.inResources, hres]
    simp
  have hport : ¬ l.IsPort mode := fun h => by simp [(inPorts_of_takes h.1).1] at hin
  have hdecls : l.decls mode = [] := by
    simp [Line.decls, Line.OpensPort, hport, hin, hres, h4]
  rw [hline, hdecls]
  exact .other

end Line

theorem bodyStep (hmode : st.InMode mode) (l : Line) :
    BodyStep st mode l (l.decls mode) (l.next mode) (st.bodyLine l.indent l.text) := by
  by_cases h4 : l.indent = 4
  · rw [bodyLine, if_pos h4]
    by_cases hentry : IsEntry l.text
    · exact bodyStep_entry4 hmode h4 hentry
    · exact bodyStep_key hmode h4 hentry
  · cases hin : mode.inPorts with
    | true =>
      have hres : mode.inResources = false := by cases mode <;> first | rfl | cases hin
      exact bodyStep_ports hmode hin hres h4
    | false =>
      have hport : ¬ l.IsPort mode := fun h => by simp [(inPorts_of_takes h.1).1] at hin
      rw [Line.next, if_neg fun h => h4 h.1, if_neg hport]
      cases hres : mode.inResources with
      | true => exact bodyStep_resources hmode hin hres h4
      | false => exact bodyStep_none hmode hin hres h4

end ParseState

section Segment

variable {inList : Bool} {l : Line} (ls : List Line)

theorem segment_top (h : l.indent = 0) : segment inList (l :: ls) =
    ([], ⟨if l.text = "containers:".toList then .list else .top,
      (segment (decide (l.text = "containers:".toList)) ls).1⟩ ::
        (segment (decide (l.text = "containers:".toList)) ls).2) := by
  rw [segment, if_pos h]
  simp only [decide_eq_true_eq]

theorem segment_item (h : l.indent ≠ 0) (hitem : l.IsItem) : segment true (l :: ls) =
    ([], ⟨.item l.text, (segment true ls).1⟩ :: (segment true ls).2) := by
  rw [segment, if_neg h]
  exact if_pos ⟨rfl, hitem⟩

theorem segment_body (h : l.indent ≠ 0) (hitem : ¬ (inList = true ∧ l.IsItem)) :
    segment inList (l :: ls) = (l :: (segment inList ls).1, (segment inList ls).2) := by
  rw [segment, if_neg h]
  exact if_neg hitem

end Segment

namespace Draft

/-- The parser's own variables, while it reads the item. -/
def toBlock (image : Str) (mode : Mode) (d : Draft) : OpenBlock :=
  { image
    ports := d.ports
    restart := d.restart
    memoryBytes := d.memoryBytes
    pidsMax := d.pidsMax
    inPorts := mode.inPorts
    inResources := mode.inResources
    port := d.port }

/-- The port in progress has its host. -/
def Hosted (d : Draft) : Prop := ∀ p ∈ d.port, p.1 ≠ none

variable {image : Str} {mode next : Mode} {d d' : Draft}

theorem hosted_of_none (h : d.port = none) : d.Hosted := by
  intro p hp
  rw [h] at hp
  cases hp

theorem inMode_toBlock (cs : List ContainerSpec) :
    ((d.toBlock image mode).toState cs).InMode mode := ⟨rfl, rfl⟩

theorem toBlock_ports {n : Nat} (h : mode.takes n = true) (m : Nat) :
    d.toBlock image mode = d.toBlock image (.ports (some m)) := by
  obtain ⟨hin, hres⟩ := inPorts_of_takes h
  rw [toBlock, toBlock, hin, hres]
  rfl

theorem close_eq_some (h : d.close = some d') :
    d' = { d with ports := d.ports ++ (completePort d.port).toList, port := none } := by
  obtain ⟨ports, _ | ⟨_ | host, _ | container⟩, restart, memoryBytes, pidsMax⟩ := d <;> cases h
  · simp [completePort]
  · rfl

theorem flushPort_toBlock (cs : List ContainerSpec) (h : d.close = some d') :
    ((d.toBlock image mode).toState cs).flushPort = (d'.toBlock image mode).toState cs := by
  rw [OpenBlock.flushPort_toState, close_eq_some h]
  rfl

theorem step_port {v : Str} (h : [Decl.port, .host v].foldlM step d = some d') : ∃ d₁, d.close = some d₁ ∧
    ∃ host, parseU16 v = some host ∧ { d₁ with port := some (some host, none) } = d' := by
  simpa [step, Option.bind_eq_some_iff] using h

/-- A second host is skipped, when it parses. -/
theorem step_host {v : Str} (hd : d.Hosted) (h : d.step (.host v) = some d') : d' = d := by
  obtain ⟨ports, _ | ⟨_ | host, container⟩, restart, memoryBytes, pidsMax⟩ := d
  · cases h
  · exact absurd rfl (hd _ rfl)
  · have hsame : (∃ n, parseU16 v = some n) ∧
        (⟨ports, some (some host, container), restart, memoryBytes, pidsMax⟩ : Draft) = d' := by
      simpa [step, Option.bind_eq_some_iff] using h
    exact hsame.2.symm

theorem step_container {v : Str} (h : d.step (.container true v) = some d') :
    ∃ p, d.port = some p ∧ ∃ container, parseU16 v = some container ∧
      { d with port := some (p.1, some container) } = d' := by
  obtain ⟨p, hp, h⟩ := Option.bind_eq_some_iff.1 h
  obtain ⟨container, hparse, h⟩ := Option.bind_eq_some_iff.1 h
  exact ⟨p, hp, container, hparse, Option.some.inj h⟩

/-- A number out of place is for no port. -/
theorem step_strayContainer {v : Str} (h : d.step (.container false v) = some d') :
    d.port = none ∧ d' = d := by
  have hport : (if d.port = none then some d else none) = some d' := h
  split at hport
  · rename_i hnone
    exact ⟨hnone, (Option.some.inj hport).symm⟩
  · cases hport

/-- As long as the reading succeeds, the parser reads the same, given that the host comes first. -/
theorem bodyLine_toBlock (cs : List ContainerSpec) {l : Line} (hd : d.Hosted)
    (hhost : ∀ p ∈ portLines mode [l], startsWith p.text "- host:" = true)
    (hstep : (l.decls mode).foldlM step d = some d') : d'.Hosted ∧
    ((d.toBlock image mode).toState cs).bodyLine l.indent l.text =
      some ((d'.toBlock image (l.next mode)).toState cs) := by
  have hmode : ((d.toBlock image mode).toState cs).InMode mode := inMode_toBlock cs
  have hbody := ParseState.bodyStep hmode l
  generalize l.decls mode = decls at hbody hstep
  generalize l.next mode = next at hbody ⊢
  generalize ((d.toBlock image mode).toState cs).bodyLine l.indent l.text = r at hbody ⊢
  cases hbody with
  | port hport _ =>
    obtain ⟨d₁, hclose, host, hparse, rfl⟩ := step_port hstep
    refine ⟨fun p hp => ?_, ?_⟩
    · cases hp
      simp
    · rw [flushPort_toBlock cs hclose, hparse, toBlock_ports hport.1 l.indent]
      rfl
  | skipped hport hnot =>
    refine absurd (hhost l ?_) hnot
    rw [portLines, if_pos hport]
    exact List.mem_cons_self ..
  | strayPort => cases hstep
  | restart v =>
    obtain ⟨d₁, hclose, rfl⟩ : ∃ d₁, d.close = some d₁ ∧ { d₁ with restart := parseRestart v } = d' := by
      simpa [step] using hstep
    rw [flushPort_toBlock cs hclose]
    refine ⟨hosted_of_none ?_, rfl⟩
    rw [close_eq_some hclose]
  | key next =>
    have hclose : d.close = some d' := by simpa [step] using hstep
    rw [flushPort_toBlock cs hclose]
    refine ⟨hosted_of_none ?_, rfl⟩
    rw [close_eq_some hclose]
  | host v =>
    have hd' := step_host hd (by simpa using hstep)
    subst hd'
    exact ⟨hd, rfl⟩
  | container placed =>
    cases placed with
    | true =>
      obtain ⟨p, hp, container, hparse, rfl⟩ := step_container (by simpa using hstep)
      refine ⟨fun p' hp' => ?_, ?_⟩
      · cases hp'
        exact hd p hp
      · simp [ParseState.setContainerPort, OpenBlock.toState, toBlock, hp, hparse, OpenBlock.builder]
    | false =>
      obtain ⟨hnone, rfl⟩ := step_strayContainer (by simpa using hstep)
      exact ⟨hd, by simp [ParseState.setContainerPort, OpenBlock.toState, toBlock, hnone, OpenBlock.builder]⟩
  | memory placed v =>
    cases placed with
    | false => cases hstep
    | true =>
      obtain ⟨bytes, hbytes, rfl⟩ : ∃ bytes, parseMemory v = some (some bytes) ∧
          { d with memoryBytes := some bytes } = d' := by
        simpa [step, Option.bind_eq_some_iff, Option.join_eq_some_iff] using hstep
      exact ⟨hd, by simp [ParseState.setMemory, OpenBlock.toState, hbytes, toBlock, OpenBlock.builder]⟩
  | pidsMax placed v =>
    cases placed with
    | false => cases hstep
    | true =>
      obtain ⟨n, hn, rfl⟩ : ∃ n, parseUsize v = some n ∧ { d with pidsMax := some n } = d' := by
        simpa [step, Option.bind_eq_some_iff] using hstep
      refine ⟨hd, ?_⟩
      simp [ParseState.mapCurrent, OpenBlock.toState, hn, toBlock, OpenBlock.builder]
  | other =>
    cases hstep
    exact ⟨hd, rfl⟩

theorem stepLine_toBlock (cs : List ContainerSpec) {l : Line} (h : l.indent ≠ 0) (hitem : ¬ l.IsItem)
    (hd : d.Hosted) (hhost : ∀ p ∈ portLines mode [l], startsWith p.text "- host:" = true)
    (hstep : (l.decls mode).foldlM step d = some d') : d'.Hosted ∧
    ((d.toBlock image mode).toState cs).stepLine l =
      pure ((d'.toBlock image (l.next mode)).toState cs) := by
  obtain ⟨hd', hbody⟩ := bodyLine_toBlock cs hd hhost hstep
  refine ⟨hd', ?_⟩
  rw [stepLine_body h rfl fun ⟨hindent, hstarts⟩ => hitem (isItem_of_image hindent hstarts), hbody]
  rfl

end Draft

end OciKernel
