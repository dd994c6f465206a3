import OciKernel.Config

/-!
# Config.Layout

Boot configurations in the documented layout: a syntax tree for the container blocks, its text, and
what each line of that text does to the parser.

* `Value`: the text of a value, which has no line break.
* `OpenBlock`: the parser inside a block, with the container under construction.
* `foldlM_sections`: the lines of the sections of a block do to the parser what `sectionStep` says.
-/

namespace OciKernel

open Text

def NoBreak (l : Str) : Prop := '\n' ∉ l ∧ '\r' ∉ l

/-- The first character neither is whitespace nor starts a comment. -/
def keyStart : Str → Bool
  | [] => false
  | c :: _ => !isWhitespace c && c != '#'

structure Value where
  text : Str
  noBreak : NoBreak text

inductive Key where
  | image
  | restart
  | ports
  | host
  | container
  | resources
  | memory
  | pidsMax

instance (l : Str) : Decidable (NoBreak l) := inferInstanceAs (Decidable (_ ∧ _))

namespace Key

def text : Key → Str
  | .image => "- image".toList
  | .restart => "restart".toList
  | .ports => "ports".toList
  | .host => "- host".toList
  | .container => "container".toList
  | .resources => "resources".toList
  | .memory => "memory".toList
  | .pidsMax => "pids_max".toList

theorem start (key : Key) : keyStart key.text := by cases key <;> rfl

theorem noColon (key : Key) : ':' ∉ key.text := by cases key <;> decide

theorem noBreak (key : Key) : NoBreak key.text := by cases key <;> decide

end Key

/-- `- host:` at indent 6 with `container:` at indent 8, or two less each. -/
inductive PortStyle where
  | nested
  | flat

structure PortItem where
  style : PortStyle
  host : Value
  container : Value

inductive ResourceEntry where
  | memory (v : Value)
  | pidsMax (v : Value)

inductive Section where
  | restart (v : Value)
  | ports (items : List PortItem)
  | resources (entries : List ResourceEntry)

structure ContainerBlock where
  image : Value
  sections : List Section

/-! ## The text -/

def keyLine (indent : Nat) (key : Key) (v : Value) : Str :=
  List.replicate indent ' ' ++ (key.text ++ ':' :: ' ' :: v.text)

def headerLine (indent : Nat) (key : Key) : Str :=
  List.replicate indent ' ' ++ (key.text ++ [':'])

namespace PortItem

def hostIndent (item : PortItem) : Nat :=
  match item.style with
  | .nested => 6
  | .flat => 4

def containerIndent (item : PortItem) : Nat :=
  match item.style with
  | .nested => 8
  | .flat => 6

def lines (item : PortItem) : List Str :=
  [keyLine item.hostIndent .host item.host,
    keyLine item.containerIndent .container item.container]

end PortItem

def ResourceEntry.line : ResourceEntry → Str
  | .memory v => keyLine 6 .memory v
  | .pidsMax v => keyLine 6 .pidsMax v

def Section.lines : Section → List Str
  | .restart v => [keyLine 4 .restart v]
  | .ports items => headerLine 4 .ports :: items.flatMap PortItem.lines
  | .resources entries => headerLine 4 .resources :: entries.map ResourceEntry.line

def ContainerBlock.lines (b : ContainerBlock) : List Str :=
  keyLine 2 .image b.image :: b.sections.flatMap Section.lines

/-! ## One line -/

/-- A trimmed line with a key and a value. -/
def keyed (key : Key) (v : Value) : Str := key.text ++ ':' :: trimEnd (' ' :: v.text)

theorem trimEnd_key (key : Str) (rest : Str) :
    trimEnd (key ++ ':' :: rest) = key ++ ':' :: trimEnd rest := trimEnd_append rfl

theorem valueAfterColon_keyed (key : Key) (v : Value) :
    valueAfterColon (keyed key v) = trim v.text := by
  rw [valueAfterColon, keyed, afterFirst_append key.noColon, Option.getD_some, trim_trimEnd]
  exact trim_cons rfl v.text

theorem ne_of_startsWith {l l' : Str} {key : String} (h : startsWith l key = true)
    (h' : startsWith l' key = false) : l ≠ l' := by
  intro he
  rw [he, h'] at h
  cases h

theorem parseU16_trim (s : Str) : parseU16 (trim s) = parseU16 s := by
  rw [parseU16, parseU16, trim_trim]

theorem utf8Len_replicate (n : Nat) (s : Str) :
    utf8Len (List.replicate n ' ' ++ s) = n + utf8Len s := by
  have hsize : Char.utf8Size ' ' = 1 := rfl
  induction n with
  | zero => simp
  | succ n ih =>
    simp [utf8Len, List.replicate_succ, hsize] at ih ⊢
    omega

theorem keyStart_append {key : Str} (h : keyStart key) (rest : Str) : keyStart (key ++ rest) := by
  cases key with
  | nil => cases h
  | cons c key => exact h

/-- The indent and the trimmed text of an indented line. -/
theorem indented_line (n : Nat) {line : Str} (hk : keyStart line) :
    leadingSpaces (List.replicate n ' ' ++ line) = n ∧
      trim (List.replicate n ' ' ++ line) = trimEnd line := by
  cases line with
  | nil => cases hk
  | cons c rest =>
    have hc : isWhitespace c = false := by
      simp only [keyStart, Bool.and_eq_true, Bool.not_eq_true'] at hk
      exact hk.1
    have hspaces : ∀ d ∈ List.replicate n ' ', isWhitespace d := by
      intro d hd
      rw [List.eq_of_mem_replicate hd]
      rfl
    have hstart : trimStart (List.replicate n ' ' ++ c :: rest) = c :: rest := by
      rw [trimStart_append hspaces]
      exact trimStart_of_head hc
    constructor
    · rw [leadingSpaces, hstart, utf8Len_replicate]
      omega
    · rw [trim, hstart]

/-- Such a line is neither blank nor a comment. -/
theorem trimEnd_of_keyStart {line : Str} (hk : keyStart line) :
    ¬ (trimEnd line = [] ∨ (trimEnd line).head? = some '#') := by
  cases line with
  | nil => cases hk
  | cons c rest =>
    simp only [keyStart, Bool.and_eq_true, Bool.not_eq_true', bne_iff_ne] at hk
    have hhead : trimEnd (c :: rest) = c :: trimEnd rest := trimEnd_append (a := []) hk.1
    rw [hhead]
    simp [hk.2]

namespace ParseState

/-- A line of a block is read by `bodyLine`, unless it starts a block. -/
theorem parseLine_body {st : ParseState} {n : Nat} {line : Str} (hk : keyStart line) (hn : n ≠ 0)
    (hin : st.inContainers = true) (himg : n ≠ 2) :
    st.parseLine (List.replicate n ' ' ++ line) = ExceptT.lift (st.bodyLine n (trimEnd line)) := by
  obtain ⟨hi, ht⟩ := indented_line n hk
  unfold parseLine
  simp only [hi, ht]
  rw [if_neg (trimEnd_of_keyStart hk), if_neg hn, if_neg (by simp [hin]), if_neg (by simp [himg])]

end ParseState

/-! ## The parser inside a block -/

/-- The container under construction, and the variables that belong to it. -/
structure OpenBlock where
  image : Str
  ports : List PortMapping
  restart : RestartPolicy
  memoryBytes : Option Nat
  pidsMax : Option Nat
  inPorts : Bool
  inResources : Bool
  port : Option (Option UInt16 × Option UInt16)

/-- The mapping that a flush adds. -/
def completePort : Option (Option UInt16 × Option UInt16) → Option PortMapping
  | some (some host, some container) => some ⟨host, container⟩
  | _ => none

namespace OpenBlock

/-- After the line that starts a block, with `port` left over from what came before. -/
def start (image : Value) (port : Option (Option UInt16 × Option UInt16)) : OpenBlock :=
  ⟨trim image.text, [], .never, none, none, false, false, port⟩

def builder (o : OpenBlock) : ContainerBuilder :=
  ⟨some o.image, o.ports, o.restart, o.memoryBytes, o.pidsMax⟩

def toState (containers : List ContainerSpec) (o : OpenBlock) : ParseState :=
  ⟨containers, true, some o.builder, o.inPorts, o.inResources, o.port⟩

def flush (o : OpenBlock) : OpenBlock :=
  { o with ports := o.ports ++ (completePort o.port).toList, port := none }

def spec (o : OpenBlock) : ContainerSpec :=
  { ContainerSpec.new o.image [] with
    ports := o.ports
    restart := o.restart
    resources :=
      { memoryBytes := o.memoryBytes.getD ResourceLimits.default.memoryBytes
        pidsMax := o.pidsMax.getD ResourceLimits.default.pidsMax
        cpuShares := ResourceLimits.default.cpuShares } }

def itemStep (o : OpenBlock) (item : PortItem) : OpenBlock :=
  { o.flush with port := some (parseU16 item.host.text, parseU16 item.container.text) }

def entryStep (o : OpenBlock) : ResourceEntry → Option OpenBlock
  | .memory v => (parseMemory (trim v.text)).map fun bytes => { o with memoryBytes := bytes }
  | .pidsMax v => some { o with pidsMax := parseUsize (trim v.text) }

def sectionStep (o : OpenBlock) : Section → Option OpenBlock
  | .restart v =>
    some { o.flush with restart := parseRestart (trim v.text), inPorts := false, inResources := false }
  | .ports items => some (items.foldl itemStep { o.flush with inPorts := true, inResources := false })
  | .resources entries =>
    entries.foldlM entryStep { o.flush with inResources := true, inPorts := false }

variable {containers : List ContainerSpec} {o : OpenBlock}

theorem flushPort_toState : (o.toState containers).flushPort = o.flush.toState containers := by
  unfold ParseState.flushPort flush toState builder
  rcases o with ⟨_, _, _, _, _, _, _, _ | ⟨_ | h, _ | c⟩⟩ <;>
    simp [completePort, ParseState.mapCurrent]

theorem flushContainer_toState : (o.toState containers).flushContainer =
    .ok { o.toState containers with containers := containers ++ [o.spec], current := none } := rfl

theorem parseLine_keyLine {n : Nat} (key : Key) (v : Value) (hn : n ∈ [4, 6, 8]) :
    (o.toState containers).parseLine (keyLine n key v) =
      ExceptT.lift ((o.toState containers).bodyLine n (keyed key v)) := by
  have hn' : n ≠ 0 ∧ n ≠ 2 := by
    simp only [List.mem_cons, List.not_mem_nil, or_false] at hn
    omega
  unfold keyed
  rw [← trimEnd_key]
  exact ParseState.parseLine_body (keyStart_append key.start _) hn'.1 rfl hn'.2

theorem parseLine_headerLine (key : Key) :
    (o.toState containers).parseLine (headerLine 4 key) =
      ExceptT.lift ((o.toState containers).indent4 (key.text ++ [':'])) := by
  have hbody : (o.toState containers).parseLine (headerLine 4 key) =
      ExceptT.lift ((o.toState containers).bodyLine 4 (trimEnd (key.text ++ [':']))) :=
    ParseState.parseLine_body (keyStart_append key.start _) (by simp) rfl (by simp)
  rw [show trimEnd (key.text ++ [':']) = key.text ++ [':'] from trimEnd_key key.text []] at hbody
  exact hbody

theorem parseLine_restart (v : Value) :
    (o.toState containers).parseLine (keyLine 4 .restart v) =
      ExceptT.lift ((o.sectionStep (.restart v)).map (toState containers)) := by
  refine (parseLine_keyLine _ v (by simp)).trans ?_
  have hvalue := valueAfterColon_keyed .restart v
  have hs : startsWith (keyed .restart v) "restart:" = true := rfl
  have hp : keyed .restart v ≠ "ports:".toList := ne_of_startsWith hs rfl
  have hr : keyed .restart v ≠ "resources:".toList := ne_of_startsWith hs rfl
  simp only [ParseState.bodyLine, ParseState.indent4, flushPort_toState, hp, hr, hs, if_false,
    if_true, hvalue]
  rfl

theorem parseLine_ports :
    (o.toState containers).parseLine (headerLine 4 .ports) =
      pure ({ o.flush with inPorts := true, inResources := false }.toState containers) := by
  refine (parseLine_headerLine _).trans ?_
  simp only [ParseState.indent4, flushPort_toState]
  rfl

theorem parseLine_resources :
    (o.toState containers).parseLine (headerLine 4 .resources) =
      pure ({ o.flush with inResources := true, inPorts := false }.toState containers) := by
  refine (parseLine_headerLine _).trans ?_
  simp only [ParseState.indent4, flushPort_toState]
  rfl

/-- The first line of a list item flushes the item before it. -/
theorem parseLine_host (hp : o.inPorts = true) (item : PortItem) :
    (o.toState containers).parseLine (keyLine item.hostIndent .host item.host) =
      pure ({ o.flush with port := some (parseU16 item.host.text, none) }.toState containers) := by
  obtain ⟨image, ports, restart, memoryBytes, pidsMax, inPorts, inResources, port⟩ := o
  cases hp
  have hvalue : parseU16 (valueAfterColon (keyed .host item.host)) = parseU16 item.host.text := by
    rw [valueAfterColon_keyed, parseU16_trim]
  have hs : startsWith (keyed .host item.host) "- host:" = true := rfl
  have hindent : item.hostIndent ∈ [4, 6, 8] := by
    unfold PortItem.hostIndent
    cases item.style <;> simp
  refine (parseLine_keyLine _ item.host hindent).trans ?_
  unfold PortItem.hostIndent
  cases item.style with
  | nested =>
    simp only [ParseState.bodyLine, ParseState.indent6, hs, Bool.and_true, hvalue, flushPort_toState]
    rfl
  | flat =>
    have h₁ : keyed .host item.host ≠ "ports:".toList := ne_of_startsWith hs rfl
    have h₂ : keyed .host item.host ≠ "resources:".toList := ne_of_startsWith hs rfl
    have h₃ : startsWith (keyed .host item.host) "restart:" = false := rfl
    simp only [ParseState.bodyLine, ParseState.indent4, flushPort_toState, h₁, h₂, h₃, if_false, hs,
      Bool.and_true, hvalue]
    rfl

theorem parseLine_container (hp : o.inPorts = true) (item : PortItem) {host : Option UInt16}
    (hport : o.port = some (host, none)) :
    (o.toState containers).parseLine
        (keyLine item.containerIndent .container item.container) =
      pure ({ o with port := some (host, parseU16 item.container.text) }.toState containers) := by
  obtain ⟨image, ports, restart, memoryBytes, pidsMax, inPorts, inResources, port⟩ := o
  cases hp
  cases hport
  have hvalue : parseU16 (valueAfterColon (keyed .container item.container)) =
      parseU16 item.container.text := by
    rw [valueAfterColon_keyed, parseU16_trim]
  have hs : startsWith (keyed .container item.container) "container:" = true := rfl
  have hh : startsWith (keyed .container item.container) "- host:" = false := rfl
  have hindent : item.containerIndent ∈ [4, 6, 8] := by
    unfold PortItem.containerIndent
    cases item.style <;> simp
  refine (parseLine_keyLine _ item.container hindent).trans ?_
  unfold PortItem.containerIndent
  cases item.style with
  | nested =>
    simp only [ParseState.bodyLine, ParseState.indent8, hs, Bool.and_true,
      ParseState.setContainerPort, hvalue]
    rfl
  | flat =>
    simp only [ParseState.bodyLine, ParseState.indent6, hs, hh, Bool.and_true, Bool.and_false,
      ParseState.setContainerPort, hvalue]
    rfl

theorem foldlM_item (hp : o.inPorts = true) (item : PortItem) :
    item.lines.foldlM ParseState.parseLine (o.toState containers) =
      (pure ((o.itemStep item).toState containers) : Parse ParseState) := by
  simp only [PortItem.lines, List.foldlM_cons, List.foldlM_nil, parseLine_host hp, pure_bind]
  rw [parseLine_container (o := { o.flush with port := some (parseU16 item.host.text, none) }) hp
    item rfl, pure_bind]
  rfl

theorem foldlM_items (hp : o.inPorts = true) (items : List PortItem) :
    (items.flatMap PortItem.lines).foldlM ParseState.parseLine (o.toState containers) =
      (pure ((items.foldl itemStep o).toState containers) : Parse ParseState) := by
  induction items generalizing o with
  | nil => rfl
  | cons item items ih =>
    rw [List.flatMap_cons, List.foldlM_append, foldlM_item hp, pure_bind]
    exact ih (o := o.itemStep item) hp

theorem parseLine_entry (hp : o.inPorts = false) (hr : o.inResources = true) (e : ResourceEntry) :
    (o.toState containers).parseLine e.line =
      ExceptT.lift ((o.entryStep e).map (toState containers)) := by
  obtain ⟨image, ports, restart, memoryBytes, pidsMax, inPorts, inResources, port⟩ := o
  cases hp
  cases hr
  cases e with
  | memory v =>
    have hvalue : valueAfterColon (keyed .memory v) = trim v.text :=
      valueAfterColon_keyed _ v
    have hm : startsWith (keyed .memory v) "memory:" = true := rfl
    have hm' : startsWith (keyed .memory v) "pids_max:" = false := rfl
    refine (parseLine_keyLine _ v (by simp)).trans ?_
    simp only [ParseState.bodyLine, ParseState.indent6, ParseState.resourceLine, hm, hm', hvalue,
      entryStep]
    cases parseMemory (trim v.text) <;> rfl
  | pidsMax v =>
    have hvalue : valueAfterColon (keyed .pidsMax v) = trim v.text :=
      valueAfterColon_keyed _ v
    have hm : startsWith (keyed .pidsMax v) "memory:" = false := rfl
    have hm' : startsWith (keyed .pidsMax v) "pids_max:" = true := rfl
    refine (parseLine_keyLine _ v (by simp)).trans ?_
    simp only [ParseState.bodyLine, ParseState.indent6, ParseState.resourceLine, hm, hm', hvalue]
    rfl

theorem entryStep_flags {o' : OpenBlock} {e : ResourceEntry} (h : o.entryStep e = some o') :
    o'.inPorts = o.inPorts ∧ o'.inResources = o.inResources ∧ o'.port = o.port := by
  cases e with
  | memory v =>
    obtain ⟨bytes, _, rfl⟩ := Option.map_eq_some_iff.1 h
    exact ⟨rfl, rfl, rfl⟩
  | pidsMax v =>
    cases h
    exact ⟨rfl, rfl, rfl⟩

theorem foldlM_entries (hp : o.inPorts = false) (hr : o.inResources = true)
    (entries : List ResourceEntry) :
    (entries.map ResourceEntry.line).foldlM ParseState.parseLine (o.toState containers) =
      (ExceptT.lift ((entries.foldlM entryStep o).map (toState containers)) : Parse ParseState) := by
  induction entries generalizing o with
  | nil => rfl
  | cons e entries ih =>
    rw [List.map_cons, List.foldlM_cons, List.foldlM_cons, parseLine_entry hp hr]
    cases he : o.entryStep e with
    | none => rfl
    | some o' =>
      obtain ⟨hp', hr', _⟩ := entryStep_flags he
      exact ih (hp'.trans hp) (hr'.trans hr)

theorem foldlM_section (s : Section) :
    s.lines.foldlM ParseState.parseLine (o.toState containers) =
      (ExceptT.lift ((o.sectionStep s).map (toState containers)) : Parse ParseState) := by
  cases s with
  | restart v =>
    rw [Section.lines, List.foldlM_cons, parseLine_restart]
    rfl
  | ports items =>
    rw [Section.lines, List.foldlM_cons, parseLine_ports, pure_bind, foldlM_items rfl]
    rfl
  | resources entries =>
    rw [Section.lines, List.foldlM_cons, parseLine_resources, pure_bind, foldlM_entries rfl rfl]
    rfl

/-- The lines of the sections of a block, by induction on the sections. -/
theorem foldlM_sections (ss : List Section) :
    (ss.flatMap Section.lines).foldlM ParseState.parseLine (o.toState containers) =
      (ExceptT.lift ((ss.foldlM sectionStep o).map (toState containers)) : Parse ParseState) := by
  induction ss generalizing o with
  | nil => rfl
  | cons s ss ih =>
    rw [List.flatMap_cons, List.foldlM_append, foldlM_section, List.foldlM_cons]
    cases hs : o.sectionStep s with
    | none => rfl
    | some o' => exact ih

end OpenBlock

end OciKernel
