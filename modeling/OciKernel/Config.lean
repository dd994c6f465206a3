import OciKernel.Container.Spec

/-!
# Config

The boot configuration parser of `config.rs`, a line-driven state machine over a YAML subset, and the
configuration embedded in `main.rs`.

A parse has three outcomes: a result, a `ConfigError`, or a panic. The last is the outer `none`: the
unit multiplication in `parse_memory` overflows `usize`.
-/

namespace OciKernel

open Text

inductive ConfigError where
  | missingField (field : String)
  | badValue (field : String)
deriving DecidableEq, Repr

/-- The outer `none` is a panic. -/
abbrev Parse := ExceptT ConfigError Option

instance {α : Type} [DecidableEq α] : DecidableEq (Parse α) :=
  inferInstanceAs (DecidableEq (Option (Except ConfigError α)))

structure KernelConfig where
  containers : List ContainerSpec
deriving DecidableEq, Repr

/-! ## Values -/

def startsWith (line : Str) (key : String) : Bool := key.toList.isPrefixOf line

def leadingSpaces (s : Str) : Nat := utf8Len s - utf8Len (trimStart s)

/-- The value after the first colon of a trimmed line. -/
def valueAfterColon (line : Str) : Str := trim ((afterFirst ':' line).getD [])

def parseU16 (s : Str) : Option UInt16 := (parseUnsigned (2 ^ 16) (trim s)).map UInt16.ofNat

def parseUsize (s : Str) : Option Nat := parseUnsigned (2 ^ 64) s

def parseRestart (s : Str) : RestartPolicy :=
  if trim s = "always".toList then .always
  else if trim s = "on-failure".toList then .onFailure
  else .never

/-- `char::to_lowercase`, exact on every `char` whose lower case is or contains an ASCII letter. The
others map to themselves here, which no suffix test or number parse can tell from their lower case. -/
def toLowerChar (c : Char) : Str :=
  if c.toNat = 0x212A then ['k']
  else if c.toNat = 0x130 then ['i', '\u0307']
  else [c.toLower]

def toLowercase (s : Str) : Str := s.flatMap toLowerChar

/-- `n * unit` in `usize`; the outer `none` is the overflow panic. -/
def mulUsize (n unit : Nat) : Option Nat := if n * unit < 2 ^ 64 then some (n * unit) else none

/-- `number.trim().parse().ok().map(|n| n * unit)`. -/
def parseScaled (number : Str) (unit : Nat) : Option (Option Nat) :=
  match parseUsize (trim number) with
  | some n => (mulUsize n unit).map some
  | none => some none

/-- `512mb`, `256MB`, `1gb`, or a number of bytes. The outer `none` is a panic. -/
def parseMemory (s : Str) : Option (Option Nat) :=
  let s := toLowercase (trim s)
  match stripSuffix "mb".toList s with
  | some mb => parseScaled mb (1024 * 1024)
  | none =>
    match stripSuffix "gb".toList s with
    | some gb => parseScaled gb (1024 * 1024 * 1024)
    | none =>
      match stripSuffix "kb".toList s with
      | some kb => parseScaled kb 1024
      | none => some (parseUsize s)

/-! ## Builder -/

structure ContainerBuilder where
  image : Option Str
  ports : List PortMapping
  restart : RestartPolicy
  memoryBytes : Option Nat
  pidsMax : Option Nat
deriving DecidableEq, Repr

namespace ContainerBuilder

def new : ContainerBuilder :=
  { image := none, ports := [], restart := .never, memoryBytes := none, pidsMax := none }

def build (b : ContainerBuilder) : Except ConfigError ContainerSpec := do
  match b.image with
  | none => .error (.missingField "image")
  | some image =>
    .ok { ContainerSpec.new image [] with
      ports := b.ports
      restart := b.restart
      resources :=
        { memoryBytes := b.memoryBytes.getD ResourceLimits.default.memoryBytes
          pidsMax := b.pidsMax.getD ResourceLimits.default.pidsMax
          cpuShares := ResourceLimits.default.cpuShares } }

end ContainerBuilder

/-! ## The line-driven parser -/

/-- The mutable variables of `from_yaml`. -/
structure ParseState where
  containers : List ContainerSpec
  inContainers : Bool
  current : Option ContainerBuilder
  inPorts : Bool
  inResources : Bool
  currentPort : Option (Option UInt16 × Option UInt16)
deriving DecidableEq, Repr

namespace ParseState

def init : ParseState :=
  { containers := [], inContainers := false, current := none, inPorts := false,
    inResources := false, currentPort := none }

/-- `if let Some(ref mut b) = current { ... }`. -/
def mapCurrent (st : ParseState) (f : ContainerBuilder → ContainerBuilder) : ParseState :=
  { st with current := st.current.map f }

/-- `if let Some(builder) = current.take() { containers.push(builder.build()?) }`. -/
def flushContainer (st : ParseState) : Except ConfigError ParseState :=
  match st.current with
  | none => .ok st
  | some builder =>
    match builder.build with
    | .ok spec => .ok { st with containers := st.containers ++ [spec], current := none }
    | .error e => .error e

/-- `if let Some((Some(h), Some(c))) = current_port.take() { ... }`: a port with both halves goes to
the current container, any other is dropped. -/
def flushPort (st : ParseState) : ParseState :=
  match st.currentPort with
  | some (some host, some container) =>
    { st.mapCurrent fun b => { b with ports := b.ports ++ [⟨host, container⟩] } with
      currentPort := none }
  | _ => { st with currentPort := none }

/-- `if let Some((_, ref mut cont)) = current_port { *cont = c }`. -/
def setContainerPort (st : ParseState) (line : Str) : ParseState :=
  let c := parseU16 (valueAfterColon line)
  { st with currentPort := st.currentPort.map fun (host, _) => (host, c) }

/-- A line at indent 4. -/
def indent4 (st : ParseState) (line : Str) : ParseState :=
  let st := st.flushPort
  if line = "ports:".toList then { st with inPorts := true, inResources := false }
  else if line = "resources:".toList then { st with inResources := true, inPorts := false }
  else if startsWith line "restart:" then
    { st.mapCurrent fun b => { b with restart := parseRestart (valueAfterColon line) } with
      inPorts := false, inResources := false }
  else if st.inPorts && startsWith line "- host:" then
    { st with currentPort := some (parseU16 (valueAfterColon line), none) }
  else st

/-- A key under `resources:`. -/
def resourceLine (st : ParseState) (line : Str) : Option ParseState := do
  let st ←
    if startsWith line "memory:" then
      match st.current with
      | some b => do
        let bytes ← parseMemory (valueAfterColon line)
        some { st with current := some { b with memoryBytes := bytes } }
      | none => some st
    else some st
  if startsWith line "pids_max:" then
    some (st.mapCurrent fun b => { b with pidsMax := parseUsize (valueAfterColon line) })
  else some st

/-- A line at indent 6: a list item under `ports:` or a key under `resources:`. -/
def indent6 (st : ParseState) (line : Str) : Option ParseState :=
  if st.inPorts && startsWith line "- host:" then
    some { st.flushPort with currentPort := some (parseU16 (valueAfterColon line), none) }
  else if st.inPorts && startsWith line "container:" then some (st.setContainerPort line)
  else if st.inResources then st.resourceLine line
  else some st

/-- A line at indent 8: the second key of a port list item. -/
def indent8 (st : ParseState) (line : Str) : ParseState :=
  if st.inPorts && startsWith line "container:" then st.setContainerPort line else st

/-- A line inside a container block, by its indent. -/
def bodyLine (st : ParseState) (indent : Nat) (line : Str) : Option ParseState :=
  if indent = 4 then some (st.indent4 line)
  else if indent = 6 then st.indent6 line
  else if indent = 8 then some (st.indent8 line)
  else some st

/-- One round of the loop over the lines. -/
def parseLine (st : ParseState) (rawLine : Str) : Parse ParseState :=
  let indent := leadingSpaces rawLine
  let line := trim rawLine
  if line = [] ∨ line.head? = some '#' then pure st
  else if indent = 0 then do
    let st ← ExceptT.mk (some st.flushContainer)
    pure { st with inContainers := line = "containers:".toList, inPorts := false,
                   inResources := false }
  else if !st.inContainers then pure st
  else if indent = 2 ∧ startsWith line "- image:" then do
    let st ← ExceptT.mk (some st.flushContainer)
    pure { st with inPorts := false, inResources := false,
                   current := some { ContainerBuilder.new with image := some (valueAfterColon line) } }
  else ExceptT.lift (st.bodyLine indent line)

/-- After the last line: flush the port and the container in progress. -/
def finish (st : ParseState) : Except ConfigError KernelConfig := do
  let st ← st.flushPort.flushContainer
  .ok ⟨st.containers⟩

end ParseState

namespace KernelConfig

def fromYaml (yaml : Str) : Parse KernelConfig := do
  let st ← (lines yaml).foldlM ParseState.parseLine ParseState.init
  ExceptT.mk (some st.finish)

end KernelConfig

/-! ## The embedded configuration -/

def DEFAULT_CONFIG_YAML : Str :=
  ("containers:\n" ++
   "  - image: nginx:latest\n" ++
   "    ports:\n" ++
   "      - host: 8080\n" ++
   "        container: 80\n" ++
   "    restart: always\n" ++
   "    resources:\n" ++
   "      memory: 256mb\n" ++
   "      pids_max: 50\n").toList

/-- The one container it declares. -/
def nginxSpec : ContainerSpec :=
  { ContainerSpec.new "nginx:latest".toList [] with
    ports := [⟨8080, 80⟩]
    restart := .always
    resources := { memoryBytes := 256 * 1024 * 1024, pidsMax := 50, cpuShares := 1024 } }

example : KernelConfig.fromYaml DEFAULT_CONFIG_YAML = pure ⟨[nginxSpec]⟩ := by
  decide +kernel

end OciKernel
