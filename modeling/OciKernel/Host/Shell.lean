import OciKernel.Host.Getty
import OciKernel.Lib.Options
import OciKernel.Lib.Wire

/-!
# Host.Shell

`ShellCommand::parse` of `host/shell.rs`, from a line of input to a command. The arms are grouped by
their first word, and by their second word where there are several.

* `parsePorts`, `parseVolumes`: the two passes over the arguments of `container run`.
* `readOptions`: one pass that reads both; `parsePorts_parseVolumes_iff`.
* `container_run_options`: flags in any order and spelling are read back.
* `splits_iff`: an image reference is split as meant iff it has no registry port.
-/

namespace OciKernel

open Text

inductive ShellError where
  | unknownCommand
  | missingArgument (arg : String)
  | badPortMapping
deriving DecidableEq, Repr

namespace ShellCommand

/-! ## The helpers -/

def parsePortArg (arg : Str) : Except ShellError PortMapping :=
  match splitOnce ':' arg with
  | none => .error .badPortMapping
  | some (host, container) =>
    match parseUnsigned (2 ^ 16) host with
    | none => .error .badPortMapping
    | some host =>
      match parseUnsigned (2 ^ 16) container with
      | none => .error .badPortMapping
      | some container => .ok ⟨.ofNat host, .ofNat container⟩

/-- `splitn(3, ':')`, with the target missing where there is no colon. -/
def parseVolumeArg (arg : Str) : Except ShellError VolumeMount :=
  match splitOnce ':' arg with
  | none => .error (.missingArgument "volume target")
  | some (source, rest) =>
    match splitOnce ':' rest with
    | none => .ok ⟨source, rest, .readWrite⟩
    | some (target, access) =>
      .ok ⟨source, target, if access = "ro".toList then .readOnly else .readWrite⟩

def portFlag : Options.Flag Str ShellError PortMapping :=
  { isFlag := fun arg => arg = "-p".toList ∨ arg = "--publish".toList
    parse := parsePortArg
    missing := .missingArgument "port mapping after -p" }

def volumeFlag : Options.Flag Str ShellError VolumeMount :=
  { isFlag := fun arg => arg = "-v".toList ∨ arg = "--volume".toList
    parse := parseVolumeArg
    missing := .missingArgument "volume mount after -v" }

def parsePorts (args : List Str) : Except ShellError (List PortMapping) := portFlag.scan args

def parseVolumes (args : List Str) : Except ShellError (List VolumeMount) := volumeFlag.scan args

def splitImageTag (nameTag : Str) : Str × Str :=
  match splitOnce ':' nameTag with
  | some (name, tag) => (name, tag)
  | none => (nameTag, "latest".toList)

/-! ## `parse` -/

/-- What follows `echo`: a redirection is at the first `>`. -/
def parseEcho (rest : List Str) : ShellCommand :=
  if ">".toList ∈ rest then
    .echo (unwords (rest.takeWhile (· ≠ ">".toList))) (rest.dropWhile (· ≠ ">".toList))[1]?
  else .echo (unwords rest) none

def parseContainer : List Str → Except ShellError ShellCommand
  | [] => .error .unknownCommand
  | word :: args =>
    if word = "list".toList ∨ word = "ls".toList ∨ word = "ps".toList then
      match args with
      | [] => .ok .containerList
      | _ => .error .unknownCommand
    else if word = "pull".toList then
      match args with
      | [nameTag] =>
        let (name, tag) := splitImageTag nameTag
        .ok (.imagePull name tag)
      | _ => .error .unknownCommand
    else if word = "stop".toList then
      match args with
      | [id] => .ok (.containerStop id)
      | _ => .error .unknownCommand
    else if word = "logs".toList then
      match args with
      | [id] => .ok (.containerLogs id false)
      | [arg, arg'] =>
        if arg = "-f".toList then .ok (.containerLogs arg' true)
        else if arg' = "-f".toList then .ok (.containerLogs arg true)
        else .error .unknownCommand
      | _ => .error .unknownCommand
    else if word = "inspect".toList then
      match args with
      | [id] => .ok (.containerInspect id)
      | _ => .error .unknownCommand
    else if word = "run".toList then
      match args with
      | [] => .error (.missingArgument "image")
      | image :: rest => do
        let ports ← parsePorts rest
        let volumes ← parseVolumes rest
        .ok (.containerRun image ports volumes)
    else .error .unknownCommand

def parseImage : List Str → Except ShellError ShellCommand
  | [] => .error .unknownCommand
  | word :: args =>
    if word = "pull".toList then
      match args with
      | [] => .error (.missingArgument "name:tag")
      | [nameTag] =>
        let (name, tag) := splitImageTag nameTag
        .ok (.imagePull name tag)
      | _ => .error .unknownCommand
    else if word = "list".toList ∨ word = "ls".toList then
      match args with
      | [] => .ok .imageList
      | _ => .error .unknownCommand
    else if word = "rm".toList ∨ word = "remove".toList then
      match args with
      | [nameTag] =>
        let (name, tag) := splitImageTag nameTag
        .ok (.imageRemove name tag)
      | _ => .error .unknownCommand
    else .error .unknownCommand

def parseVolume : List Str → Except ShellError ShellCommand
  | [word, name] =>
    if word = "create".toList then .ok (.volumeCreate name)
    else if word = "rm".toList ∨ word = "remove".toList then .ok (.volumeRemove name)
    else .error .unknownCommand
  | _ => .error .unknownCommand

/-- The commands that take one path, and `missing` without it. -/
def parsePath (missing : ShellError) (command : Str → ShellCommand) :
    List Str → Except ShellError ShellCommand
  | [] => .error missing
  | [path] => .ok (command path)
  | _ => .error .unknownCommand

/-- The commands without arguments. -/
def parseBare (command : ShellCommand) : List Str → Except ShellError ShellCommand
  | [] => .ok command
  | _ => .error .unknownCommand

def parseWords : List Str → Except ShellError ShellCommand
  | [] => .error .unknownCommand
  | word :: args =>
    if word = "ls".toList then
      match args with
      | [] => .ok (.ls none)
      | [path] => .ok (.ls (some path))
      | _ => .error .unknownCommand
    else if word = "cd".toList then
      match args with
      | [] => .ok (.cd "/home/root".toList)
      | [path] => .ok (.cd path)
      | _ => .error .unknownCommand
    else if word = "pwd".toList then parseBare .pwd args
    else if word = "cat".toList then parsePath (.missingArgument "filename") .cat args
    else if word = "touch".toList then parsePath .unknownCommand .touch args
    else if word = "mkdir".toList then parsePath .unknownCommand .mkdir args
    else if word = "rm".toList then parsePath .unknownCommand .rm args
    else if word = "echo".toList then .ok (parseEcho args)
    else if word = "clear".toList then parseBare .clear args
    else if word = "uname".toList then
      match args with
      | [] => .ok (.uname false)
      | [arg] => if arg = "-a".toList then .ok (.uname true) else .error .unknownCommand
      | _ => .error .unknownCommand
    else if word = "free".toList then parseBare .free args
    else if word = "lsblk".toList then parseBare .lsblk args
    else if word = "df".toList then parseBare .df args
    else if word = "ps".toList then parseBare .ps args
    else if word = "container".toList then parseContainer args
    else if word = "image".toList then parseImage args
    else if word = "volume".toList then parseVolume args
    else if word = "kernel".toList then
      match args with
      | [arg] => if arg = "info".toList then .ok .kernelInfo else .error .unknownCommand
      | _ => .error .unknownCommand
    else if word = "help".toList ∨ word = "?".toList then parseBare .help args
    else .error .unknownCommand

/-- Parse one line of input. -/
def parse (input : Str) : Except ShellError ShellCommand := parseWords (splitWhitespace (trim input))

example : parse "echo hello > /tmp/out".toList = .ok (.echo "hello".toList (some "/tmp/out".toList)) := by
  decide +kernel

example : parse "container run nginx -v /data:/var/data:ro -p 80:8080".toList =
    .ok (.containerRun "nginx".toList [⟨80, 8080⟩] [⟨"/data".toList, "/var/data".toList, .readOnly⟩]) := by
  decide +kernel

/-! ## The arguments of `container run` -/

/-- One pass over the arguments: the value of a flag is the next argument, and any other argument is
skipped. -/
def readOptions (args : List Str) : Option (List PortMapping × List VolumeMount) :=
  Options.readBoth portFlag volumeFlag args

theorem isFlag_port {arg : Str} :
    portFlag.isFlag arg = true ↔ arg = "-p".toList ∨ arg = "--publish".toList := decide_eq_true_iff

theorem isFlag_volume {arg : Str} :
    volumeFlag.isFlag arg = true ↔ arg = "-v".toList ∨ arg = "--volume".toList := decide_eq_true_iff

/-- A flag has no colon, so it is neither a port mapping nor a volume. -/
theorem flags_apart : Options.Apart portFlag volumeFlag where
  left arg h _ := by rcases isFlag_volume.1 h with rfl | rfl <;> nofun
  right arg h _ := by rcases isFlag_port.1 h with rfl | rfl <;> nofun
  disjoint arg h := by rcases isFlag_port.1 h with rfl | rfl <;> rfl

theorem parsePorts_parseVolumes_iff (args : List Str) (ports : List PortMapping)
    (volumes : List VolumeMount) :
    parsePorts args = .ok ports ∧ parseVolumes args = .ok volumes ↔
      readOptions args = some (ports, volumes) :=
  Options.scan_scan_iff flags_apart args ports volumes

/-- A volume whose paths can be written on a command line. -/
structure PlainVolume extends VolumeMount where
  source_plain : ∀ c ∈ source, c ≠ ':' ∧ isWhitespace c = false
  target_plain : ∀ c ∈ target, c ≠ ':' ∧ isWhitespace c = false

/-- A flag with its value: `long` is the spelling with two dashes, and `rw` writes out the access mode
that is the default. -/
inductive RunOption where
  | publish (long : Bool) (port : PortMapping)
  | volume (long : Bool) (rw : Bool) (v : PlainVolume)

namespace RunOption

def portText (port : PortMapping) : Str :=
  Nat.toDigits 10 port.host.toNat ++ ':' :: Nat.toDigits 10 port.container.toNat

def accessText (rw : Bool) : AccessMode → Str
  | .readOnly => ":ro".toList
  | .readWrite => if rw then ":rw".toList else []

def args : RunOption → List Str
  | publish long port => [if long then "--publish".toList else "-p".toList, portText port]
  | volume long rw v =>
    [if long then "--volume".toList else "-v".toList,
      v.source ++ ':' :: (v.target ++ accessText rw v.access)]

def port? : RunOption → Option PortMapping
  | publish _ port => some port
  | volume .. => none

def volume? : RunOption → Option VolumeMount
  | publish .. => none
  | volume _ _ v => some v.toVolumeMount

theorem notMem_digits {c : Char} (h : toDigit 10 c = none) (n : Nat) : c ∉ Nat.toDigits 10 n := by
  intro hmem
  have := isSome_toDigit_toDigits n c hmem
  rw [h] at this
  cases this

theorem parsePortArg_portText (port : PortMapping) : parsePortArg (portText port) = .ok port := by
  have hhost := parseUnsigned_toDigits port.host.toNat_lt
  have hcontainer := parseUnsigned_toDigits port.container.toNat_lt
  rw [parsePortArg, portText, splitOnce_append (notMem_digits rfl _)]
  dsimp only
  rw [hhost, hcontainer]
  simp

theorem parseVolumeArg_text (rw : Bool) (v : PlainVolume) :
    parseVolumeArg (v.source ++ ':' :: (v.target ++ accessText rw v.access)) =
      .ok v.toVolumeMount := by
  have hsource : ':' ∉ v.source := fun h => (v.source_plain _ h).1 rfl
  have htarget : ':' ∉ v.target := fun h => (v.target_plain _ h).1 rfl
  obtain ⟨⟨source, target, access⟩, _, _⟩ := v
  rw [parseVolumeArg, splitOnce_append hsource]
  dsimp only
  cases access with
  | readOnly =>
    have hmode := splitOnce_append htarget "ro".toList
    rw [accessText, show ":ro".toList = ':' :: "ro".toList from rfl, hmode]
    rfl
  | readWrite =>
    cases rw with
    | true =>
      have hmode := splitOnce_append htarget "rw".toList
      rw [accessText, if_pos rfl, show ":rw".toList = ':' :: "rw".toList from rfl, hmode]
      rfl
    | false =>
      rw [accessText, if_neg (by decide), List.append_nil, splitOnce_eq_none htarget]

/-- Flags with their values are read back, by induction on the flags. -/
theorem readOptions_args (opts : List RunOption) :
    readOptions (opts.flatMap args) = some (opts.filterMap port?, opts.filterMap volume?) := by
  induction opts with
  | nil => rfl
  | cons o opts ih =>
    cases o with
    | publish long port =>
      refine Options.readBoth_left ?_ (parsePortArg_portText port) ih
      cases long <;> rfl
    | volume long rw v =>
      refine Options.readBoth_right ?_ ?_ (parseVolumeArg_text rw v) ih
      · cases long <;> rfl
      · cases long <;> rfl

theorem isWord_args (o : RunOption) : ∀ w ∈ o.args, IsWord w := by
  cases o with
  | publish long port =>
    have hflag : IsWord (if long then "--publish".toList else "-p".toList) := by
      cases long <;> decide
    have htext : IsWord (portText port) := by
      refine ⟨by simp [portText], fun c hc => ?_⟩
      rw [portText, List.mem_append, List.mem_cons] at hc
      rcases hc with hc | rfl | hc
      · exact not_isWhitespace_of_isSome (isSome_toDigit_toDigits _ c hc)
      · rfl
      · exact not_isWhitespace_of_isSome (isSome_toDigit_toDigits _ c hc)
    exact List.forall_mem_cons.2 ⟨hflag, List.forall_mem_singleton.2 htext⟩
  | volume long rw v =>
    have hflag : IsWord (if long then "--volume".toList else "-v".toList) := by
      cases long <;> decide
    have haccess : ∀ c ∈ accessText rw v.access, isWhitespace c = false := by
      refine not_isWhitespace_of_all ?_
      cases v.access <;> cases rw <;> rfl
    have htext : IsWord (v.source ++ ':' :: (v.target ++ accessText rw v.access)) := by
      refine ⟨by simp, fun c hc => ?_⟩
      rw [List.mem_append, List.mem_cons, List.mem_append] at hc
      rcases hc with hc | rfl | hc | hc
      · exact (v.source_plain c hc).2
      · rfl
      · exact (v.target_plain c hc).2
      · exact haccess c hc
    exact List.forall_mem_cons.2 ⟨hflag, List.forall_mem_singleton.2 htext⟩

end RunOption

theorem parse_eq {line : Str} {words : List Str} (h : splitWhitespace line = words) :
    parse line = parseWords words := by
  rw [parse, splitWhitespace_trim, h]

theorem parse_run {ports : List PortMapping} {volumes : List VolumeMount} {line image : Str}
    {rest : List Str} (h : splitWhitespace line = "container".toList :: "run".toList :: image :: rest)
    (hread : readOptions rest = some (ports, volumes)) :
    parse line = .ok (.containerRun image ports volumes) := by
  obtain ⟨hports, hvolumes⟩ := (parsePorts_parseVolumes_iff rest ports volumes).2 hread
  have hparse : parse line = (parsePorts rest >>= fun ports => parseVolumes rest >>= fun volumes =>
      Except.ok (.containerRun image ports volumes)) := parse_eq h
  rw [hparse, hports, hvolumes]
  rfl

/-- The two passes read what the one pass reads. So flags in any order, in either spelling, give back the
ports and the volumes that they were written for. -/
theorem container_run_options :
    (∀ (rest : List Str) (ports : List PortMapping) (volumes : List VolumeMount),
      parsePorts rest = .ok ports ∧ parseVolumes rest = .ok volumes ↔
        readOptions rest = some (ports, volumes)) ∧
    ∀ (image : Str) (opts : List RunOption), IsWord image →
      parse (unwords ("container".toList :: "run".toList :: image :: opts.flatMap RunOption.args)) =
        .ok (.containerRun image (opts.filterMap RunOption.port?) (opts.filterMap RunOption.volume?)) := by
  refine ⟨parsePorts_parseVolumes_iff, fun image opts himage => ?_⟩
  refine parse_run (splitWhitespace_unwords ?_) (RunOption.readOptions_args opts)
  simp only [List.forall_mem_cons]
  refine ⟨by decide, by decide, himage, fun w hw => ?_⟩
  obtain ⟨o, -, hw⟩ := List.mem_flatMap.1 hw
  exact o.isWord_args w hw

/-! ## Image references -/

/-- A reference `[host[:port]/]path[:tag]`. -/
structure ImageRef where
  host : Option Str
  port : Option Str
  path : Str
  tag : Option Str
  host_plain : ∀ h ∈ host, ':' ∉ h ∧ '/' ∉ h
  port_plain : ∀ p ∈ port, ':' ∉ p ∧ '/' ∉ p
  port_host : port.isSome → host.isSome
  path_plain : ':' ∉ path
  tag_plain : ∀ t ∈ tag, ':' ∉ t ∧ '/' ∉ t

namespace ImageRef

/-- The registry, with its port. -/
def registry (r : ImageRef) : Str := r.host.getD [] ++ r.port.elim [] (':' :: ·)

def repo (r : ImageRef) : Str := if r.host.isSome then r.registry ++ '/' :: r.path else r.path

def text (r : ImageRef) : Str := r.repo ++ r.tag.elim [] (':' :: ·)

/-- The repository and the tag are what a command takes them for. -/
structure Splits (r : ImageRef) : Prop where
  split : splitImageTag r.text = (r.repo, r.tag.getD "latest".toList)
  imagePull : ∀ line, splitWhitespace line = ["image".toList, "pull".toList, r.text] →
    parse line = .ok (.imagePull r.repo (r.tag.getD "latest".toList))
  containerPull : ∀ line, splitWhitespace line = ["container".toList, "pull".toList, r.text] →
    parse line = .ok (.imagePull r.repo (r.tag.getD "latest".toList))
  imageRemove : ∀ line word, word = "rm".toList ∨ word = "remove".toList →
    splitWhitespace line = ["image".toList, word, r.text] →
    parse line = .ok (.imageRemove r.repo (r.tag.getD "latest".toList))

variable {r : ImageRef}

theorem splits_of_split (h : splitImageTag r.text = (r.repo, r.tag.getD "latest".toList)) :
    r.Splits where
  split := h
  imagePull line hline := by
    have hparse : parse line =
        .ok (.imagePull (splitImageTag r.text).1 (splitImageTag r.text).2) := parse_eq hline
    rw [hparse, h]
  containerPull line hline := by
    have hparse : parse line =
        .ok (.imagePull (splitImageTag r.text).1 (splitImageTag r.text).2) := parse_eq hline
    rw [hparse, h]
  imageRemove line word hword hline := by
    have hparse : parse line =
        .ok (.imageRemove (splitImageTag r.text).1 (splitImageTag r.text).2) := by
      rw [parse_eq hline]
      rcases hword with rfl | rfl <;> rfl
    rw [hparse, h]

theorem splitImageTag_of_no_colon {repo : Str} (h : ':' ∉ repo) (tag : Option Str) :
    splitImageTag (repo ++ tag.elim [] (':' :: ·)) = (repo, tag.getD "latest".toList) := by
  cases tag with
  | none => rw [Option.elim_none, List.append_nil, splitImageTag, splitOnce_eq_none h, Option.getD_none]
  | some tag => rw [Option.elim_some, splitImageTag, splitOnce_append h, Option.getD_some]

/-- Without a port, the first colon is that of the tag. -/
theorem notMem_repo (h : r.port = none) : ':' ∉ r.repo := by
  unfold repo registry
  rw [h, Option.elim_none, List.append_nil]
  cases hhost : r.host with
  | none => exact r.path_plain
  | some host =>
    have hplain := (r.host_plain host hhost).1
    simpa [hplain] using r.path_plain

/-- A reference is split as meant, in each command that takes one, if and only if it has no registry
port. -/
theorem splits_iff (r : ImageRef) : r.Splits ↔ r.port = none := by
  constructor
  · intro h
    cases hport : r.port with
    | none => rfl
    | some port =>
      obtain ⟨host, hhost⟩ := Option.isSome_iff_exists.1 (r.port_host (by rw [hport]; rfl))
      have hrepo : r.repo = host ++ ':' :: (port ++ '/' :: r.path) := by
        simp [repo, registry, hhost, hport]
      have hsplit := h.split
      rw [text, hrepo, List.append_assoc, List.cons_append, splitImageTag,
        splitOnce_append (r.host_plain host hhost).1] at hsplit
      -- the name is the host alone
      have hname : host = host ++ ':' :: (port ++ '/' :: r.path) := congrArg Prod.fst hsplit
      have hlen := congrArg List.length hname
      simp at hlen
  · intro h
    exact splits_of_split (splitImageTag_of_no_colon (notMem_repo h) r.tag)

/-- `localhost:5000/app`. -/
theorem not_splits_port : ¬ Splits
    { host := some "localhost".toList
      port := some "5000".toList
      path := "app".toList
      tag := none
      host_plain := by simp
      port_plain := by simp
      port_host := fun _ => rfl
      path_plain := by decide
      tag_plain := nofun } := by
  intro h
  have hsplit := h.split
  have hname := congrArg Prod.fst hsplit
  revert hname
  decide

end ImageRef

end ShellCommand

end OciKernel
