import OciKernel.Config.Altered
import OciKernel.Host.Listing

/-!
# Host.Boot

The boot of `main.rs` from the configuration on: `kernel_main` parses it, starts what it declares and tells
the serial console about it, and then the shell runs.

* `boot`: the kernel state that the shell starts with, and the text printed on the way.
* `plain_fromYaml`: whatever the text of the configuration, an image that it declares is a trimmed piece of
  one line.
* `boot_exact`: so the log, the tables and `container list` tell the same, from any configuration.
-/

namespace OciKernel

open Text Transition

/-! ## Booting -/

/-- One round of the loop over the declared containers. -/
def startDeclared (s : Kernel × Str) (spec : ContainerSpec) : Kernel × Str :=
  let log := s.2 ++ println ("  Starting container: ".toList ++ spec.image ++ " ...".toList)
  match s.1.launch spec with
  | (k, .ok _) =>
    (k, log ++ println ("  [OK] ".toList ++ spec.image ++ " running (PID ns isolated)".toList) ++
      spec.ports.flatMap fun pm => println ("  [OK] Port forward: host:".toList ++ digits pm.host.toNat ++
        " -> container:".toList ++ digits pm.container.toNat))
  | (k, .error e) => (k, log ++ println ("  [ERR] ".toList ++ spec.image ++ ": ".toList ++ e.message.toList))

/-- Steps 6 and 7 of `kernel_main`; `none` is a panic of the parser. -/
def boot (yaml : Str) : Option (Kernel × Str) :=
  match KernelConfig.fromYaml yaml with
  | none => none
  | some parsed =>
    -- `unwrap_or_default`
    let containers := match parsed with
      | .ok config => config.containers
      | .error _ => []
    some (containers.foldl startDeclared (.init, println ("[OK] Boot config (".toList ++
      digits containers.length ++ " container(s) declared)".toList)))

/-! ## Reading the log -/

/-- What a line of the log says to have started: a container, or one of its rules. -/
inductive Report where
  | running (image : Str)
  | forward (pm : PortMapping)
deriving DecidableEq, Repr

def readRule (text : Str) : Option PortMapping := do
  let rule ← "Port forward: host:".toList.isPrefixOf? text
  let (host, rest) ← splitOnce ' ' rule
  let container ← "-> container:".toList.isPrefixOf? rest
  let host ← parseUnsigned (2 ^ 16) host
  let container ← parseUnsigned (2 ^ 16) container
  some ⟨UInt16.ofNat host, UInt16.ofNat container⟩

def readReport (line : Str) : Option Report := do
  let text ← "  [OK] ".toList.isPrefixOf? line
  match stripSuffix " running (PID ns isolated)".toList text with
  | some image => some (.running image)
  | none => (readRule text).map .forward

def readLog (log : Str) : List Report := (lines log).filterMap readReport

/-- What should be reported of a container. -/
def reports (spec : ContainerSpec) : List Report := .running spec.image :: spec.ports.map .forward

/-! ## The images of a configuration -/

/-- The image after the colon of a line. -/
theorem plainCell_valueAfterColon {line : Str} (h : '\n' ∉ line) : PlainCell (valueAfterColon line) := by
  refine ⟨trim_trim _, fun hmem => h ?_⟩
  have hrest := trim_subset _ hmem
  cases hafter : afterFirst ':' line with
  | none =>
    rw [hafter] at hrest
    cases hrest
  | some rest =>
    rw [hafter] at hrest
    rw [afterFirst_eq_some hafter]
    exact List.mem_append_right _ (List.mem_cons_of_mem _ hrest)

theorem text_shownLines {yaml : Str} : ∀ l ∈ shownLines yaml, '\n' ∉ l.text := by
  intro l h
  obtain ⟨rawLine, hraw, rfl⟩ := List.mem_map.1 h
  exact fun hmem => newline_notMem_lines (List.mem_of_mem_filter hraw) (trim_subset _ hmem)

/-- Whatever the text, an image of the configuration is a trimmed piece of one line. -/
theorem plain_fromYaml {yaml : Str} {config : KernelConfig} (h : KernelConfig.fromYaml yaml = pure config) :
    ∀ spec ∈ config.containers, PlainCell spec.image := by
  intro spec hspec
  have himage : some spec.image ∈ ((items yaml).filter (Item.Starts ·)).map Item.image? :=
    fromYaml_images h ▸ List.mem_map_of_mem hspec
  obtain ⟨i, hi, himage⟩ := List.mem_map.1 himage
  obtain ⟨l, hl, hvalue⟩ := image?_of_starting (shownLines yaml) i hi
  rw [himage] at hvalue
  rw [Option.some.inj hvalue]
  exact plainCell_valueAfterColon (text_shownLines l hl)

/-! ## The log -/

variable {spec : ContainerSpec} {specs : List ContainerSpec} {k : Kernel} {log : Str}

def runningLine (image : Str) : Str :=
  "  [OK] ".toList ++ image ++ " running (PID ns isolated)".toList

def ruleLine (pm : PortMapping) : Str :=
  "  [OK] Port forward: host:".toList ++ digits pm.host.toNat ++ " -> container:".toList ++
    digits pm.container.toNat

def reportLines (spec : ContainerSpec) : List Str :=
  ("  Starting container: ".toList ++ spec.image ++ " ...".toList) :: runningLine spec.image ::
    spec.ports.map ruleLine

/-- A container that is declared always starts. -/
theorem startDeclared_eq (k : Kernel) (log : Str) (spec : ContainerSpec) :
    startDeclared (k, log) spec = (k.launched spec, log ++ (reportLines spec).flatMap println) := by
  have hlines : (reportLines spec).flatMap println =
      println ("  Starting container: ".toList ++ spec.image ++ " ...".toList) ++
        (println (runningLine spec.image) ++ spec.ports.flatMap fun pm => println (ruleLine pm)) := by
    unfold reportLines
    rw [List.flatMap_cons, List.flatMap_cons, List.flatMap_map]
  unfold startDeclared
  rw [Kernel.launch_eq, hlines, ← List.append_assoc, ← List.append_assoc]
  rfl

theorem foldl_startDeclared (specs : List ContainerSpec) (k : Kernel) (log : Str) :
    specs.foldl startDeclared (k, log) =
      (specs.foldl Kernel.launched k, log ++ (specs.flatMap reportLines).flatMap println) := by
  induction specs generalizing k log with
  | nil => exact Prod.ext rfl (List.append_nil log).symm
  | cons spec specs ih =>
    rw [List.foldl_cons, startDeclared_eq, ih, List.foldl_cons, List.flatMap_cons, List.flatMap_append,
      List.append_assoc]

theorem readReport_runningLine (image : Str) : readReport (runningLine image) = some (.running image) := by
  unfold readReport runningLine
  rw [List.append_assoc, isPrefixOf?_append, Option.bind_eq_bind, Option.bind_some, stripSuffix_append]

theorem readRule_ruleLine (pm : PortMapping) : readRule ("Port forward: host:".toList ++
    digits pm.host.toNat ++ " -> container:".toList ++ digits pm.container.toNat) = some pm := by
  have hport : ∀ p : UInt16, parseUnsigned (2 ^ 16) (digits p.toNat) = some p.toNat :=
    fun p => parseUnsigned_toDigits p.toNat_lt
  have harrow : " -> container:".toList = ' ' :: "-> container:".toList := rfl
  unfold readRule
  rw [List.append_assoc, List.append_assoc, isPrefixOf?_append, harrow, List.cons_append]
  simp only [Option.bind_eq_bind, Option.bind_some, splitOnce_append (blank_notMem_digits _), isPrefixOf?_append,
    hport, UInt16.ofNat_toNat]

theorem getLast_digits (n : Nat) : ∃ c, (digits n).getLast? = some c ∧ (toDigit 10 c).isSome := by
  have hne : digits n ≠ [] := Nat.toDigits_ne_nil
  exact ⟨_, List.getLast?_eq_some_getLast hne, isSome_toDigit_toDigits n _ (List.getLast_mem hne)⟩

theorem readReport_ruleLine (pm : PortMapping) : readReport (ruleLine pm) = some (.forward pm) := by
  have hline : ruleLine pm = "  [OK] ".toList ++ ("Port forward: host:".toList ++ digits pm.host.toNat ++
      " -> container:".toList ++ digits pm.container.toNat) := rfl
  have hsuffix : ¬ " running (PID ns isolated)".toList <:+ "Port forward: host:".toList ++
      digits pm.host.toNat ++ " -> container:".toList ++ digits pm.container.toNat := by
    rintro ⟨before, he⟩
    obtain ⟨c, hc, hdigit⟩ := getLast_digits pm.container.toNat
    have hne : digits pm.container.toNat ≠ [] := Nat.toDigits_ne_nil
    have hlast := congrArg List.getLast? he
    rw [List.getLast?_append_of_ne_nil _ (by decide), List.getLast?_append_of_ne_nil _ hne, hc] at hlast
    cases hlast
    exact absurd hdigit (by decide)
  rw [hline]
  unfold readReport
  rw [isPrefixOf?_append, Option.bind_eq_bind, Option.bind_some, stripSuffix_eq_none hsuffix]
  dsimp only
  rw [readRule_ruleLine]
  rfl

/-- The lines of a log, for images that are pieces of a line. -/
theorem reportLines_line (h : PlainCell spec.image) :
    ∀ l ∈ reportLines spec, '\n' ∉ l ∧ l.getLast? ≠ some '\r' := by
  have hfeed (pre post : String) (hpre : '\n' ∉ pre.toList) (hpost : '\n' ∉ post.toList) :
      '\n' ∉ pre.toList ++ spec.image ++ post.toList := by
    simp only [List.mem_append, hpre, hpost, h.newline, or_self, not_false_eq_true]
  have hdigits (n : Nat) : '\n' ∉ digits n := ShellCommand.RunOption.notMem_digits rfl n
  refine List.forall_mem_cons.2 ⟨⟨hfeed _ _ (by decide) (by decide), ?_⟩,
    List.forall_mem_cons.2 ⟨⟨hfeed _ _ (by decide) (by decide), ?_⟩, ?_⟩⟩
  · rw [List.getLast?_append_of_ne_nil _ (by decide)]
    decide
  · unfold runningLine
    rw [List.getLast?_append_of_ne_nil _ (by decide)]
    decide
  · intro l hl
    obtain ⟨pm, -, rfl⟩ := List.mem_map.1 hl
    obtain ⟨c, hc, hdigit⟩ := getLast_digits pm.container.toNat
    have hne : digits pm.container.toNat ≠ [] := Nat.toDigits_ne_nil
    have hhost : '\n' ∉ "  [OK] Port forward: host:".toList := by decide
    have harrow : '\n' ∉ " -> container:".toList := by decide
    unfold ruleLine
    refine ⟨by simp only [List.mem_append, hhost, harrow, hdigits, or_self, not_false_eq_true], ?_⟩
    rw [List.getLast?_append_of_ne_nil _ hne, hc]
    rintro ⟨⟩
    exact absurd hdigit (by decide)

theorem readReports (spec : ContainerSpec) : (reportLines spec).filterMap readReport = reports spec := by
  have hstart : readReport ("  Starting container: ".toList ++ spec.image ++ " ...".toList) = none := rfl
  unfold reportLines reports
  rw [List.filterMap_cons_none hstart, List.filterMap_cons_some (readReport_runningLine _), List.filterMap_map]
  have hrules : spec.ports.filterMap (fun pm => some (Report.forward pm)) = spec.ports.map .forward :=
    congrFun List.filterMap_eq_map spec.ports
  exact congrArg _ ((List.filterMap_congr fun pm _ => readReport_ruleLine pm).trans hrules)

def countLine (n : Nat) : Str := "[OK] Boot config (".toList ++ digits n ++ " container(s) declared)".toList

theorem readLog_log (hspecs : ∀ spec ∈ specs, PlainCell spec.image) (n : Nat) :
    readLog (println (countLine n) ++ (specs.flatMap reportLines).flatMap println) =
      specs.flatMap reports := by
  have hlines : ∀ l ∈ countLine n :: specs.flatMap reportLines, '\n' ∉ l ∧ l.getLast? ≠ some '\r' := by
    refine List.forall_mem_cons.2 ⟨⟨?_, ?_⟩, fun l hl => ?_⟩
    · have hpre : '\n' ∉ "[OK] Boot config (".toList := by decide
      have hpost : '\n' ∉ " container(s) declared)".toList := by decide
      have hdigits : '\n' ∉ digits n := ShellCommand.RunOption.notMem_digits rfl n
      unfold countLine
      simp only [List.mem_append, hpre, hpost, hdigits, or_self, not_false_eq_true]
    · unfold countLine
      rw [List.getLast?_append_of_ne_nil _ (by decide)]
      decide
    · obtain ⟨spec, hspec, hl⟩ := List.mem_flatMap.1 hl
      exact reportLines_line (hspecs spec hspec) l hl
  have hcount : readReport (countLine n) = none := rfl
  rw [← List.flatMap_cons, readLog, lines_println hlines, List.filterMap_cons_none hcount,
    List.filterMap_flatMap]
  exact List.flatMap_congr fun spec _ => readReports spec

/-! ## The tables -/

theorem foldl_launched (specs : List ContainerSpec) (r : Roster) :
    ((specs.map Event.declared).foldl Roster.step r).kernel = specs.foldl Kernel.launched r.kernel := by
  induction specs generalizing r with
  | nil => rfl
  | cons spec specs ih => exact ih (r.launched spec)

theorem portForwards_launched (specs : List ContainerSpec) (k : Kernel) :
    (specs.foldl Kernel.launched k).portForwards.map (fun r => (⟨r.hostPort, r.containerPort⟩ : PortMapping)) =
      k.portForwards.map (fun r => ⟨r.hostPort, r.containerPort⟩) ++ specs.flatMap ContainerSpec.ports := by
  induction specs generalizing k with
  | nil => exact (List.append_nil _).symm
  | cons spec specs ih =>
    have hrules : ∀ ports : List PortMapping, ports.map (fun pm => (⟨pm.host, pm.container⟩ : PortMapping)) =
        ports := fun ports => List.map_id ports
    rw [List.foldl_cons, ih, List.flatMap_cons, ← List.append_assoc]
    refine congrArg (· ++ _) ?_
    rw [Kernel.launched, List.map_append, List.map_map]
    exact congrArg (_ ++ ·) (hrules spec.ports)

/-- From any configuration text that the parser gets through, a container is started of every list item that
starts with its image, in order and under that image; they are what the items declare where these are as the
parser expects them; the log reports each with its rules, which are the rules of the table; and then,
whatever is typed, `container list` shows these containers first and then those started since. -/
theorem boot_exact (pci : PciBus) {yaml log : Str} {k : Kernel} (h : boot yaml = some (k, log)) :
    ∃ containers, KernelConfig.fromYaml yaml = pure ⟨containers⟩ ∧
      containers.map (fun spec => some spec.image) =
        ((items yaml).filter (Item.Starts ·)).map Item.image? ∧
      ((∀ i ∈ items yaml,
          i.Starts ∧ i.PortsStart ∧ i.container?.isSome ∧ ¬ (i.followed = true ∧ i.EndsWithPort)) →
        (items yaml).map Item.container? = containers.map some) ∧
      k = ((containers.map Event.declared).foldl Roster.step .init).kernel ∧
      readLog log = containers.flatMap reports ∧
      k.portForwards.map (fun r => ⟨r.hostPort, r.containerPort⟩) = containers.flatMap ContainerSpec.ports ∧
      ∀ cmds : List ShellCommand, (∀ cmd ∈ cmds, ∃ line, ShellCommand.parse line = .ok cmd) →
        ((World.session containers cmds).filterMap Event.startedSpec).length < 2 ^ 64 →
        Throughout Roster.step
          (fun r => readListing (r.kernel.output pci .containerList) = r.launches.map Launch.shown)
          Roster.init (World.session containers cmds) := by
  unfold boot at h
  split at h
  · cases h
  next parsed hparsed =>
  have hnamed : ParseState.init.Named := ParseState.named_none rfl
  have hmode : ParseState.init.InMode .none := ParseState.inMode_none rfl rfl
  obtain ⟨⟨containers⟩, rfl, -, -⟩ :=
    parseLines_images hnamed hmode ((fromYaml_parseLines yaml).symm.trans hparsed)
  have hplain := plain_fromYaml hparsed
  dsimp only at h
  rw [foldl_startDeclared] at h
  cases h
  refine ⟨containers, hparsed, fromYaml_images hparsed, fun hsound => ?_,
    (foldl_launched containers .init).symm, readLog_log hplain _, ?_, ?_⟩
  · obtain ⟨specs, hspecs, hdeclared⟩ := fromYaml_of_sound hsound
    cases hparsed.symm.trans hspecs
    exact hdeclared
  · exact portForwards_launched containers .init
  · intro cmds hcmds hn pre hp
    have hrun : (pre.foldl Roster.step Roster.init).Plain :=
      Roster.plain_run Roster.plain_init fun e he => plainCell_session hplain hcmds e (hp.subset he)
    exact hrun.readListing (Roster.listed_at hn hp).registered.all

/-- The embedded configuration declares one container, and its port starts with the host. -/
theorem boot_exact_embedded : ∃ k log, boot DEFAULT_CONFIG_YAML = some (k, log) ∧
    ∃ containers, KernelConfig.fromYaml DEFAULT_CONFIG_YAML = pure ⟨containers⟩ ∧
      (items DEFAULT_CONFIG_YAML).map Item.container? = containers.map some ∧
      readLog log = containers.flatMap reports := by
  obtain ⟨⟨k, log⟩, h⟩ : ∃ r, boot DEFAULT_CONFIG_YAML = some r := by
    refine Option.isSome_iff_exists.1 ?_
    decide +kernel
  obtain ⟨containers, hparse, -, hdeclared, -, hlog, -⟩ := boot_exact .empty h
  refine ⟨k, log, h, containers, hparse, hdeclared ?_, hlog⟩
  have hsound : ∀ i ∈ items DEFAULT_CONFIG_YAML, i.Starts ∧
      (∀ l ∈ portLines .none i.lines, startsWith l.text "- host:" = true) ∧ i.container?.isSome ∧
        i.followed = false := by
    decide +kernel
  intro i hi
  obtain ⟨hstarts, hports, hread, hlast⟩ := hsound i hi
  exact ⟨hstarts, hports, hread, fun hends => by simp [hlast] at hends⟩

end OciKernel
