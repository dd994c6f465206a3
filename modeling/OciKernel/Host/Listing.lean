import OciKernel.Host.ContainerRun
import OciKernel.Host.Output
import OciKernel.Host.Paths
import OciKernel.Host.ShellGrammar

/-!
# Host.Listing

What the printed text tells about the state. Each reader here undoes one listing, and it is a reader of text
only: columns, colons and quotes.

* `listing_exact`: `container list` shows the history of the containers, in every state of a session.
* `info_exact`: `kernel info` shows the mappings of all containers started, in its table and in the value
  that it prints for `HOSTFWD`.
* `cat_echo`: `cat` prints what `echo` wrote until some command writes or removes that path.
-/

namespace OciKernel

open Text Transition

/-! ## `container list` -/

/-- An image that stands in a column without looking like anything else. -/
structure PlainCell (image : Str) : Prop where
  trim : trim image = image
  newline : '\n' ∉ image

/-- The rows below the two lines of the heading. -/
def readListing (text : Str) : List (Str × Str × Str) := ((lines text).drop 2).map readRow

/-- What should be listed of a container. -/
def Launch.shown (l : Launch) : Str × Str × Str :=
  (digits l.id.val.toNat, l.image, if l.stopped then "stopped".toList else "running".toList)

section Containers

variable {r : ContainerRecord} {k : Kernel} {pci : PciBus}

theorem blank_notMem_digits (n : Nat) : ' ' ∉ digits n :=
  ShellCommand.RunOption.notMem_digits rfl n

theorem status_plain (state : ContainerState) :
    ' ' ∉ state.status ∧ '\n' ∉ state.status ∧ state.status.getLast? ≠ some '\r' ∧ state.status ≠ [] := by
  cases state <;> decide

theorem mem_cell {c : Char} {width : Nat} {s : Str} (h : c ∈ cell width s) : c ∈ s ∨ c = ' ' := by
  obtain ⟨n, hn⟩ := cell_eq width s
  rw [hn] at h
  exact (List.mem_append.1 h).imp_right List.eq_of_mem_replicate

theorem readRow_listRow (h : PlainCell r.image) : readRow (Kernel.listRow r) =
    (digits r.id.val.toNat, r.image, r.state.status) :=
  readRow_row (blank_notMem_digits _) h.trim (status_plain r.state).1

theorem listRow_line (h : PlainCell r.image) :
    '\n' ∉ Kernel.listRow r ∧ (Kernel.listRow r).getLast? ≠ some '\r' := by
  obtain ⟨-, hn, hr, hne⟩ := status_plain r.state
  refine ⟨fun hmem => ?_, ?_⟩
  · rcases List.mem_append.1 hmem with hmem | hmem
    · rcases List.mem_append.1 hmem with hmem | hmem
      · rcases mem_cell hmem with hmem | hmem
        · exact ShellCommand.RunOption.notMem_digits rfl _ hmem
        · cases hmem
      · rcases mem_cell hmem with hmem | hmem
        · exact h.newline hmem
        · cases hmem
    · exact hn hmem
  · rw [Kernel.listRow, List.getLast?_append_of_ne_nil _ hne]
    exact hr

theorem listHeading :
    ('\n' ∉ "ID                IMAGE                STATUS".toList ∧
      "ID                IMAGE                STATUS".toList.getLast? ≠ some '\r') ∧
    '\n' ∉ "────────────────  ───────────────────  ─────────".toList ∧
      "────────────────  ───────────────────  ─────────".toList.getLast? ≠ some '\r' := by
  decide +kernel

theorem readListing_listText (h : ∀ r ∈ k.store.all, PlainCell r.image) :
    readListing k.listText =
      k.store.all.map fun r => (digits r.id.val.toNat, r.image, r.state.status) := by
  unfold Kernel.listText
  split
  · rename_i hnil
    rw [hnil]
    rfl
  · have hrows : ∀ l ∈ k.store.all.map Kernel.listRow, '\n' ∉ l ∧ l.getLast? ≠ some '\r' := by
      intro l hl
      obtain ⟨r, hr, rfl⟩ := List.mem_map.1 hl
      exact listRow_line (h r hr)
    have hlines := lines_println (List.forall_mem_cons.2 ⟨listHeading.1,
      List.forall_mem_cons.2 ⟨listHeading.2, hrows⟩⟩)
    rw [List.flatMap_cons, List.flatMap_cons, List.flatMap_map, ← List.append_assoc] at hlines
    rw [readListing, say, say, hlines, List.drop_succ_cons, List.drop_succ_cons, List.drop_zero,
      List.map_map]
    exact List.map_congr_left fun r hr => readRow_listRow (h r hr)

/-- A container with an image that stands in a column. -/
def Roster.Plain (r : Roster) : Prop := ∀ l ∈ r.launches, PlainCell l.image

theorem Roster.plain_init : Roster.init.Plain := List.forall_mem_nil _

theorem Roster.Plain.step {r : Roster} (h : r.Plain) (e : Event)
    (he : ∀ spec, e.startedSpec = some spec → PlainCell spec.image) : (r.step e).Plain := by
  intro l hl
  rcases r.step_cases e with ⟨spec, hs, -, hstep⟩ | ⟨id, -, -, hstep⟩ | ⟨-, -, hsame, -, -⟩
  · rw [hstep] at hl
    rcases List.mem_append.1 hl with hl | hl
    · exact h l hl
    · rw [List.mem_singleton.1 hl]
      exact he spec hs
  · rw [hstep] at hl
    obtain ⟨l₀, hl₀, rfl⟩ := List.mem_map.1 hl
    have himage : (l₀.stop id).image = l₀.image := by
      unfold Launch.stop
      split <;> rfl
    rw [himage]
    exact h l₀ hl₀
  · rw [hsame] at hl
    exact h l hl

theorem Roster.plain_run {r : Roster} (h : r.Plain) {es : List Event}
    (he : ∀ e ∈ es, ∀ spec, e.startedSpec = some spec → PlainCell spec.image) :
    (es.foldl Roster.step r).Plain := by
  induction es generalizing r with
  | nil => exact h
  | cons e es ih =>
    obtain ⟨he, hes⟩ := List.forall_mem_cons.1 he
    exact ih (h.step e he) hes

theorem plainCell_of_isWord {w : Str} (h : IsWord w) : PlainCell w where
  trim := trim_eq_self (fun c hc => h.notWhitespace c (List.mem_of_mem_head? hc))
    fun c hc => h.notWhitespace c (List.mem_of_getLast? hc)
  newline hmem := by cases h.notWhitespace _ hmem

/-- What the shell reads from a line has a word as its image. -/
theorem plainCell_of_parse {cmd : ShellCommand} {line : Str} (h : ShellCommand.parse line = .ok cmd) :
    ∀ spec, (Event.command cmd).startedSpec = some spec → PlainCell spec.image := by
  intro spec hspec
  have htypeable := ShellCommand.typeable_of_parse h
  cases cmd with
  | containerRun image ports volumes =>
    cases hspec
    exact plainCell_of_isWord htypeable.1
  | _ => cases hspec

theorem shown_record (l : Launch) :
    (digits l.record.id.val.toNat, l.record.image, l.record.state.status) = l.shown := by
  unfold Launch.shown Launch.record
  cases l.stopped <;> rfl

theorem Roster.Plain.readListing {r : Roster} (h : r.Plain)
    (hall : r.kernel.store.all = r.launches.map Launch.record) :
    readListing r.kernel.listText = r.launches.map Launch.shown := by
  have hrows : ∀ record ∈ r.kernel.store.all, PlainCell record.image := by
    intro record hr
    rw [hall] at hr
    obtain ⟨l, hl, rfl⟩ := List.mem_map.1 hr
    exact h l hl
  rw [readListing_listText hrows, hall, List.map_map]
  exact List.map_congr_left fun l _ => shown_record l

theorem plainCell_session {declared : List ContainerSpec} {cmds : List ShellCommand}
    (hdeclared : ∀ spec ∈ declared, PlainCell spec.image)
    (hcmds : ∀ cmd ∈ cmds, ∃ line, ShellCommand.parse line = .ok cmd) :
    ∀ e ∈ World.session declared cmds, ∀ spec, e.startedSpec = some spec → PlainCell spec.image := by
  intro e he
  rcases List.mem_append.1 he with he | he
  · obtain ⟨spec, hspec, rfl⟩ := List.mem_map.1 he
    rintro _ ⟨⟩
    exact hdeclared spec hspec
  · obtain ⟨cmd, hcmd, rfl⟩ := List.mem_map.1 he
    obtain ⟨line, hline⟩ := hcmds cmd hcmd
    exact plainCell_of_parse hline

/-- In every state of a session `container list` shows one row for each container that was started, in the
order of the starts, with its id, its image and whether it has been stopped. -/
theorem listing_exact (pci : PciBus) (declared : List ContainerSpec) (cmds : List ShellCommand)
    (hn : ((World.session declared cmds).filterMap Event.startedSpec).length < 2 ^ 64)
    (hdeclared : ∀ spec ∈ declared, PlainCell spec.image)
    (hcmds : ∀ cmd ∈ cmds, ∃ line, ShellCommand.parse line = .ok cmd) :
    Throughout Roster.step
      (fun r => readListing (r.kernel.output pci .containerList) = r.launches.map Launch.shown)
      Roster.init (World.session declared cmds) := by
  intro pre hp
  have hplain : (pre.foldl Roster.step Roster.init).Plain :=
    Roster.plain_run Roster.plain_init fun e he => plainCell_session hdeclared hcmds e (hp.subset he)
  exact hplain.readListing (Roster.listed_at hn hp).registered.all

/-- The container of the embedded configuration, and its stop. -/
theorem listing_exact_stopped :
    readListing (((World.session [nginxSpec] [.containerStop "1".toList]).foldl Roster.step
      Roster.init).kernel.output .empty .containerList) =
      [("1".toList, "nginx:latest".toList, "stopped".toList)] := by
  refine (listing_exact .empty [nginxSpec] [.containerStop "1".toList] (by decide)
    (List.forall_mem_singleton.2 ⟨by decide, by decide⟩)
    (List.forall_mem_singleton.2 ⟨"container stop 1".toList, by decide +kernel⟩) _
    (List.prefix_refl _)).trans ?_
  decide +kernel

end Containers

/-! ## `kernel info` -/

/-- A row of the table of rules. -/
def readForward (row : Str) : Option ActivePortForward :=
  if "  ctr ".toList.isPrefixOf row then
    match splitWhitespace row with
    | [_, id, _, host, _, container] => do
      let id ← parseUnsigned (2 ^ 64) id
      let (_, host) ← splitOnce ':' host
      let host ← parseUnsigned (2 ^ 16) host
      let (_, container) ← splitOnce ':' container
      let container ← parseUnsigned (2 ^ 16) container
      some ⟨UInt64.ofNat id, UInt16.ofNat host, UInt16.ofNat container⟩
    | _ => none
  else none

/-- The rules below the five lines of the heading. -/
def readForwards (text : Str) : List ActivePortForward := ((lines text).drop 5).filterMap readForward

/-- What the text has in double quotes. -/
def quoted (text : Str) : Str := ((afterFirst '"' text).getD []).takeWhile (· ≠ '"')

/-- One `hostfwd=tcp::HOST-:CONTAINER`. -/
def readHostfwd (rule : Str) : Option PortMapping := do
  let (host, container) ← splitOnce '-' rule
  let host ← parseUnsigned (2 ^ 16) (host.drop "hostfwd=tcp::".toList.length)
  let container ← parseUnsigned (2 ^ 16) (container.drop 1)
  some ⟨UInt16.ofNat host, UInt16.ofNat container⟩

/-- The rules of a `HOSTFWD`, each after a comma. -/
def readHostfwds (value : Str) : List (Option PortMapping) := ((value.splitOn ',').drop 1).map readHostfwd

section Forwards

variable {k : Kernel} {pci : PciBus}

theorem unwords_cons (w w' : Str) (ws : List Str) :
    unwords (w :: w' :: ws) = w ++ ' ' :: unwords (w' :: ws) := rfl

theorem unwords_singleton (w : Str) : unwords [w] = w := List.append_nil w

theorem isWord_digits (n : Nat) : IsWord (digits n) :=
  ⟨Nat.toDigits_ne_nil, fun c hc => not_isWhitespace_of_isSome (isSome_toDigit_toDigits n c hc)⟩

theorem isWord_labelled {label : Str} (h : IsWord label) (n : Nat) :
    IsWord (label ++ ':' :: digits n) := by
  refine ⟨by simp, fun c hc => ?_⟩
  rcases List.mem_append.1 hc with hc | hc
  · exact h.notWhitespace c hc
  · rcases List.mem_cons.1 hc with rfl | hc
    · rfl
    · exact (isWord_digits n).notWhitespace c hc

theorem readForward_forwardRow (r : ActivePortForward) : readForward (Kernel.forwardRow r) = some r := by
  have hwords : splitWhitespace (Kernel.forwardRow r) =
      ["ctr".toList, digits r.containerId.toNat, ":".toList,
        "host".toList ++ ':' :: digits r.hostPort.toNat, "→".toList,
        "container".toList ++ ':' :: digits r.containerPort.toNat] := by
    have hrow : Kernel.forwardRow r = [] ++ ' ' :: ([] ++ ' ' :: unwords
        ["ctr".toList, digits r.containerId.toNat, ":".toList,
          "host".toList ++ ':' :: digits r.hostPort.toNat, "→".toList,
          "container".toList ++ ':' :: digits r.containerPort.toNat]) := by
      have hctr : "  ctr ".toList = ' ' :: ' ' :: ("ctr".toList ++ [' ']) := rfl
      have hhost : " : host:".toList = ' ' :: (":".toList ++ ' ' :: ("host".toList ++ [':'])) := rfl
      have harrow : " → container:".toList = ' ' :: ("→".toList ++ ' ' :: ("container".toList ++ [':'])) :=
        rfl
      unfold Kernel.forwardRow
      rw [hctr, hhost, harrow]
      simp only [unwords_cons, unwords_singleton, List.append_assoc, List.cons_append, List.nil_append]
    rw [hrow, splitWhitespace_append rfl, splitWhitespace_append rfl, splitWhitespace_unwords]
    · rfl
    · simp only [List.forall_mem_cons]
      exact ⟨by decide, isWord_digits _, by decide, isWord_labelled (by decide) _, by decide,
        isWord_labelled (by decide) _, List.forall_mem_nil _⟩
  have hhost : splitOnce ':' ("host".toList ++ ':' :: digits r.hostPort.toNat) =
      some ("host".toList, digits r.hostPort.toNat) := splitOnce_append (by decide) _
  have hcontainer : splitOnce ':' ("container".toList ++ ':' :: digits r.containerPort.toNat) =
      some ("container".toList, digits r.containerPort.toNat) := splitOnce_append (by decide) _
  have hid : parseUnsigned (2 ^ 64) (digits r.containerId.toNat) = some r.containerId.toNat :=
    parseUnsigned_toDigits r.containerId.toNat_lt
  have hport : ∀ p : UInt16, parseUnsigned (2 ^ 16) (digits p.toNat) = some p.toNat :=
    fun p => parseUnsigned_toDigits p.toNat_lt
  have hrow : "  ctr ".toList.isPrefixOf (Kernel.forwardRow r) = true := by
    rw [List.isPrefixOf_iff_prefix]
    unfold Kernel.forwardRow
    simp only [List.append_assoc]
    exact List.prefix_append _ _
  rw [readForward, if_pos hrow, hwords]
  simp only [hid, hhost, hcontainer, hport, Option.bind_eq_bind, Option.bind_some, UInt64.ofNat_toNat,
    UInt16.ofNat_toNat]

theorem readHostfwd_hostfwd (pm : PortMapping) :
    readHostfwd ("hostfwd=tcp::".toList ++ digits pm.host.toNat ++ "-:".toList ++
      digits pm.container.toNat) = some pm := by
  have hport : ∀ p : UInt16, parseUnsigned (2 ^ 16) (digits p.toNat) = some p.toNat :=
    fun p => parseUnsigned_toDigits p.toNat_lt
  have hdash : '-' ∉ "hostfwd=tcp::".toList ++ digits pm.host.toNat := by
    rw [List.mem_append, not_or]
    exact ⟨by decide, ShellCommand.RunOption.notMem_digits rfl _⟩
  have hrule : "hostfwd=tcp::".toList ++ digits pm.host.toNat ++ "-:".toList ++
      digits pm.container.toNat = "hostfwd=tcp::".toList ++ digits pm.host.toNat ++
        '-' :: ':' :: digits pm.container.toNat := by
    rw [List.append_assoc _ "-:".toList]
    rfl
  rw [readHostfwd, hrule, splitOnce_append hdash]
  simp only [Option.bind_eq_bind, Option.bind_some, List.drop_left, List.drop_succ_cons, List.drop_zero,
    hport, UInt16.ofNat_toNat]

/-- The characters of a printed piece, none of them `bad`. -/
def Avoids (bad s : Str) : Prop := ∀ c ∈ s, c ∉ bad

instance (bad s : Str) : Decidable (Avoids bad s) := List.decidableBAll _ s

theorem Avoids.append {bad s t : Str} (hs : Avoids bad s) (ht : Avoids bad t) : Avoids bad (s ++ t) :=
  List.forall_mem_append.2 ⟨hs, ht⟩

theorem avoids_digits {bad : Str} (h : bad.all fun c => (toDigit 10 c).isNone) (n : Nat) :
    Avoids bad (digits n) := by
  intro c hc hbad
  have hdigit := isSome_toDigit_toDigits n c hc
  rw [Option.isNone_iff_eq_none.1 (List.all_eq_true.1 h c hbad)] at hdigit
  cases hdigit

/-- What breaks a line or a quotation. -/
def breaks : Str := ['\n', '\r', '"']

theorem avoids_forwardRow (r : ActivePortForward) : Avoids breaks (Kernel.forwardRow r) := by
  have hdigits : ∀ n, Avoids breaks (digits n) := avoids_digits (by decide)
  unfold Kernel.forwardRow
  exact (((((show Avoids breaks "  ctr ".toList by decide).append (hdigits _)).append (by decide)).append
    (hdigits _)).append (by decide)).append (hdigits _)

theorem avoids_hostfwds (k : Kernel) : Avoids breaks k.hostfwds := by
  have hdigits : ∀ n, Avoids breaks (digits n) := avoids_digits (by decide)
  intro c hc
  obtain ⟨r, -, hc⟩ := List.mem_flatMap.1 hc
  unfold hostfwd at hc
  exact ((((show Avoids breaks ",hostfwd=tcp::".toList by decide).append (hdigits _)).append
    (by decide)).append (hdigits _)) c hc

theorem Avoids.mono {bad bad' s : Str} (h : Avoids bad s) (hsub : bad' ⊆ bad) : Avoids bad' s :=
  fun c hc hbad => h c hc (hsub hbad)

/-- The lines before the value of `HOSTFWD`. -/
def infoBefore (k : Kernel) : List Str :=
  ["OCI Kernel 0.1.0  arch=x86_64  build=no_std".toList,
    "Heap: 8MB at 0xFFFF_C000_0000_0000".toList,
    "Net:  smoltcp 0.11 / virtio-net / 10.0.2.15/24".toList,
    "      QEMU SLIRP NAT — gateway 10.0.2.2".toList, "Ports:".toList] ++
  k.portForwards.map Kernel.forwardRow

def hostfwdLine (k : Kernel) : Str := "  QEMU: make qemu HOSTFWD=\"".toList ++ k.hostfwds ++ "\"".toList

def hardwareLine : Str := "  Real HW: access via <machine-ip>:<host-port> directly".toList

theorem infoText_eq (h : k.portForwards ≠ []) :
    k.infoText = (infoBefore k ++ [hostfwdLine k, hardwareLine]).flatMap println := by
  unfold Kernel.infoText infoBefore hostfwdLine hardwareLine say
  rw [if_neg h, List.flatMap_append, List.flatMap_append, List.flatMap_map]
  simp only [List.flatMap_cons, List.flatMap_nil, List.append_assoc, List.append_nil]

theorem infoText_nil (h : k.portForwards = []) : k.infoText =
    ["OCI Kernel 0.1.0  arch=x86_64  build=no_std".toList,
      "Heap: 8MB at 0xFFFF_C000_0000_0000".toList,
      "Net:  smoltcp 0.11 / virtio-net / 10.0.2.15/24".toList,
      "      QEMU SLIRP NAT — gateway 10.0.2.2".toList,
      "Ports: (none — use 'container run -p host:ctr')".toList].flatMap println := by
  unfold Kernel.infoText say
  rw [if_pos h]
  simp only [List.flatMap_cons, List.flatMap_nil, List.append_assoc, List.append_nil]

theorem avoids_infoBefore (k : Kernel) : ∀ l ∈ infoBefore k, Avoids breaks l := by
  refine List.forall_mem_append.2 ⟨by decide +kernel, fun l hl => ?_⟩
  obtain ⟨r, -, rfl⟩ := List.mem_map.1 hl
  exact avoids_forwardRow r

theorem line_of_avoids {l : Str} (h : Avoids ['\n', '\r'] l) : '\n' ∉ l ∧ l.getLast? ≠ some '\r' :=
  ⟨fun hmem => h _ hmem (by decide), fun hlast => h _ (List.mem_of_getLast? hlast) (by decide)⟩

theorem lines_infoText (h : k.portForwards ≠ []) :
    lines k.infoText = infoBefore k ++ [hostfwdLine k, hardwareLine] := by
  have hsub : ['\n', '\r'] ⊆ breaks := by decide
  have hquote : Avoids ['\n', '\r'] (hostfwdLine k) :=
    ((show Avoids _ "  QEMU: make qemu HOSTFWD=\"".toList by decide).append
      ((avoids_hostfwds k).mono hsub)).append (by decide)
  have hlast : Avoids ['\n', '\r'] hardwareLine := by decide +kernel
  rw [infoText_eq h]
  refine lines_println (List.forall_mem_append.2
    ⟨fun l hl => line_of_avoids ((avoids_infoBefore k l hl).mono hsub), ?_⟩)
  exact List.forall_mem_cons.2 ⟨line_of_avoids hquote, List.forall_mem_singleton.2 (line_of_avoids hlast)⟩

theorem readForwards_infoText (k : Kernel) : readForwards k.infoText = k.portForwards := by
  by_cases hnil : k.portForwards = []
  · have hlines : ∀ l ∈ ["OCI Kernel 0.1.0  arch=x86_64  build=no_std".toList,
        "Heap: 8MB at 0xFFFF_C000_0000_0000".toList,
        "Net:  smoltcp 0.11 / virtio-net / 10.0.2.15/24".toList,
        "      QEMU SLIRP NAT — gateway 10.0.2.2".toList,
        "Ports: (none — use 'container run -p host:ctr')".toList],
        '\n' ∉ l ∧ l.getLast? ≠ some '\r' := by decide +kernel
    rw [readForwards, infoText_nil hnil, lines_println hlines, hnil]
    rfl
  · have hdrop : (infoBefore k ++ [hostfwdLine k, hardwareLine]).drop 5 =
        k.portForwards.map Kernel.forwardRow ++ [hostfwdLine k, hardwareLine] := rfl
    have hquote : readForward (hostfwdLine k) = none := rfl
    have hlast : readForward hardwareLine = none := rfl
    have hcomp : readForward ∘ Kernel.forwardRow = some := funext readForward_forwardRow
    rw [readForwards, lines_infoText hnil, hdrop, List.filterMap_append, List.filterMap_map, hcomp,
      List.filterMap_some, List.filterMap_cons_none hquote, List.filterMap_cons_none hlast]
    exact List.append_nil _

/-- Nothing before the value has a quotation mark. -/
theorem quoted_infoText (k : Kernel) : quoted k.infoText = k.hostfwds := by
  by_cases h : k.portForwards = []
  · rw [infoText_nil h, Kernel.hostfwds, h, List.flatMap_nil]
    decide +kernel
  have htext : k.infoText = ((infoBefore k).flatMap println ++ "  QEMU: make qemu HOSTFWD=".toList) ++
      '"' :: (k.hostfwds ++ '"' :: '\n' :: println hardwareLine) := by
    have hline : println (hostfwdLine k) = "  QEMU: make qemu HOSTFWD=".toList ++
        '"' :: (k.hostfwds ++ '"' :: ['\n']) := by
      have hopen : "  QEMU: make qemu HOSTFWD=\"".toList = "  QEMU: make qemu HOSTFWD=".toList ++ ['"'] :=
        rfl
      have hclose : "\"".toList = ['"'] := rfl
      unfold hostfwdLine println
      rw [hopen, hclose]
      simp only [List.append_assoc, List.cons_append, List.nil_append]
    rw [infoText_eq h, List.flatMap_append, List.flatMap_cons, List.flatMap_singleton, hline]
    simp only [List.append_assoc, List.cons_append, List.nil_append]
  have hbefore : '"' ∉ (infoBefore k).flatMap println ++ "  QEMU: make qemu HOSTFWD=".toList := by
    rw [List.mem_append, not_or]
    refine ⟨fun hmem => ?_, by decide⟩
    obtain ⟨l, hl, hmem⟩ := List.mem_flatMap.1 hmem
    rcases List.mem_append.1 hmem with hmem | hmem
    · exact avoids_infoBefore k l hl _ hmem (by decide)
    · simp at hmem
  have hvalue : '"' ∉ k.hostfwds := fun hmem => avoids_hostfwds k _ hmem (by decide)
  rw [quoted, htext, afterFirst_append hbefore, Option.getD_some, takeWhile_ne_append hvalue]

theorem flatMap_comma (first : Str) (pieces : List Str) :
    [','].intercalate (first :: pieces) = first ++ pieces.flatMap (',' :: ·) := by
  induction pieces generalizing first with
  | nil => simp
  | cons piece pieces ih =>
    rw [List.intercalate_cons_cons, ih, List.flatMap_cons, List.append_assoc]
    rfl

/-- Each rule starts at a comma and has no other. -/
theorem readHostfwds_hostfwds (k : Kernel) : readHostfwds k.hostfwds =
    k.portForwards.map fun r => some ⟨r.hostPort, r.containerPort⟩ := by
  let rule : ActivePortForward → Str := fun r =>
    "hostfwd=tcp::".toList ++ digits r.hostPort.toNat ++ "-:".toList ++ digits r.containerPort.toNat
  have hcomma : ∀ piece ∈ [] :: k.portForwards.map rule, ',' ∉ piece := by
    refine List.forall_mem_cons.2 ⟨List.not_mem_nil, fun piece hpiece => ?_⟩
    obtain ⟨r, -, rfl⟩ := List.mem_map.1 hpiece
    have hdigits : ∀ n, Avoids [','] (digits n) := avoids_digits (by decide)
    have havoid : Avoids [','] (rule r) :=
      (((show Avoids _ "hostfwd=tcp::".toList by decide).append (hdigits _)).append (by decide)).append
        (hdigits _)
    exact fun hmem => havoid _ hmem (List.mem_singleton_self _)
  have hpieces : k.hostfwds = [','].intercalate ([] :: k.portForwards.map rule) := by
    rw [flatMap_comma, List.flatMap_map, List.nil_append]
    rfl
  rw [readHostfwds, hpieces, List.splitOn_intercalate _ hcomma (List.cons_ne_nil _ _),
    List.drop_succ_cons, List.drop_zero, List.map_map]
  exact List.map_congr_left fun r _ => readHostfwd_hostfwd ⟨r.hostPort, r.containerPort⟩

/-- In every state of a session, `kernel info` shows the mappings of all containers started so far, in
the order of the starts: with their containers in the table, and alone in the value of `HOSTFWD`. -/
theorem info_exact (pci : PciBus) (declared : List ContainerSpec) (cmds : List ShellCommand) :
    Throughout World.step
      (fun w => readForwards (w.kernel.output pci .kernelInfo) = w.started.flatMap Started.rules ∧
        readHostfwds (quoted (w.kernel.output pci .kernelInfo)) =
          (w.started.flatMap Started.ports).map some)
      World.init (World.session declared cmds) := by
  intro pre _
  have htable : (pre.foldl World.step World.init).Tabulated :=
    List.foldlRecOn pre World.step World.tabulated_init fun w hw e _ => hw.step e
  have hout : ∀ k : Kernel, k.output pci .kernelInfo = k.infoText := fun k => rfl
  rw [hout, readForwards_infoText, quoted_infoText, readHostfwds_hostfwds, htable]
  refine ⟨rfl, ?_⟩
  rw [List.map_flatMap, List.map_flatMap]
  refine List.flatMap_congr fun s _ => ?_
  rw [Started.rules, List.map_map]
  rfl

end Forwards

/-! ## `cat` and `echo` -/

namespace Kernel

variable {k : Kernel} {p : Str}

/-- The command writes a file at `p` or removes the one there. -/
def Touches (p : Str) (k : Kernel) (cmd : ShellCommand) : Prop :=
  k.written cmd = some p ∨ ∃ path, cmd = .rm path ∧ k.resolvePath path = p

theorem read_write_of_ne {m : OverlayMount} {q : Str} (h : q ≠ p) (data : Bytes) :
    (m.write q data).read p = m.read p := by
  have hpath : (OverlayOp.write q data).path ≠ p := h
  exact OverlayMount.apply_read_of_ne m hpath

theorem rootFs_execute {cmd : ShellCommand} (hwritten : k.written cmd = none)
    (hrm : ∀ path, cmd ≠ .rm path) : (k.execute cmd).rootFs = k.rootFs := by
  cases cmd with
  | rm path => exact absurd rfl (hrm path)
  | echo text file =>
    cases file with
    | none => rfl
    | some dest => cases hwritten
  | touch path =>
    simp only [written, execute] at hwritten ⊢
    cases he : k.rootFs.exists (k.resolvePath path) with
    | true => rfl
    | false => simp [he] at hwritten
  | mkdir path => cases hwritten
  | cd path | imagePull name tag | volumeCreate name | containerStop id =>
    simp only [execute]
    split <;> rfl
  | _ => rfl

theorem read_execute {cmd : ShellCommand} (h : ¬ Touches p k cmd) :
    (k.execute cmd).rootFs.read p = k.rootFs.read p := by
  obtain ⟨hp, hrm⟩ := not_or.1 h
  by_cases hcmd : ∃ path, cmd = .rm path
  · obtain ⟨path, rfl⟩ := hcmd
    have hne : (OverlayOp.remove (k.resolvePath path)).path ≠ p := fun he => hrm ⟨path, rfl, he⟩
    exact OverlayMount.apply_read_of_ne k.rootFs hne
  · rcases k.execute_rootFs cmd with ⟨q, data, hw, -, heq⟩ | ⟨hw, -, -⟩ | ⟨-, heq⟩
    · rw [heq]
      refine read_write_of_ne ?_ data
      rintro rfl
      exact hp hw
    · rw [rootFs_execute hw fun path he => hcmd ⟨path, he⟩]
    · rw [heq]

theorem read_run {cmds : List ShellCommand} (h : StepsMeet execute (fun k cmd => ¬ Touches p k cmd) k cmds) :
    (cmds.foldl execute k).rootFs.read p = k.rootFs.read p := by
  induction cmds generalizing k with
  | nil => rfl
  | cons cmd cmds ih =>
    obtain ⟨hcmd, hcmds⟩ := stepsMeet_cons.1 h
    exact (ih hcmds).trans (read_execute hcmd)

theorem read_echo (k : Kernel) (text file : Str) :
    (k.execute (.echo text (some file))).rootFs.read (k.resolvePath file) =
      .ok (asBytes (text ++ ['\n'])) :=
  OverlayMount.read_of_upper ((OverlayMount.write_upper_read ..).trans (if_pos rfl))

/-- What `echo` wrote is what `cat` prints, under any spelling of the path and from any directory, after
any commands none of which writes or removes that file. -/
theorem cat_echo (pci : PciBus) (k : Kernel) (text file path : Str) (cmds : List ShellCommand)
    (hcmds : StepsMeet execute (fun k' cmd => ¬ Touches (k.resolvePath file) k' cmd)
      (k.execute (.echo text (some file))) cmds)
    (hpath : (cmds.foldl execute (k.execute (.echo text (some file)))).location path = k.location file) :
    (cmds.foldl execute (k.execute (.echo text (some file)))).output pci (.cat path) =
      text ++ ['\n'] := by
  have hresolve : (cmds.foldl execute (k.execute (.echo text (some file)))).resolvePath path =
      k.resolvePath file := by
    rw [resolvePath_location, hpath, ← resolvePath_location]
  have hread := (read_run hcmds).trans (read_echo k text file)
  have hcat : ∀ k : Kernel, k.output pci (.cat path) = k.catText path := fun k => rfl
  rw [hcat, catText, hresolve, hread]
  dsimp only
  rw [show asBytes (text ++ ['\n']) = toUtf8 (text ++ ['\n']) from rfl, fromUtf8_toUtf8]

/-- A file of the home directory, read from `/tmp` after some other commands. -/
theorem cat_echo_home :
    (([.touch "../root/x".toList, .mkdir "y".toList, .cd "/tmp".toList] : List ShellCommand).foldl execute
      (init.execute (.echo "hi".toList (some "x".toList)))).output .empty (.cat "/home/./root/x".toList) =
      "hi\n".toList := by
  refine cat_echo .empty init "hi".toList "x".toList "/home/./root/x".toList _ ?_ (by decide +kernel)
  refine stepsMeet_cons.2 ⟨?_, stepsMeet_cons.2 ⟨?_, stepsMeet_cons.2 ⟨?_, stepsMeet_nil⟩⟩⟩
  · rintro (h | ⟨_, h, _⟩)
    · revert h
      decide +kernel
    · cases h
  · rintro (h | ⟨_, h, _⟩)
    · revert h
      decide +kernel
    · cases h
  · rintro (h | ⟨_, h, _⟩)
    · revert h
      decide +kernel
    · cases h

end Kernel

end OciKernel
