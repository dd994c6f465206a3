import OciKernel.Host.Shell

/-!
# Host.ShellGrammar

The language of the shell. `ShellCommand.line` writes a command out in one spelling, and `Typeable` says
which commands some line stands for: each argument is a word, an image name has no colon, the text of an
`echo` is words between single blanks and none of them is a redirection.

* `parse_line`: the line of a typeable command is read back as that command.
* `typeable_of_parse`: every command that a line is read as is typeable.
* `grammar_exact`: so `parse` accepts exactly the typeable commands, and `line` is a right inverse of it.
-/

namespace OciKernel

open Text

/-- A volume as it stands on a command line. -/
structure VolumeMount.Plain (v : VolumeMount) : Prop where
  source : ∀ c ∈ v.source, c ≠ ':' ∧ isWhitespace c = false
  target : ∀ c ∈ v.target, c ≠ ':' ∧ isWhitespace c = false

namespace ShellCommand

/-! ## Lines -/

def portWords (port : PortMapping) : List Str := ["-p".toList, RunOption.portText port]

def volumeWords (v : VolumeMount) : List Str :=
  ["-v".toList, v.source ++ ':' :: (v.target ++ RunOption.accessText false v.access)]

/-- The words of the command, the shorter spelling where there are several. -/
def words : ShellCommand → List Str
  | .ls path => "ls".toList :: path.toList
  | .cd path => ["cd".toList, path]
  | .pwd => ["pwd".toList]
  | .cat path => ["cat".toList, path]
  | .echo text file => "echo".toList :: (splitWhitespace text ++ file.elim [] fun f => [">".toList, f])
  | .touch path => ["touch".toList, path]
  | .mkdir path => ["mkdir".toList, path]
  | .rm path => ["rm".toList, path]
  | .clear => ["clear".toList]
  | .uname all => "uname".toList :: (if all then ["-a".toList] else [])
  | .free => ["free".toList]
  | .lsblk => ["lsblk".toList]
  | .df => ["df".toList]
  | .ps => ["ps".toList]
  | .containerRun image ports volumes => "container".toList :: "run".toList :: image ::
      (ports.flatMap portWords ++ volumes.flatMap volumeWords)
  | .containerStop id => ["container".toList, "stop".toList, id]
  | .containerLogs id follow => "container".toList :: "logs".toList ::
      (if follow then ["-f".toList, id] else [id])
  | .containerInspect id => ["container".toList, "inspect".toList, id]
  | .containerList => ["container".toList, "list".toList]
  | .imagePull name tag => ["image".toList, "pull".toList, name ++ ':' :: tag]
  | .imageList => ["image".toList, "list".toList]
  | .imageRemove name tag => ["image".toList, "rm".toList, name ++ ':' :: tag]
  | .volumeCreate name => ["volume".toList, "create".toList, name]
  | .volumeRemove name => ["volume".toList, "rm".toList, name]
  | .kernelInfo => ["kernel".toList, "info".toList]
  | .help => ["help".toList]

def line (cmd : ShellCommand) : Str := unwords cmd.words

/-- The name and the tag of an image, without whitespace; the name ends at the first colon. -/
structure Reference (name tag : Str) : Prop where
  name : ∀ c ∈ name, c ≠ ':' ∧ isWhitespace c = false
  tag : ∀ c ∈ tag, isWhitespace c = false

/-- What `echo` can say. -/
structure EchoText (text : Str) : Prop where
  unwords : unwords (splitWhitespace text) = text
  redirection : ">".toList ∉ splitWhitespace text

/-- Some line is read as the command. -/
def Typeable : ShellCommand → Prop
  | .ls path => ∀ p ∈ path, IsWord p
  | .cd path | .cat path | .touch path | .mkdir path | .rm path => IsWord path
  | .echo text file => EchoText text ∧ ∀ f ∈ file, IsWord f
  | .containerRun image _ volumes => IsWord image ∧ ∀ v ∈ volumes, v.Plain
  | .containerStop id | .containerLogs id _ | .containerInspect id => IsWord id
  | .imagePull name tag | .imageRemove name tag => Reference name tag
  | .volumeCreate name | .volumeRemove name => IsWord name
  | .pwd | .clear | .uname _ | .free | .lsblk | .df | .ps | .containerList | .imageList
  | .kernelInfo | .help => True

/-! ## From a command to its line -/

section Write

variable {name tag text : Str}

theorem isWord_splitWhitespace (s : Str) : ∀ w ∈ splitWhitespace s, IsWord w := by
  intro w hw
  obtain ⟨hmem, hne⟩ := List.mem_filter.1 hw
  exact ⟨by simpa using hne, fun c hc => by simpa using not_of_mem_splitOnP hmem c hc⟩

theorem Reference.isWord (h : Reference name tag) : IsWord (name ++ ':' :: tag) := by
  refine ⟨by simp, fun c hc => ?_⟩
  rcases List.mem_append.1 hc with hc | hc
  · exact (h.name c hc).2
  · rcases List.mem_cons.1 hc with rfl | hc
    · rfl
    · exact h.tag c hc

theorem Reference.split (h : Reference name tag) : splitImageTag (name ++ ':' :: tag) = (name, tag) :=
  ImageRef.splitImageTag_of_no_colon (fun hc => (h.name ':' hc).1 rfl) (some tag)

theorem isWord_volumeWords {v : VolumeMount} (h : v.Plain) : ∀ w ∈ volumeWords v, IsWord w :=
  (RunOption.volume false false ⟨v, h.source, h.target⟩).isWord_args

/-- The words of a typeable command are words. -/
theorem Typeable.isWord_words {cmd : ShellCommand} (h : cmd.Typeable) : ∀ w ∈ cmd.words, IsWord w := by
  cases cmd with
  | ls path =>
    cases path with
    | none => simp only [words, Option.toList_none, List.forall_mem_singleton]; decide
    | some path =>
      simp only [words, Option.toList_some, List.forall_mem_cons]
      exact ⟨by decide, h path rfl, List.forall_mem_nil _⟩
  | echo text file =>
    simp only [words, List.forall_mem_cons, List.forall_mem_append]
    refine ⟨by decide, isWord_splitWhitespace text, ?_⟩
    cases file with
    | none => exact List.forall_mem_nil _
    | some f =>
      simp only [Option.elim_some, List.forall_mem_cons]
      exact ⟨by decide, h.2 f rfl, List.forall_mem_nil _⟩
  | containerRun image ports volumes =>
    simp only [words, List.forall_mem_cons, List.forall_mem_append, List.forall_mem_flatMap]
    refine ⟨by decide, by decide, h.1, fun port _ => ?_, fun v hv => isWord_volumeWords (h.2 v hv)⟩
    exact (RunOption.publish false port).isWord_args
  | containerLogs id follow =>
    cases follow with
    | true =>
      simp only [words, if_true, List.forall_mem_cons]
      exact ⟨by decide, by decide, by decide, h, List.forall_mem_nil _⟩
    | false =>
      simp only [words, Bool.false_eq_true, if_false, List.forall_mem_cons]
      exact ⟨by decide, by decide, h, List.forall_mem_nil _⟩
  | imagePull name tag | imageRemove name tag =>
    simp only [words, List.forall_mem_cons]
    exact ⟨by decide, by decide, Reference.isWord h, List.forall_mem_nil _⟩
  | containerStop id | containerInspect id | volumeCreate id | volumeRemove id =>
    simp only [words, List.forall_mem_cons]
    exact ⟨by decide, by decide, h, List.forall_mem_nil _⟩
  | cd path | cat path | touch path | mkdir path | rm path =>
    simp only [words, List.forall_mem_cons]
    exact ⟨by decide, h, List.forall_mem_nil _⟩
  | uname all => cases all <;> decide
  | pwd | clear | free | lsblk | df | ps | containerList | imageList | kernelInfo | help => decide

/-- By induction on the volumes, then on the ports. -/
theorem readOptions_words (ports : List PortMapping) {volumes : List VolumeMount}
    (h : ∀ v ∈ volumes, v.Plain) :
    readOptions (ports.flatMap portWords ++ volumes.flatMap volumeWords) = some (ports, volumes) := by
  have hvolumes : readOptions (volumes.flatMap volumeWords) = some ([], volumes) := by
    induction volumes with
    | nil => rfl
    | cons v volumes ih =>
      obtain ⟨hv, h⟩ := List.forall_mem_cons.1 h
      exact Options.readBoth_right rfl rfl
        (RunOption.parseVolumeArg_text false ⟨v, hv.source, hv.target⟩) (ih h)
  induction ports with
  | nil => exact hvolumes
  | cons port ports ih => exact Options.readBoth_left rfl (RunOption.parsePortArg_portText port) ih

/-- The redirection is at the `>` that follows the text. -/
theorem parseEcho_words {text : Str} {file : Option Str} (h : EchoText text) :
    parseEcho (splitWhitespace text ++ file.elim [] fun f => [">".toList, f]) = .echo text file := by
  have hall : ∀ w ∈ splitWhitespace text, decide (w ≠ ">".toList) = true := by
    intro w hw
    rw [decide_eq_true_iff]
    rintro rfl
    exact h.redirection hw
  cases file with
  | none => rw [Option.elim_none, List.append_nil, parseEcho, if_neg h.redirection, h.unwords]
  | some f =>
    have htake : (splitWhitespace text ++ [">".toList, f]).takeWhile (· ≠ ">".toList) =
        splitWhitespace text := by
      rw [List.takeWhile_append_of_pos hall, List.takeWhile_cons_of_neg (by simp), List.append_nil]
    have hdrop : (splitWhitespace text ++ [">".toList, f]).dropWhile (· ≠ ">".toList) =
        [">".toList, f] := by
      rw [List.dropWhile_append_of_pos hall, List.dropWhile_cons_of_neg (by simp)]
    rw [Option.elim_some, parseEcho, if_pos (by simp), htake, hdrop, h.unwords]
    rfl

theorem parseWords_words {cmd : ShellCommand} (h : cmd.Typeable) : parseWords cmd.words = .ok cmd := by
  cases cmd with
  | ls path => cases path <;> rfl
  | uname all => cases all <;> rfl
  | containerLogs id follow => cases follow <;> rfl
  | echo text file => exact congrArg Except.ok (parseEcho_words h.1)
  | containerRun image ports volumes =>
    have hwords := splitWhitespace_unwords (Typeable.isWord_words h)
    have hparse := parse_run hwords (readOptions_words ports h.2)
    rwa [parse_eq hwords] at hparse
  | imagePull name tag =>
    have hparse : parseWords (words (.imagePull name tag)) =
        .ok (.imagePull (splitImageTag (name ++ ':' :: tag)).1 (splitImageTag (name ++ ':' :: tag)).2) :=
      rfl
    rw [hparse, Reference.split h]
  | imageRemove name tag =>
    have hparse : parseWords (words (.imageRemove name tag)) =
        .ok (.imageRemove (splitImageTag (name ++ ':' :: tag)).1
          (splitImageTag (name ++ ':' :: tag)).2) := rfl
    rw [hparse, Reference.split h]
  | _ => rfl

theorem parse_line {cmd : ShellCommand} (h : cmd.Typeable) : parse cmd.line = .ok cmd :=
  (parse_eq (splitWhitespace_unwords h.isWord_words)).trans (parseWords_words h)

end Write

/-! ## From a line to its command -/

section Read

variable {args ws : List Str} {cmd : ShellCommand}

theorem reference_of_split {w : Str} (h : IsWord w) :
    Reference (splitImageTag w).1 (splitImageTag w).2 := by
  unfold splitImageTag
  cases hs : splitOnce ':' w with
  | none =>
    have hlatest : ∀ c ∈ "latest".toList, isWhitespace c = false := not_isWhitespace_of_all rfl
    refine ⟨fun c hc => ⟨?_, h.notWhitespace c hc⟩, hlatest⟩
    rintro rfl
    exact notMem_of_splitOnce hs hc
  | some r =>
    obtain ⟨name, tag⟩ := r
    obtain ⟨rfl, hname⟩ := splitOnce_eq_some hs
    refine ⟨fun c hc => ⟨?_, h.notWhitespace c (by simp [hc])⟩,
      fun c hc => h.notWhitespace c (by simp [hc])⟩
    rintro rfl
    exact hname hc

theorem plain_of_parseVolumeArg {w : Str} {v : VolumeMount} (h : IsWord w)
    (hv : parseVolumeArg w = .ok v) : v.Plain := by
  unfold parseVolumeArg at hv
  cases hs : splitOnce ':' w with
  | none => simp [hs] at hv
  | some r =>
    obtain ⟨source, rest⟩ := r
    obtain ⟨rfl, hsource⟩ := splitOnce_eq_some hs
    have hsource : ∀ c ∈ source, c ≠ ':' ∧ isWhitespace c = false := fun c hc =>
      ⟨fun he => hsource (he ▸ hc), h.notWhitespace c (by simp [hc])⟩
    rw [hs] at hv
    dsimp only at hv
    cases ht : splitOnce ':' rest with
    | none =>
      rw [ht] at hv
      cases hv
      exact ⟨hsource, fun c hc => ⟨fun he => notMem_of_splitOnce ht (he ▸ hc),
        h.notWhitespace c (by simp [hc])⟩⟩
    | some r =>
      obtain ⟨target, access⟩ := r
      obtain ⟨rfl, htarget⟩ := splitOnce_eq_some ht
      rw [ht] at hv
      cases hv
      exact ⟨hsource, fun c hc => ⟨fun he => htarget (he ▸ hc), h.notWhitespace c (by simp [hc])⟩⟩

theorem plain_of_parseVolumes {volumes : List VolumeMount} (h : ∀ w ∈ args, IsWord w)
    (hv : parseVolumes args = .ok volumes) : ∀ v ∈ volumes, v.Plain := by
  intro v hmem
  obtain ⟨w, hw, hparse⟩ := Options.Flag.parse_of_mem hv v hmem
  exact plain_of_parseVolumeArg (h w hw) hparse

theorem echoText_unwords (h : ∀ w ∈ ws, IsWord w) (hne : ">".toList ∉ ws) : EchoText (unwords ws) := by
  have hsplit := splitWhitespace_unwords h
  exact ⟨by rw [hsplit], by rwa [hsplit]⟩

theorem typeable_parseEcho (h : ∀ w ∈ args, IsWord w) : (parseEcho args).Typeable := by
  unfold parseEcho
  split
  · refine ⟨echoText_unwords (fun w hw => h w (List.takeWhile_subset _ hw)) ?_, fun f hf => ?_⟩
    · intro hmem
      simpa using List.mem_takeWhile_imp hmem
    · exact h f ((List.dropWhile_sublist _).subset (List.mem_of_getElem? hf))
  · rename_i hne
    exact ⟨echoText_unwords h hne, fun f hf => by cases hf⟩

theorem typeable_of_parseBare {c : ShellCommand} (hc : c.Typeable) (h : parseBare c args = .ok cmd) :
    cmd.Typeable := by
  cases args with
  | nil =>
    cases h
    exact hc
  | cons w args => cases h

theorem typeable_of_parsePath {missing : ShellError} {c : Str → ShellCommand}
    (hc : ∀ p, IsWord p → (c p).Typeable) (hw : ∀ w ∈ args, IsWord w)
    (h : parsePath missing c args = .ok cmd) : cmd.Typeable := by
  match args, h with
  | [path], h =>
    cases h
    exact hc path (hw path (List.mem_singleton_self _))

theorem typeable_of_parseContainer (hw : ∀ w ∈ args, IsWord w) (h : parseContainer args = .ok cmd) :
    cmd.Typeable := by
  cases args with
  | nil => cases h
  | cons word args =>
    obtain ⟨-, hw⟩ := List.forall_mem_cons.1 hw
    unfold parseContainer at h
    dsimp only at h
    split_ifs at h
    · -- `list`
      split at h
      · cases h
        trivial
      · cases h
    · -- `pull`
      split at h
      · cases h
        exact reference_of_split (hw _ (List.mem_singleton_self _))
      · cases h
    · -- `stop`
      split at h
      · cases h
        exact hw _ (List.mem_singleton_self _)
      · cases h
    · -- `logs`
      split at h
      · cases h
        exact hw _ (List.mem_singleton_self _)
      · split_ifs at h
        · cases h
          exact hw _ (by simp)
        · cases h
          exact hw _ (by simp)
      · cases h
    · -- `inspect`
      split at h
      · cases h
        exact hw _ (List.mem_singleton_self _)
      · cases h
    · -- `run`
      split at h
      · cases h
      · rename_i image rest hw
        obtain ⟨himage, hrest⟩ := List.forall_mem_cons.1 hw
        cases hports : parsePorts rest with
        | error e =>
          rw [hports] at h
          cases h
        | ok ports =>
          cases hvolumes : parseVolumes rest with
          | error e =>
            rw [hports, hvolumes] at h
            cases h
          | ok volumes =>
            rw [hports, hvolumes] at h
            cases h
            exact ⟨himage, plain_of_parseVolumes hrest hvolumes⟩

theorem typeable_of_parseImage (hw : ∀ w ∈ args, IsWord w) (h : parseImage args = .ok cmd) :
    cmd.Typeable := by
  cases args with
  | nil => cases h
  | cons word args =>
    obtain ⟨-, hw⟩ := List.forall_mem_cons.1 hw
    unfold parseImage at h
    dsimp only at h
    split_ifs at h
    · split at h
      · cases h
      · cases h
        exact reference_of_split (hw _ (List.mem_singleton_self _))
      · cases h
    · split at h
      · cases h
        trivial
      · cases h
    · split at h
      · cases h
        exact reference_of_split (hw _ (List.mem_singleton_self _))
      · cases h

theorem typeable_of_parseVolume (hw : ∀ w ∈ args, IsWord w) (h : parseVolume args = .ok cmd) :
    cmd.Typeable := by
  unfold parseVolume at h
  split at h
  · have hname := hw _ (List.mem_cons_of_mem _ (List.mem_singleton_self _))
    split_ifs at h
    · cases h
      exact hname
    · cases h
      exact hname
  · cases h

theorem typeable_ite {p : Prop} [Decidable p] {r r' : Except ShellError ShellCommand}
    (h : r = .ok cmd → cmd.Typeable) (h' : r' = .ok cmd → cmd.Typeable) :
    (if p then r else r') = .ok cmd → cmd.Typeable := by
  split
  · exact h
  · exact h'

/-- One case per first word. -/
theorem typeable_of_parseWords (hw : ∀ w ∈ ws, IsWord w) (h : parseWords ws = .ok cmd) :
    cmd.Typeable := by
  cases ws with
  | nil => cases h
  | cons word args =>
    obtain ⟨-, hw⟩ := List.forall_mem_cons.1 hw
    revert h
    refine typeable_ite (fun h => ?ls) <| typeable_ite (fun h => ?cd) <|
      typeable_ite (typeable_of_parseBare trivial) <|
      typeable_ite (typeable_of_parsePath (fun _ hp => hp) hw) <|
      typeable_ite (typeable_of_parsePath (fun _ hp => hp) hw) <|
      typeable_ite (typeable_of_parsePath (fun _ hp => hp) hw) <|
      typeable_ite (typeable_of_parsePath (fun _ hp => hp) hw) <|
      typeable_ite (fun h => ?echo) <|
      typeable_ite (typeable_of_parseBare trivial) <| typeable_ite (fun h => ?uname) <|
      typeable_ite (typeable_of_parseBare trivial) <|
      typeable_ite (typeable_of_parseBare trivial) <|
      typeable_ite (typeable_of_parseBare trivial) <|
      typeable_ite (typeable_of_parseBare trivial) <|
      typeable_ite (typeable_of_parseContainer hw) <| typeable_ite (typeable_of_parseImage hw) <|
      typeable_ite (typeable_of_parseVolume hw) <| typeable_ite (fun h => ?kernel) <|
      typeable_ite (typeable_of_parseBare trivial) fun h => ?unknown
    case ls =>
      split at h
      · cases h
        intro p hp
        cases hp
      · cases h
        rintro p ⟨⟩
        exact hw _ (List.mem_singleton_self _)
      · cases h
    case cd =>
      split at h
      · cases h
        exact show IsWord "/home/root".toList by decide
      · cases h
        exact hw _ (List.mem_singleton_self _)
      · cases h
    case echo =>
      cases h
      exact typeable_parseEcho hw
    case uname =>
      split at h
      · cases h
        trivial
      · split at h
        · cases h
          trivial
        · cases h
      · cases h
    case kernel =>
      split at h
      · split at h
        · cases h
          trivial
        · cases h
      · cases h
    case unknown => cases h

theorem typeable_of_parse {line : Str} (h : parse line = .ok cmd) : cmd.Typeable :=
  typeable_of_parseWords (isWord_splitWhitespace (trim line)) h

/-- The line of a command is read back as it if and only if it is typeable, and only typeable commands
are ever read. -/
theorem grammar_exact :
    (∀ cmd : ShellCommand, parse cmd.line = .ok cmd ↔ cmd.Typeable) ∧
      ∀ (line : Str) (cmd : ShellCommand), parse line = .ok cmd →
        cmd.Typeable ∧ parse cmd.line = parse line := by
  refine ⟨fun cmd => ⟨typeable_of_parse, parse_line⟩, fun line cmd h => ?_⟩
  have htypeable := typeable_of_parse h
  exact ⟨htypeable, (parse_line htypeable).trans h.symm⟩

end Read

end ShellCommand

end OciKernel
