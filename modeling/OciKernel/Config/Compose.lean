import Mathlib.Data.List.Forall2
import OciKernel.Config.Layout

/-!
# Config.Compose

Parsing a document of several container blocks, against parsing each block alone. A port is kept in
`current_port` until the next flush, and only a line at indent 4, a later list item or the end of the
text flushes it. A block that ends with its ports hands the last one to the next block, or loses it at
the next section.

* `parseFrom_block`: a block leaves behind what its sections do to the parser, with the port left over
  from the block before.
* `completePort_iff_endsWithPort`: which blocks leave a port behind.
* `fromYaml_document_iff`: the document parses to the containers of its blocks iff no block but the
  last one, or none at all if another section follows, ends with a port.
-/

namespace OciKernel

open Text

/-! ## Documents -/

/-- Another top-level section: no line of it starts the containers again. -/
structure TopSection where
  header : Str
  body : List Str
  noBreak : ∀ l ∈ header :: body, NoBreak l
  indent : leadingSpaces header = 0
  shown : ¬ (trim header = [] ∨ (trim header).head? = some '#')
  other : ∀ l ∈ header :: body, leadingSpaces l = 0 → trim l ≠ "containers:".toList

def TopSection.lines (t : TopSection) : List Str := t.header :: t.body

def restLines : Option TopSection → List Str
  | none => []
  | some t => t.lines

def documentLines (bs : List ContainerBlock) (rest : Option TopSection) : List Str :=
  "containers:".toList :: (bs.flatMap ContainerBlock.lines ++ restLines rest)

def document (bs : List ContainerBlock) (rest : Option TopSection) : Str :=
  (documentLines bs rest).flatMap (· ++ ['\n'])

theorem keyLine_noBreak (n : Nat) (key : Key) (v : Value) : NoBreak (keyLine n key v) := by
  have hkey := key.noBreak
  have hv := v.noBreak
  unfold NoBreak at hkey hv ⊢
  simp [keyLine, hkey, hv, List.mem_replicate]

theorem headerLine_noBreak (n : Nat) (key : Key) : NoBreak (headerLine n key) := by
  have hkey := key.noBreak
  unfold NoBreak at hkey ⊢
  simp [headerLine, hkey, List.mem_replicate]

theorem Section.lines_noBreak (s : Section) : ∀ l ∈ s.lines, NoBreak l := by
  intro l hl
  cases s with
  | restart v =>
    cases List.mem_singleton.1 hl
    exact keyLine_noBreak ..
  | ports items =>
    cases List.mem_cons.1 hl with
    | inl he => exact he ▸ headerLine_noBreak ..
    | inr hl =>
      obtain ⟨item, _, hl⟩ := List.mem_flatMap.1 hl
      cases List.mem_cons.1 hl with
      | inl he => exact he ▸ keyLine_noBreak ..
      | inr hl => exact List.mem_singleton.1 hl ▸ keyLine_noBreak ..
  | resources entries =>
    cases List.mem_cons.1 hl with
    | inl he => exact he ▸ headerLine_noBreak ..
    | inr hl =>
      obtain ⟨e, _, rfl⟩ := List.mem_map.1 hl
      cases e <;> exact keyLine_noBreak ..

theorem documentLines_noBreak (bs : List ContainerBlock) (rest : Option TopSection) :
    ∀ l ∈ documentLines bs rest, NoBreak l := by
  intro l hl
  cases List.mem_cons.1 hl with
  | inl he => exact he ▸ (by decide : NoBreak "containers:".toList)
  | inr hl =>
    cases List.mem_append.1 hl with
    | inl hl =>
      obtain ⟨b, _, hl⟩ := List.mem_flatMap.1 hl
      cases List.mem_cons.1 hl with
      | inl he => exact he ▸ keyLine_noBreak ..
      | inr hl =>
        obtain ⟨s, _, hl⟩ := List.mem_flatMap.1 hl
        exact s.lines_noBreak l hl
    | inr hl =>
      cases rest with
      | none => cases hl
      | some t => exact t.noBreak l hl

/-- The lines of a document are the lines it was put together from. -/
theorem lines_document (bs : List ContainerBlock) (rest : Option TopSection) :
    lines (document bs rest) = documentLines bs rest := by
  have hbreak := documentLines_noBreak bs rest
  have h := lines_flatMap [] fun l hl => (hbreak l hl).1
  rw [List.append_nil] at h
  rw [document, h, List.map_congr_left (g := id) ?_, List.map_id]
  · exact List.append_nil _
  · intro l hl
    exact stripCr_of_notMem (hbreak l hl).2

/-! ## The lines between the blocks -/

/-- The rest of a parse: the remaining lines, and the flushes after the last one. -/
def parseFrom (st : ParseState) (ls : List Str) : Parse KernelConfig := do
  let st ← ls.foldlM ParseState.parseLine st
  ExceptT.mk (some st.finish)

theorem parse_pure_inj {α : Type} {a b : α} (h : (pure a : Parse α) = pure b) : a = b := by
  injection h with h
  injection h

/-- The line that starts a block closes the container before it, and keeps the port. -/
theorem parseLine_image (st : ParseState) {st' : ParseState} (hin : st.inContainers = true)
    (hf : st.flushContainer = .ok st') (v : Value) :
    st.parseLine (keyLine 2 .image v) = pure { st' with
      inPorts := false, inResources := false
      current := some { ContainerBuilder.new with image := some (trim v.text) } } := by
  have hk : keyStart (Key.image.text ++ ':' :: ' ' :: v.text) := rfl
  obtain ⟨hi, ht⟩ := indented_line 2 hk
  have hline := trimEnd_of_keyStart hk
  have hkey : trimEnd (Key.image.text ++ ':' :: ' ' :: v.text) = keyed .image v := trimEnd_key _ _
  have hs : startsWith (keyed .image v) "- image:" = true := rfl
  rw [hkey] at ht hline
  unfold ParseState.parseLine keyLine
  simp only [hi, ht]
  rw [if_neg hline, if_neg (by simp), if_neg (by simp [hin]), if_pos ⟨trivial, hs⟩, hf,
    valueAfterColon_keyed]
  rfl

theorem parseFrom_nil (containers : List ContainerSpec) (o : OpenBlock) :
    parseFrom (o.toState containers) [] = pure ⟨containers ++ [o.flush.spec]⟩ := by
  unfold parseFrom ParseState.finish
  rw [List.foldlM_nil, pure_bind, OpenBlock.flushPort_toState, OpenBlock.flushContainer_toState]
  rfl

/-- The sections of a block, and what comes after it. -/
theorem parseFrom_sections (containers : List ContainerSpec) (o : OpenBlock) (ss : List Section)
    (ls : List Str) :
    parseFrom (o.toState containers) (ss.flatMap Section.lines ++ ls) =
      match ss.foldlM OpenBlock.sectionStep o with
      | some o' => parseFrom (o'.toState containers) ls
      | none => ExceptT.lift none := by
  unfold parseFrom
  rw [List.foldlM_append, OpenBlock.foldlM_sections]
  cases ss.foldlM OpenBlock.sectionStep o <;> rfl

/-- A block leaves behind what its sections do to the parser. -/
theorem parseFrom_block (containers : List ContainerSpec) (o : OpenBlock) (b : ContainerBlock)
    (ls : List Str) :
    parseFrom (o.toState containers) (b.lines ++ ls) =
      match b.sections.foldlM OpenBlock.sectionStep (.start b.image o.port) with
      | some o' => parseFrom (o'.toState (containers ++ [o.spec])) ls
      | none => ExceptT.lift none := by
  have himage := parseLine_image (o.toState containers) rfl
    OpenBlock.flushContainer_toState b.image
  rw [← parseFrom_sections]
  unfold parseFrom ContainerBlock.lines
  rw [List.cons_append, List.foldlM_cons, himage, pure_bind]
  rfl

/-- The first block has no container before it. -/
theorem parseFrom_first (b : ContainerBlock) (ls : List Str) :
    parseFrom .init ("containers:".toList :: (b.lines ++ ls)) =
      match b.sections.foldlM OpenBlock.sectionStep (.start b.image none) with
      | some o' => parseFrom (o'.toState []) ls
      | none => ExceptT.lift none := by
  have hheader : ParseState.init.parseLine "containers:".toList =
      pure { ParseState.init with inContainers := true } := rfl
  have himage := parseLine_image { ParseState.init with inContainers := true } rfl rfl b.image
  rw [← parseFrom_sections]
  unfold parseFrom ContainerBlock.lines
  rw [List.foldlM_cons, hheader, pure_bind, List.cons_append, List.foldlM_cons, himage, pure_bind]
  rfl

/-- Outside the containers, no line does anything. -/
theorem parseLine_outside {containers : List ContainerSpec}
    {port : Option (Option UInt16 × Option UInt16)} {l : Str}
    (h : leadingSpaces l = 0 → trim l ≠ "containers:".toList) :
    ParseState.parseLine ⟨containers, false, none, false, false, port⟩ l =
      pure ⟨containers, false, none, false, false, port⟩ := by
  unfold ParseState.parseLine
  simp only
  split
  · rfl
  · split
    · rename_i hi
      simp only [decide_eq_false (h hi), ParseState.flushContainer]
      rfl
    · rfl

theorem parseLine_topHeader (st : ParseState) {st' : ParseState} (hf : st.flushContainer = .ok st')
    (t : TopSection) :
    st.parseLine t.header =
      pure { st' with inContainers := false, inPorts := false, inResources := false } := by
  have hne := t.other t.header (List.mem_cons_self ..) t.indent
  unfold ParseState.parseLine
  simp only
  rw [if_neg t.shown, if_pos t.indent, hf]
  simp only [decide_eq_false hne]
  rfl

theorem parseFrom_outside (containers : List ContainerSpec)
    (port : Option (Option UInt16 × Option UInt16)) {ls : List Str}
    (h : ∀ l ∈ ls, leadingSpaces l = 0 → trim l ≠ "containers:".toList) :
    parseFrom ⟨containers, false, none, false, false, port⟩ ls = pure ⟨containers⟩ := by
  induction ls with
  | nil =>
    unfold parseFrom ParseState.finish ParseState.flushPort
    rcases port with _ | ⟨_ | _, _ | _⟩ <;> rfl
  | cons l ls ih =>
    unfold parseFrom
    rw [List.foldlM_cons, parseLine_outside (h l (List.mem_cons_self ..)), pure_bind]
    exact ih fun l' hl' => h l' (List.mem_cons_of_mem _ hl')

theorem TopSection.body_other (t : TopSection) :
    ∀ l ∈ t.body, leadingSpaces l = 0 → trim l ≠ "containers:".toList :=
  fun l hl => t.other l (List.mem_cons_of_mem _ hl)

/-- Another section closes the last container and loses its port. -/
theorem parseFrom_top (containers : List ContainerSpec) (o : OpenBlock) (t : TopSection) :
    parseFrom (o.toState containers) t.lines = pure ⟨containers ++ [o.spec]⟩ := by
  have hbody := parseFrom_outside (containers ++ [o.spec]) o.port t.body_other
  unfold parseFrom TopSection.lines
  rw [List.foldlM_cons, parseLine_topHeader _ OpenBlock.flushContainer_toState t, pure_bind]
  exact hbody

/-- Without blocks there is nothing to close. -/
theorem parseFrom_empty (rest : Option TopSection) :
    parseFrom .init ("containers:".toList :: restLines rest) = pure ⟨[]⟩ := by
  cases rest with
  | none => rfl
  | some t =>
    have hheader : ParseState.init.parseLine "containers:".toList =
        pure { ParseState.init with inContainers := true } := rfl
    have htop := parseLine_topHeader { ParseState.init with inContainers := true } rfl t
    have hbody := parseFrom_outside [] none t.body_other
    unfold parseFrom restLines TopSection.lines
    rw [List.foldlM_cons, hheader, pure_bind, List.foldlM_cons, htop, pure_bind]
    exact hbody

/-! ## The port a block leaves behind -/

/-- The last section is a list of ports, and both numbers of its last item are valid. -/
def ContainerBlock.EndsWithPort (b : ContainerBlock) : Prop :=
  ∃ items item, b.sections.getLast? = some (.ports items) ∧ items.getLast? = some item ∧
    (parseU16 item.host.text).isSome ∧ (parseU16 item.container.text).isSome

namespace OpenBlock

theorem entries_port {entries : List ResourceEntry} {o o' : OpenBlock}
    (h : entries.foldlM entryStep o = some o') : o'.port = o.port := by
  induction entries generalizing o with
  | nil =>
    cases h
    rfl
  | cons e entries ih =>
    rw [List.foldlM_cons] at h
    obtain ⟨o₁, h₁, h₂⟩ := Option.bind_eq_some_iff.1 h
    rw [ih h₂, (entryStep_flags h₁).2.2]

/-- After a section, the port in progress is the last item of that section, if it has one. -/
theorem sectionStep_port {o o' : OpenBlock} {s : Section} (h : o.sectionStep s = some o') :
    completePort o'.port ≠ none ↔ ∃ items item, s = .ports items ∧ items.getLast? = some item ∧
      (parseU16 item.host.text).isSome ∧ (parseU16 item.container.text).isSome := by
  cases s with
  | restart v =>
    cases h
    simp [flush, completePort]
  | resources entries =>
    have hport : o'.port = none := entries_port h
    simp [hport, completePort]
  | ports items =>
    cases h
    rcases List.eq_nil_or_concat items with rfl | ⟨init, item, rfl⟩
    · simp [flush, completePort]
    · rw [List.concat_eq_append, List.foldl_append]
      simp only [List.foldl_cons, List.foldl_nil, itemStep]
      constructor
      · intro h
        refine ⟨_, item, rfl, List.getLast?_concat, ?_⟩
        revert h
        cases parseU16 item.host.text <;> cases parseU16 item.container.text <;> simp [completePort]
      · rintro ⟨items, last, hitems, hlast, hhost, hcontainer⟩
        cases hitems
        rw [List.getLast?_concat] at hlast
        cases hlast
        obtain ⟨h, hh⟩ := Option.isSome_iff_exists.1 hhost
        obtain ⟨c, hc⟩ := Option.isSome_iff_exists.1 hcontainer
        simp [completePort, hh, hc]

/-- A section starts with a flush. -/
theorem sectionStep_congr {o₁ o₂ : OpenBlock} (h : o₁.flush = o₂.flush) (s : Section) :
    o₁.sectionStep s = o₂.sectionStep s := by
  cases s <;> simp only [sectionStep, h]

end OpenBlock

section

variable {b : ContainerBlock} {o : OpenBlock}

theorem completePort_iff_endsWithPort
    (h : b.sections.foldlM OpenBlock.sectionStep (.start b.image none) = some o) :
    completePort o.port ≠ none ↔ b.EndsWithPort := by
  unfold ContainerBlock.EndsWithPort
  rcases List.eq_nil_or_concat b.sections with hs | ⟨init, s, hs⟩
  · rw [hs] at h ⊢
    cases h
    simp [OpenBlock.start, completePort]
  · rw [hs, List.concat_eq_append] at h ⊢
    rw [List.foldlM_append] at h
    obtain ⟨o₁, _, h₂⟩ := Option.bind_eq_some_iff.1 h
    rw [List.foldlM_cons] at h₂
    obtain ⟨o₂, h₂, h₃⟩ := Option.bind_eq_some_iff.1 h₂
    cases h₃
    rw [OpenBlock.sectionStep_port h₂, List.getLast?_concat]
    simp

/-- What comes before a block matters only for the port that is left over. -/
theorem sections_of_completePort {port : Option (Option UInt16 × Option UInt16)}
    (hp : completePort port = none)
    (h : b.sections.foldlM OpenBlock.sectionStep (.start b.image none) = some o) :
    ∃ o', b.sections.foldlM OpenBlock.sectionStep (.start b.image port) = some o' ∧
      o'.flush = o.flush ∧ o'.spec = o.spec ∧ completePort o'.port = completePort o.port := by
  have hflush : (OpenBlock.start b.image port).flush = (OpenBlock.start b.image none).flush := by
    unfold OpenBlock.flush OpenBlock.start
    rw [hp, show completePort none = none from rfl]
  cases hs : b.sections with
  | nil =>
    rw [hs] at h
    cases h
    exact ⟨_, rfl, hflush, rfl, hp⟩
  | cons s ss =>
    rw [hs, List.foldlM_cons, ← OpenBlock.sectionStep_congr hflush] at h
    exact ⟨o, h, rfl, rfl, rfl⟩

theorem spec_flush_iff : o.flush.spec = o.spec ↔ completePort o.port = none := by
  constructor
  · intro h
    have hports : o.ports ++ (completePort o.port).toList = o.ports := congrArg ContainerSpec.ports h
    have := congrArg List.length hports
    rw [List.length_append] at this
    cases hp : completePort o.port with
    | none => rfl
    | some pm =>
      rw [hp] at this
      simp at this
  · intro h
    simp [OpenBlock.flush, OpenBlock.spec, h]

end

/-! ## Composition -/

/-- The blocks that are followed by another block or another section. -/
def exposed (bs : List ContainerBlock) (rest : Option TopSection) : List ContainerBlock :=
  if rest.isSome then bs else bs.dropLast

/-- Neither the block that is open nor a later one loses its port. -/
theorem exposed_cons_iff {b : ContainerBlock} {o : OpenBlock} (bs : List ContainerBlock)
    (rest : Option TopSection)
    (ho : b.sections.foldlM OpenBlock.sectionStep (.start b.image none) = some o) :
    (∀ c ∈ exposed (b :: bs) rest, ¬ c.EndsWithPort) ↔
      (bs = [] ∧ rest = none ∨ completePort o.port = none) ∧
        ∀ c ∈ exposed bs rest, ¬ c.EndsWithPort := by
  have hends : completePort o.port = none ↔ ¬ b.EndsWithPort := by
    rw [← completePort_iff_endsWithPort ho, not_not]
  cases bs <;> cases rest <;> simp [exposed, hends]

/-- A block parsed alone gives the container that its sections build. -/
theorem fromYaml_block {b : ContainerBlock} {config : KernelConfig}
    (h : KernelConfig.fromYaml (document [b] none) = pure config) :
    ∃ o, b.sections.foldlM OpenBlock.sectionStep (.start b.image none) = some o ∧
      config = ⟨[o.flush.spec]⟩ := by
  have hparse : KernelConfig.fromYaml (document [b] none) =
      parseFrom .init ("containers:".toList :: (b.lines ++ [])) := by
    unfold KernelConfig.fromYaml
    rw [lines_document]
    simp [documentLines, restLines, parseFrom]
  rw [hparse, parseFrom_first] at h
  cases ho : b.sections.foldlM OpenBlock.sectionStep (.start b.image none) with
  | none =>
    rw [ho] at h
    cases h
  | some o =>
    rw [ho] at h
    simp only at h
    rw [parseFrom_nil] at h
    exact ⟨o, rfl, (parse_pure_inj h).symm⟩

/-- The containers that are closed stay in the result. -/
theorem parseFrom_prefix {containers : List ContainerSpec} {o : OpenBlock} {bs : List ContainerBlock}
    {rest : Option TopSection} {config : KernelConfig}
    (h : parseFrom (o.toState containers) (bs.flatMap ContainerBlock.lines ++ restLines rest) =
      pure config) :
    containers <+: config.containers := by
  induction bs generalizing containers o with
  | nil =>
    cases rest with
    | none =>
      rw [← parse_pure_inj ((parseFrom_nil containers o).symm.trans h)]
      exact List.prefix_append _ _
    | some t =>
      rw [← parse_pure_inj ((parseFrom_top containers o t).symm.trans h)]
      exact List.prefix_append _ _
  | cons b bs ih =>
    rw [List.flatMap_cons, List.append_assoc, parseFrom_block] at h
    cases ho : b.sections.foldlM OpenBlock.sectionStep (.start b.image o.port) with
    | none =>
      rw [ho] at h
      cases h
    | some o' =>
      rw [ho] at h
      exact (List.prefix_append _ _).trans (ih h)

/-- From inside a block `o`, by induction on the blocks to come: the result is the containers so far,
that of `o` with its last port, and those of the blocks, iff neither `o` nor an exposed block loses
its port. -/
theorem parseFrom_iff {bs : List ContainerBlock} {rest : Option TopSection}
    {configs : List KernelConfig}
    (halone : List.Forall₂ (fun b config => KernelConfig.fromYaml (document [b] none) = pure config)
      bs configs) {containers : List ContainerSpec} {o : OpenBlock} :
    parseFrom (o.toState containers) (bs.flatMap ContainerBlock.lines ++ restLines rest) =
        pure ⟨containers ++ [o.flush.spec] ++ configs.flatMap KernelConfig.containers⟩ ↔
      (bs = [] ∧ rest = none ∨ completePort o.port = none) ∧
        ∀ b ∈ exposed bs rest, ¬ b.EndsWithPort := by
  induction halone generalizing containers o with
  | nil =>
    cases rest with
    | none => simp [restLines, parseFrom_nil, exposed]
    | some t =>
      have htop := parseFrom_top containers o t
      simp only [List.flatMap_nil, List.nil_append, restLines, htop, List.append_nil]
      constructor
      · intro h
        have := parse_pure_inj h
        simp only [KernelConfig.mk.injEq, List.append_cancel_left_eq, List.cons.injEq,
          and_true] at this
        exact ⟨.inr (spec_flush_iff.1 this.symm), by simp [exposed]⟩
      · rintro ⟨h | h, _⟩
        · cases h.2
        · rw [spec_flush_iff.2 h]
  | @cons b config bs configs hb hbs ih =>
    obtain ⟨a, ha, rfl⟩ := fromYaml_block hb
    rw [List.flatMap_cons, List.append_assoc]
    by_cases hp : completePort o.port = none
    · obtain ⟨a', ha', hflush, hspec, hport⟩ := sections_of_completePort hp ha
      have hi := @ih (containers ++ [o.spec]) a'
      rw [hflush, hport] at hi
      rw [parseFrom_block, ha', List.flatMap_cons, spec_flush_iff.2 hp, ← List.append_assoc,
        exposed_cons_iff bs rest ha]
      simp only [hp, or_true, true_and]
      exact hi
    · constructor
      · intro h
        have hblock := parseFrom_block containers o b
          (bs.flatMap ContainerBlock.lines ++ restLines rest)
        rw [h] at hblock
        cases ha' : b.sections.foldlM OpenBlock.sectionStep (.start b.image o.port) with
        | none =>
          rw [ha'] at hblock
          cases hblock
        | some a' =>
          rw [ha'] at hblock
          -- the container of `o` is closed before its last port is complete
          have hclosed : containers ++ [o.spec] <+: containers ++ [o.flush.spec] ++ _ :=
            parseFrom_prefix hblock.symm
          rw [List.append_assoc, List.prefix_append_right_inj, List.singleton_append,
            List.cons_prefix_cons] at hclosed
          exact absurd (spec_flush_iff.1 hclosed.1.symm) hp
      · rintro ⟨h | h, _⟩
        · cases h.1
        · exact absurd h hp

/-- A document of blocks that parse alone gives the concatenation of their containers iff no exposed
block ends with a port. -/
theorem fromYaml_document_iff {bs : List ContainerBlock} {configs : List KernelConfig}
    (halone : List.Forall₂ (fun b config => KernelConfig.fromYaml (document [b] none) = pure config)
      bs configs) (rest : Option TopSection) :
    KernelConfig.fromYaml (document bs rest) = pure ⟨configs.flatMap KernelConfig.containers⟩ ↔
      ∀ b ∈ exposed bs rest, ¬ b.EndsWithPort := by
  have hparse : KernelConfig.fromYaml (document bs rest) =
      parseFrom .init
        ("containers:".toList :: (bs.flatMap ContainerBlock.lines ++ restLines rest)) := by
    unfold KernelConfig.fromYaml
    rw [lines_document]
    rfl
  rw [hparse]
  cases halone with
  | nil =>
    rw [List.flatMap_nil, List.nil_append, parseFrom_empty]
    cases rest <;> simp [exposed]
  | @cons b config bs configs hb hbs =>
    obtain ⟨o, ho, rfl⟩ := fromYaml_block hb
    rw [List.flatMap_cons, List.append_assoc, parseFrom_first, ho]
    rw [List.flatMap_cons]
    exact (parseFrom_iff hbs).trans (exposed_cons_iff bs rest ho).symm

/-! ## Two containers -/

def webBlock : ContainerBlock :=
  ⟨⟨"web".toList, by decide⟩,
    [.ports [⟨.nested, ⟨"8080".toList, by decide⟩, ⟨"80".toList, by decide⟩⟩]]⟩

def dbBlock : ContainerBlock :=
  ⟨⟨"db".toList, by decide⟩, [.restart ⟨"always".toList, by decide⟩]⟩

def webSpec : ContainerSpec := { ContainerSpec.new "web".toList [] with ports := [⟨8080, 80⟩] }

def dbSpec : ContainerSpec := { ContainerSpec.new "db".toList [] with restart := .always }

theorem fromYaml_webBlock : KernelConfig.fromYaml (document [webBlock] none) = pure ⟨[webSpec]⟩ := by
  decide +kernel

theorem fromYaml_dbBlock : KernelConfig.fromYaml (document [dbBlock] none) = pure ⟨[dbSpec]⟩ := by
  decide +kernel

/-- With the ports in the last block, nothing is lost. -/
theorem fromYaml_document_db_web :
    KernelConfig.fromYaml (document [dbBlock, webBlock] none) = pure ⟨[dbSpec, webSpec]⟩ := by
  have halone : List.Forall₂
      (fun b config => KernelConfig.fromYaml (document [b] none) = pure config)
      [dbBlock, webBlock] [⟨[dbSpec]⟩, ⟨[webSpec]⟩] :=
    .cons fromYaml_dbBlock (.cons fromYaml_webBlock .nil)
  refine (fromYaml_document_iff halone none).2 ?_
  intro b hb
  cases List.mem_singleton.1 hb
  rintro ⟨items, item, hlast, _⟩
  cases hlast

/-- With the ports in the first block, its port goes to the second container. -/
theorem web_port_in_db :
    KernelConfig.fromYaml (document [webBlock] none) = pure ⟨[webSpec]⟩ ∧
      KernelConfig.fromYaml (document [dbBlock] none) = pure ⟨[dbSpec]⟩ ∧
      KernelConfig.fromYaml (document [webBlock, dbBlock] none) =
        pure ⟨[{ webSpec with ports := [] }, { dbSpec with ports := webSpec.ports }]⟩ ∧
      KernelConfig.fromYaml (document [webBlock, dbBlock] none) ≠ pure ⟨[webSpec] ++ [dbSpec]⟩ := by
  refine ⟨fromYaml_webBlock, fromYaml_dbBlock, ?_, ?_⟩
  · decide +kernel
  · decide +kernel

end OciKernel
