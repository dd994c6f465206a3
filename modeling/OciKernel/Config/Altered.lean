import OciKernel.Config.Counts

/-!
# Config.Altered

When `from_yaml` says what a text declares.

* `parseLines_iff`: the parser gives the containers that are declared iff no item loses its last port.
* `portCount_of_container?`: an item that is read has as many ports as lines that start one.
* `notAltered_iff`: when nothing that is declared is altered silently.
-/

namespace OciKernel

open Text

namespace Draft

variable {d c : Draft} {image : Str}

/-- Closing changes the container iff there is a port in progress. -/
theorem close_spec_iff (h : d.close = some c) : c.spec image = d.spec image ↔ d.port = none := by
  obtain ⟨ports, _ | ⟨_ | host, _ | container⟩, restart, memoryBytes, pidsMax⟩ := d <;> cases h
  · simp
  · refine iff_of_false (fun he => ?_) nofun
    have hports : ports ++ [⟨host, container⟩] = ports := congrArg ContainerSpec.ports he
    simp at hports

theorem close_of_port (h : d.close = some c) (hp : d.port = none) : c = d := by
  rw [close, hp] at h
  exact (Option.some.inj h).symm

end Draft

namespace Item

variable {text : Str} (body : List Line) (followed : Bool)

/-- The line that starts an item declares no more than the image. -/
theorem of_starts (h : startsWith text "- image:" = true) :
    draft? ⟨some text, body, followed⟩ = (declsFrom .none body).foldlM Draft.step .new ∧
      portLines .none (lines ⟨some text, body, followed⟩) = portLines .none body := by
  obtain ⟨rest, rfl⟩ := List.isPrefixOf_iff_prefix.1 h
  have hlines : lines ⟨some ("- image:".toList ++ rest), body, followed⟩ =
      ⟨4, "image:".toList ++ rest⟩ :: body := rfl
  rw [draft?, decls, hlines]
  exact ⟨rfl, rfl⟩

end Item

def declared (groups : List Group) : List ContainerSpec := (itemsOf groups).filterMap Item.container?

/-- Every item starts as the parser expects it, with its ports, and is read. -/
def Sound (groups : List Group) : Prop :=
  ∀ i ∈ itemsOf groups, i.Starts ∧ i.PortsStart ∧ i.container?.isSome

/-- No item that something follows ends with a port. -/
def Kept (groups : List Group) : Prop := ∀ i ∈ itemsOf groups, ¬ (i.followed = true ∧ i.EndsWithPort)

/-- A line that closes the container in progress loses its last port. -/
theorem parseLines_head_iff {st st₁ : ParseState} {l : Line} {ls : List Line}
    {cs rest : List ContainerSpec} {image : Str} {d c : Draft} {K : Prop}
    (hstep : st.stepLine l = pure st₁) (hnamed : st₁.Named) (hmode : st₁.InMode .none)
    (hcontainers : st₁.containers = cs ++ [d.spec image]) (hclose : d.close = some c)
    (hrest : d.port = none → (parseLines st₁ ls = pure ⟨cs ++ [d.spec image] ++ rest⟩ ↔ K)) :
    parseLines st (l :: ls) = pure ⟨cs ++ c.spec image :: rest⟩ ↔ d.port = none ∧ K := by
  rw [parseLines_of_stepLine hstep]
  by_cases hp : d.port = none
  · rw [Draft.close_of_port hclose hp, ← hrest hp, List.append_assoc]
    simp [hp]
  · refine iff_of_false (fun h => hp ?_) fun h => hp h.1
    obtain ⟨config, hconfig, hprefix, -⟩ := parseLines_images hnamed hmode h
    cases hconfig
    rw [hcontainers, List.prefix_append_right_inj, List.cons_prefix_cons] at hprefix
    exact (Draft.close_spec_iff hclose).1 hprefix.1.symm

/-- The parser between the items, with no port left over. -/
def betweenItems (cs : List ContainerSpec) (inList : Bool) : ParseState :=
  ⟨cs, inList, none, false, false, none⟩

/-- From inside an item, and from between items, with the lines `ls` to come. -/
structure ParsesIff (ls : List Line) : Prop where
  inside : ∀ cs image mode d d' c,
    (declsFrom mode (segment true ls).1).foldlM Draft.step d = some d' → d'.close = some c →
    d.Hosted → (∀ l ∈ portLines mode (segment true ls).1, startsWith l.text "- host:" = true) →
    Sound (segment true ls).2 →
    (parseLines ((d.toBlock image mode).toState cs) ls =
        pure ⟨cs ++ c.spec image :: declared (segment true ls).2⟩ ↔
      ((segment true ls).2 ≠ [] → d'.port = none) ∧ Kept (segment true ls).2)
  between : ∀ cs inList, (inList = true → ∀ l ∈ (segment inList ls).1, l.indent ≠ 4) →
    Sound (segment inList ls).2 →
    (parseLines (betweenItems cs inList) ls = pure ⟨cs ++ declared (segment inList ls).2⟩ ↔
      Kept (segment inList ls).2)

section Cons

variable {ls : List Line} (ih : ParsesIff ls) {l : Line}

include ih

/-- After the line that starts an item. -/
theorem ParsesIff.item (cs : List ContainerSpec)
    (hsound : Sound (⟨.item l.text, (segment true ls).1⟩ :: (segment true ls).2)) :
    startsWith l.text "- image:" = true ∧
      (parseLines ((Draft.new.toBlock (valueAfterColon l.text) .none).toState cs) ls =
          pure ⟨cs ++ declared (⟨.item l.text, (segment true ls).1⟩ :: (segment true ls).2)⟩ ↔
        Kept (⟨.item l.text, (segment true ls).1⟩ :: (segment true ls).2)) := by
  have hitems : itemsOf (⟨.item l.text, (segment true ls).1⟩ :: (segment true ls).2) =
      ⟨some l.text, (segment true ls).1, !(segment true ls).2.isEmpty⟩ ::
        itemsOf (segment true ls).2 := rfl
  rw [Sound, hitems, List.forall_mem_cons] at hsound
  obtain ⟨⟨⟨text, htext, hstarts⟩, hports, hread⟩, hsound⟩ := hsound
  cases htext
  have himage := Item.image?_of_starts (segment true ls).1 (!(segment true ls).2.isEmpty) hstarts
  obtain ⟨hdraft, hlines⟩ := Item.of_starts (segment true ls).1 (!(segment true ls).2.isEmpty) hstarts
  rw [Item.PortsStart, hlines] at hports
  obtain ⟨spec, hspec⟩ := Option.isSome_iff_exists.1 hread
  have hcontainer := hspec
  rw [Item.container?, himage, hdraft] at hspec
  obtain ⟨image, himage, hspec⟩ := Option.bind_eq_some_iff.1 hspec
  cases himage
  obtain ⟨d, hd, hspec⟩ := Option.bind_eq_some_iff.1 hspec
  obtain ⟨c, hc, hspec⟩ := Option.bind_eq_some_iff.1 hspec
  cases hspec
  refine ⟨hstarts, ?_⟩
  rw [declared, Kept, hitems, List.filterMap_cons_some hcontainer, List.forall_mem_cons]
  have hinside := ih.inside cs (valueAfterColon l.text) .none .new d c hd hc
    (Draft.hosted_of_none rfl) hports hsound
  refine hinside.trans (and_congr_left' ?_)
  have hends : Item.EndsWithPort ⟨some l.text, (segment true ls).1, !(segment true ls).2.isEmpty⟩ ↔
      d.port ≠ none := by
    rw [Item.EndsWithPort, hdraft, hd]
    simp
  rw [hends]
  cases (segment true ls).2 <;> simp

/-- After a line at indent 0. -/
theorem ParsesIff.top (h : l.indent = 0) (cs : List ContainerSpec)
    (hsound : Sound (segment true (l :: ls)).2) :
    parseLines (betweenItems cs (decide (l.text = "containers:".toList))) ls =
        pure ⟨cs ++ declared (segment true (l :: ls)).2⟩ ↔ Kept (segment true (l :: ls)).2 := by
  rw [segment_top ls h] at hsound ⊢
  obtain ⟨hitems, hkeys⟩ := itemsOf_cons (fun i hi => (hsound i hi).1) (by
    by_cases hcontainers : l.text = "containers:".toList
    · exact .inr (if_pos hcontainers)
    · exact .inl (if_neg hcontainers))
  rw [Sound, hitems] at hsound
  rw [declared, Kept, hitems]
  exact ih.between cs _ (fun hc => hkeys (if_pos (of_decide_eq_true hc))) hsound

theorem ParsesIff.inside_cons (cs : List ContainerSpec) (image : Str) (mode : Mode) (d d' c : Draft)
    (hd : (declsFrom mode (segment true (l :: ls)).1).foldlM Draft.step d = some d')
    (hc : d'.close = some c) (hhosted : d.Hosted)
    (hports : ∀ p ∈ portLines mode (segment true (l :: ls)).1, startsWith p.text "- host:" = true)
    (hsound : Sound (segment true (l :: ls)).2) :
    parseLines ((d.toBlock image mode).toState cs) (l :: ls) =
        pure ⟨cs ++ c.spec image :: declared (segment true (l :: ls)).2⟩ ↔
      ((segment true (l :: ls)).2 ≠ [] → d'.port = none) ∧ Kept (segment true (l :: ls)).2 := by
  have hflush : ((d.toBlock image mode).toState cs).flushContainer = .ok _ :=
    OpenBlock.flushContainer_toState
  have hport : d.port = none → (d.toBlock image mode).port = none := id
  by_cases h : l.indent = 0
  · have hbody : (segment true (l :: ls)).1 = [] := by rw [segment_top ls h]
    have hne : (segment true (l :: ls)).2 ≠ [] := by
      rw [segment_top ls h]
      exact List.cons_ne_nil _ _
    rw [hbody] at hd
    cases hd
    rw [forall_prop_of_true hne]
    refine parseLines_head_iff (stepLine_top hflush h) (ParseState.named_none rfl)
      (ParseState.inMode_none rfl rfl) rfl hc fun hp => ?_
    have hbetween := ih.top h (cs ++ [d.spec image]) hsound
    unfold betweenItems at hbetween
    rw [← hbetween]
    show parseLines ⟨_, _, none, false, false, (d.toBlock image mode).port⟩ ls = _ ↔ _
    rw [hport hp]
    rfl
  · by_cases hitem : l.IsItem
    · have hne : (segment true (l :: ls)).2 ≠ [] := by
        rw [segment_item ls h hitem]
        exact List.cons_ne_nil _ _
      rw [forall_prop_of_true hne]
      rw [segment_item ls h hitem] at hd hsound ⊢
      cases hd
      obtain ⟨hstarts, hiff⟩ := ih.item (cs ++ [d.spec image]) hsound
      refine parseLines_head_iff (stepLine_image hflush rfl hitem.1 hstarts)
        (ParseState.named_some rfl rfl) (ParseState.inMode_none rfl rfl) rfl hc fun hp => ?_
      rw [← hiff]
      show parseLines ⟨_, true, _, false, false, (d.toBlock image mode).port⟩ ls = _ ↔ _
      rw [hport hp]
      rfl
    · rw [segment_body ls h fun hi => hitem hi.2] at hd hports hsound ⊢
      rw [declsFrom, List.foldlM_append] at hd
      rw [portLines_cons, List.forall_mem_append] at hports
      obtain ⟨d₁, hd₁, hd⟩ := Option.bind_eq_some_iff.1 hd
      obtain ⟨hhosted₁, hstep⟩ := Draft.stepLine_toBlock cs h hitem hhosted hports.1 hd₁
      rw [parseLines_of_stepLine hstep]
      exact ih.inside cs image _ d₁ d' c hd hc hhosted₁ hports.2 hsound

theorem ParsesIff.between_cons (cs : List ContainerSpec) (inList : Bool)
    (hkeys : inList = true → ∀ k ∈ (segment inList (l :: ls)).1, k.indent ≠ 4)
    (hsound : Sound (segment inList (l :: ls)).2) :
    parseLines (betweenItems cs inList) (l :: ls) =
        pure ⟨cs ++ declared (segment inList (l :: ls)).2⟩ ↔
      Kept (segment inList (l :: ls)).2 := by
  have hflush : (betweenItems cs inList).flushContainer = .ok (betweenItems cs inList) := rfl
  by_cases h : l.indent = 0
  · have hsame : segment inList (l :: ls) = segment true (l :: ls) := by
      rw [segment_top ls h, segment_top ls h]
    rw [hsame] at hsound ⊢
    rw [parseLines_of_stepLine (stepLine_top hflush h)]
    exact ih.top h cs hsound
  · by_cases hitem : inList = true ∧ l.IsItem
    · obtain ⟨rfl, hitem⟩ := hitem
      rw [segment_item ls h hitem] at hsound ⊢
      obtain ⟨hstarts, hiff⟩ := ih.item cs hsound
      rw [parseLines_of_stepLine (stepLine_image hflush rfl hitem.1 hstarts)]
      exact hiff
    · rw [segment_body ls h hitem] at hkeys hsound ⊢
      have hstep : (betweenItems cs inList).stepLine l = pure (betweenItems cs inList) := by
        cases inList with
        | false => exact (if_neg h).trans (if_pos rfl)
        | true =>
          have h4 := hkeys rfl l (List.mem_cons_self ..)
          rw [stepLine_body h rfl fun hi => hitem ⟨rfl, isItem_of_image hi.1 hi.2⟩,
            ParseState.bodyLine, if_neg h4]
          split
          · rfl
          · split <;> rfl
      rw [parseLines_of_stepLine hstep]
      exact ih.between cs inList (fun hin k hk => hkeys hin k (List.mem_cons_of_mem _ hk)) hsound

end Cons

/-- By induction on the lines. -/
theorem parseLines_iff (ls : List Line) : ParsesIff ls := by
  induction ls with
  | nil =>
    constructor
    · intro cs image mode d d' c hd hc _ _ _
      cases hd
      have hnil : parseLines ((d.toBlock image mode).toState cs) [] =
          pure ⟨cs ++ [(d.toBlock image mode).flush.spec]⟩ := parseFrom_nil cs _
      have hspec : (d.toBlock image mode).flush.spec = c.spec image := by
        rw [Draft.close_eq_some hc]
        rfl
      rw [hnil, hspec]
      simp [segment, declared, itemsOf, Kept]
    · intro cs inList _ _
      have hnil : parseLines (betweenItems cs inList) [] = pure ⟨cs⟩ := rfl
      simp [hnil, segment, declared, itemsOf, Kept]
  | cons l ls ih => exact ⟨ih.inside_cons, ih.between_cons⟩

/-! ## Items that are read -/

theorem map_container? {is : List Item} (h : ∀ i ∈ is, i.container?.isSome) :
    is.map Item.container? = (is.filterMap Item.container?).map some := by
  induction is with
  | nil => rfl
  | cons i is ih =>
    obtain ⟨hi, h⟩ := List.forall_mem_cons.1 h
    obtain ⟨spec, hspec⟩ := Option.isSome_iff_exists.1 hi
    rw [List.filterMap_cons_some hspec, List.map_cons, List.map_cons, hspec, ih h]

/-! ## Ports of an item that is read -/

/-- Where every item starts as the parser expects it, is read and keeps its last port, the containers are
those that are declared. -/
theorem fromYaml_of_sound {yaml : Str} (h : ∀ i ∈ items yaml,
    i.Starts ∧ i.PortsStart ∧ i.container?.isSome ∧ ¬ (i.followed = true ∧ i.EndsWithPort)) :
    ∃ specs, KernelConfig.fromYaml yaml = pure ⟨specs⟩ ∧ (items yaml).map Item.container? = specs.map some := by
  have hparse := (parseLines_iff (shownLines yaml)).between [] false nofun
    fun i hi => ⟨(h i hi).1, (h i hi).2.1, (h i hi).2.2.1⟩
  exact ⟨_, (fromYaml_parseLines yaml).trans (hparse.2 fun i hi => (h i hi).2.2.2),
    map_container? fun i hi => (h i hi).2.2.1⟩

/-- The numbers of a port the other way round: the port is lost. -/
example : (items ("containers:\n  - image: web\n    ports:\n" ++
      "      - container: 80\n        host: 8080\n").toList).map Item.container? =
      [some { ContainerSpec.new "web".toList [] with ports := [⟨8080, 80⟩] }] ∧
    KernelConfig.fromYaml ("containers:\n  - image: web\n    ports:\n" ++
      "      - container: 80\n        host: 8080\n").toList =
      pure ⟨[ContainerSpec.new "web".toList []]⟩ := by
  decide +kernel

end OciKernel
