import OciKernel.Config.Lines
import OciKernel.Lib.Wire

/-!
# Config.Declared

One container block, from what it declares: an image, and at most one section of each kind, in any
order and in the documented texts.

* `MemoryAmount`, `Limits`, `Declared`: the declaration; `Declared.block`: its text;
  `Declared.spec`: the container that it describes.
* `parseU16_decimal`, `parseMemory_text`: each value is read back.
* `foldlM_kinds`: what the sections do to the container under construction.
* `fromYaml_declared`: with blank lines and comments anywhere, the text is read as the container.
-/

namespace OciKernel

open Text

/-! ## Declarations -/

inductive MemoryUnit where
  | bytes
  | kb
  | mb
  | gb

namespace MemoryUnit

def factor : MemoryUnit → Nat
  | .bytes => 1
  | .kb => 1024
  | .mb => 1024 * 1024
  | .gb => 1024 * 1024 * 1024

def text : MemoryUnit → Str
  | .bytes => []
  | .kb => "kb".toList
  | .mb => "mb".toList
  | .gb => "gb".toList

theorem factor_pos (u : MemoryUnit) : 0 < u.factor := by cases u <;> decide

theorem text_b {u : MemoryUnit} (h : u ≠ .bytes) : 'b' ∈ u.text := by
  cases u <;> simp [text] at h ⊢

theorem text_inj {u u' : MemoryUnit} {x x' : Str} (hu : u ≠ .bytes) (hu' : u' ≠ .bytes)
    (h : x ++ u.text = x' ++ u'.text) : u = u' := by
  have hlen : ∀ u : MemoryUnit, u ≠ .bytes → u.text.length = 2 := by
    intro u hu
    cases u <;> simp [text] at hu ⊢
  have htext := List.append_inj_right' h ((hlen u hu).trans (hlen u' hu').symm)
  cases u <;> cases u' <;> simp [text] at htext <;> rfl

end MemoryUnit

/-- A number with a unit, which is written in either letter case. -/
structure MemoryAmount where
  amount : Nat
  unit : MemoryUnit
  suffix : Str
  suffix_eq : suffix.map Char.toLower = unit.text
  fits : amount * unit.factor < 2 ^ 64

def MemoryAmount.bytes (m : MemoryAmount) : Nat := m.amount * m.unit.factor

/-- The entries of a `resources:` section, in either order. -/
structure Limits where
  memory : Option MemoryAmount
  pidsMax : Option UInt64
  memoryFirst : Bool

inductive SectionKind where
  | restart
  | ports
  | resources
deriving DecidableEq

structure Declared where
  image : Value
  trimmed : trim image.text = image.text
  restart : Option RestartPolicy
  ports : Option (List (PortStyle × PortMapping))
  resources : Option Limits
  order : List SectionKind
  perm : order.Perm [.restart, .ports, .resources]

/-! ## Their text -/

def RestartPolicy.text : RestartPolicy → Str
  | .never => "never".toList
  | .onFailure => "on-failure".toList
  | .always => "always".toList

theorem RestartPolicy.text_noBreak (p : RestartPolicy) : NoBreak p.text := by cases p <;> decide

theorem noBreak_of_digits {s : Str} (h : ∀ c ∈ s, (toDigit 10 c).isSome) : NoBreak s :=
  ⟨fun hmem => by simpa [toDigit, digitValue] using h _ hmem,
    fun hmem => by simpa [toDigit, digitValue] using h _ hmem⟩

def decimal (n : Nat) : Value := ⟨Nat.toDigits 10 n, noBreak_of_digits (isSome_toDigit_toDigits n)⟩

namespace MemoryAmount

theorem suffix_lower (m : MemoryAmount) : ∀ c ∈ m.suffix, c.toLower ∈ ['k', 'm', 'g', 'b'] := by
  intro c hc
  have hmem : c.toLower ∈ m.unit.text := by
    rw [← m.suffix_eq]
    exact List.mem_map_of_mem hc
  cases hu : m.unit <;> rw [hu] at hmem <;> simp [MemoryUnit.text] at hmem ⊢ <;> tauto

theorem text_noBreak (m : MemoryAmount) : NoBreak (Nat.toDigits 10 m.amount ++ m.suffix) := by
  obtain ⟨hnl, hcr⟩ := noBreak_of_digits (isSome_toDigit_toDigits m.amount)
  constructor
  · intro hmem
    rcases List.mem_append.1 hmem with hmem | hmem
    · exact hnl hmem
    · have := m.suffix_lower _ hmem
      simp at this
  · intro hmem
    rcases List.mem_append.1 hmem with hmem | hmem
    · exact hcr hmem
    · have := m.suffix_lower _ hmem
      simp at this

def value (m : MemoryAmount) : Value := ⟨Nat.toDigits 10 m.amount ++ m.suffix, m.text_noBreak⟩

end MemoryAmount

def Limits.entries (l : Limits) : List ResourceEntry :=
  let memory := l.memory.toList.map fun m => .memory m.value
  let pidsMax := l.pidsMax.toList.map fun n => .pidsMax (decimal n.toNat)
  if l.memoryFirst then memory ++ pidsMax else pidsMax ++ memory

def portItem (p : PortStyle × PortMapping) : PortItem :=
  ⟨p.1, decimal p.2.host.toNat, decimal p.2.container.toNat⟩

namespace Declared

def section? (d : Declared) : SectionKind → Option Section
  | .restart => d.restart.map fun p => .restart ⟨p.text, p.text_noBreak⟩
  | .ports => d.ports.map fun items => .ports (items.map portItem)
  | .resources => d.resources.map fun l => .resources l.entries

def block (d : Declared) : ContainerBlock := ⟨d.image, d.order.filterMap d.section?⟩

def mappings (d : Declared) : List PortMapping := (d.ports.getD []).map Prod.snd

def memoryBytes (d : Declared) : Option Nat :=
  (d.resources.bind Limits.memory).map MemoryAmount.bytes

def pidsMax (d : Declared) : Option Nat := (d.resources.bind Limits.pidsMax).map UInt64.toNat

/-- The container, with the defaults for what is absent. -/
def spec (d : Declared) : ContainerSpec :=
  { ContainerSpec.new d.image.text [] with
    ports := d.mappings
    restart := d.restart.getD .never
    resources :=
      { memoryBytes := d.memoryBytes.getD ResourceLimits.default.memoryBytes
        pidsMax := d.pidsMax.getD ResourceLimits.default.pidsMax
        cpuShares := ResourceLimits.default.cpuShares } }

end Declared

/-! ## Values -/

theorem parseUnsigned_trim_toDigits {n bound : Nat} (h : n < bound) :
    parseUnsigned bound (trim (Nat.toDigits 10 n)) = some n := by
  rw [trim_of_digits (isSome_toDigit_toDigits n), parseUnsigned_toDigits h]

theorem parseU16_decimal (n : UInt16) : parseU16 (decimal n.toNat).text = some n := by
  have hparse : parseUnsigned (2 ^ 16) (trim (decimal n.toNat).text) = some n.toNat :=
    parseUnsigned_trim_toDigits n.toNat_lt
  rw [parseU16, hparse, Option.map_some, UInt16.ofNat_toNat]

theorem parseRestart_text (p : RestartPolicy) : parseRestart (trim p.text) = p := by
  cases p <;> rfl

/-- Of ASCII text. -/
theorem toLowercase_eq {s : Str} (h : ∀ c ∈ s, c.toNat < 0x80) : toLowercase s = s.map Char.toLower := by
  induction s with
  | nil => rfl
  | cons c s ih =>
    obtain ⟨hc, h⟩ := List.forall_mem_cons.1 h
    have hlower : toLowerChar c = [c.toLower] := by
      rw [toLowerChar, if_neg (by omega), if_neg (by omega)]
    have hcons : toLowercase (c :: s) = toLowerChar c ++ toLowercase s := List.flatMap_cons
    rw [hcons, hlower, ih h]
    rfl

theorem parseScaled_toDigits {n unit : Nat} (hunit : 0 < unit) (h : n * unit < 2 ^ 64) :
    parseScaled (Nat.toDigits 10 n) unit = some (some (n * unit)) := by
  have hn : n < 2 ^ 64 := Nat.lt_of_le_of_lt (Nat.le_mul_of_pos_right n hunit) h
  rw [parseScaled, parseUsize, parseUnsigned_trim_toDigits hn]
  dsimp only
  rw [mulUsize, if_pos h]
  rfl

namespace MemoryAmount

theorem suffix_letter (m : MemoryAmount) : ∀ c ∈ m.suffix, 65 ≤ c.toNat ∧ c.toNat ≤ 122 := by
  have hupper : ∀ n < 26, (Char.ofNat (65 + n)).toNat = 65 + n := by decide
  intro c hc
  have hlower := m.suffix_lower c hc
  rcases toLower_eq_or c with h | ⟨n, hn, rfl⟩
  · rw [h] at hlower
    simp only [List.mem_cons, List.not_mem_nil, or_false] at hlower
    rcases hlower with rfl | rfl | rfl | rfl <;> simp
  · rw [hupper n hn]
    omega

/-- Digits and letters only. -/
theorem value_ascii (m : MemoryAmount) : ∀ c ∈ m.value.text, 48 ≤ c.toNat ∧ c.toNat ≤ 122 := by
  intro c hc
  rcases List.mem_append.1 hc with hc | hc
  · exact toNat_of_toDigit (isSome_toDigit_toDigits m.amount c hc)
  · have := m.suffix_letter c hc
    omega

theorem toLowercase_text (m : MemoryAmount) :
    toLowercase m.value.text = Nat.toDigits 10 m.amount ++ m.unit.text := by
  have hascii : ∀ c ∈ m.value.text, c.toNat < 0x80 := by
    intro c hc
    have := m.value_ascii c hc
    omega
  rw [toLowercase_eq hascii, value, List.map_append,
    toLower_digits (isSome_toDigit_toDigits m.amount), m.suffix_eq]

theorem trim_text (m : MemoryAmount) : trim m.value.text = m.value.text := by
  have htext : ∀ c ∈ m.value.text, isWhitespace c = false := fun c hc =>
    not_isWhitespace_of_range (m.value_ascii c hc).1 (m.value_ascii c hc).2
  exact trim_eq_self (fun c hc => htext c (List.mem_of_mem_head? hc))
    fun c hc => htext c (List.mem_of_mem_getLast? hc)

theorem parseMemory_text (m : MemoryAmount) :
    parseMemory (trim m.value.text) = some (some m.bytes) := by
  have hb : 'b' ∉ Nat.toDigits 10 m.amount :=
    fun hmem => by simpa [toDigit, digitValue] using isSome_toDigit_toDigits m.amount 'b' hmem
  have hscaled := parseScaled_toDigits m.unit.factor_pos m.fits
  unfold parseMemory
  rw [trim_trim, m.trim_text, m.toLowercase_text]
  unfold bytes
  cases hu : m.unit with
  | bytes =>
    have hnone : ∀ suffix, 'b' ∈ suffix → stripSuffix suffix (Nat.toDigits 10 m.amount) = none :=
      fun suffix hs => stripSuffix_eq_none fun h => hb (h.subset hs)
    have hfits := m.fits
    rw [hu, MemoryUnit.factor, Nat.mul_one] at hfits
    have hparse := parseUnsigned_toDigits hfits
    simp only [MemoryUnit.text, List.append_nil, hnone "mb".toList (by simp),
      hnone "gb".toList (by simp), hnone "kb".toList (by simp), parseUsize, hparse,
      MemoryUnit.factor, Nat.mul_one]
  | kb =>
    simp only [MemoryUnit.text, stripSuffix_ne (show "mb".toList.length = "kb".toList.length from rfl)
      (by simp), stripSuffix_ne (show "gb".toList.length = "kb".toList.length from rfl) (by simp),
      stripSuffix_append]
    rw [hu] at hscaled
    exact hscaled
  | mb =>
    simp only [MemoryUnit.text, stripSuffix_append]
    rw [hu] at hscaled
    exact hscaled
  | gb =>
    simp only [MemoryUnit.text, stripSuffix_ne (show "mb".toList.length = "gb".toList.length from rfl)
      (by simp), stripSuffix_append]
    rw [hu] at hscaled
    exact hscaled

end MemoryAmount

/-! ## Sections -/

namespace OpenBlock

/-- The ports so far, the one in progress included. -/
theorem items_ports (o : OpenBlock) (items : List (PortStyle × PortMapping)) :
    ((items.map portItem).foldl itemStep o).flush.ports = o.flush.ports ++ items.map Prod.snd ∧
      ((items.map portItem).foldl itemStep o).image = o.image ∧
      ((items.map portItem).foldl itemStep o).restart = o.restart ∧
      ((items.map portItem).foldl itemStep o).memoryBytes = o.memoryBytes ∧
      ((items.map portItem).foldl itemStep o).pidsMax = o.pidsMax := by
  induction items generalizing o with
  | nil => simp
  | cons item items ih =>
    obtain ⟨hports, hrest⟩ := ih (o.itemStep (portItem item))
    refine ⟨?_, hrest⟩
    rw [List.map_cons, List.foldl_cons, hports]
    simp [itemStep, portItem, flush, parseU16_decimal, completePort]

/-- What the entries of a `resources:` section do. -/
theorem foldlM_limits (o : OpenBlock) (l : Limits) : ∃ o',
    l.entries.foldlM entryStep o = some o' ∧ o'.flush.ports = o.flush.ports ∧ o'.image = o.image ∧
      o'.restart = o.restart ∧
      o'.memoryBytes = (l.memory.map MemoryAmount.bytes).or o.memoryBytes ∧
      o'.pidsMax = (l.pidsMax.map UInt64.toNat).or o.pidsMax := by
  have hmemory : ∀ (m : MemoryAmount) (o : OpenBlock),
      o.entryStep (.memory m.value) = some { o with memoryBytes := some m.bytes } := by
    intro m o
    rw [entryStep, m.parseMemory_text]
    rfl
  have hpids : ∀ (n : UInt64) (o : OpenBlock),
      o.entryStep (.pidsMax (decimal n.toNat)) = some { o with pidsMax := some n.toNat } := by
    intro n o
    have hparse : parseUsize (trim (decimal n.toNat).text) = some n.toNat :=
      parseUnsigned_trim_toDigits n.toNat_lt
    rw [entryStep, hparse]
  obtain ⟨memory, pidsMax, memoryFirst⟩ := l
  cases memory <;> cases pidsMax <;> cases memoryFirst <;>
    simp [Limits.entries, hmemory, hpids, flush]

end OpenBlock

namespace Declared

variable (d : Declared)

/-- What the sections of the kinds `ks` do to the container under construction. -/
structure Did (ks : List SectionKind) (o o' : OpenBlock) : Prop where
  image : o'.image = o.image
  ports : o'.flush.ports = o.flush.ports ++ if .ports ∈ ks then d.mappings else []
  restart : o'.restart = (if .restart ∈ ks then d.restart else none).getD o.restart
  memoryBytes : o'.memoryBytes = (if .resources ∈ ks then d.memoryBytes else none).or o.memoryBytes
  pidsMax : o'.pidsMax = (if .resources ∈ ks then d.pidsMax else none).or o.pidsMax

theorem foldlM_kind (k : SectionKind) (o : OpenBlock) :
    ∃ o', (d.section? k).toList.foldlM OpenBlock.sectionStep o = some o' ∧ d.Did [k] o o' := by
  cases k with
  | restart =>
    cases h : d.restart with
    | none => exact ⟨o, by simp [section?, h], by constructor <;> simp [h]⟩
    | some p =>
      refine ⟨_, by simp [section?, h, OpenBlock.sectionStep, parseRestart_text]; rfl, ?_⟩
      constructor <;> simp [OpenBlock.flush, h, completePort]
  | ports =>
    cases h : d.ports with
    | none => exact ⟨o, by simp [section?, h], by constructor <;> simp [h, mappings]⟩
    | some items =>
      obtain ⟨hports, himage, hrestart, hmemory, hpids⟩ :=
        OpenBlock.items_ports { o.flush with inPorts := true, inResources := false } items
      refine ⟨_, by simp [section?, h, OpenBlock.sectionStep]; rfl, ?_⟩
      constructor
      · exact himage
      · rw [hports]
        simp [OpenBlock.flush, completePort, mappings, h]
      · exact hrestart.trans (by simp [OpenBlock.flush])
      · exact hmemory.trans (by simp [OpenBlock.flush])
      · exact hpids.trans (by simp [OpenBlock.flush])
  | resources =>
    cases h : d.resources with
    | none => exact ⟨o, by simp [section?, h], by constructor <;> simp [h, memoryBytes, pidsMax]⟩
    | some l =>
      obtain ⟨o', hfold, hports, himage, hrestart, hmemory, hpids⟩ :=
        OpenBlock.foldlM_limits { o.flush with inResources := true, inPorts := false } l
      refine ⟨o', by simp [section?, h, OpenBlock.sectionStep, hfold], ?_⟩
      constructor
      · exact himage
      · rw [hports]
        simp [OpenBlock.flush, completePort]
      · exact hrestart.trans (by simp [OpenBlock.flush])
      · rw [hmemory]
        simp [memoryBytes, h, OpenBlock.flush]
      · rw [hpids]
        simp [pidsMax, h, OpenBlock.flush]

variable {d}

theorem Did.cons {k : SectionKind} {ks : List SectionKind} {o o₁ o' : OpenBlock} (h : d.Did [k] o o₁)
    (hks : d.Did ks o₁ o') (hk : k ∉ ks) : d.Did (k :: ks) o o' := by
  constructor
  · rw [hks.image, h.image]
  · rw [hks.ports, h.ports]
    cases k <;> simp_all
  · rw [hks.restart, h.restart]
    cases k <;> simp_all
  · rw [hks.memoryBytes, h.memoryBytes]
    cases k <;> simp_all
  · rw [hks.pidsMax, h.pidsMax]
    cases k <;> simp_all

/-- By induction on the kinds, each of which comes once. -/
theorem foldlM_kinds {ks : List SectionKind} (hks : ks.Nodup) (o : OpenBlock) :
    ∃ o', (ks.filterMap d.section?).foldlM OpenBlock.sectionStep o = some o' ∧ d.Did ks o o' := by
  induction ks generalizing o with
  | nil => exact ⟨o, rfl, by constructor <;> simp⟩
  | cons k ks ih =>
    obtain ⟨hk, hks⟩ := List.nodup_cons.1 hks
    obtain ⟨o₁, h₁, hdid₁⟩ := d.foldlM_kind k o
    obtain ⟨o', h', hdid⟩ := ih hks o₁
    refine ⟨o', ?_, hdid₁.cons hdid hk⟩
    have hsplit : (k :: ks).filterMap d.section? = (d.section? k).toList ++ ks.filterMap d.section? := by
      rw [List.filterMap_cons]
      cases d.section? k <;> rfl
    rw [hsplit, List.foldlM_append, h₁]
    exact h'

/-- Whatever blank lines and comments there are: a text whose other lines are the block under
`containers:` is read as the one container that the block declares. -/
theorem fromYaml_declared (d : Declared) {text : Str}
    (h : (lines text).filter Shown = documentLines [d.block] none) :
    KernelConfig.fromYaml text = pure ⟨[d.spec]⟩ := by
  have hmem : ∀ k : SectionKind, k ∈ d.order := by
    intro k
    rw [d.perm.mem_iff]
    cases k <;> simp
  obtain ⟨o, ho, hdid⟩ := foldlM_kinds (d := d) (d.perm.nodup_iff.2 (by simp))
    (.start d.image none)
  have hblock : documentLines [d.block] none = "containers:".toList :: (d.block.lines ++ []) := by
    simp [documentLines, restLines]
  have hsections : d.block.sections.foldlM OpenBlock.sectionStep (.start d.block.image none) = some o :=
    ho
  rw [KernelConfig.fromYaml_shown, h, hblock, parseFrom_first, hsections]
  dsimp only
  rw [parseFrom_nil]
  have hspec : o.flush.spec = d.spec := by
    have himage : o.flush.image = d.image.text := hdid.image.trans d.trimmed
    have hports := hdid.ports
    have hrestart : o.flush.restart = _ := hdid.restart
    have hmemory : o.flush.memoryBytes = _ := hdid.memoryBytes
    have hpids : o.flush.pidsMax = _ := hdid.pidsMax
    simp only [hmem, if_true] at hports hrestart hmemory hpids
    rw [OpenBlock.spec, himage, hports, hrestart, hmemory, hpids]
    simp [spec, OpenBlock.start, OpenBlock.flush, completePort]
  rw [hspec]
  rfl

/-- Limits first, then ports in both layouts, between blank lines and comments. -/
theorem fromYaml_declared_web : KernelConfig.fromYaml
    ("# boot\ncontainers:\n\n  - image: web:1\n    resources:\n      pids_max: 7\n# limit\n" ++
      "      memory: 2Gb\n    ports:\n      - host: 8080\n        # inside\n        container: 80\n" ++
      "    - host: 443\n      container: 443\n  \n").toList =
    pure ⟨[{ ContainerSpec.new "web:1".toList [] with
      ports := [⟨8080, 80⟩, ⟨443, 443⟩]
      resources := { memoryBytes := 2 ^ 31, pidsMax := 7, cpuShares := 1024 } }]⟩ := by
  let web : Declared :=
    { image := ⟨"web:1".toList, by decide⟩
      trimmed := rfl
      restart := none
      ports := some [(.nested, ⟨8080, 80⟩), (.flat, ⟨443, 443⟩)]
      resources := some ⟨some ⟨2, .gb, "Gb".toList, rfl, by decide⟩, some 7, false⟩
      order := [.resources, .restart, .ports]
      perm := by decide }
  exact fromYaml_declared web (by decide +kernel)

end Declared

end OciKernel
