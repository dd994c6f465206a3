import Mathlib.Algebra.Order.Ring.Rat
import Mathlib.Data.List.Forall2
import OciKernel.Lib.Json

/-!
# Oci.Manifest

Image manifests, `oci/manifest.rs`. The parser of `serde_json` is a parameter.

* `fromJson_exact_iff`: which values are read without a default or a cut in place of what they say.
-/

namespace OciKernel

open Text

structure LayerDescriptor where
  mediaType : Str
  digest : Str
  size : UInt64
deriving DecidableEq, Repr

structure ImageManifest where
  schemaVersion : UInt8
  config : LayerDescriptor
  layers : List LayerDescriptor
deriving DecidableEq, Repr

inductive ParseError (ε : Type) where
  | json (e : ε)
  | missingField

/-- The config and each layer are read the same way. -/
def descriptor (v : Json.Value) : LayerDescriptor where
  mediaType := (v.get "mediaType".toList).asStr.getD []
  digest := (v.get "digest".toList).asStr.getD []
  size := (v.get "size".toList).asU64.getD 0

/-- `fromStr` is `serde_json::from_str`. -/
def ImageManifest.fromJson {ε : Type} (fromStr : Str → Except ε Json.Value) (json : Str) :
    Except (ParseError ε) ImageManifest :=
  match fromStr json with
  | .error e => .error (.json e)
  | .ok v =>
    let config := descriptor (v.get "config".toList)
    match (v.get "layers".toList).asArray with
    | none => .error .missingField
    | some layers => .ok
      { schemaVersion := ((v.get "schemaVersion".toList).asU64.getD 2).toUInt8
        config
        layers := layers.map descriptor }

namespace ImageManifest

/-! ## What a manifest says -/

/-- The three fields are present, of the right type, and those of `d`. -/
structure Describes (v : Json.Value) (d : LayerDescriptor) : Prop where
  mediaType : v.member? "mediaType".toList = some (.string d.mediaType)
  digest : v.member? "digest".toList = some (.string d.digest)
  size : v.member? "size".toList = some (.number (.posInt d.size))

structure HasFields (v : Json.Value) : Prop where
  mediaType : ∃ s, v.member? "mediaType".toList = some (.string s)
  digest : ∃ s, v.member? "digest".toList = some (.string s)
  size : ∃ n, v.member? "size".toList = some (.number (.posInt n))

theorem Describes.hasFields {v : Json.Value} {d : LayerDescriptor} (h : Describes v d) : HasFields v :=
  ⟨⟨_, h.mediaType⟩, ⟨_, h.digest⟩, ⟨_, h.size⟩⟩

theorem HasFields.describes {v : Json.Value} (h : HasFields v) : Describes v (descriptor v) := by
  obtain ⟨⟨mediaType, hmediaType⟩, ⟨digest, hdigest⟩, ⟨size, hsize⟩⟩ := h
  have hd : descriptor v = ⟨mediaType, digest, size⟩ := by
    rw [descriptor, Json.Value.get, Json.Value.get, Json.Value.get, hmediaType, hdigest, hsize]
    rfl
  rw [hd]
  exact ⟨hmediaType, hdigest, hsize⟩

theorem hasFields_of_forall₂ {vs : List Json.Value} {ds : List LayerDescriptor}
    (h : List.Forall₂ Describes vs ds) : ∀ v ∈ vs, HasFields v := by
  induction h with
  | nil => exact nofun
  | cons hd _ ih => exact List.forall_mem_cons.2 ⟨hd.hasFields, ih⟩

theorem forall₂_describes {vs : List Json.Value} (h : ∀ v ∈ vs, HasFields v) :
    List.Forall₂ Describes vs (vs.map descriptor) :=
  List.forall₂_map_right_iff.2 (List.forall₂_same.2 fun v hv => (h v hv).describes)

/-- Nothing in `m` is invented. -/
structure Matches (v : Json.Value) (m : ImageManifest) : Prop where
  config : Describes (v.get "config".toList) m.config
  layers : ∃ vs, v.member? "layers".toList = some (.array vs) ∧ List.Forall₂ Describes vs m.layers
  schemaVersion : ∀ s, v.member? "schemaVersion".toList = some s →
    ∃ n, s = .number n ∧ n.toRat = m.schemaVersion.toNat

/-- A field of a descriptor is missing or of another type, or the version is not one of `u8`. -/
inductive Malformed (v : Json.Value) : Prop where
  | config (h : ¬ HasFields (v.get "config".toList))
  | layer (vs : List Json.Value) (layer : Json.Value) (hvs : v.member? "layers".toList = some (.array vs))
      (hlayer : layer ∈ vs) (h : ¬ HasFields layer)
  | schemaVersion (s : Json.Value) (hs : v.member? "schemaVersion".toList = some s)
      (h : ∀ k < 256, ¬ ∃ n, s = .number n ∧ n.toRat = (k : Nat))

theorem Matches.not_malformed {v : Json.Value} {m : ImageManifest} (h : Matches v m) : ¬ Malformed v := by
  intro hbad
  cases hbad with
  | config hconfig => exact hconfig h.config.hasFields
  | layer vs layer hvs hlayer hbad =>
    obtain ⟨vs', hvs', hall⟩ := h.layers
    cases hvs.symm.trans hvs'
    exact hbad (hasFields_of_forall₂ hall layer hlayer)
  | schemaVersion s hs hbad =>
    exact hbad m.schemaVersion.toNat m.schemaVersion.toNat_lt (h.schemaVersion s hs)

/-- A result says nothing that `v` does not, and a malformed value has none. -/
structure Exact {ε : Type} (v : Json.Value) (result : Except (ParseError ε) ImageManifest) : Prop where
  ok : ∀ m, result = .ok m → Matches v m
  error : Malformed v → ∃ e, result = .error e

/-- The version is an integer below 256, or else some other number that is 2, the default. -/
structure Readable (v : Json.Value) : Prop where
  config : HasFields (v.get "config".toList)
  layers : ∀ vs, v.member? "layers".toList = some (.array vs) → ∀ layer ∈ vs, HasFields layer
  schemaVersion : ∀ s, v.member? "schemaVersion".toList = some s →
    ∃ n, s = .number n ∧ ((∃ k, n = .posInt k ∧ k.toNat < 256) ∨ n.toRat = 2)

theorem toRat_schemaVersion (n : Json.Number) :
    n.toRat = (((Json.Value.number n).asU64.getD 2).toUInt8.toNat : Rat) ↔
      (∃ k, n = .posInt k ∧ k.toNat < 256) ∨ n.toRat = 2 := by
  cases n with
  | posInt k =>
    have hcut : k.toNat = k.toUInt8.toNat ↔ k.toNat < 256 := by
      rw [UInt64.toNat_toUInt8]
      omega
    have htwo : (k.toNat : Rat) = 2 → k.toNat < 256 := by
      intro h
      have : k.toNat = 2 := by exact_mod_cast h
      omega
    simp only [Json.Number.toRat, Json.Value.asU64, Option.getD_some, Nat.cast_inj, hcut]
    constructor
    · intro h
      exact .inl ⟨k, rfl, h⟩
    · rintro (⟨k', heq, h⟩ | h)
      · cases heq
        exact h
      · exact htwo h
  | negInt n => simp [Json.Value.asU64]
  | float x => simp [Json.Value.asU64]

/-! ## What `from_json` reads -/

section FromJson

variable {ε : Type} {fromStr : Str → Except ε Json.Value} {json : Str} {v : Json.Value} {vs : List Json.Value}

theorem fromJson_array (hv : fromStr json = .ok v) (hvs : v.member? "layers".toList = some (.array vs)) :
    fromJson fromStr json = .ok
      { schemaVersion := ((v.get "schemaVersion".toList).asU64.getD 2).toUInt8
        config := descriptor (v.get "config".toList)
        layers := vs.map descriptor } := by
  rw [fromJson, hv]
  dsimp only
  rw [Json.Value.asArray_get.2 hvs]

theorem fromJson_no_array (hv : fromStr json = .ok v)
    (hvs : ∀ vs, v.member? "layers".toList ≠ some (.array vs)) :
    fromJson fromStr json = .error .missingField := by
  have hnone : (v.get "layers".toList).asArray = none :=
    Option.eq_none_iff_forall_ne_some.2 fun vs h => hvs vs (Json.Value.asArray_get.1 h)
  rw [fromJson, hv]
  dsimp only
  rw [hnone]

/-- Given the array of layers, what was read matches exactly a readable value. -/
theorem matches_iff_readable (hvs : v.member? "layers".toList = some (.array vs)) : Matches v
    { schemaVersion := ((v.get "schemaVersion".toList).asU64.getD 2).toUInt8
      config := descriptor (v.get "config".toList)
      layers := vs.map descriptor } ↔ Readable v := by
  have hversion (s : Json.Value) (hs : v.member? "schemaVersion".toList = some s) :
      v.get "schemaVersion".toList = s := by
    rw [Json.Value.get, hs, Option.getD_some]
  constructor
  · intro h
    refine ⟨h.config.hasFields, fun vs' hvs' => ?_, fun s hs => ?_⟩
    · cases hvs.symm.trans hvs'
      obtain ⟨vs', hvs', hall⟩ := h.layers
      cases hvs.symm.trans hvs'
      exact hasFields_of_forall₂ hall
    · obtain ⟨n, rfl, hn⟩ := h.schemaVersion s hs
      dsimp only at hn
      rw [hversion _ hs] at hn
      exact ⟨n, rfl, (toRat_schemaVersion n).1 hn⟩
  · intro h
    refine ⟨h.config.describes, ⟨vs, hvs, forall₂_describes (h.layers vs hvs)⟩, fun s hs => ?_⟩
    obtain ⟨n, rfl, hn⟩ := h.schemaVersion s hs
    dsimp only
    rw [hversion _ hs]
    exact ⟨n, rfl, (toRat_schemaVersion n).2 hn⟩

/-- `from_json` is exact on the values without an array of layers, which are refused, and on the readable
ones. -/
theorem fromJson_exact_iff (hv : fromStr json = .ok v) :
    Exact v (fromJson fromStr json) ↔
      (∀ vs, v.member? "layers".toList ≠ some (.array vs)) ∨ Readable v := by
  by_cases hvs : ∃ vs, v.member? "layers".toList = some (.array vs)
  · obtain ⟨vs, hvs⟩ := hvs
    rw [fromJson_array hv hvs, or_iff_right fun h => h vs hvs, ← matches_iff_readable hvs]
    constructor
    · intro h
      exact h.ok _ rfl
    · intro h
      refine ⟨fun m hm => ?_, fun hbad => absurd hbad h.not_malformed⟩
      cases hm
      exact h
  · have hno : ∀ vs, v.member? "layers".toList ≠ some (.array vs) := not_exists.1 hvs
    rw [fromJson_no_array hv hno]
    exact iff_of_true ⟨nofun, fun _ => ⟨_, rfl⟩⟩ (.inl hno)

end FromJson

/-- A parser that knows one text. -/
def reads (text : Str) (v : Json.Value) (s : Str) : Except Unit Json.Value :=
  if s = text then .ok v else .error ()

/-- A config and a layer, with their fields. -/
def configText : Str :=
  ("\x7b\"config\":\x7b\"mediaType\":\"c\",\"digest\":\"d\",\"size\":7\x7d," ++
    "\"layers\":[\x7b\"mediaType\":\"l\",\"digest\":\"e\",\"size\":9\x7d]\x7d").toList

def configValue : Json.Value := .object
  [("config".toList, .object [("mediaType".toList, .string ['c']), ("digest".toList, .string ['d']),
    ("size".toList, .number (.posInt 7))]),
   ("layers".toList, .array [.object [("mediaType".toList, .string ['l']), ("digest".toList, .string ['e']),
    ("size".toList, .number (.posInt 9))]])]

theorem fromJson_exact_config :
    Exact configValue (fromJson (reads configText configValue) configText) := by
  have hv : reads configText configValue configText = .ok configValue := if_pos rfl
  refine (fromJson_exact_iff hv).2 (.inr ⟨⟨⟨_, rfl⟩, ⟨_, rfl⟩, ⟨_, rfl⟩⟩, fun vs hvs => ?_, nofun⟩)
  cases hvs
  exact List.forall_mem_singleton.2 ⟨⟨_, rfl⟩, ⟨_, rfl⟩, ⟨_, rfl⟩⟩

/-- A layer without a field, and no config. -/
def emptyText : Str := "\x7b\"layers\":[\x7b\x7d]\x7d".toList

def emptyValue : Json.Value := .object [("layers".toList, .array [.object []])]

theorem fromJson_not_exact :
    ¬ Exact emptyValue (fromJson (reads emptyText emptyValue) emptyText) := by
  intro h
  have hok : fromJson (reads emptyText emptyValue) emptyText = .ok
      { schemaVersion := 2
        config := { mediaType := [], digest := [], size := 0 }
        layers := [{ mediaType := [], digest := [], size := 0 }] } := by
    rw [fromJson, reads, if_pos rfl]
    rfl
  cases (h.ok _ hok).config.mediaType

end ImageManifest

end OciKernel
