import Mathlib.Data.Finset.Card
import OciKernel.Oci.Manifest
import OciKernel.Oci.Registry

/-!
# Oci.ImageStore

The store of `oci/image_store.rs`, layers by digest and manifests by `name:tag`, with `pull_layer` of
`oci/registry.rs`, which is where its layers come from.

* `run_intact`: after any calls a layer is what was stored first under its digest, verified.
* `exact_iff`: which calls leave every lookup of an image exact.
-/

namespace OciKernel

open Text

structure LayerEntry where
  digest : Str
  size : Nat
  data : List UInt8
deriving DecidableEq, Repr

structure ImageStore where
  /-- By digest. -/
  layers : Std.TreeMap Str LayerEntry
  /-- By `name:tag`. -/
  images : Std.TreeMap Str ImageManifest

inductive StoreError where
  | outOfMemory
deriving DecidableEq, Repr

namespace ImageStore

def new : ImageStore := ⟨∅, ∅⟩

def hasLayer (s : ImageStore) (digest : Str) : Bool := s.layers.contains digest

def storeLayer (s : ImageStore) (digest : Str) (data : List UInt8) : Except StoreError Unit × ImageStore :=
  if s.hasLayer digest then (.ok (), s)
  else (.ok (), { s with layers := s.layers.insert digest { digest, size := data.length, data } })

def getLayer (s : ImageStore) (digest : Str) : Option (List UInt8) := s.layers[digest]?.map (·.data)

def layerCount (s : ImageStore) : Nat := s.layers.size

/-- `format!("{}:{}", name, tag)`. -/
def imageKey (name tag : Str) : Str := name ++ ':' :: tag

def storeImage (s : ImageStore) (name tag : Str) (manifest : ImageManifest) : ImageStore :=
  { s with images := s.images.insert (imageKey name tag) manifest }

def getImage (s : ImageStore) (name tag : Str) : Option ImageManifest := s.images[imageKey name tag]?

end ImageStore

namespace Registry

/-- `getWithHeaders` is `http::get_with_headers`. The outer `none` is a panic of `sha256`. -/
def pullLayer (getWithHeaders : Str → Str → List (Str × Str) → Except HttpError HttpResponse)
    (host : Str) (token : Option Str) (image digest : Str) : Option (Except RegistryError (List UInt8)) :=
  let path := "/v2/".toList ++ image ++ "/blobs/".toList ++ digest
  let headers := token.elim [] fun t => [("Authorization".toList, "Bearer ".toList ++ t)]
  match getWithHeaders host path headers with
  | .error e => some (.error (.http e))
  | .ok resp => (verifySha256 resp.body digest).map fun verified => verified.map fun () => resp.body

/-- Data that `verify_sha256` accepts for the digest. -/
structure VerifiedLayer where
  digest : Str
  data : List UInt8
  verified : verifySha256 data digest = some (.ok ())

section PullLayer

variable {getWithHeaders : Str → Str → List (Str × Str) → Except HttpError HttpResponse} {host : Str}
  {token : Option Str} {image digest : Str} {data : List UInt8}

theorem verified_of_pullLayer (h : pullLayer getWithHeaders host token image digest = some (.ok data)) :
    verifySha256 data digest = some (.ok ()) := by
  unfold pullLayer at h
  dsimp only at h
  split at h
  · cases h
  · next resp _ =>
    obtain ⟨verified, hverified, hdata⟩ := Option.map_eq_some_iff.1 h
    cases verified with
    | error e => cases hdata
    | ok =>
      cases hdata
      exact hverified

/-- What `pull_layer` returns, under the digest it was asked for. -/
def VerifiedLayer.ofPullLayer (h : pullLayer getWithHeaders host token image digest = some (.ok data)) :
    VerifiedLayer := ⟨digest, data, verified_of_pullLayer h⟩

end PullLayer

end Registry

namespace ImageStore

open Registry (VerifiedLayer)

inductive Call where
  | storeLayer (layer : VerifiedLayer)
  | storeImage (name tag : Str) (manifest : ImageManifest)

def step (s : ImageStore) : Call → ImageStore
  | .storeLayer layer => (s.storeLayer layer.digest layer.data).2
  | .storeImage name tag manifest => s.storeImage name tag manifest

def run (calls : List Call) : ImageStore := calls.foldl step new

theorem run_append (calls : List Call) (call : Call) : run (calls ++ [call]) = (run calls).step call := by
  rw [run, List.foldl_append]
  rfl

/-! ## Layers -/

def Call.layer? : Call → Option VerifiedLayer
  | .storeLayer layer => some layer
  | .storeImage _ _ _ => none

/-- The layers of the calls, in their order. -/
def layersOf (calls : List Call) : List VerifiedLayer := calls.filterMap Call.layer?

def firstOf (stored : List VerifiedLayer) (digest : Str) : Option VerifiedLayer :=
  stored.find? (·.digest = digest)

def digests (stored : List VerifiedLayer) : List Str := stored.map (·.digest)

def entry (layer : VerifiedLayer) : LayerEntry where
  digest := layer.digest
  size := layer.data.length
  data := layer.data

section Layers

variable {s : ImageStore} {stored : List VerifiedLayer} {layer : VerifiedLayer} {digest : Str}

theorem isSome_firstOf : (firstOf stored digest).isSome ↔ digest ∈ digests stored := by
  simp [firstOf, digests]

theorem digest_firstOf (h : firstOf stored digest = some layer) : layer.digest = digest := by
  simpa using List.find?_some h

theorem firstOf_append (more : List VerifiedLayer) : firstOf (stored ++ more) digest =
    (firstOf stored digest).or (firstOf more digest) := List.find?_append

theorem firstOf_append_of_mem (h : digest ∈ digests stored) (more : List VerifiedLayer) :
    firstOf (stored ++ more) digest = firstOf stored digest := by
  rw [firstOf_append, Option.or_of_isSome (isSome_firstOf.2 h)]

theorem firstOf_append_of_ne (h : layer.digest ≠ digest) :
    firstOf (stored ++ [layer]) digest = firstOf stored digest := by
  have hnone : firstOf [layer] digest = none := by simp [firstOf, h]
  rw [firstOf_append, hnone, Option.or_none]

theorem firstOf_append_of_notMem (h : layer.digest ∉ digests stored) :
    firstOf (stored ++ [layer]) layer.digest = some layer := by
  have hnone : firstOf stored layer.digest = none := by
    rwa [← isSome_firstOf, Option.not_isSome_iff_eq_none] at h
  rw [firstOf_append, hnone, Option.none_or]
  simp [firstOf]

theorem toFinset_digests_append :
    (digests (stored ++ [layer])).toFinset = insert layer.digest (digests stored).toFinset := by
  ext d
  simp [digests]

/-- The store holds the first layer of each digest and nothing else. -/
structure HoldsFirst (stored : List VerifiedLayer) (s : ImageStore) : Prop where
  lookup : ∀ digest, s.layers[digest]? = (firstOf stored digest).map entry
  count : s.layerCount = (digests stored).toFinset.card

theorem holdsFirst_new : HoldsFirst [] new where
  lookup _ := Std.TreeMap.getElem?_emptyc
  count := Std.TreeMap.size_emptyc

theorem HoldsFirst.hasLayer_iff (h : HoldsFirst stored s) (digest : Str) :
    s.hasLayer digest = true ↔ digest ∈ digests stored := by
  rw [hasLayer, Std.TreeMap.contains_eq_isSome_getElem?, h.lookup, Option.isSome_map, isSome_firstOf]

theorem HoldsFirst.storeLayer (h : HoldsFirst stored s) (layer : VerifiedLayer) :
    HoldsFirst (stored ++ [layer]) (s.storeLayer layer.digest layer.data).2 := by
  unfold ImageStore.storeLayer
  by_cases hmem : layer.digest ∈ digests stored
  · rw [if_pos ((h.hasLayer_iff _).2 hmem)]
    refine ⟨fun digest => ?_, ?_⟩
    · rw [h.lookup]
      by_cases hd : layer.digest = digest
      · rw [firstOf_append_of_mem (hd ▸ hmem)]
      · rw [firstOf_append_of_ne hd]
    · rw [toFinset_digests_append, Finset.insert_eq_of_mem (List.mem_toFinset.2 hmem), h.count]
  · have hnew : ¬ s.hasLayer layer.digest = true := fun hh => hmem ((h.hasLayer_iff _).1 hh)
    rw [if_neg hnew]
    refine ⟨fun digest => ?_, ?_⟩
    · simp only [Std.TreeMap.getElem?_insert, Std.LawfulEqCmp.compare_eq_iff_eq]
      split
      · next hd =>
        subst hd
        rw [firstOf_append_of_notMem hmem]
        rfl
      · next hd =>
        rw [firstOf_append_of_ne hd]
        exact h.lookup digest
    · rw [toFinset_digests_append, Finset.card_insert_of_notMem (fun hh => hmem (List.mem_toFinset.1 hh)),
        ← h.count]
      exact Std.TreeMap.size_insert.trans (if_neg hnew)

theorem holdsFirst_run (calls : List Call) : HoldsFirst (layersOf calls) (run calls) := by
  induction calls using List.reverseRecOn with
  | nil => exact holdsFirst_new
  | append_singleton calls call ih =>
    rw [run_append, layersOf, List.filterMap_append]
    cases call with
    | storeLayer layer => exact ih.storeLayer layer
    | storeImage name tag manifest =>
      rw [List.filterMap_cons_none rfl, List.filterMap_nil, List.append_nil]
      exact ⟨ih.lookup, ih.count⟩

/-- What holds of the layers of a store after `calls`. -/
structure Intact (calls : List Call) (s : ImageStore) : Prop where
  stored : ∀ digest, (s.getLayer digest).isSome ↔ digest ∈ digests (layersOf calls)
  first : ∀ digest, s.getLayer digest = (firstOf (layersOf calls) digest).map (·.data)
  verified : ∀ digest bytes, s.getLayer digest = some bytes →
    Registry.verifySha256 bytes digest = some (.ok ())
  kept : ∀ digest bytes more, s.getLayer digest = some bytes →
    (run (calls ++ more)).getLayer digest = some bytes
  size : ∀ digest (e : LayerEntry), s.layers[digest]? = some e → e.digest = digest ∧ e.size = e.data.length
  count : s.layerCount = (digests (layersOf calls)).toFinset.card

theorem getLayer_run (calls : List Call) (digest : Str) :
    (run calls).getLayer digest = (firstOf (layersOf calls) digest).map (·.data) := by
  rw [getLayer, (holdsFirst_run calls).lookup, Option.map_map]
  rfl

/-- The layers stay intact over any calls. -/
theorem run_intact (calls : List Call) : Intact calls (run calls) where
  stored digest := by rw [getLayer_run, Option.isSome_map, isSome_firstOf]
  first := getLayer_run calls
  verified digest bytes h := by
    rw [getLayer_run] at h
    obtain ⟨layer, hlayer, rfl⟩ := Option.map_eq_some_iff.1 h
    exact digest_firstOf hlayer ▸ layer.verified
  kept digest bytes more h := by
    rw [getLayer_run] at h ⊢
    obtain ⟨layer, hlayer, rfl⟩ := Option.map_eq_some_iff.1 h
    rw [layersOf, List.filterMap_append, firstOf_append, ← layersOf, hlayer, Option.some_or,
      Option.map_some]
  size digest e h := by
    rw [(holdsFirst_run calls).lookup] at h
    obtain ⟨layer, hlayer, rfl⟩ := Option.map_eq_some_iff.1 h
    exact ⟨digest_firstOf hlayer, rfl⟩
  count := (holdsFirst_run calls).count

/-- A layer that was pulled, stored twice. -/
example : ∃ layer : VerifiedLayer, layer.digest =
      "sha256:2cf24dba5fb0a30e26e83b2ac5b9e29e1b161e5c1fa7425e73043362938b9824".toList ∧
    (run [.storeLayer layer, .storeLayer layer]).getLayer layer.digest = some [104, 101, 108, 108, 111] ∧
    (run [.storeLayer layer, .storeLayer layer]).layerCount = 1 := by
  have hpull : Registry.pullLayer (fun _ _ _ => .ok ⟨200, [], [104, 101, 108, 108, 111]⟩) [] none []
      "sha256:2cf24dba5fb0a30e26e83b2ac5b9e29e1b161e5c1fa7425e73043362938b9824".toList =
      some (.ok [104, 101, 108, 108, 111]) := by
    decide +kernel
  exact ⟨.ofPullLayer hpull, rfl, rfl, rfl⟩

end Layers

/-! ## Images -/

/-- The manifest of a call that stores under `name` and `tag`. -/
def Call.manifest? (name tag : Str) : Call → Option ImageManifest
  | .storeLayer _ => none
  | .storeImage n t manifest => if n = name ∧ t = tag then some manifest else none

def lastOf (calls : List Call) (name tag : Str) : Option ImageManifest :=
  calls.reverse.findSome? (Call.manifest? name tag)

/-- Each lookup finds the manifest that was stored last under its name and tag. -/
def Exact (calls : List Call) : Prop := ∀ name tag, (run calls).getImage name tag = lastOf calls name tag

/-- No colon but the one of the key. -/
def Plain (name tag : Str) : Prop := ':' ∉ name ∧ ':' ∉ tag

def Call.Plain : Call → Prop
  | .storeLayer _ => True
  | .storeImage name tag _ => ImageStore.Plain name tag

section Images

variable {calls : List Call} {name tag n t : Str}

theorem plain_iff_count : Plain name tag ↔ (imageKey name tag).count ':' = 1 := by
  rw [imageKey, List.count_append, List.count_cons_self, Plain, ← List.count_eq_zero,
    ← List.count_eq_zero]
  omega

/-- The key of a plain pair is of no other pair. -/
theorem imageKey_inj (h : Plain name tag) : imageKey name tag = imageKey n t ↔ name = n ∧ tag = t := by
  constructor
  · intro heq
    have hplain : Plain n t := by rwa [plain_iff_count, ← heq, ← plain_iff_count]
    have hsplit : splitOnce ':' (imageKey name tag) = splitOnce ':' (imageKey n t) := by rw [heq]
    rw [imageKey, imageKey, splitOnce_append h.1, splitOnce_append hplain.1] at hsplit
    exact Prod.mk.inj (Option.some.inj hsplit)
  · rintro ⟨rfl, rfl⟩
    rfl

/-- The key of any other pair is that of a second pair, which is not plain either. -/
theorem exists_alias (h : ¬ Plain name tag) :
    ∃ n t, imageKey n t = imageKey name tag ∧ ¬ (name = n ∧ tag = t) ∧ ¬ Plain n t := by
  by_cases hname : ':' ∈ name
  · obtain ⟨a, b, rfl⟩ := List.append_of_mem hname
    refine ⟨a, b ++ ':' :: tag, by simp [imageKey], ?_, fun hplain => hplain.2 (by simp)⟩
    rintro ⟨hlen, -⟩
    simpa using congrArg List.length hlen
  · have htag : ':' ∈ tag := by
      by_contra hno
      exact h ⟨hname, hno⟩
    obtain ⟨a, b, rfl⟩ := List.append_of_mem htag
    refine ⟨name ++ ':' :: a, b, by simp [imageKey], ?_, fun hplain => hplain.1 (by simp)⟩
    rintro ⟨hlen, -⟩
    simpa using congrArg List.length hlen

theorem getImage_storeImage (s : ImageStore) (manifest : ImageManifest) :
    (s.storeImage name tag manifest).getImage n t =
      if imageKey name tag = imageKey n t then some manifest else s.getImage n t := by
  simp only [getImage, storeImage, Std.TreeMap.getElem?_insert, Std.LawfulEqCmp.compare_eq_iff_eq]

theorem getImage_storeLayer (s : ImageStore) (digest : Str) (data : List UInt8) :
    (s.storeLayer digest data).2.getImage n t = s.getImage n t := by
  unfold storeLayer
  split <;> rfl

theorem lastOf_append (call : Call) :
    lastOf (calls ++ [call]) n t = (call.manifest? n t).or (lastOf calls n t) := by
  rw [lastOf, List.reverse_append, List.reverse_singleton, List.singleton_append, List.findSome?_cons]
  cases call.manifest? n t <;> rfl

/-- Nothing was stored under a pair that is not plain. -/
theorem lastOf_eq_none (h : ∀ call ∈ calls, call.Plain) (hnt : ¬ Plain n t) : lastOf calls n t = none := by
  refine List.findSome?_eq_none_iff.2 fun call hcall => ?_
  cases call with
  | storeLayer layer => rfl
  | storeImage name tag manifest =>
    refine if_neg fun heq => hnt ?_
    rw [← heq.1, ← heq.2]
    exact h _ (List.mem_reverse.1 hcall)

/-- One more call keeps the lookups exact if and only if it is plain. -/
theorem exact_append_iff (hplain : ∀ call ∈ calls, call.Plain) (h : Exact calls) (call : Call) :
    Exact (calls ++ [call]) ↔ call.Plain := by
  cases call with
  | storeLayer layer =>
    refine iff_of_true (fun n t => ?_) trivial
    rw [lastOf_append, Call.manifest?, Option.none_or, run_append, step, getImage_storeLayer, h n t]
  | storeImage name tag manifest =>
    have hstep (n t : Str) : (run (calls ++ [.storeImage name tag manifest])).getImage n t =
        if imageKey name tag = imageKey n t then some manifest else lastOf calls n t := by
      rw [run_append, step, getImage_storeImage, h n t]
    constructor
    · intro hexact
      by_contra hcolon
      obtain ⟨n, t, hkey, hne, hnt⟩ := exists_alias hcolon
      have hfound := hexact n t
      rw [hstep, if_pos hkey.symm, lastOf_append, Call.manifest?, if_neg hne,
        lastOf_eq_none hplain hnt] at hfound
      cases hfound
    · intro hcall n t
      rw [hstep, lastOf_append, Call.manifest?]
      by_cases heq : name = n ∧ tag = t
      · rw [if_pos heq, if_pos ((imageKey_inj hcall).2 heq), Option.some_or]
      · rw [if_neg heq, if_neg (heq ∘ (imageKey_inj hcall).1), Option.none_or]

/-- The lookups are exact throughout a run if and only if no name and no tag that it stores under has a
colon. -/
theorem exact_iff (calls : List Call) :
    (∀ pre, pre <+: calls → Exact pre) ↔ ∀ call ∈ calls, call.Plain := by
  induction calls using List.reverseRecOn with
  | nil =>
    refine iff_of_true (fun pre hpre n t => ?_) nofun
    rw [List.prefix_nil.1 hpre]
    exact Std.TreeMap.getElem?_emptyc
  | append_singleton calls call ih =>
    simp only [List.prefix_concat_iff, List.mem_append, List.mem_singleton, or_imp, forall_and,
      forall_eq]
    rw [ih, and_comm]
    refine and_congr_right fun hplain => ?_
    exact exact_append_iff hplain (ih.2 hplain calls List.prefix_rfl) call

def noLayers : ImageManifest where
  schemaVersion := 2
  config := { mediaType := [], digest := [], size := 0 }
  layers := []

/-- What is stored under a name with a registry port answers for another name and tag. -/
theorem not_exact_port : ¬ Exact [.storeImage "localhost:5000/app".toList "v1".toList
    noLayers] := by
  intro h
  have hkey : imageKey "localhost:5000/app".toList "v1".toList =
      imageKey "localhost".toList "5000/app:v1".toList := by decide
  have hfound := h "localhost".toList "5000/app:v1".toList
  have hlast : lastOf [.storeImage "localhost:5000/app".toList "v1".toList noLayers]
      "localhost".toList "5000/app:v1".toList = none := rfl
  rw [hlast, run, List.foldl_cons, List.foldl_nil, step, getImage_storeImage, if_pos hkey] at hfound
  cases hfound

end Images

end ImageStore

end OciKernel
