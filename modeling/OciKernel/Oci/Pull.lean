import OciKernel.Oci.Transport

/-!
# Oci.Pull

What the client is for: pulling an image from a registry that has it.

* `Hub`: a registry with one image, which serves those who show its token.
* `getWithHeaders_hub`: it reads each request of a call as it was meant.
* `image_pulled`: over any network in front of it, the manifest and then each of its layers arrive.
-/

namespace OciKernel

open Text

namespace Client

structure Hub where
  token : Str
  /-- What the token endpoint says. -/
  tokenText : Str
  image : Str
  tag : Str
  manifestText : Str
  /-- By digest. -/
  blobs : List (Str × List UInt8)

namespace Hub

variable (hub : Hub)

/-- The response to a request, by its lines. -/
def respond : List Str → HttpResponse
  | [] => ⟨400, [], []⟩
  | line :: headers =>
    if line = Http.requestLine (tokenPath hub.image) then ⟨200, [], toUtf8 hub.tokenText⟩
    else if headers.contains (bearerLine hub.token) then
      if line = Http.requestLine (manifestPath hub.image hub.tag) then ⟨200, [], toUtf8 hub.manifestText⟩
      else
        match hub.blobs.find? fun blob => line = Http.requestLine (blobPath hub.image blob.1) with
        | none => ⟨404, [], []⟩
        | some blob => ⟨200, [], blob.2⟩
    else ⟨401, [], []⟩

def server : Direct.Server := fun request =>
  match Http.linesRead request with
  | none => ⟨400, [], []⟩
  | some lines => hub.respond lines

/-- The replies say the token and the manifest, whose layers are there under their SHA-256; and the requests
have no line breaks in them and fit into the transmit buffer. -/
structure Holds {ε : Type} (fromStr : Str → Except ε Json.Value) (manifest : ImageManifest) : Prop where
  token : ∃ v, fromStr hub.tokenText = .ok v ∧ (v.get "token".toList).asStr = some hub.token
  json : ImageManifest.fromJson fromStr hub.manifestText = .ok manifest
  layers : ∀ layer ∈ manifest.layers, ∃ data, (layer.digest, data) ∈ hub.blobs
  blobs : ∀ blob ∈ hub.blobs, blob.2.length < 2 ^ 61 ∧
    blob.1 = "sha256:".toList ++ Sha256.hexDigits (Sha256.digest (Bits.ofBytes blob.2))
  nodup : (hub.blobs.map Prod.fst).Nodup
  unbroken : Unbroken hub.image ∧ Unbroken hub.tag ∧ Unbroken hub.token
  fits : (toUtf8 hub.image).length + (toUtf8 hub.tag).length + (toUtf8 hub.token).length ≤ 16000

end Hub

/-! ## Digests -/

theorem mem_hexDigits {bits : List Bool} {c : Char} (h : c ∈ Sha256.hexDigits bits) :
    c ∈ "0123456789abcdef".toList := by
  obtain ⟨group, -, rfl⟩ := List.mem_map.1 h
  rw [List.getD_eq_getElem?_getD]
  cases hget : "0123456789abcdef".toList[Bits.value group]? with
  | none => decide
  | some c => exact List.mem_of_getElem? hget

/-- A text of ASCII characters takes a byte for each. -/
theorem length_toUtf8 {s : Str} (h : ∀ c ∈ s, (String.utf8EncodeChar c).length = 1) :
    (toUtf8 s).length = s.length := by
  induction s with
  | nil => rfl
  | cons c s ih =>
    obtain ⟨hc, hs⟩ := List.forall_mem_cons.1 h
    rw [toUtf8, List.flatMap_cons, List.length_append, hc, ← toUtf8, ih hs, List.length_cons, Nat.add_comm]

theorem digest_plain (data : List UInt8) :
    Unbroken ("sha256:".toList ++ Sha256.hexDigits (Sha256.digest (Bits.ofBytes data))) := by
  refine unbroken_of_notMem fun hmem => ?_
  rcases List.mem_append.1 hmem with hmem | hmem
  · exact absurd hmem (by decide)
  · exact absurd (mem_hexDigits hmem) (by decide)

theorem length_digest {data : List UInt8} (hdata : data.length < 2 ^ 61) :
    (toUtf8 ("sha256:".toList ++ Sha256.hexDigits (Sha256.digest (Bits.ofBytes data)))).length = 71 := by
  obtain ⟨out, -, hlen, hbits⟩ := Registry.sha256_eq hdata
  have hhex : "0123456789abcdef".toList.all fun c => (String.utf8EncodeChar c).length = 1 := by decide
  have hascii : ∀ c ∈ Sha256.hexDigits (Sha256.digest (Bits.ofBytes data)),
      (String.utf8EncodeChar c).length = 1 :=
    fun c hc => of_decide_eq_true (List.all_eq_true.1 hhex c (mem_hexDigits hc))
  rw [toUtf8_append, List.length_append, length_toUtf8 hascii, ← hbits, ← Registry.hexEncode_eq,
    Registry.length_hexEncode, hlen]
  rfl

/-! ## What the server reads -/

section Requests

variable {host dest path image : Str} {token : Option Str} {headers : List (Str × Str)} {call : Call}

theorem length_host (hknown : (Tls.resolveHost dest).isSome) : (toUtf8 dest).length ≤ 20 := by
  unfold Tls.resolveHost at hknown
  split at hknown
  · next he => exact he ▸ by decide
  · split at hknown
    · next he => exact he ▸ by decide
    · cases hknown

theorem length_requestText (hknown : (Tls.resolveHost dest).isSome) :
    (toUtf8 (Http.requestText dest path headers)).length ≤ (toUtf8 path).length +
      (toUtf8 (headers.flatMap fun header => header.1 ++ ": ".toList ++ header.2 ++ "\r\n".toList)).length +
        100 := by
  have hhost := length_host hknown
  have hget : (toUtf8 "GET ".toList).length = 4 := rfl
  have hversion : (toUtf8 " HTTP/1.1\r\nHost: ".toList).length = 17 := rfl
  have hfixed : (toUtf8 "\r\nConnection: close\r\nUser-Agent: oci-kernel/0.1\r\n".toList).length = 49 := rfl
  have hend : (toUtf8 "\r\n".toList).length = 2 := rfl
  unfold Http.requestText
  simp only [toUtf8_append, List.length_append]
  omega

/-- The bytes of what the caller passes in. -/
def Call.size (call : Call) : Nat := (call.texts.map fun s => (toUtf8 s).length).sum

theorem size_of_one {s : Str} (h : call.texts = [s]) : call.size = (toUtf8 s).length := by
  rw [Call.size, h, List.map_singleton, List.sum_singleton]

theorem size_of_two {s t : Str} (h : call.texts = [s, t]) :
    call.size = (toUtf8 s).length + (toUtf8 t).length := by
  rw [Call.size, h, List.map_cons, List.map_singleton, List.sum_cons, List.sum_singleton]

theorem length_authorization : (toUtf8 ((authorization token).flatMap fun header =>
    header.1 ++ ": ".toList ++ header.2 ++ "\r\n".toList)).length ≤
      (token.elim 0 fun t => (toUtf8 t).length) + 24 := by
  cases token with
  | none => exact Nat.zero_le _
  | some t =>
    have hname : (toUtf8 "Authorization".toList).length = 13 := rfl
    have hsep : (toUtf8 ": ".toList).length = 2 := rfl
    have hbearer : (toUtf8 "Bearer ".toList).length = 7 := rfl
    have hend : (toUtf8 "\r\n".toList).length = 2 := rfl
    simp only [authorization, Option.elim_some, List.flatMap_singleton, toUtf8_append, List.length_append]
    omega

theorem length_tokenPath : (toUtf8 (tokenPath image)).length = (toUtf8 image).length + 56 := by
  have hscope : (toUtf8 "/token?service=registry.docker.io&scope=repository:".toList).length = 51 := rfl
  have hpull : (toUtf8 ":pull".toList).length = 5 := rfl
  unfold tokenPath
  rw [toUtf8_append, toUtf8_append, List.length_append, List.length_append, hscope, hpull]
  omega

/-- A manifest or a blob of the image. -/
theorem length_objectPath (kind name : Str) : (toUtf8 ("/v2/".toList ++ image ++ kind ++ name)).length =
    (toUtf8 image).length + (toUtf8 kind).length + (toUtf8 name).length + 4 := by
  have hv2 : (toUtf8 "/v2/".toList).length = 4 := rfl
  rw [toUtf8_append, toUtf8_append, toUtf8_append, List.length_append, List.length_append, List.length_append,
    hv2]
  omega

theorem length_of_asks (h : Asks host token call dest path headers) (hknown : (Tls.resolveHost dest).isSome) :
    (toUtf8 (Http.requestText dest path headers)).length ≤
      call.size + (token.elim 0 fun t => (toUtf8 t).length) + 284 := by
  refine (length_requestText hknown).trans ?_
  have htoken := @length_authorization token
  have haccept : (toUtf8 (accept.1 ++ ": ".toList ++ accept.2 ++ "\r\n".toList)).length = 62 := rfl
  have hmanifests : (toUtf8 "/manifests/".toList).length = 11 := rfl
  have hblobs : (toUtf8 "/blobs/".toList).length = 7 := rfl
  cases h with
  | token image =>
    rw [length_tokenPath, size_of_one rfl, List.flatMap_nil]
    show _ + 0 + 100 ≤ _
    omega
  | tokenFirst image tag =>
    rw [length_tokenPath, size_of_two rfl, List.flatMap_nil]
    show _ + 0 + 100 ≤ _
    omega
  | layer image digest =>
    rw [blobPath, length_objectPath, hblobs, size_of_two rfl]
    omega
  | manifest image tag | manifestThen image tag =>
    rw [manifestPath, length_objectPath, hmanifests, size_of_two rfl, List.flatMap_cons, toUtf8_append,
      List.length_append, haccept]
    omega

end Requests

/-! ## The server's choice -/

theorem requestLine_inj {p q : Str} : Http.requestLine p = Http.requestLine q ↔ p = q := by
  unfold Http.requestLine
  rw [List.append_left_inj, List.append_right_inj]

theorem blobPath_inj {image d d' : Str} : blobPath image d = blobPath image d' ↔ d = d' := by
  unfold blobPath
  rw [List.append_right_inj]

theorem manifestPath_ne_tokenPath (image tag : Str) : manifestPath image tag ≠ tokenPath image := by
  intro h
  have hsecond : some 'v' = some 't' := congrArg (fun p : Str => p[1]?) h
  exact absurd hsecond (by decide)

theorem blobPath_ne_tokenPath (image digest : Str) : blobPath image digest ≠ tokenPath image := by
  intro h
  have hsecond : some 'v' = some 't' := congrArg (fun p : Str => p[1]?) h
  exact absurd hsecond (by decide)

theorem blobPath_ne_manifestPath (image digest tag : Str) :
    blobPath image digest ≠ manifestPath image tag := by
  intro h
  unfold blobPath manifestPath at h
  rw [List.append_assoc _ _ digest, List.append_assoc _ _ tag, List.append_right_inj] at h
  have hsecond : some 'b' = some 'm' := congrArg (fun p : Str => p[1]?) h
  exact absurd hsecond (by decide)

/-- The element with a key that no other has. -/
theorem find?_key {α β : Type} [DecidableEq α] {l : List (α × β)} (hl : (l.map Prod.fst).Nodup) {a : α}
    {b : β} (h : (a, b) ∈ l) : l.find? (fun x => a = x.1) = some (a, b) := by
  induction l with
  | nil => cases h
  | cons x l ih =>
    rw [List.map_cons, List.nodup_cons] at hl
    rcases List.mem_cons.1 h with rfl | h
    · rw [List.find?_cons_of_pos (by simp)]
    · have hne : a ≠ x.1 := fun he => hl.1 (he ▸ List.mem_map_of_mem h)
      rw [List.find?_cons_of_neg (by simpa using hne), ih hl.2 h]

namespace Hub

variable {hub : Hub} {rest : List Str}

theorem respond_token : hub.respond (Http.requestLine (tokenPath hub.image) :: rest) =
    ⟨200, [], toUtf8 hub.tokenText⟩ := if_pos rfl

theorem respond_manifest (hbearer : bearerLine hub.token ∈ rest) :
    hub.respond (Http.requestLine (manifestPath hub.image hub.tag) :: rest) =
      ⟨200, [], toUtf8 hub.manifestText⟩ := by
  rw [respond, if_neg (mt requestLine_inj.1 (manifestPath_ne_tokenPath _ _)), if_pos (List.contains_iff_mem.2 hbearer),
    if_pos rfl]

theorem respond_blob (hnodup : (hub.blobs.map Prod.fst).Nodup) (hbearer : bearerLine hub.token ∈ rest)
    {digest : Str} {data : List UInt8} (hblob : (digest, data) ∈ hub.blobs) :
    hub.respond (Http.requestLine (blobPath hub.image digest) :: rest) = ⟨200, [], data⟩ := by
  have hfind : (hub.blobs.find? fun blob => Http.requestLine (blobPath hub.image digest) =
      Http.requestLine (blobPath hub.image blob.1)) = some (digest, data) := by
    simp only [requestLine_inj, blobPath_inj]
    exact find?_key hnodup hblob
  rw [respond, if_neg (mt requestLine_inj.1 (blobPath_ne_tokenPath _ _)), if_pos (List.contains_iff_mem.2 hbearer),
    if_neg (mt requestLine_inj.1 (blobPath_ne_manifestPath _ _ _)), hfind]

end Hub

/-! ## The pull, without the network -/

/-- The calls that pull an image. -/
def pullImage (image tag : Str) (manifest : ImageManifest) : List Call :=
  .pullManifest image tag :: manifest.layers.map fun layer => .pullLayer image layer.digest

section Direct

variable {ε : Type} {fromStr : Str → Except ε Json.Value} {hub : Hub} {manifest : ImageManifest}
  {host dest path digest : Str} {token : Option Str} {headers : List (Str × Str)} {call : Call}
  {data : List UInt8}

/-- A request that fits is answered by its lines. -/
theorem getWithHeaders_hub (hub : Hub) (hasks : Asks host token call dest path headers)
    (hknown : (Tls.resolveHost dest).isSome) (htexts : ∀ s ∈ call.texts, Unbroken s)
    (htoken : ∀ t ∈ token, Unbroken t)
    (hfits : call.size + (token.elim 0 fun t => (toUtf8 t).length) ≤ 16100) :
    ∃ rest, headers.map Http.headerLine ⊆ rest ∧ Direct.getWithHeaders hub.server dest path headers =
      .ok (hub.respond (Http.requestLine path :: rest)) := by
  have hplain : Http.Plain dest path headers := plain_of_asks hasks hknown htexts htoken
  have hlines : Http.linesRead (toUtf8 (Http.requestText dest path headers)) =
      some (Http.requestLines dest path headers ++ [[]]) := (Http.linesRead_plain_iff _ _ _).2 hplain
  have hlength := length_of_asks hasks hknown
  refine ⟨(Http.requestLines dest path headers ++ [[]]).tail, ?_, ?_⟩
  · intro line hline
    have hmem : line ∈ headers.map Http.headerLine ++ [[]] ++ [[]] := by simp [hline]
    exact List.mem_cons_of_mem _ (List.mem_cons_of_mem _ (List.mem_cons_of_mem _ hmem))
  · rw [Direct.getWithHeaders, if_pos hknown, Hub.server, List.take_of_length_le (by omega), hlines]
    rfl

section Holds

variable (hhub : hub.Holds fromStr manifest)
include hhub

/-- The token endpoint gives the token. -/
theorem authenticate_hub (r : Registry) : Direct.authenticate hub.server fromStr hub.image r =
    some (.ok (), { r with token := some hub.token }) := by
  obtain ⟨himage, htag, -⟩ := hhub.unbroken
  have hasks : Asks [] none (.authenticate hub.image) authHost (tokenPath hub.image) [] := .token _
  have hfits : Call.size (.authenticate hub.image) + 0 ≤ 16100 := by
    have hsum := hhub.fits
    rw [size_of_one rfl]
    omega
  obtain ⟨rest, -, hget⟩ := getWithHeaders_hub hub hasks rfl (List.forall_mem_singleton.2 himage) nofun hfits
  obtain ⟨v, hjson, htoken⟩ := hhub.token
  have hread : readToken fromStr (.ok ⟨200, [], toUtf8 hub.tokenText⟩) = .ok hub.token := by
    simp only [readToken, fromUtf8_toUtf8, hjson, htoken]
  rw [Direct.authenticate, hget, Hub.respond_token, hread]
  rfl

/-- With the token, the manifest is there. -/
theorem fetchManifest_hub (hknown : (Tls.resolveHost host).isSome) :
    Direct.fetchManifest hub.server fromStr hub.image hub.tag ⟨host, some hub.token⟩ =
      some (.ok manifest, ⟨host, some hub.token⟩) := by
  obtain ⟨himage, htag, htoken⟩ := hhub.unbroken
  have hasks : Asks host (some hub.token) (.fetchManifest hub.image hub.tag) host
    (manifestPath hub.image hub.tag) (accept :: authorization (some hub.token)) := .manifest _ _
  have hfits : Call.size (.fetchManifest hub.image hub.tag) + (toUtf8 hub.token).length ≤ 16100 := by
    have hsum := hhub.fits
    rw [size_of_two rfl]
    omega
  obtain ⟨rest, hrest, hget⟩ := getWithHeaders_hub hub hasks hknown
    (List.forall_mem_cons.2 ⟨himage, List.forall_mem_singleton.2 htag⟩)
    (fun t ht => Option.some.inj ht ▸ htoken) hfits
  have hbearer : bearerLine hub.token ∈ rest := hrest (List.mem_cons_of_mem _ (List.mem_singleton_self _))
  have hread : readManifest fromStr (.ok ⟨200, [], toUtf8 hub.manifestText⟩) = .ok manifest := by
    simp only [readManifest, fromUtf8_toUtf8, hhub.json]
    rfl
  have hreply : readManifest fromStr (Direct.getWithHeaders hub.server host (manifestPath hub.image hub.tag)
      (accept :: authorization (some hub.token))) = .ok manifest := by
    rw [hget, Hub.respond_manifest hbearer, hread]
  exact congrArg (fun reply => some (reply, Registry.mk host (some hub.token))) hreply

/-- With the token, so is each layer. -/
theorem pullLayer_hub (hknown : (Tls.resolveHost host).isSome) (hblob : (digest, data) ∈ hub.blobs) :
    Direct.pullLayer hub.server hub.image digest ⟨host, some hub.token⟩ =
      some (.ok data, ⟨host, some hub.token⟩) := by
  obtain ⟨himage, -, htoken⟩ := hhub.unbroken
  obtain ⟨hdata, hdigest⟩ := hhub.blobs _ hblob
  dsimp only at hdata hdigest
  have hasks : Asks host (some hub.token) (.pullLayer hub.image digest) host (blobPath hub.image digest)
    (authorization (some hub.token)) := .layer _ _
  have hfits : Call.size (.pullLayer hub.image digest) + (toUtf8 hub.token).length ≤ 16100 := by
    have hsum := hhub.fits
    have hlength := length_digest hdata
    rw [← hdigest] at hlength
    rw [size_of_two rfl]
    omega
  have hplain := digest_plain data
  rw [← hdigest] at hplain
  obtain ⟨rest, hrest, hget⟩ := getWithHeaders_hub hub hasks hknown
    (List.forall_mem_cons.2 ⟨himage, List.forall_mem_singleton.2 hplain⟩)
    (fun t ht => Option.some.inj ht ▸ htoken) hfits
  rw [Hub.respond_blob hhub.nodup (hrest (List.mem_singleton_self _)) hblob] at hget
  have hverified : Registry.verifySha256 data digest = some (.ok ()) := by
    obtain ⟨out, hout, -, hbits⟩ := Registry.sha256_eq hdata
    rw [Registry.verifySha256_ok_iff hout, Registry.hexEncode_eq, hbits]
    exact hdigest
  have hpull : Registry.pullLayer (Direct.getWithHeaders hub.server) host (some hub.token) hub.image digest =
      some (.ok data) := by
    rw [pullLayer_ok hget, hverified]
    rfl
  rw [Direct.pullLayer_eq, hpull]
  rfl

/-- So are all of them, one after the other. -/
theorem pullLayers_hub (hknown : (Tls.resolveHost host).isSome) (layers : List LayerDescriptor)
    (hlayers : ∀ layer ∈ layers, ∃ data, (layer.digest, data) ∈ hub.blobs) :
    ∃ pulled : List (List UInt8),
      List.Forall₂ (fun layer data => (layer.digest, data) ∈ hub.blobs) layers pulled ∧
      Direct.askAll hub.server fromStr (layers.map fun layer => .pullLayer hub.image layer.digest)
        ⟨host, some hub.token⟩ = some (pulled.map fun data => .layer (.ok data), ⟨host, some hub.token⟩) := by
  induction layers with
  | nil => exact ⟨[], .nil, rfl⟩
  | cons layer layers ih =>
    obtain ⟨⟨data, hblob⟩, hlayers⟩ := List.forall_mem_cons.1 hlayers
    obtain ⟨pulled, hpulled, hrest⟩ := ih hlayers
    have hask : Direct.ask hub.server fromStr (.pullLayer hub.image layer.digest) ⟨host, some hub.token⟩ =
        some (.layer (.ok data), ⟨host, some hub.token⟩) :=
      Direct.return_of_some _ (pullLayer_hub hhub hknown hblob)
    exact ⟨data :: pulled, .cons hblob hpulled, Direct.askAll_cons hask hrest⟩

end Holds

end Direct

/-- Over any network in front of a registry that has an image, whose handshakes complete at the first poll, its
pull gives the manifest and then the bytes of each layer, and keeps the token. -/
theorem image_pulled {S H ε : Type} {N : TcpStack S H} {B : Buffers S H} {P : Tls S → Prop} {hub : Hub}
    {fromStr : Str → Except ε Json.Value} {manifest : ImageManifest} (law : N.Buffered B)
    (hserved : Served N B hub.server P) (hconnects : ConnectsAtOnce N P) (hhub : hub.Holds fromStr manifest)
    (k : Tls S) (hk : P k) (host : Str) (hknown : (Tls.resolveHost host).isSome) :
    ∃ pulled : List (List UInt8),
      List.Forall₂ (fun layer data => (layer.digest, data) ∈ hub.blobs) manifest.layers pulled ∧
      ∃ k', P k' ∧ ∃ n, ∀ fuel ≥ n,
        (askAll N fuel fromStr (pullImage hub.image hub.tag manifest) ⟨k, .new host⟩).2 =
          some (.manifest (.ok manifest) :: pulled.map fun data => .layer (.ok data),
            ⟨k', ⟨host, some hub.token⟩⟩) := by
  obtain ⟨pulled, hpulled, hlayers⟩ := pullLayers_hub hhub hknown manifest.layers hhub.layers
  have hask : Direct.ask hub.server fromStr (.pullManifest hub.image hub.tag) (.new host) =
      some (.manifest (.ok manifest), ⟨host, some hub.token⟩) := by
    have hmanifest : Direct.pullManifest hub.server fromStr hub.image hub.tag (.new host) =
        some (.ok manifest, ⟨host, some hub.token⟩) :=
      (Direct.pullManifest_eq hub.tag (authenticate_hub hhub (.new host))).trans (fetchManifest_hub hhub hknown)
    exact Direct.return_of_some _ hmanifest
  exact ⟨pulled, hpulled, exists_askAll fromStr law hserved hconnects hk (Direct.askAll_cons hask hlayers)⟩

/-! ## An image -/

namespace Hub

/-- All that a registry ever says. -/
def responses (hub : Hub) : List HttpResponse :=
  [⟨400, [], []⟩, ⟨401, [], []⟩, ⟨404, [], []⟩, ⟨200, [], toUtf8 hub.tokenText⟩,
    ⟨200, [], toUtf8 hub.manifestText⟩] ++ hub.blobs.map fun blob => ⟨200, [], blob.2⟩

theorem server_mem (hub : Hub) (request : List UInt8) : hub.server request ∈ hub.responses := by
  unfold server
  split
  · simp [responses]
  · next lines _ =>
    cases lines with
    | nil => simp [respond, responses]
    | cons line headers =>
      rw [respond]
      split
      · simp [responses]
      · split
        · split
          · simp [responses]
          · split
            · simp [responses]
            · next blob hfind =>
              have hmem : blob ∈ hub.blobs := List.mem_of_find?_eq_some hfind
              exact List.mem_append_right _ (List.mem_map.2 ⟨blob, hmem, rfl⟩)
        · simp [responses]

theorem plain_server {hub : Hub} (h : ∀ r ∈ hub.responses, r.headers = [] ∧ (plainBytes r).length < 2 ^ 64) :
    hub.server.Plain where
  headers request := (h _ (hub.server_mem request)).1
  fits request := (h _ (hub.server_mem request)).2

end Hub

/-- The digest of `hello`. -/
def helloDigest : Str := "sha256:2cf24dba5fb0a30e26e83b2ac5b9e29e1b161e5c1fa7425e73043362938b9824".toList

/-- A manifest with this layer. -/
def helloManifest : ImageManifest := ⟨2, ⟨[], [], 0⟩, [⟨[], helloDigest, 5⟩]⟩

def helloValue : Json.Value := .object [("config".toList, .object []), ("layers".toList, .array
  [.object [("digest".toList, .string helloDigest), ("size".toList, .number (.posInt 5))]])]

def helloHub : Hub where
  token := "t".toList
  tokenText := tokenBody
  image := "a".toList
  tag := "1".toList
  manifestText := "m".toList
  blobs := [(helloDigest, [104, 101, 108, 108, 111])]

/-- A parser that knows the two texts. -/
def helloReader (s : Str) : Except Unit Json.Value :=
  if s = "m".toList then .ok helloValue else tokenReader s

theorem holds_helloHub : helloHub.Holds helloReader helloManifest where
  token := ⟨_, rfl, rfl⟩
  json := rfl
  layers := by
    intro layer hlayer
    cases List.mem_singleton.1 hlayer
    exact ⟨_, List.mem_singleton_self _⟩
  blobs := by
    intro blob hblob
    cases List.mem_singleton.1 hblob
    refine ⟨by decide, ?_⟩
    obtain ⟨out, hout, -, hbits⟩ := Registry.sha256_eq (show [104, 101, 108, 108, 111].length < 2 ^ 61 by decide)
    rw [← hbits, ← Registry.hexEncode_eq]
    exact (Registry.verifySha256_ok_iff hout _).1 (by decide +kernel)
  nodup := List.nodup_singleton _
  unbroken := ⟨unbroken_of_notMem (by decide), unbroken_of_notMem (by decide), unbroken_of_notMem (by decide)⟩
  fits := by decide

theorem image_pulled_hello : ∃ k', ∃ n, ∀ fuel ≥ n,
    (askAll (serving helloHub.server) fuel helloReader (pullImage "a".toList "1".toList helloManifest)
      ⟨idle, .new hub⟩).2 =
      some ([.manifest (.ok helloManifest), .layer (.ok [104, 101, 108, 108, 111])],
        ⟨k', ⟨hub, some "t".toList⟩⟩) := by
  have hplain : helloHub.server.Plain := Hub.plain_server (by decide)
  obtain ⟨pulled, hpulled, k', -, hfuel⟩ := image_pulled (serving_buffered helloHub.server)
    (served_serving hplain) (connectsAtOnce_serving _) holds_helloHub idle rfl hub rfl
  cases hpulled with
  | cons hlayer hrest =>
    cases hrest
    cases List.mem_singleton.1 hlayer
    exact ⟨k', hfuel⟩

end Client

end OciKernel
