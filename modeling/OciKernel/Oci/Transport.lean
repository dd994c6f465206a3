import OciKernel.Net.HttpsResponse
import OciKernel.Oci.Client

/-!
# Oci.Transport

The `Registry` of `oci/registry.rs` without the network: the same calls on a server that is a function
from the bytes of a request to a response.

* `Served`: the peers answer each connection as such a server does, in any framing and any segments, and
  end it. `ConnectsAtOnce`: the handshakes complete at the first poll.
* `getWithHeaders_settles`: then a request gets the response of the server.
* `transparent`: so every run of calls gives what it gives without the network.
-/

namespace OciKernel

open Text

namespace Client

/-- What a call returns. -/
inductive Reply (ε : Type) where
  | done (r : Except (ClientError ε) Unit)
  | manifest (r : Except (ClientError ε) ImageManifest)
  | layer (r : Except Registry.RegistryError (List UInt8))

section Ask

variable {S H ε : Type} (N : TcpStack S H) (fuel : Nat) (fromStr : Str → Except ε Json.Value)

/-- One call with its result. -/
def ask : Call → Emit (Client S) Event (Reply ε)
  | .authenticate image => do
    let r ← authenticate N fuel fromStr image
    pure (.done r)
  | .fetchManifest image tag => do
    let r ← fetchManifest N fuel fromStr image tag
    pure (.manifest r)
  | .pullLayer image digest => do
    let r ← pullLayer N fuel image digest
    pure (.layer r)
  | .pullManifest image tag => do
    let r ← pullManifest N fuel fromStr image tag
    pure (.manifest r)

/-- The calls one after the other, with their results. -/
def askAll (calls : List Call) : Emit (Client S) Event (List (Reply ε)) := Emit.all (ask N fuel fromStr) calls

end Ask

/-! ## Without the network -/

section PullLayer

variable {getWithHeaders : Str → Str → List (Str × Str) → Except HttpError HttpResponse}
  {host image digest : Str} {token : Option Str}

theorem pullLayer_error {e : HttpError}
    (h : getWithHeaders host (blobPath image digest) (authorization token) = .error e) :
    Registry.pullLayer getWithHeaders host token image digest = some (.error (.http e)) := by
  unfold Registry.pullLayer
  dsimp only
  split
  · next herror =>
    cases h.symm.trans herror
    rfl
  · next hok => cases h.symm.trans hok

theorem pullLayer_ok {resp : HttpResponse}
    (h : getWithHeaders host (blobPath image digest) (authorization token) = .ok resp) :
    Registry.pullLayer getWithHeaders host token image digest =
      (Registry.verifySha256 resp.body digest).map (·.map fun _ => resp.body) := by
  unfold Registry.pullLayer
  dsimp only
  split
  · next herror => cases h.symm.trans herror
  · next hok =>
    cases h.symm.trans hok
    rfl

end PullLayer

namespace Direct

/-- A server: the response to the bytes that reach it. All known hosts are at one address. -/
abbrev Server := List UInt8 → HttpResponse

variable (server : Server)

/-- What reaches the server is what fits into the transmit buffer. -/
def getWithHeaders (host path : Str) (extraHeaders : List (Str × Str)) : Except HttpError HttpResponse :=
  if (Tls.resolveHost host).isSome then
    .ok (server ((toUtf8 (Http.requestText host path extraHeaders)).take 16384))
  else .error (.network .tcpFailed)

variable {ε : Type} (fromStr : Str → Except ε Json.Value)

def authenticate (image : Str) : StateT Registry Option (Except (ClientError ε) Unit) :=
  match readToken fromStr (getWithHeaders server authHost (tokenPath image) []) with
  | .error e => pure (.error e)
  | .ok token => do
    modify fun r => { r with token := some token }
    pure (.ok ())

def fetchManifest (image tag : Str) : StateT Registry Option (Except (ClientError ε) ImageManifest) := do
  let r ← getThe Registry
  pure (readManifest fromStr (getWithHeaders server r.host (manifestPath image tag)
    (accept :: authorization r.token)))

def pullLayer (image digest : Str) : StateT Registry Option (Except Registry.RegistryError (List UInt8)) := do
  let r ← getThe Registry
  match Registry.pullLayer (getWithHeaders server) r.host r.token image digest with
  | none => fun _ => none
  | some result => pure result

def pullManifest (image tag : Str) : StateT Registry Option (Except (ClientError ε) ImageManifest) := do
  match ← authenticate server fromStr image with
  | .error e => pure (.error e)
  | .ok () => fetchManifest server fromStr image tag

def ask : Call → StateT Registry Option (Reply ε)
  | .authenticate image => do
    let r ← authenticate server fromStr image
    pure (.done r)
  | .fetchManifest image tag => do
    let r ← fetchManifest server fromStr image tag
    pure (.manifest r)
  | .pullLayer image digest => do
    let r ← pullLayer server image digest
    pure (.layer r)
  | .pullManifest image tag => do
    let r ← pullManifest server fromStr image tag
    pure (.manifest r)

def askAll (calls : List Call) : StateT Registry Option (List (Reply ε)) := calls.mapM (ask server fromStr)

section

variable {server : Server} {fromStr : Str → Except ε Json.Value} {image : Str} {call : Call}
  {calls : List Call} {r r₁ r₂ : Registry} {reply : Reply ε} {replies : List (Reply ε)}

theorem pullLayer_eq (server : Server) (image digest : Str) (r : Registry) : pullLayer server image digest r =
    (Registry.pullLayer (getWithHeaders server) r.host r.token image digest).map (·, r) := by
  show (match Registry.pullLayer (getWithHeaders server) r.host r.token image digest with
    | none => fun _ => none
    | some result => pure result : StateT Registry Option _) r = _
  cases Registry.pullLayer (getWithHeaders server) r.host r.token image digest with
  | none => rfl
  | some result => rfl

theorem pullManifest_eq (tag : Str) (h : authenticate server fromStr image r = some (.ok (), r₁)) :
    pullManifest server fromStr image tag r = fetchManifest server fromStr image tag r₁ := by
  have hbind : pullManifest server fromStr image tag r =
      (authenticate server fromStr image r).bind fun (result, r₁) =>
        (match result with
          | .error e => pure (.error e)
          | .ok () => fetchManifest server fromStr image tag : StateT Registry Option _) r₁ := rfl
  rw [hbind, h, Option.bind_some]

theorem return_of_some {α β : Type} {m : StateT Registry Option α} {a : α} (f : α → β)
    (h : m r = some (a, r₁)) : (m >>= fun a => pure (f a)) r = some (f a, r₁) := by
  show (m r).bind _ = _
  rw [h]
  rfl

theorem askAll_cons (hfirst : ask server fromStr call r = some (reply, r₁))
    (hrest : askAll server fromStr calls r₁ = some (replies, r₂)) :
    askAll server fromStr (call :: calls) r = some (reply :: replies, r₂) := by
  have hcons : askAll server fromStr (call :: calls) r =
      (ask server fromStr call r).bind fun (reply, r₁) =>
        (askAll server fromStr calls r₁).bind fun (replies, r₂) => some (reply :: replies, r₂) := by
    rw [askAll, List.mapM_cons]
    rfl
  rw [hcons, hfirst, Option.bind_some]
  dsimp only
  rw [hrest, Option.bind_some]

end

end Direct

/-! ## The peers -/

/-- The bytes are the response, written in one of the framings. -/
def Writes (r : HttpResponse) (bytes : List UInt8) : Prop :=
  bytes.length < 2 ^ 64 ∧ ∃ reason wire, Http.ValidHead reason r.headers ∧ Http.Framed r.headers r.body wire ∧
    bytes = Http.renderHead r.status reason r.headers ++ wire

theorem parseResponse_of_writes {r : HttpResponse} {bytes : List UInt8} (h : Writes r bytes) :
    Http.parseResponse bytes = .ok r := by
  obtain ⟨hlen, reason, wire, hhead, hframed, rfl⟩ := h
  have hwire : wire.length < 2 ^ 64 := by
    rw [List.length_append] at hlen
    omega
  rw [Http.parseResponse_eq, Http.parseHead_render hhead]
  show (Http.parseBody r.headers wire).map _ = _
  rw [Http.parseBody_framed hhead hframed hwire]
  rfl

/-- A connection to a known host is accepted, and its handshake completes at the first poll, for which alone
the connect loop waits. -/
def ConnectsAtOnce {S H : Type} (N : TcpStack S H) (P : Tls S → Prop) : Prop :=
  ∀ k stack host ip k' h stack' connected, P k → k.network = some stack → Tls.resolveHost host = some ip →
    Tls.openSocket N k stack ⟨ip, 443⟩ = (k', h, stack', connected) →
      connected = .ok () ∧ N.state (Tls.poll N ⟨stack', k'.pollTicks⟩).stack h = .established

/-- In the states of `P` the network is up, and the peer of a connection that gets a request answers the bytes
that reach it with a response of the server and ends it, which leads to a state of `P` again. -/
structure Served {S H : Type} (N : TcpStack S H) (B : Buffers S H) (server : Direct.Server)
    (P : Tls S → Prop) : Prop where
  up : ∀ k, P k → k.network.isSome
  answers : ∀ k host request k₁ h w, P k → Tls.reading N k host 443 request = some (k₁, h, w) →
    ∃ n, (N.state ((Tls.round N h)^[n] w).stack h).Ended ∧
      Writes (server (B.queued w.stack h)) (B.arrived ((Tls.round N h)^[n] w).stack h)
  keeps : ∀ k host request k₁ h w n, P k → Tls.reading N k host 443 request = some (k₁, h, w) →
    P (Tls.release N k₁ h ((Tls.round N h)^[n] w))

section Settles

open Filter

variable {S H ε : Type} {N : TcpStack S H} {B : Buffers S H} {server : Direct.Server} {P : Tls S → Prop}
  {fromStr : Str → Except ε Json.Value}

/-- The network is in a state of `P`, and the registry is the same. -/
def Same (P : Tls S → Prop) (c : Client S) (r : Registry) : Prop := P c.tls ∧ c.registry = r

/-- An established connection takes the request. -/
theorem reading_of_connectsAtOnce (law : N.Lawful) (hconnects : ConnectsAtOnce N P) {k : Tls S} (hk : P k)
    (hup : k.network.isSome) {host : Str} (hknown : (Tls.resolveHost host).isSome) (request : List UInt8) :
    ∃ k₁ h w, Tls.reading N k host 443 request = some (k₁, h, w) := by
  obtain ⟨stack, hstack⟩ := Option.isSome_iff_exists.1 hup
  obtain ⟨ip, hip⟩ := Option.isSome_iff_exists.1 hknown
  rcases hopen : Tls.openSocket N k stack ⟨ip, 443⟩ with ⟨k₁, h, stack₁, connected⟩
  obtain ⟨rfl, hestablished⟩ := hconnects k stack host ip k₁ h stack₁ connected hk hstack hip hopen
  have hactive : N.isActive (Tls.poll N ⟨stack₁, k₁.pollTicks⟩).stack h = true := by
    rw [law.isActive_iff, hestablished]
    decide
  obtain ⟨stack₂, n, hsend⟩ := (law.sendSlice_ok_iff (Tls.poll N ⟨stack₁, k₁.pollTicks⟩).stack h request).2
    (by rw [hestablished]; decide)
  refine ⟨k₁, h, { Tls.poll N ⟨stack₁, k₁.pollTicks⟩ with stack := stack₂ }, ?_⟩
  unfold Tls.reading
  rw [hstack, hip]
  dsimp only
  rw [hopen]
  dsimp only
  rw [Tls.waitActive_of_active 99999 hactive, if_pos hactive, hsend]

/-- A connection to a known host ends with all bytes of the response. -/
theorem httpsRequest_of_served (law : N.Buffered B) (hserved : Served N B server P)
    (hconnects : ConnectsAtOnce N P) {k : Tls S} {host : Str}
    (hk : P k) (hknown : (Tls.resolveHost host).isSome) (request : List UInt8) :
    ∃ k' bytes, P k' ∧ Writes (server (request.take 16384)) bytes ∧
      ∀ᶠ fuel in atTop, (Tls.httpsRequest N k fuel host 443 request).result = some (k', .ok bytes) := by
  obtain ⟨k₁, h, w, hreading⟩ :=
    reading_of_connectsAtOnce law.toLawful hconnects hk (hserved.up k hk) hknown request
  obtain ⟨hwhole, hqueued⟩ := Tls.reading_whole law hreading
  obtain ⟨n, hended, hwrites⟩ := hserved.answers k host request k₁ h w hk hreading
  obtain ⟨fuel₀, ⟨w', all⟩, hread⟩ := (Tls.exists_readResponse_iff law hwhole).2 ⟨n, hended⟩
  obtain ⟨hdone, -, m, rfl⟩ := hwhole.readResponse law hread
  have hall : all = B.arrived ((Tls.round N h)^[n] w).stack h :=
    hdone.arrived.trans (Tls.arrived_of_ended law hdone.ended hended)
  rw [hqueued, ← hall] at hwrites
  refine ⟨_, all, hserved.keeps k host request k₁ h w m hk hreading, hwrites, eventually_atTop.2 ⟨fuel₀, ?_⟩⟩
  intro fuel hfuel
  obtain ⟨more, rfl⟩ := Nat.exists_eq_add_of_le hfuel
  rw [Tls.httpsRequest_of_reading hreading, Tls.readResponse_mono hread more]
  rfl

theorem getWithHeaders_settles (law : N.Buffered B) (hserved : Served N B server P)
    (hconnects : ConnectsAtOnce N P) (host path : Str) (headers : List (Str × Str)) : Emit.Settles (Same P)
      (fun fuel => getWithHeaders N fuel host path headers)
      (pure (Direct.getWithHeaders server host path headers)) := by
  rintro ⟨k, r⟩ _ ⟨hk, rfl⟩
  show ∃ s', _
  unfold Direct.getWithHeaders
  split
  · next hknown =>
    obtain ⟨k', bytes, hk', hwrites, hresult⟩ := httpsRequest_of_served law hserved hconnects hk hknown
      (toUtf8 (Http.requestText host path headers))
    refine ⟨⟨k', r⟩, ⟨hk', rfl⟩, ?_⟩
    filter_upwards [hresult] with fuel hfuel
    simp only [getWithHeaders, hfuel]
    exact congrArg (fun resp => some (resp, _)) (parseResponse_of_writes hwrites)
  · next hunknown =>
    refine ⟨⟨k, r⟩, ⟨hk, rfl⟩, .of_forall fun fuel => ?_⟩
    obtain ⟨stack, hup⟩ := Option.isSome_iff_exists.1 (hserved.up k hk)
    rw [Option.not_isSome_iff_eq_none] at hunknown
    simp only [getWithHeaders, Tls.httpsRequest, hup, hunknown]
    rfl

section Calls

variable (law : N.Buffered B) (hserved : Served N B server P) (hconnects : ConnectsAtOnce N P)
include law hserved hconnects

theorem authenticate_settles (image : Str) : Emit.Settles (Same P)
    (fun fuel => authenticate N fuel fromStr image) (Direct.authenticate server fromStr image) := by
  refine .bind_pure (getWithHeaders_settles law hserved hconnects authHost (tokenPath image) []) ?_
  unfold Direct.authenticate
  cases hread : readToken fromStr (Direct.getWithHeaders server authHost (tokenPath image) []) with
  | error e => exact .pure _
  | ok token =>
    refine .bind (.tell ?_) fun _ => .pure _
    rintro c _ ⟨hc, rfl⟩
    exact ⟨hc, rfl⟩

theorem fetchManifest_settles (image tag : Str) : Emit.Settles (Same P)
    (fun fuel => fetchManifest N fuel fromStr image tag) (Direct.fetchManifest server fromStr image tag) := by
  refine .get ?_
  rintro c _ ⟨-, rfl⟩
  exact .bind_pure (getWithHeaders_settles law hserved hconnects _ _ _) (.pure _)

theorem pullLayer_settles (image digest : Str) : Emit.Settles (Same P)
    (fun fuel => pullLayer N fuel image digest) (Direct.pullLayer server image digest) := by
  refine .get ?_
  rintro c _ ⟨-, rfl⟩
  refine .bind_pure (getWithHeaders_settles law hserved hconnects _ _ _) ?_
  cases hresp : Direct.getWithHeaders server c.registry.host (blobPath image digest)
    (authorization c.registry.token) with
  | error e =>
    rw [pullLayer_error hresp]
    exact .pure _
  | ok resp =>
    rw [pullLayer_ok hresp]
    dsimp only
    cases Registry.verifySha256 resp.body digest with
    | none => exact .abort
    | some verified =>
      cases verified with
      | error e => exact .pure _
      | ok => exact .pure _

theorem pullManifest_settles (image tag : Str) : Emit.Settles (Same P)
    (fun fuel => pullManifest N fuel fromStr image tag) (Direct.pullManifest server fromStr image tag) := by
  refine .bind (authenticate_settles law hserved hconnects image) fun r => ?_
  cases r with
  | error e => exact .pure _
  | ok => exact fetchManifest_settles law hserved hconnects image tag

theorem ask_settles (call : Call) : Emit.Settles (Same P) (fun fuel => ask N fuel fromStr call)
    (Direct.ask server fromStr call) := by
  cases call with
  | authenticate image => exact .bind (authenticate_settles law hserved hconnects image) fun _ => .pure _
  | fetchManifest image tag => exact .bind (fetchManifest_settles law hserved hconnects image tag) fun _ => .pure _
  | pullLayer image digest => exact .bind (pullLayer_settles law hserved hconnects image digest) fun _ => .pure _
  | pullManifest image tag => exact .bind (pullManifest_settles law hserved hconnects image tag) fun _ => .pure _

variable (fromStr)

theorem askAll_settles (calls : List Call) : Emit.Settles (Same P)
    (fun fuel => askAll N fuel fromStr calls) (Direct.askAll server fromStr calls) :=
  .all calls (ask_settles law hserved hconnects)

theorem exists_askAll {calls : List Call} {k : Tls S} (hk : P k) {r r' : Registry} {replies : List (Reply ε)}
    (hdirect : Direct.askAll server fromStr calls r = some (replies, r')) : ∃ k', P k' ∧ ∃ n, ∀ fuel ≥ n,
      (askAll N fuel fromStr calls ⟨k, r⟩).2 = some (replies, ⟨k', r'⟩) := by
  have hsettles := askAll_settles fromStr law hserved hconnects calls ⟨k, r⟩ r ⟨hk, rfl⟩
  rw [hdirect] at hsettles
  obtain ⟨⟨k', r'⟩, ⟨hk', rfl⟩, hfuel⟩ := hsettles
  exact ⟨k', hk', eventually_atTop.1 hfuel⟩

/-- With fuel enough, any calls over such a network give the results and leave the registry that they give
without it, if each handshake completes at the first poll; where those do not return, which is a panic of
`sha256`, these do not. -/
theorem transparent (calls : List Call) (k : Tls S) (hk : P k) (r : Registry) :
    match Direct.askAll server fromStr calls r with
    | none => ∃ n, ∀ fuel ≥ n, (askAll N fuel fromStr calls ⟨k, r⟩).2 = none
    | some (replies, r') => ∃ k', P k' ∧ ∃ n, ∀ fuel ≥ n,
        (askAll N fuel fromStr calls ⟨k, r⟩).2 = some (replies, ⟨k', r'⟩) := by
  cases hdirect : Direct.askAll server fromStr calls r with
  | none =>
    have hsettles := askAll_settles fromStr law hserved hconnects calls ⟨k, r⟩ r ⟨hk, rfl⟩
    rw [hdirect] at hsettles
    exact eventually_atTop.1 hsettles
  | some result => exact exists_askAll fromStr law hserved hconnects hk hdirect

end Calls

end Settles

/-! ## A network with a server -/

/-- The response without headers, up to the end of the connection. -/
def plainBytes (r : HttpResponse) : List UInt8 := Http.renderHead r.status "OK".toList [] ++ r.body

/-- The peer answers what it was sent, in two segments, and closes. -/
def serving (server : Direct.Server) : TcpStack Tls.Fed Unit :=
  { Tls.fed with
    sendSlice := fun s h data =>
      let sent := Tls.fed.sendSlice s h data
      let bytes := plainBytes (server sent.1.queued)
      ({ sent.1 with chunks := [bytes.take 16, bytes.drop 16] }, sent.2) }

theorem serving_buffered (server : Direct.Server) : (serving server).Buffered Tls.fedBuffers :=
  { Tls.fed_buffered with
    sendSlice_ok_iff := by
      intro s h data
      refine Iff.trans ?_ (Tls.fed_buffered.sendSlice_ok_iff s h data)
      constructor
      · rintro ⟨s', n, hsend⟩
        have hsent : (Tls.fed.sendSlice s h data).2 = .ok n := congrArg Prod.snd hsend
        exact ⟨_, n, Prod.ext rfl hsent⟩
      · rintro ⟨s', n, hsend⟩
        have hsent : (Tls.fed.sendSlice s h data).2 = .ok n := congrArg Prod.snd hsend
        exact ⟨_, n, Prod.ext rfl hsent⟩
    sendSlice := by
      intro s h data s' n hsend hqueued
      have hsent : (Tls.fed.sendSlice s h data).2 = .ok n := congrArg Prod.snd hsend
      have hs' : _ = s' := congrArg Prod.fst hsend
      rw [← hs']
      exact Tls.fed_buffered.sendSlice s h data (Tls.fed.sendSlice s h data).1 n (Prod.ext rfl hsent) hqueued }

/-- A server whose responses can be written without headers. -/
structure Direct.Server.Plain (server : Direct.Server) : Prop where
  headers : ∀ request, (server request).headers = []
  fits : ∀ request, (plainBytes (server request)).length < 2 ^ 64

theorem writes_plainBytes {r : HttpResponse} (hheaders : r.headers = [])
    (hfits : (plainBytes r).length < 2 ^ 64) : Writes r (plainBytes r) := by
  obtain ⟨status, headers, body⟩ := r
  dsimp only at hheaders
  subst hheaders
  have hhead : Http.ValidHead "OK".toList [] :=
    { reason := by simp
      name := nofun
      value := nofun
      value_head := nofun
      value_last := nofun }
  exact ⟨hfits, "OK".toList, body, hhead, .close nofun nofun, rfl⟩

/-- A connection when the request is handed over, and after all its rounds. -/
theorem reading_serving (server : Direct.Server) {k : Tls Tls.Fed} (hk : k.network.isSome) {host : Str}
    (hknown : (Tls.resolveHost host).isSome) (request : List UInt8) :
    ∃ k₁ w, Tls.reading (serving server) k host 443 request = some (k₁, (), w) ∧
      w.stack.socket = .established ∧ w.stack.arrived = [] ∧
        w.stack.chunks = [(plainBytes (server (request.take 16384))).take 16,
          (plainBytes (server (request.take 16384))).drop 16] := by
  obtain ⟨stack, hstack⟩ := Option.isSome_iff_exists.1 hk
  obtain ⟨ip, hip⟩ := Option.isSome_iff_exists.1 hknown
  unfold Tls.reading
  rw [hstack, hip]
  dsimp only
  rw [show Tls.openSocket _ _ _ _ = (_, (), _, .ok ()) from rfl]
  dsimp only
  rw [Tls.waitActive_of_active 99999 rfl]
  exact ⟨_, _, (if_pos rfl).trans rfl, rfl, rfl, rfl⟩

/-- One round of a connection: its poll, since reading changes neither what the peer does nor what arrived. -/
theorem round_serving (server : Direct.Server) (w : Net Tls.Fed) :
    (Tls.round (serving server) () w).stack.socket = (Tls.poll Tls.fed w).stack.socket ∧
      (Tls.round (serving server) () w).stack.chunks = (Tls.poll Tls.fed w).stack.chunks ∧
      (Tls.round (serving server) () w).stack.arrived = (Tls.poll Tls.fed w).stack.arrived := by
  have hrecv (s : Tls.Fed) (n : Nat) : (Tls.fed.recvSlice s () n).1.socket = s.socket ∧
      (Tls.fed.recvSlice s () n).1.chunks = s.chunks ∧ (Tls.fed.recvSlice s () n).1.arrived = s.arrived := by
    simp only [Tls.fed]
    split <;> exact ⟨rfl, rfl, rfl⟩
  exact hrecv (Tls.poll Tls.fed w).stack 1024

/-- Every segment takes one round, and the end one more. -/
theorem rounds_serving (server : Direct.Server) {segments : List (List UInt8)} {w : Net Tls.Fed}
    (hsocket : w.stack.socket = .established) (hchunks : w.stack.chunks = segments) :
    ((Tls.round (serving server) ())^[segments.length + 1] w).stack.socket = .closeWait ∧
      ((Tls.round (serving server) ())^[segments.length + 1] w).stack.arrived =
        w.stack.arrived ++ segments.flatten := by
  induction segments generalizing w with
  | nil =>
    obtain ⟨hsocket', -, harrived⟩ := round_serving server w
    simp only [Tls.poll, Tls.fed, hsocket, hchunks] at hsocket' harrived
    exact ⟨hsocket', harrived.trans (List.append_nil _).symm⟩
  | cons segment segments ih =>
    obtain ⟨hsocket', hchunks', harrived⟩ := round_serving server w
    simp only [Tls.poll, Tls.fed, hsocket, hchunks] at hsocket' hchunks' harrived
    obtain ⟨hclosed, hall⟩ := ih hsocket' hchunks'
    refine ⟨hclosed, hall.trans ?_⟩
    rw [harrived, List.append_assoc, List.flatten_cons]

theorem connectsAtOnce_serving (server : Direct.Server) :
    ConnectsAtOnce (serving server) fun k => k.network.isSome := by
  intro k stack host ip k' h stack' connected _ _ _ hopen
  cases hopen
  exact ⟨rfl, rfl⟩

theorem served_serving {server : Direct.Server} (hplain : server.Plain) :
    Served (serving server) Tls.fedBuffers server fun k => k.network.isSome where
  up _ hk := hk
  answers := by
    intro k host request k₁ h w hk hreading
    have hknown : (Tls.resolveHost host).isSome := by
      by_contra hunknown
      rw [Option.not_isSome_iff_eq_none] at hunknown
      obtain ⟨stack, hstack⟩ := Option.isSome_iff_exists.1 hk
      simp only [Tls.reading, hstack, hunknown] at hreading
      cases hreading
    obtain ⟨_, w', hserving, hsocket, harrived, hchunks⟩ := reading_serving server hk hknown request
    cases hreading.symm.trans hserving
    obtain ⟨-, hqueued⟩ := Tls.reading_whole (serving_buffered server) hserving
    obtain ⟨hclosed, hall⟩ := rounds_serving server hsocket hchunks
    have hended : ((serving server).state ((Tls.round (serving server) ())^[3] w).stack ()).Ended := by
      have hstate : (serving server).state ((Tls.round (serving server) ())^[3] w).stack () = .closeWait :=
        hclosed
      rw [hstate]
      decide
    have hbytes : Tls.fedBuffers.arrived ((Tls.round (serving server) ())^[3] w).stack () =
        plainBytes (server (request.take 16384)) := by
      refine hall.trans ?_
      rw [harrived, List.nil_append, List.flatten_cons, List.flatten_singleton, List.take_append_drop]
    refine ⟨3, hended, ?_⟩
    rw [hqueued, hbytes]
    exact writes_plainBytes (hplain.headers _) (hplain.fits _)
  keeps _ _ _ _ _ _ _ _ _ := rfl

def idle : Tls Tls.Fed := ⟨some ⟨.closed, [], [], [], [], 0⟩, 0, 0⟩

def tokenServer : Direct.Server := fun _ => ⟨200, [], toUtf8 tokenBody⟩

theorem plain_tokenServer : tokenServer.Plain where
  headers _ := rfl
  fits _ := by
    unfold tokenServer
    decide

/-- The token is kept, and the layer is not the one asked for. -/
theorem transparent_pullCalls : ∃ k', ∃ n, ∀ fuel ≥ n,
    (askAll (serving tokenServer) fuel tokenReader pullCalls ⟨idle, .new hub⟩).2 =
      some ([.done (.ok ()), .layer (.error .digestMismatch)], ⟨k', ⟨hub, some "t".toList⟩⟩) := by
  have hdirect : Direct.askAll tokenServer tokenReader pullCalls (.new hub) =
      some ([.done (.ok ()), .layer (.error .digestMismatch)], ⟨hub, some "t".toList⟩) := rfl
  have h := transparent tokenReader (serving_buffered tokenServer) (served_serving plain_tokenServer)
    (connectsAtOnce_serving tokenServer) pullCalls idle rfl (.new hub)
  rw [hdirect] at h
  obtain ⟨k', -, hfuel⟩ := h
  exact ⟨k', hfuel⟩

end Client

end OciKernel
