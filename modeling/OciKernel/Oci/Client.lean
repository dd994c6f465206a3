import OciKernel.Lib.Emit
import OciKernel.Net.HttpRequest
import OciKernel.Oci.ImageStore

/-!
# Oci.Client

The `Registry` of `oci/registry.rs` with the requests it makes, over the sockets of `https_request`. What
the peers do is part of the stack. A call writes what it hands to a socket, what it gets back and the
tokens it keeps.

* `call_triple`: what one call may do.
* `token_confined`: whom a run asks for what, with which token, and where tokens come from.
* `authorization_lines`: the same on the lines of the requests.
-/

namespace OciKernel

open Text

structure Registry where
  host : Str
  token : Option Str

def Registry.new (host : Str) : Registry := ⟨host, none⟩

/-- The globals of the network and one `Registry`. -/
structure Client (S : Type) where
  tls : Tls S
  registry : Registry

/-- `RegistryError`, its `Parse` for any error of `serde_json`. -/
inductive ClientError (ε : Type) where
  | registry (e : Registry.RegistryError)
  | parse (e : ParseError ε)

namespace Client

inductive Event where
  | sent (host : Str) (state : TcpState) (request : List UInt8)
  | received (host : Str) (resp : Except HttpError HttpResponse)
  /-- `self.token = Some(token)` -/
  | granted (token : Str)
deriving DecidableEq

/-! ## Paths, headers and replies -/

def authHost : Str := "auth.docker.io".toList

def tokenPath (image : Str) : Str :=
  "/token?service=registry.docker.io&scope=repository:".toList ++ image ++ ":pull".toList

def manifestPath (image tag : Str) : Str := "/v2/".toList ++ image ++ "/manifests/".toList ++ tag

def blobPath (image digest : Str) : Str := "/v2/".toList ++ image ++ "/blobs/".toList ++ digest

def accept : Str × Str :=
  ("Accept".toList, "application/vnd.docker.distribution.manifest.v2+json".toList)

def authorization (token : Option Str) : List (Str × Str) :=
  token.elim [] fun t => [("Authorization".toList, "Bearer ".toList ++ t)]

section Replies

variable {ε : Type} (fromStr : Str → Except ε Json.Value)

def readToken : Except HttpError HttpResponse → Except (ClientError ε) Str
  | .error e => .error (.registry (.http e))
  | .ok resp =>
    match fromUtf8 resp.body with
    | none => .error (.registry .utf8)
    | some body =>
      match fromStr body with
      | .error e => .error (.parse (.json e))
      | .ok v =>
        match (v.get "token".toList).asStr with
        | none => .error (.registry .auth)
        | some token => .ok token

def readManifest : Except HttpError HttpResponse → Except (ClientError ε) ImageManifest
  | .error e => .error (.registry (.http e))
  | .ok resp =>
    match fromUtf8 resp.body with
    | none => .error (.registry .utf8)
    | some body => (ImageManifest.fromJson fromStr body).mapError .parse

end Replies

/-! ## The calls -/

section Calls

variable {S H ε : Type} (N : TcpStack S H) (fuel : Nat) (fromStr : Str → Except ε Json.Value)

/-- `http::get_with_headers` -/
def getWithHeaders (host path : Str) (extraHeaders : List (Str × Str)) :
    Emit (Client S) Event (Except HttpError HttpResponse) := fun c =>
  let o := Tls.httpsRequest N c.tls fuel host 443 (toUtf8 (Http.requestText host path extraHeaders))
  let sent := o.handed.map fun handed => .sent host handed.1 handed.2
  match o.result with
  | none => (sent, none)
  | some (tls, raw) =>
    let resp := (raw.mapError .network).bind Http.parseResponse
    (sent ++ [.received host resp], some (resp, { c with tls }))

/-- `http::get` -/
def get (host path : Str) : Emit (Client S) Event (Except HttpError HttpResponse) :=
  getWithHeaders N fuel host path []

def keepToken (token : Str) : Emit (Client S) Event Unit :=
  Emit.tell [.granted token] fun c => { c with registry := { c.registry with token := some token } }

def authenticate (image : Str) : Emit (Client S) Event (Except (ClientError ε) Unit) := do
  let resp ← get N fuel authHost (tokenPath image)
  match readToken fromStr resp with
  | .error e => pure (.error e)
  | .ok token => do
    keepToken token
    pure (.ok ())

def fetchManifest (image tag : Str) : Emit (Client S) Event (Except (ClientError ε) ImageManifest) := do
  let c ← Emit.get
  let resp ← getWithHeaders N fuel c.registry.host (manifestPath image tag)
    (accept :: authorization c.registry.token)
  pure (readManifest fromStr resp)

/-- A panic of `sha256` does not return. -/
def pullLayer (image digest : Str) :
    Emit (Client S) Event (Except Registry.RegistryError (List UInt8)) := do
  let c ← Emit.get
  match ← getWithHeaders N fuel c.registry.host (blobPath image digest)
    (authorization c.registry.token) with
  | .error e => pure (.error (.http e))
  | .ok resp =>
    match Registry.verifySha256 resp.body digest with
    | none => Emit.abort
    | some (.error e) => pure (.error e)
    | some (.ok ()) => pure (.ok resp.body)

def pullManifest (image tag : Str) : Emit (Client S) Event (Except (ClientError ε) ImageManifest) := do
  match ← authenticate N fuel fromStr image with
  | .error e => pure (.error e)
  | .ok () => fetchManifest N fuel fromStr image tag

inductive Call where
  | authenticate (image : Str)
  | fetchManifest (image tag : Str)
  | pullLayer (image digest : Str)
  | pullManifest (image tag : Str)

/-- One call, its result aside. -/
def call : Call → Emit (Client S) Event Unit
  | .authenticate image => do
    let _ ← authenticate N fuel fromStr image
    pure ()
  | .fetchManifest image tag => do
    let _ ← fetchManifest N fuel fromStr image tag
    pure ()
  | .pullLayer image digest => do
    let _ ← pullLayer N fuel image digest
    pure ()
  | .pullManifest image tag => do
    let _ ← pullManifest N fuel fromStr image tag
    pure ()

/-- The calls one after the other, up to one that does not return. -/
def run (calls : List Call) : Emit (Client S) Event Unit := Emit.each (call N fuel fromStr) calls

end Calls

/-! ## What a call may do -/

def granted? : Event → Option Str
  | .granted token => some token
  | _ => none

/-- The token kept last. -/
def lastGranted (past : List Event) : Option Str := (past.filterMap granted?).getLast?

theorem lastGranted_append {past es : List Event} (h : ∀ e ∈ es, granted? e = none) :
    lastGranted (past ++ es) = lastGranted past := by
  rw [lastGranted, List.filterMap_append, List.filterMap_eq_nil_iff.2 h, List.append_nil, lastGranted]

theorem lastGranted_granted (past : List Event) (token : Str) :
    lastGranted (past ++ [.granted token]) = some token := by
  rw [lastGranted, List.filterMap_append]
  exact List.getLast?_concat

/-- The requests of a call on a registry at `host` with this token: to whom, for what, with which headers. -/
inductive Asks (host : Str) (token : Option Str) : Call → Str → Str → List (Str × Str) → Prop
  | token (image : Str) : Asks host token (.authenticate image) authHost (tokenPath image) []
  | manifest (image tag : Str) : Asks host token (.fetchManifest image tag) host
      (manifestPath image tag) (accept :: authorization token)
  | layer (image digest : Str) : Asks host token (.pullLayer image digest) host
      (blobPath image digest) (authorization token)
  | tokenFirst (image tag : Str) : Asks host token (.pullManifest image tag) authHost (tokenPath image) []
  | manifestThen (image tag : Str) : Asks host token (.pullManifest image tag) host
      (manifestPath image tag) (accept :: authorization token)

/-- What may be written in a run of `calls` after the events of `past`. -/
inductive Allowed {ε : Type} (fromStr : Str → Except ε Json.Value) (host : Str) (calls : List Call)
    (past : List Event) : Event → Prop
  | sent {call : Call} {dest path : Str} {headers : List (Str × Str)} (state : TcpState)
      (hcall : call ∈ calls) (hasks : Asks host (lastGranted past) call dest path headers)
      (hknown : (Tls.resolveHost dest).isSome) :
      Allowed fromStr host calls past (.sent dest state (toUtf8 (Http.requestText dest path headers)))
  | received (dest : Str) (resp : Except HttpError HttpResponse) :
      Allowed fromStr host calls past (.received dest resp)
  | granted {resp : Except HttpError HttpResponse} {token : Str}
      (hlast : past.getLast? = some (.received authHost resp)) (hread : readToken fromStr resp = .ok token) :
      Allowed fromStr host calls past (.granted token)

/-- The registry is at its host and holds the token kept last. -/
def Holds {S : Type} (host : Str) (past : List Event) (c : Client S) : Prop :=
  c.registry = ⟨host, lastGranted past⟩

section Rules

variable {S H ε : Type} {N : TcpStack S H} {fuel : Nat} {fromStr : Str → Except ε Json.Value}
  {host : Str} {calls : List Call}

theorem handed_httpsRequest {k : Tls S} {dest : Str} {port : UInt16} {request : List UInt8} :
    ∀ handed ∈ (Tls.httpsRequest N k fuel dest port request).handed,
      handed.2 = request ∧ (Tls.resolveHost dest).isSome := by
  intro handed h
  unfold Tls.httpsRequest at h
  split at h
  · cases h
  · split at h
    · cases h
    · next ip hip =>
      rw [hip]
      split at h
      · cases h
      · dsimp only at h
        split at h
        · unfold Tls.exchange at h
          dsimp only at h
          split at h <;> exact ⟨by rw [List.mem_singleton.1 h], rfl⟩
        · cases h

theorem follows_sent {past : List Event} {dest path : Str} {headers : List (Str × Str)} {call : Call}
    {handed : List (TcpState × List UInt8)} (hcall : call ∈ calls)
    (hasks : Asks host (lastGranted past) call dest path headers)
    (h : ∀ x ∈ handed, x.2 = toUtf8 (Http.requestText dest path headers) ∧ (Tls.resolveHost dest).isSome) :
    Emit.Follows (Allowed fromStr host calls) past (handed.map fun x => .sent dest x.1 x.2) := by
  refine (Emit.follows_iff _).2 fun before e after he => ?_
  have hmem : ∀ e' ∈ before ++ e :: after, ∃ x ∈ handed, Event.sent dest x.1 x.2 = e' := by
    intro e' he'
    exact List.mem_map.1 (he ▸ he')
  obtain ⟨x, hx, rfl⟩ := hmem e (List.mem_append_right _ (List.mem_cons_self ..))
  obtain ⟨hrequest, hknown⟩ := h x hx
  have hlast : lastGranted (past ++ before) = lastGranted past := by
    refine lastGranted_append fun e' he' => ?_
    obtain ⟨x', -, rfl⟩ := hmem e' (List.mem_append_left _ he')
    rfl
  rw [hrequest]
  exact .sent _ hcall (hlast.symm ▸ hasks) hknown

/-- A request that some call asks is sent, and what comes back is the last event. -/
theorem getWithHeaders_triple {P : List Event → Client S → Prop} {dest path : Str}
    {headers : List (Str × Str)}
    (h : ∀ past c, P past c → Holds host past c ∧
      ∃ call ∈ calls, Asks host (lastGranted past) call dest path headers) :
    Emit.Triple (Allowed fromStr host calls) P (getWithHeaders N fuel dest path headers)
      fun past c resp => Holds host past c ∧ past.getLast? = some (.received dest resp) := by
  intro past c hP
  obtain ⟨hholds, call, hcall, hasks⟩ := h past c hP
  have hsent : Emit.Follows (Allowed fromStr host calls) past
      ((Tls.httpsRequest N c.tls fuel dest 443 (toUtf8 (Http.requestText dest path headers))).handed.map
        fun x => .sent dest x.1 x.2) := follows_sent hcall hasks handed_httpsRequest
  unfold getWithHeaders
  dsimp only
  split
  · refine ⟨hsent, ?_⟩
    rintro _ _ ⟨⟩
  · next tls raw hresult =>
    refine ⟨(Emit.follows_append _).2 ⟨hsent, .received _ _, trivial⟩, ?_⟩
    rintro _ _ ⟨⟩
    have hlast : lastGranted (past ++ ((Tls.httpsRequest N c.tls fuel dest 443
        (toUtf8 (Http.requestText dest path headers))).handed.map (fun x => Event.sent dest x.1 x.2) ++
          [.received dest ((raw.mapError .network).bind Http.parseResponse)])) = lastGranted past := by
      refine lastGranted_append fun e he => ?_
      rcases List.mem_append.1 he with he | he
      · obtain ⟨x, -, rfl⟩ := List.mem_map.1 he
        rfl
      · rw [List.mem_singleton.1 he]
        rfl
    refine ⟨?_, ?_⟩
    · rw [Holds, hlast]
      exact hholds
    · rw [← List.append_assoc]
      exact List.getLast?_concat

theorem authenticate_triple {image : Str} {call : Call} (hcall : call ∈ calls)
    (hasks : ∀ token, Asks host token call authHost (tokenPath image) []) :
    Emit.Triple (Allowed fromStr host calls) (Holds (S := S) host) (authenticate N fuel fromStr image)
      fun past c _ => Holds host past c := by
  refine .bind (getWithHeaders_triple fun past c hc => ⟨hc, call, hcall, hasks _⟩) fun resp => ?_
  cases hread : readToken fromStr resp with
  | error e => exact .pure fun past c h => h.1
  | ok token =>
    refine .bind (R := fun past c _ => Holds host past c) (.tell fun past c h => ?_)
      fun _ => .pure fun past c h => h
    obtain ⟨hholds, hlast⟩ := h
    refine ⟨⟨.granted hlast hread, trivial⟩, ?_⟩
    rw [Holds, lastGranted_granted]
    exact congrArg (fun r : Registry => { r with token := some token }) hholds

/-- A request to the registry carries the token kept last. -/
theorem getAuthorized_triple {path : Str} {headers : Option Str → List (Str × Str)} {call : Call}
    (hcall : call ∈ calls) (hasks : ∀ token, Asks host token call host path (headers token))
    (c₀ : Client S) :
    Emit.Triple (Allowed fromStr host calls) (fun past c => Holds host past c ∧ c₀ = c)
      (getWithHeaders N fuel c₀.registry.host path (headers c₀.registry.token))
      fun past c _ => Holds host past c := by
  refine (getWithHeaders_triple fun past c hc => ?_).mono fun past c resp h => h.1
  obtain ⟨hholds, rfl⟩ := hc
  refine ⟨hholds, call, hcall, ?_⟩
  rw [show c₀.registry = ⟨host, lastGranted past⟩ from hholds]
  exact hasks _

theorem fetchManifest_triple {image tag : Str} {call : Call} (hcall : call ∈ calls)
    (hasks : ∀ token, Asks host token call host (manifestPath image tag) (accept :: authorization token)) :
    Emit.Triple (Allowed fromStr host calls) (Holds (S := S) host) (fetchManifest N fuel fromStr image tag)
      fun past c _ => Holds host past c :=
  .bind .get fun c₀ => .bind (getAuthorized_triple hcall hasks c₀) fun _ => .pure fun _ _ h => h

theorem pullLayer_triple {image digest : Str} {call : Call} (hcall : call ∈ calls)
    (hasks : ∀ token, Asks host token call host (blobPath image digest) (authorization token)) :
    Emit.Triple (Allowed fromStr host calls) (Holds (S := S) host) (pullLayer N fuel image digest)
      fun past c _ => Holds host past c := by
  refine .bind .get fun c₀ => .bind (getAuthorized_triple hcall hasks c₀) fun resp => ?_
  cases resp with
  | error e => exact .pure fun _ _ h => h
  | ok resp =>
    dsimp only
    split
    · exact .abort
    · exact .pure fun _ _ h => h
    · exact .pure fun _ _ h => h

theorem call_triple {call : Call} (hcall : call ∈ calls) :
    Emit.Triple (Allowed fromStr host calls) (Holds (S := S) host) (Client.call N fuel fromStr call)
      fun past c _ => Holds host past c := by
  cases call with
  | authenticate image =>
    exact .bind (authenticate_triple hcall fun _ => .token image) fun _ => .pure fun _ _ h => h
  | fetchManifest image tag =>
    exact .bind (fetchManifest_triple hcall fun _ => .manifest image tag) fun _ => .pure fun _ _ h => h
  | pullLayer image digest =>
    exact .bind (pullLayer_triple hcall fun _ => .layer image digest) fun _ => .pure fun _ _ h => h
  | pullManifest image tag =>
    refine .bind (.bind (authenticate_triple hcall fun _ => .tokenFirst image tag) fun result => ?_)
      fun _ => .pure fun _ _ h => h
    cases result with
    | error e => exact .pure fun _ _ h => h
    | ok => exact fetchManifest_triple hcall fun _ => .manifestThen image tag

theorem run_triple : Emit.Triple (Allowed fromStr host calls) (Holds (S := S) host)
    (run N fuel fromStr calls) fun past c _ => Holds host past c :=
  .each fun _ => call_triple

theorem holds_new (tls : Tls S) (host : Str) : Holds host [] ⟨tls, .new host⟩ := rfl

theorem allowed_of_run {tls : Tls S} {before after : List Event} {e : Event}
    (h : (run N fuel fromStr calls ⟨tls, .new host⟩).1 = before ++ e :: after) :
    Allowed fromStr host calls before e :=
  (Emit.follows_iff _).1 (run_triple [] _ (holds_new tls host)).1 before e after h

variable (N fuel fromStr host calls)

/-- A run only sends what its calls ask with the token kept last, to a host it can resolve; a token comes
from the reply of the token endpoint just received; and the last token kept is the one left. -/
theorem token_confined (tls : Tls S) :
    (∀ before e after, (run N fuel fromStr calls ⟨tls, .new host⟩).1 = before ++ e :: after →
      Allowed fromStr host calls before e) ∧
      ∀ c, (run N fuel fromStr calls ⟨tls, .new host⟩).2 = some ((), c) →
        c.registry = ⟨host, lastGranted (run N fuel fromStr calls ⟨tls, .new host⟩).1⟩ :=
  ⟨fun _ _ _ h => allowed_of_run h, fun c h => (run_triple [] _ (holds_new tls host)).2 () c h⟩

end Rules

/-! ## The lines of the requests -/

/-- What the caller passes in. -/
def Call.texts : Call → List Str
  | .authenticate image => [image]
  | .fetchManifest image tag => [image, tag]
  | .pullLayer image digest => [image, digest]
  | .pullManifest image tag => [image, tag]

def isAuthorization (line : Str) : Bool := "Authorization:".toList.isPrefixOf line

/-- The lines of a request that start with `Authorization:`. -/
def authorizations (request : List UInt8) : Option (List Str) :=
  (Http.linesRead request).map (·.filter isAuthorization)

def bearerLine (token : Str) : Str := "Authorization: Bearer ".toList ++ token

section Lines

variable {host dest path image tag : Str} {token : Option Str} {headers : List (Str × Str)} {call : Call}

theorem authorizations_plain (h : Http.Plain host path headers) :
    authorizations (toUtf8 (Http.requestText host path headers)) =
      some ((headers.map Http.headerLine).filter isAuthorization) := by
  have hread : Http.linesRead (toUtf8 (Http.requestText host path headers)) =
      some (Http.requestLines host path headers ++ [[]]) := (Http.linesRead_plain_iff _ _ _).2 h
  have hfirst : [Http.requestLine path, Http.hostLine host, "Connection: close".toList,
      "User-Agent: oci-kernel/0.1".toList].filter isAuthorization = [] := rfl
  have hblank : [([] : Str)].filter isAuthorization = [] := rfl
  rw [authorizations, hread, Option.map_some, Http.requestLines, List.filter_append, List.filter_append,
    List.filter_append, hfirst, hblank, List.nil_append, List.append_nil, List.append_nil]

theorem filter_authorization : ((authorization token).map Http.headerLine).filter isAuthorization =
    token.toList.map bearerLine := by
  cases token with
  | none => rfl
  | some t => rfl

theorem filter_accept : ((accept :: authorization token).map Http.headerLine).filter isAuthorization =
    token.toList.map bearerLine := by
  have haccept : isAuthorization (Http.headerLine accept) = false := rfl
  rw [List.map_cons, List.filter_cons_of_neg (by simp [haccept]), filter_authorization]

theorem unbroken_of_known (h : (Tls.resolveHost dest).isSome) : Unbroken dest := by
  unfold Tls.resolveHost at h
  split at h
  · next he => exact he ▸ unbroken_of_notMem (by decide)
  · split at h
    · next he => exact he ▸ unbroken_of_notMem (by decide)
    · cases h

theorem unbroken_path (h : Asks host token call dest path headers) (htexts : ∀ s ∈ call.texts, Unbroken s) :
    Unbroken path := by
  have htoken : ∀ image, Unbroken image → Unbroken (tokenPath image) := by
    intro image hi
    unfold tokenPath
    rw [unbroken_append (.inr (by decide)), unbroken_append (.inl (by decide))]
    exact ⟨⟨unbroken_of_notMem (by decide), hi⟩, unbroken_of_notMem (by decide)⟩
  have hobject : ∀ image kind name : Str, Unbroken image → Unbroken name → '\r' ∉ kind →
      kind.head? = some '/' → kind.getLast? = some '/' →
      Unbroken ("/v2/".toList ++ image ++ kind ++ name) := by
    intro image kind name hi hn hkind hhead hlast
    have hend : ("/v2/".toList ++ image ++ kind).getLast? ≠ some '\r' := by
      rw [List.getLast?_append, hlast]
      exact fun he => absurd (Option.some.inj he) (by decide)
    rw [unbroken_append (.inl hend), unbroken_append (.inr (by rw [hhead]; decide)),
      unbroken_append (.inl (by decide))]
    exact ⟨⟨⟨unbroken_of_notMem (by decide), hi⟩, unbroken_of_notMem hkind⟩, hn⟩
  cases h with
  | token image => exact htoken image (htexts _ (List.mem_cons_self ..))
  | tokenFirst image tag => exact htoken image (htexts _ (List.mem_cons_self ..))
  | manifest image tag | layer image digest | manifestThen image tag =>
    exact hobject _ _ _ (htexts _ (List.mem_cons_self ..))
      (htexts _ (List.mem_cons_of_mem _ (List.mem_cons_self ..))) (by decide) rfl rfl

theorem unbroken_authorization (htoken : ∀ t ∈ token, Unbroken t) :
    ∀ header ∈ authorization token, Unbroken header.1 ∧ Unbroken header.2 := by
  cases token with
  | none => exact List.forall_mem_nil _
  | some t =>
    refine List.forall_mem_singleton.2
      ⟨unbroken_of_notMem (show '\r' ∉ "Authorization".toList by decide), ?_⟩
    rw [unbroken_append (.inl (by decide))]
    exact ⟨unbroken_of_notMem (by decide), htoken t rfl⟩

theorem unbroken_headers (h : Asks host token call dest path headers) (htoken : ∀ t ∈ token, Unbroken t) :
    ∀ header ∈ headers, Unbroken header.1 ∧ Unbroken header.2 := by
  have haccept : Unbroken accept.1 ∧ Unbroken accept.2 :=
    ⟨unbroken_of_notMem (by decide), unbroken_of_notMem (by decide)⟩
  cases h with
  | token image => exact List.forall_mem_nil _
  | tokenFirst image tag => exact List.forall_mem_nil _
  | layer image digest => exact unbroken_authorization htoken
  | manifest image tag | manifestThen image tag =>
    exact List.forall_mem_cons.2 ⟨haccept, unbroken_authorization htoken⟩

theorem plain_of_asks (h : Asks host token call dest path headers) (hknown : (Tls.resolveHost dest).isSome)
    (htexts : ∀ s ∈ call.texts, Unbroken s) (htoken : ∀ t ∈ token, Unbroken t) : Http.Plain dest path headers :=
  ⟨unbroken_of_known hknown, unbroken_path h htexts, unbroken_headers h htoken⟩

theorem authorizations_of_asks (h : Asks host token call dest path headers) :
    (dest = authHost ∧ (headers.map Http.headerLine).filter isAuthorization = []) ∨
      (dest = host ∧ (headers.map Http.headerLine).filter isAuthorization = token.toList.map bearerLine) := by
  cases h with
  | token image => exact .inl ⟨rfl, rfl⟩
  | manifest image tag => exact .inr ⟨rfl, filter_accept⟩
  | layer image digest => exact .inr ⟨rfl, filter_authorization⟩
  | tokenFirst image tag => exact .inl ⟨rfl, rfl⟩
  | manifestThen image tag => exact .inr ⟨rfl, filter_accept⟩

end Lines

variable {S H ε : Type} (N : TcpStack S H) (fuel : Nat) (fromStr : Str → Except ε Json.Value)

/-- On lines: with no line break in what is passed in and in the token, a request to the token endpoint goes
out without an `Authorization` line, and one to the registry with the line of the token kept last, if there
is one, where the request fits into the transmit buffer. -/
theorem authorization_lines (tls : Tls S) (host : Str) (calls : List Call) {before after : List Event}
    {dest : Str} {state : TcpState} {request : List UInt8}
    (h : (run N fuel fromStr calls ⟨tls, .new host⟩).1 = before ++ .sent dest state request :: after)
    (htexts : ∀ call ∈ calls, ∀ s ∈ call.texts, Unbroken s) (htoken : ∀ t ∈ lastGranted before, Unbroken t)
    (hfits : request.length ≤ 16384) :
    (dest = authHost ∧ authorizations (request.take 16384) = some []) ∨
      (dest = host ∧ authorizations (request.take 16384) =
        some ((lastGranted before).toList.map bearerLine)) := by
  rw [List.take_of_length_le hfits]
  cases allowed_of_run h with
  | @sent call _ path headers _ hcall hasks hknown =>
    rw [authorizations_plain (plain_of_asks hasks hknown (htexts call hcall) htoken), Option.some_inj, Option.some_inj]
    exact authorizations_of_asks hasks

/-! ## A scripted server -/

/-- Every connection is up at once, and each poll of one brings the next reply and its end. -/
def replies : TcpStack (List (List UInt8)) Unit where
  add s _ _ := (s, ())
  connect s _ _ _ := (s, .ok ())
  poll s _ := s
  state _ _ := .established
  isActive _ _ := true
  sendSlice s _ data := (s, .ok data.length)
  recvSlice s _ _ :=
    match s with
    | [] => ([], .error ())
    | reply :: s => (s, .ok reply)
  mayRecv _ _ := false
  remove s _ := s

def tokenBody : Str := "\x7b\"token\":\"t\"\x7d".toList

def tokenReply : List UInt8 := toUtf8 ("HTTP/1.1 200 OK\r\n\r\n".toList ++ tokenBody)


def tokenReader : Str → Except Unit Json.Value :=
  ImageManifest.reads tokenBody (.object [("token".toList, .string "t".toList)])

def hub : Str := "registry-1.docker.io".toList

/-- Authenticate, then pull a layer. -/
def pullCalls : List Call := [.authenticate "a".toList, .pullLayer "a".toList "d".toList]

def tokenRequest : List UInt8 := toUtf8 (Http.requestText authHost (tokenPath "a".toList) [])

def layerRequest : List UInt8 :=
  toUtf8 (Http.requestText hub (blobPath "a".toList "d".toList) (authorization (some "t".toList)))

def okReply : Except HttpError HttpResponse := .ok ⟨200, [], toUtf8 tokenBody⟩

theorem run_pullCalls :
    (run replies 2 tokenReader pullCalls ⟨⟨some [tokenReply, tokenReply], 0, 0⟩, .new hub⟩).1 =
      [.sent authHost .established tokenRequest, .received authHost okReply, .granted "t".toList] ++
        .sent hub .established layerRequest :: [.received hub okReply] := by
  decide +kernel

theorem token_confined_granted : Allowed tokenReader hub pullCalls
    [.sent authHost .established tokenRequest, .received authHost okReply] (.granted "t".toList) :=
  (token_confined replies 2 tokenReader hub pullCalls ⟨some [tokenReply, tokenReply], 0, 0⟩).1 _ _ _
    run_pullCalls

theorem authorization_lines_layer :
    authorizations (layerRequest.take 16384) = some [bearerLine "t".toList] := by
  have h := authorization_lines replies 2 tokenReader ⟨some [tokenReply, tokenReply], 0, 0⟩ hub pullCalls
    run_pullCalls ?_ ?_ (by decide +kernel)
  · rcases h with ⟨hdest, -⟩ | ⟨-, hlines⟩
    · exact absurd hdest (by decide)
    · exact hlines
  · have hall : ∀ call ∈ pullCalls, ∀ s ∈ call.texts, '\r' ∉ s := by decide
    exact fun call hcall s hs => unbroken_of_notMem (hall call hcall s hs)
  · intro t ht
    cases ht
    exact unbroken_of_notMem (by decide)

end Client

end OciKernel
