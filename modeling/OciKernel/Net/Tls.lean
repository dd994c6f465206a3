import OciKernel.Lib.Text

/-!
# Net.Tls

`https_request`: connect, send, and read until the peer closes. The network stack is a third-party
package, so its sockets are a parameter: a record of the operations the function calls, over an
arbitrary state that also holds everything the peer is going to do. `Lawful` lists what the function
relies on.

* `waitActive_of_active`: the connect loop ends at the first poll that leaves the socket active.
* `sentEstablished_iff`: when the handshake completes at some poll of the loop, the request goes out on
  an established connection iff the first poll leaves the socket established.
* `httpsRequest_returns`: what a call that returns leaves behind, for any property that the calls on an
  open socket keep.
-/

namespace OciKernel

open Text

inductive TcpState where
  | closed | listen | synSent | synReceived | established | finWait1 | finWait2 | closeWait
  | closing | lastAck | timeWait
deriving DecidableEq, Repr

inductive TlsConnectError where
  | noNetwork
  | tcpFailed
  | tlsError
deriving DecidableEq, Repr

structure IpAddress where
  octets : UInt8 × UInt8 × UInt8 × UInt8
deriving DecidableEq, Repr

structure IpEndpoint where
  addr : IpAddress
  port : UInt16
deriving DecidableEq, Repr

/-- Microseconds since the clock started. -/
structure Instant where
  micros : Int64
deriving DecidableEq, Repr

/-- The product wraps, as in a release build; a development build panics where it overflows. -/
def Instant.fromMillis (millis : Int64) : Instant := ⟨millis * 1000⟩

/-- The calls of the network stack, with `S` its state and `H` its socket handles. -/
structure TcpStack (S H : Type) where
  /-- Add a socket with these receive and transmit buffer sizes. -/
  add : S → Nat → Nat → S × H
  connect : S → H → IpEndpoint → UInt16 → S × Except Unit Unit
  poll : S → Instant → S
  state : S → H → TcpState
  isActive : S → H → Bool
  sendSlice : S → H → List UInt8 → S × Except Unit Nat
  recvSlice : S → H → Nat → S × Except Unit (List UInt8)
  mayRecv : S → H → Bool
  remove : S → H → S

/-- What `https_request` relies on. -/
structure TcpStack.Lawful {S H : Type} (N : TcpStack S H) : Prop where
  connect_synSent : ∀ s h e p s', N.connect s h e p = (s', .ok ()) → N.state s' h = .synSent
  isActive_iff : ∀ s h, N.isActive s h = true ↔ N.state s h ∉ [.closed, .timeWait, .listen]
  sendSlice_ok_iff : ∀ s h data, (∃ s' n, N.sendSlice s h data = (s', .ok n)) ↔
    N.state s h ∈ [.established, .closeWait]

/-- A poll opens no connection that is closed. -/
def TcpStack.KeepsClosed {S H : Type} (N : TcpStack S H) : Prop :=
  ∀ s h t, N.state s h ∈ [.closed, .timeWait] → N.state (N.poll s t) h ∈ [.closed, .timeWait]

/-- The globals of the module: `NETWORK`, `NEXT_PORT` and `POLL_TICKS`. -/
structure Tls (S : Type) where
  network : Option S
  nextPort : UInt16
  pollTicks : UInt64

/-- The locked stack, and the tick counter of its polls. -/
structure Net (S : Type) where
  stack : S
  ticks : UInt64

/-- The requests handed to the socket, each with the state the socket was in, and what the call
returns; no result means that it is still reading. -/
structure Outcome (S : Type) where
  handed : List (TcpState × List UInt8)
  result : Option (Tls S × Except TlsConnectError (List UInt8))

namespace Tls

def resolveHost (host : Str) : Option IpAddress :=
  if host = "registry-1.docker.io".toList then some ⟨54, 236, 246, 36⟩
  else if host = "auth.docker.io".toList then some ⟨54, 236, 246, 36⟩
  else none

section

variable {S H : Type} (N : TcpStack S H)

/-- `stack.poll(next_instant())` -/
def poll (w : Net S) : Net S := ⟨N.poll w.stack (.fromMillis w.ticks.toInt64), w.ticks + 1⟩

/-- The loop that polls until the connection is established. -/
def waitActive (h : H) : Nat → Net S → Net S
  | 0, w => w
  | n + 1, w =>
    let w := poll N w
    if N.isActive w.stack h then w else waitActive h n w

/-- The loop that accumulates the response, for at most `fuel` rounds. -/
def readResponse (h : H) : Nat → Net S → List UInt8 → Option (Net S × List UInt8)
  | 0, _, _ => none
  | fuel + 1, w, response =>
    let w := poll N w
    match N.recvSlice w.stack h 1024 with
    | (stack, .ok chunk) =>
      let response := response ++ chunk
      if N.mayRecv stack h then readResponse h fuel { w with stack } response
      else some ({ w with stack }, response)
    | (stack, .error _) => some ({ w with stack }, response)

/-- `stack.sockets.remove(tcp_handle)`, and the lock released. -/
def release (k : Tls S) (h : H) (w : Net S) : Tls S :=
  { k with network := some (N.remove w.stack h), pollTicks := w.ticks }

/-- The socket added and told to connect. -/
def openSocket (k : Tls S) (stack : S) (endpoint : IpEndpoint) : Tls S × H × S × Except Unit Unit :=
  let (stack, h) := N.add stack 4096 16384
  let localPort := if k.nextPort < 49152 then 49152 else k.nextPort
  let (stack, connected) := N.connect stack h endpoint localPort
  ({ k with nextPort := k.nextPort + 1 }, h, stack, connected)

/-- The request sent and the response read. -/
def exchange (k : Tls S) (fuel : Nat) (h : H) (request : List UInt8) (w : Net S) : Outcome S :=
  let state := N.state w.stack h
  match N.sendSlice w.stack h request with
  | (stack, .error _) =>
    ⟨[(state, request)], some (release N k h { w with stack }, .error .tcpFailed)⟩
  | (stack, .ok _) =>
    ⟨[(state, request)], (readResponse N h fuel { w with stack } []).map fun r =>
      (release N k h r.1, .ok r.2)⟩

def httpsRequest (k : Tls S) (fuel : Nat) (host : Str) (port : UInt16) (request : List UInt8) :
    Outcome S :=
  match k.network with
  | none => ⟨[], some (k, .error .noNetwork)⟩
  | some stack =>
    match resolveHost host with
    | none => ⟨[], some (k, .error .tcpFailed)⟩
    | some ip =>
      match openSocket N k stack ⟨ip, port⟩ with
      | (k, h, stack, .error _) =>
        ⟨[], some (release N k h ⟨stack, k.pollTicks⟩, .error .tcpFailed)⟩
      | (k, h, stack, .ok _) =>
        let w := waitActive N h 100000 ⟨stack, k.pollTicks⟩
        if N.isActive w.stack h then exchange N k fuel h request w
        else ⟨[], some (release N k h w, .error .tcpFailed)⟩

/-! ## The handshake -/

/-- The polls before `n` leave the handshake under way, and poll `n` leaves it behind. That poll may
process more than the end of the handshake, and so leave the socket in a state past `Established`. -/
structure HandshakeAt (h : H) (w : Net S) (n : Nat) : Prop where
  before : ∀ j < n, N.state ((poll N)^[j] w).stack h ∈ [.synSent, .synReceived]
  done : N.state ((poll N)^[n] w).stack h ∉ [.synSent, .synReceived, .listen]

/-- The request was handed over once, on an established connection, and the call does not fail. -/
def SentEstablished (request : List UInt8) (o : Outcome S) : Prop :=
  o.handed = [(.established, request)] ∧ ∀ k, o.result ≠ some (k, .error .tcpFailed)

variable {N}

theorem waitActive_of_active {h : H} {w : Net S} (n : Nat)
    (hactive : N.isActive (poll N w).stack h = true) : waitActive N h (n + 1) w = poll N w := by
  simp [waitActive, hactive]

theorem exchange_established (law : N.Lawful) {k : Tls S} {fuel : Nat} {h : H}
    {request : List UInt8} {w : Net S} (hs : N.state w.stack h = .established) :
    SentEstablished request (exchange N k fuel h request w) := by
  obtain ⟨s', n, hsend⟩ := (law.sendSlice_ok_iff w.stack h request).2 (by simp [hs])
  unfold exchange
  rw [hsend, hs]
  refine ⟨rfl, ?_⟩
  intro k' hr
  obtain ⟨r, _, he⟩ := Option.map_eq_some_iff.1 hr
  cases he

/-- The request is handed over once, in whatever state the socket is. -/
theorem exchange_handed (k : Tls S) (fuel : Nat) (h : H) (request : List UInt8) (w : Net S) :
    (exchange N k fuel h request w).handed = [(N.state w.stack h, request)] := by
  unfold exchange
  dsimp only
  split <;> rfl

theorem exchange_sentEstablished_iff (law : N.Lawful) {k : Tls S} {fuel : Nat} {h : H}
    {request : List UInt8} {w : Net S} :
    SentEstablished request (exchange N k fuel h request w) ↔ N.state w.stack h = .established := by
  refine ⟨fun hsent => ?_, exchange_established law⟩
  have hhanded := (exchange_handed k fuel h request w).symm.trans hsent.1
  simpa using hhanded

/-- The loop waits for nothing once the connection is closed. -/
theorem waitActive_closed (hclosed : N.KeepsClosed) {h : H} {w : Net S} (n : Nat)
    (hs : N.state w.stack h ∈ [.closed, .timeWait]) :
    N.state (waitActive N h n w).stack h ∈ [.closed, .timeWait] := by
  induction n generalizing w with
  | zero => exact hs
  | succ n ih =>
    have hpoll : N.state (poll N w).stack h ∈ [.closed, .timeWait] := hclosed _ _ _ hs
    unfold waitActive
    dsimp only
    split
    · exact hpoll
    · exact ih hpoll

section Connected

variable {k k' : Tls S} {stack stack' : S} {host : Str} {ip : IpAddress} {port : UInt16} {h : H}

/-- With an active socket after the first poll, the request is handed over there and then. -/
theorem httpsRequest_of_active (fuel : Nat) (request : List UInt8) (hnet : k.network = some stack)
    (hip : resolveHost host = some ip)
    (hopen : openSocket N k stack ⟨ip, port⟩ = (k', h, stack', .ok ()))
    (hactive : N.isActive (poll N ⟨stack', k'.pollTicks⟩).stack h = true) :
    httpsRequest N k fuel host port request =
      exchange N k' fuel h request (poll N ⟨stack', k'.pollTicks⟩) := by
  unfold httpsRequest
  rw [hnet, hip]
  simp only [hopen]
  rw [waitActive_of_active 99999 hactive, if_pos hactive]

/-- A connection that the first poll leaves closed is given up, with no request handed over. -/
theorem httpsRequest_of_closed (law : N.Lawful) (hclosed : N.KeepsClosed) (fuel : Nat)
    (request : List UInt8) (hnet : k.network = some stack) (hip : resolveHost host = some ip)
    (hopen : openSocket N k stack ⟨ip, port⟩ = (k', h, stack', .ok ()))
    (hs : N.state (poll N ⟨stack', k'.pollTicks⟩).stack h ∈ [.closed, .timeWait]) :
    (httpsRequest N k fuel host port request).handed = [] := by
  have hidle : ∀ {w : Net S}, N.state w.stack h ∈ [.closed, .timeWait] →
      ¬ N.isActive w.stack h = true := by
    intro w hw hactive
    have hnot := (law.isActive_iff _ _).1 hactive
    simp only [List.mem_cons, List.not_mem_nil, or_false] at hw hnot
    tauto
  have hwait : waitActive N h 100000 ⟨stack', k'.pollTicks⟩ =
      waitActive N h 99999 (poll N ⟨stack', k'.pollTicks⟩) := by
    rw [waitActive]
    exact if_neg (hidle hs)
  unfold httpsRequest
  rw [hnet, hip]
  simp only [hopen]
  rw [hwait, if_neg (hidle (waitActive_closed hclosed 99999 hs))]

/-- Let the handshake complete at poll `n` of the connect loop. The request is handed to the socket in
`Established`, and the call does not return `TcpFailed`, iff the first poll leaves the socket in that
state. -/
theorem sentEstablished_iff (law : N.Lawful) (hclosed : N.KeepsClosed) (fuel : Nat)
    (request : List UInt8) (hnet : k.network = some stack) (hip : resolveHost host = some ip)
    (hopen : openSocket N k stack ⟨ip, port⟩ = (k', h, stack', .ok ())) {n : Nat}
    (hh : HandshakeAt N h ⟨stack', k'.pollTicks⟩ n) :
    SentEstablished request (httpsRequest N k fuel host port request) ↔
      N.state (poll N ⟨stack', k'.pollTicks⟩).stack h = .established := by
  have hstart : N.state stack' h = .synSent := by
    have hc := hopen
    simp only [openSocket, Prod.mk.injEq] at hc
    obtain ⟨_, rfl, hs, hok⟩ := hc
    exact law.connect_synSent _ _ _ _ _ (Prod.ext hs hok)
  -- after `SynSent` or `SynReceived` the socket counts as active, whether or not it is connected
  have hlisten : N.state (poll N ⟨stack', k'.pollTicks⟩).stack h ≠ .listen := by
    intro hl
    match n, hh with
    | 0, hh => exact hh.done (by simp [hstart])
    | 1, hh => exact hh.done (by simp [hl])
    | n + 2, hh =>
      have h1 := hh.before 1 (by omega)
      simp [hl] at h1
  by_cases hactive : N.isActive (poll N ⟨stack', k'.pollTicks⟩).stack h = true
  · rw [httpsRequest_of_active fuel request hnet hip hopen hactive]
    exact exchange_sentEstablished_iff law
  · have hs : N.state (poll N ⟨stack', k'.pollTicks⟩).stack h ∈ [.closed, .timeWait] := by
      rw [law.isActive_iff] at hactive
      simp only [List.mem_cons, List.not_mem_nil, or_false, not_not] at hactive ⊢
      tauto
    have hnone := httpsRequest_of_closed law hclosed fuel request hnet hip hopen hs
    refine iff_of_false ?_ ?_
    · intro hsent
      have := hnone.symm.trans hsent.1
      cases this
    · intro he
      simp [he] at hs

end Connected

/-! ## What a call leaves behind -/

/-- What the calls on an open socket keep. -/
structure Keeps (N : TcpStack S H) (h : H) (P : Net S → Prop) : Prop where
  poll : ∀ w, P w → P (poll N w)
  recv : ∀ w, P w → P { w with stack := (N.recvSlice w.stack h 1024).1 }
  send : ∀ w request, P w → P { w with stack := (N.sendSlice w.stack h request).1 }

section Keeps

variable {h : H} {P : Net S → Prop} {w : Net S} {k k' : Tls S} {fuel : Nat} {request : List UInt8}
  {result : Except TlsConnectError (List UInt8)}

theorem Keeps.waitActive (hP : Keeps N h P) (n : Nat) (hw : P w) : P (waitActive N h n w) := by
  induction n generalizing w with
  | zero => exact hw
  | succ n ih =>
    unfold Tls.waitActive
    dsimp only
    split
    · exact hP.poll w hw
    · exact ih (hP.poll w hw)

theorem Keeps.readResponse (hP : Keeps N h P) {response : List UInt8} {r : Net S × List UInt8}
    (hw : P w) (hr : readResponse N h fuel w response = some r) : P r.1 := by
  induction fuel generalizing w response with
  | zero => cases hr
  | succ fuel ih =>
    have hrecv := hP.recv _ (hP.poll w hw)
    unfold Tls.readResponse at hr
    dsimp only at hr
    split at hr
    · next stack chunk he =>
      rw [he] at hrecv
      split at hr
      · exact ih hrecv hr
      · cases hr
        exact hrecv
    · next stack e he =>
      rw [he] at hrecv
      cases hr
      exact hrecv

theorem Keeps.exchange (hP : Keeps N h P) (hw : P w)
    (hr : (exchange N k fuel h request w).result = some (k', result)) :
    ∃ w', P w' ∧ k' = release N k h w' := by
  have hsend := hP.send w request hw
  unfold Tls.exchange at hr
  dsimp only at hr
  split at hr
  · next stack e he =>
    rw [he] at hsend
    cases hr
    exact ⟨_, hsend, rfl⟩
  · next stack n he =>
    rw [he] at hsend
    obtain ⟨r, hread, hk⟩ := Option.map_eq_some_iff.1 hr
    cases hk
    exact ⟨r.1, hP.readResponse hsend hread, rfl⟩

/-- A call that returns has changed nothing, or it has opened a socket and released it in a state that
the calls in between lead to. -/
theorem httpsRequest_returns {host : Str} {port : UInt16}
    (hr : (httpsRequest N k fuel host port request).result = some (k', result)) :
    ((k.network = none ∨ resolveHost host = none) ∧ k' = k) ∨
      ∃ stack ip, k.network = some stack ∧ resolveHost host = some ip ∧
        ∃ k₁ h stack₁ connected, openSocket N k stack ⟨ip, port⟩ = (k₁, h, stack₁, connected) ∧
          ∀ P, Keeps N h P → P ⟨stack₁, k₁.pollTicks⟩ → ∃ w, P w ∧ k' = release N k₁ h w := by
  unfold httpsRequest at hr
  split at hr
  · next hnet =>
    cases hr
    exact .inl ⟨.inl hnet, rfl⟩
  · next stack hnet =>
    split at hr
    · next hip =>
      cases hr
      exact .inl ⟨.inr hip, rfl⟩
    · next ip hip =>
      refine .inr ⟨stack, ip, hnet, hip, ?_⟩
      split at hr
      · next k₁ h stack₁ e hopen =>
        cases hr
        exact ⟨k₁, h, stack₁, _, hopen, fun P _ hw => ⟨_, hw, rfl⟩⟩
      · next k₁ h stack₁ _ hopen =>
        refine ⟨k₁, h, stack₁, _, hopen, fun P hP hw => ?_⟩
        have hactive := hP.waitActive 100000 hw
        dsimp only at hr
        split at hr
        · exact hP.exchange hactive hr
        · cases hr
          exact ⟨_, hactive, rfl⟩

end Keeps

end

/-! ## A scripted peer -/

/-- A stack with one socket, which each poll moves to the next state of a script until it is closed. -/
structure Scripted where
  socket : TcpState
  script : List TcpState

def scripted : TcpStack Scripted Unit where
  add s _ _ := ({ s with socket := .closed }, ())
  connect s _ _ _ := ({ s with socket := .synSent }, .ok ())
  poll s _ :=
    if s.socket ∈ [.closed, .timeWait] then s else
      match s.script with
      | [] => s
      | state :: script => ⟨state, script⟩
  state s _ := s.socket
  isActive s _ := s.socket ∉ [.closed, .timeWait, .listen]
  sendSlice s _ data :=
    if s.socket ∈ [.established, .closeWait] then (s, .ok data.length) else (s, .error ())
  recvSlice s _ _ := (s, .ok [])
  mayRecv s _ := s.socket = .established
  remove s _ := { s with socket := .closed }

theorem scripted_lawful : scripted.Lawful where
  connect_synSent := by
    intro s h e p s' hc
    cases hc
    rfl
  isActive_iff s h := decide_eq_true_iff
  sendSlice_ok_iff s h data := by
    simp only [scripted]
    split <;> simp_all

theorem scripted_keepsClosed : scripted.KeepsClosed := by
  intro s h t hs
  have hpoll : scripted.poll s t = s := if_pos hs
  rw [hpoll]
  exact hs

/-- The handshake completes at the first poll, and the peer closes at the next one. -/
theorem sentEstablished_first : SentEstablished [71, 69, 84]
    (httpsRequest scripted ⟨some ⟨.closed, [.established, .closeWait]⟩, 0, 0⟩ 2
      "auth.docker.io".toList 443 [71, 69, 84]) :=
  (sentEstablished_iff scripted_lawful scripted_keepsClosed 2 [71, 69, 84] rfl rfl rfl (n := 1)
    ⟨by decide, by decide⟩).2 rfl

/-- The handshake completes at the second poll. -/
theorem not_sentEstablished_second : scripted.Lawful ∧
    HandshakeAt scripted () ⟨⟨.synSent, [.synSent, .established]⟩, 0⟩ 2 ∧
    ¬ SentEstablished [71, 69, 84]
      (httpsRequest scripted ⟨some ⟨.closed, [.synSent, .established]⟩, 0, 0⟩ 2
        "auth.docker.io".toList 443 [71, 69, 84]) := by
  refine ⟨scripted_lawful, ⟨by decide, by decide⟩, ?_⟩
  rw [httpsRequest_of_active (N := scripted) 2 [71, 69, 84] rfl rfl rfl rfl]
  intro h
  have := h.1
  cases this

end Tls

end OciKernel
