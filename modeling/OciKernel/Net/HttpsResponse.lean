import OciKernel.Net.Tls

/-!
# Net.HttpsResponse

The bytes of an `https_request`, both ways. The buffers of a socket belong to the network stack, so what
they hold is a parameter beside its calls; `Buffered` lists what the stack does with them.

* `reading`: where a call stands when it starts to read.
* `Whole.readResponse`: while it reads, what has arrived is what was read and what waits to be read.
* `exists_readResponse_iff`: it comes to its end iff the peer does.
* `response_exact`: so the response is all that the peer sent, and the request goes out up to the size of
  the transmit buffer.
-/

namespace OciKernel

open Text

/-- The receive half of the connection is open. -/
def TcpState.Receiving (s : TcpState) : Prop := s ∈ [.established, .finWait1, .finWait2]

/-- The peer sends nothing more. -/
def TcpState.Ended (s : TcpState) : Prop := s ∈ [.closeWait, .closing, .lastAck, .timeWait, .closed]

instance (s : TcpState) : Decidable s.Receiving := inferInstanceAs (Decidable (s ∈ _))

instance (s : TcpState) : Decidable s.Ended := inferInstanceAs (Decidable (s ∈ _))

theorem TcpState.Ended.not_receiving {s : TcpState} (h : s.Ended) : ¬ s.Receiving := by
  cases s <;> simp [Ended, Receiving] at *

/-- What the buffers of a socket hold. -/
structure Buffers (S H : Type) where
  /-- All bytes that have arrived, in order. -/
  arrived : S → H → List UInt8
  /-- Those that have not been read. -/
  waiting : S → H → List UInt8
  /-- All bytes that were taken over to be sent. -/
  queued : S → H → List UInt8
  /-- The size of the transmit buffer. -/
  capacity : S → H → Nat

/-- The sent side is the same in both states. -/
structure Buffers.SameSent {S H : Type} (B : Buffers S H) (h : H) (s s' : S) : Prop where
  queued : B.queued s' h = B.queued s h
  capacity : B.capacity s' h = B.capacity s h

/-- What the stack does with the buffers. -/
structure TcpStack.Buffered {S H : Type} (N : TcpStack S H) (B : Buffers S H) : Prop extends N.Lawful where
  add : ∀ s rx tx s' h, N.add s rx tx = (s', h) →
    B.arrived s' h = [] ∧ B.waiting s' h = [] ∧ B.queued s' h = [] ∧ B.capacity s' h = tx
  connect : ∀ s h e p s' r, N.connect s h e p = (s', r) →
    B.arrived s' h = B.arrived s h ∧ B.waiting s' h = B.waiting s h ∧ B.SameSent h s s'
  poll : ∀ s h t, ∃ more, B.arrived (N.poll s t) h = B.arrived s h ++ more ∧
    B.waiting (N.poll s t) h = B.waiting s h ++ more ∧ B.SameSent h s (N.poll s t) ∧
      ((N.state s h).Ended → more = [])
  poll_state : ∀ s h t, ((N.state s h).Ended → (N.state (N.poll s t) h).Ended) ∧
    ((N.state s h).Receiving → (N.state (N.poll s t) h).Receiving ∨ (N.state (N.poll s t) h).Ended)
  sendSlice : ∀ s h data s' n, N.sendSlice s h data = (s', .ok n) → B.queued s h = [] →
    B.queued s' h = data.take (B.capacity s h) ∧ B.arrived s' h = B.arrived s h ∧
      B.waiting s' h = B.waiting s h ∧ N.state s' h = N.state s h
  recvSlice : ∀ s h n s' r, N.recvSlice s h n = (s', r) → N.state s' h = N.state s h ∧
    B.arrived s' h = B.arrived s h ∧ B.SameSent h s s' ∧ match r with
      | .ok chunk => chunk = (B.waiting s h).take n ∧ B.waiting s' h = (B.waiting s h).drop n
      | .error _ => ¬ (N.state s h).Receiving ∧ B.waiting s h = [] ∧ B.waiting s' h = []
  mayRecv_iff : ∀ s h, N.mayRecv s h = true ↔ (N.state s h).Receiving ∨ B.waiting s h ≠ []

namespace Tls

variable {S H : Type} (N : TcpStack S H)

/-- The socket and the stack of a call that has handed over its request. -/
def reading (k : Tls S) (host : Str) (port : UInt16) (request : List UInt8) : Option (Tls S × H × Net S) :=
  match k.network with
  | none => none
  | some stack =>
    match resolveHost host with
    | none => none
    | some ip =>
      match openSocket N k stack ⟨ip, port⟩ with
      | (_, _, _, .error _) => none
      | (k, h, stack, .ok _) =>
        let w := waitActive N h 100000 ⟨stack, k.pollTicks⟩
        if N.isActive w.stack h then
          match N.sendSlice w.stack h request with
          | (_, .error _) => none
          | (stack, .ok _) => some (k, h, { w with stack })
        else none

/-- One round of the loop that reads the response. -/
def round (h : H) (w : Net S) : Net S :=
  let w := poll N w
  { w with stack := (N.recvSlice w.stack h 1024).1 }

variable {N} {k k₁ : Tls S} {host : Str} {port : UInt16} {request : List UInt8} {h : H} {w w' : Net S}

theorem httpsRequest_of_reading (hr : reading N k host port request = some (k₁, h, w)) (fuel : Nat) :
    (httpsRequest N k fuel host port request).result =
      (readResponse N h fuel w []).map fun r => (release N k₁ h r.1, .ok r.2) := by
  unfold reading at hr
  split at hr
  · cases hr
  next stack hnet =>
  split at hr
  · cases hr
  next ip hip =>
  split at hr
  · cases hr
  next k₂ h₂ stack₂ _ hopen =>
  dsimp only at hr
  split at hr
  · next hactive =>
    split at hr
    · cases hr
    · next hsend =>
      cases hr
      simp only [httpsRequest, hnet, hip, hopen, hactive, exchange, hsend, if_true]
  · cases hr

theorem httpsRequest_of_not_reading (hr : reading N k host port request = none) :
    ∃ k' e, ∀ fuel, (httpsRequest N k fuel host port request).result = some (k', .error e) := by
  unfold reading at hr
  split at hr
  · next hnet =>
    simp only [httpsRequest, hnet]
    exact ⟨_, _, fun _ => rfl⟩
  next stack hnet =>
  split at hr
  · next hip =>
    simp only [httpsRequest, hnet, hip]
    exact ⟨_, _, fun _ => rfl⟩
  next ip hip =>
  split at hr
  · next hopen =>
    simp only [httpsRequest, hnet, hip, hopen]
    exact ⟨_, _, fun _ => rfl⟩
  next k₂ h₂ stack₂ _ hopen =>
  dsimp only at hr
  split at hr
  · next hactive =>
    split at hr
    · next hsend =>
      simp only [httpsRequest, hnet, hip, hopen, hactive, exchange, hsend, if_true]
      exact ⟨_, _, fun _ => rfl⟩
    · cases hr
  · next hactive =>
    simp only [httpsRequest, hnet, hip, hopen, if_neg hactive]
    exact ⟨_, _, fun _ => rfl⟩

/-! ## The loop -/

variable {B : Buffers S H} {response all : List UInt8} {fuel : Nat}

/-- What has arrived is what was read and what waits, and the handshake is over. -/
structure Whole (N : TcpStack S H) (B : Buffers S H) (h : H) (w : Net S) (response : List UInt8) : Prop where
  arrived : B.arrived w.stack h = response ++ B.waiting w.stack h
  state : (N.state w.stack h).Receiving ∨ (N.state w.stack h).Ended

/-- Everything has been read. -/
structure Done (N : TcpStack S H) (B : Buffers S H) (h : H) (w : Net S) (response : List UInt8) : Prop where
  arrived : response = B.arrived w.stack h
  waiting : B.waiting w.stack h = []
  ended : (N.state w.stack h).Ended

theorem Whole.poll (law : N.Buffered B) (hw : Whole N B h w response) :
    Whole N B h (poll N w) response := by
  obtain ⟨more, harrived, hwaiting, -, -⟩ := law.poll w.stack h (.fromMillis w.ticks.toInt64)
  obtain ⟨hended, hreceiving⟩ := law.poll_state w.stack h (.fromMillis w.ticks.toInt64)
  refine ⟨?_, hw.state.elim hreceiving fun he => .inr (hended he)⟩
  exact harrived.trans (by rw [hw.arrived, List.append_assoc, ← hwaiting]; rfl)

/-- What one `recv_slice` gives, and what it leaves. -/
theorem Whole.recv (law : N.Buffered B) (hw : Whole N B h w response) {stack : S}
    {r : Except Unit (List UInt8)} (hr : N.recvSlice w.stack h 1024 = (stack, r)) :
    Whole N B h { w with stack } (response ++ r.toOption.getD []) := by
  obtain ⟨hstate, harrived, -, hread⟩ := law.recvSlice _ _ _ _ _ hr
  refine ⟨?_, ?_⟩
  · cases r with
    | ok chunk =>
      obtain ⟨hchunk, hwaiting⟩ := hread
      dsimp only
      rw [harrived, hw.arrived, hwaiting, List.append_assoc]
      exact congrArg (response ++ ·) (hchunk ▸ (List.take_append_drop ..).symm)
    | error e =>
      obtain ⟨-, hnil, hwaiting⟩ := hread
      dsimp only
      rw [harrived, hw.arrived, hnil, hwaiting]
      exact (List.append_nil (response ++ [])).symm
  · dsimp only
    rw [hstate]
    exact hw.state

/-- The loop ends when the last byte is read. -/
theorem Whole.readResponse (law : N.Buffered B) (hw : Whole N B h w response)
    (hr : readResponse N h fuel w response = some (w', all)) :
    Done N B h w' all ∧ B.SameSent h w.stack w'.stack ∧ ∃ n, w' = (round N h)^[n] w := by
  induction fuel generalizing w response with
  | zero => cases hr
  | succ fuel ih =>
    obtain ⟨more, -, -, hpoll, -⟩ := law.poll w.stack h (.fromMillis w.ticks.toInt64)
    have hpolled := hw.poll law
    rw [Tls.readResponse] at hr
    cases hrecv : N.recvSlice (Tls.poll N w).stack h 1024 with
    | mk stack r =>
      have hread := hpolled.recv law hrecv
      obtain ⟨hstate, -, hsent, hcase⟩ := law.recvSlice _ _ _ _ _ hrecv
      have hround : round N h w = { Tls.poll N w with stack } := by rw [round, hrecv]
      have hsame : B.SameSent h w.stack stack :=
        ⟨hsent.queued.trans hpoll.queued, hsent.capacity.trans hpoll.capacity⟩
      simp only [hrecv] at hr
      cases r with
      | ok chunk =>
        dsimp only at hr
        by_cases hmay : N.mayRecv stack h = true
        · rw [if_pos hmay] at hr
          obtain ⟨hdone, hrest, n, rfl⟩ := ih hread hr
          refine ⟨hdone, ⟨hrest.queued.trans hsame.queued, hrest.capacity.trans hsame.capacity⟩, n + 1, ?_⟩
          rw [Function.iterate_succ_apply, hround]
        · rw [if_neg hmay] at hr
          cases hr
          obtain ⟨hnot, hnil⟩ := not_or.1 (mt (law.mayRecv_iff stack h).2 hmay)
          have hnil : B.waiting stack h = [] := not_not.1 hnil
          refine ⟨⟨?_, hnil, hread.state.resolve_left hnot⟩, hsame, 1, hround.symm⟩
          have harrived := hread.arrived
          dsimp only at harrived
          rw [hnil, List.append_nil] at harrived
          exact harrived.symm
      | error e =>
        cases hr
        obtain ⟨hnot, -, hnil⟩ := hcase
        refine ⟨⟨?_, hnil, hread.state.resolve_left (hstate ▸ hnot)⟩, hsame, 1, hround.symm⟩
        have harrived := hread.arrived
        dsimp only at harrived
        rw [hnil, List.append_nil] at harrived
        exact (List.append_nil _).symm.trans harrived.symm

/-- More fuel changes nothing once it is enough. -/
theorem readResponse_mono {r : Net S × List UInt8} (hr : Tls.readResponse N h fuel w response = some r)
    (more : Nat) : Tls.readResponse N h (fuel + more) w response = some r := by
  induction fuel generalizing w response with
  | zero => cases hr
  | succ fuel ih =>
    rw [Nat.succ_add]
    rw [Tls.readResponse] at hr ⊢
    split
    · next stack chunk hrecv =>
      simp only [hrecv] at hr
      dsimp only
      split
      · next hmay =>
        rw [if_pos hmay] at hr
        exact ih hr
      · next hmay =>
        rw [if_neg hmay] at hr
        exact hr
    · next stack e hrecv =>
      simp only [hrecv] at hr
      exact hr

/-- The call returns after a round, or goes on with the next one. -/
theorem Whole.round (law : N.Buffered B) (hw : Whole N B h w response) :
    (∀ fuel, ∃ r, Tls.readResponse N h (fuel + 1) w response = some r) ∨
      ∃ response', Whole N B h (round N h w) response' ∧ N.mayRecv (round N h w).stack h = true ∧
        ∀ fuel, Tls.readResponse N h (fuel + 1) w response =
          Tls.readResponse N h fuel (round N h w) response' := by
  simp only [Tls.readResponse, Tls.round]
  cases hrecv : N.recvSlice (Tls.poll N w).stack h 1024 with
  | mk stack r =>
    have hread := (hw.poll law).recv law hrecv
    cases r with
    | ok chunk =>
      dsimp only
      by_cases hmay : N.mayRecv stack h = true
      · exact .inr ⟨_, hread, hmay, fun fuel => if_pos hmay⟩
      · exact .inl fun fuel => ⟨_, if_neg hmay⟩
    | error e => exact .inl fun fuel => ⟨_, rfl⟩

/-- Once the peer has sent everything, a round takes up to 1024 bytes of what waits. -/
theorem ended_round (law : N.Buffered B) (hended : (N.state w.stack h).Ended) :
    (N.state (round N h w).stack h).Ended ∧
      (B.waiting (round N h w).stack h).length = (B.waiting w.stack h).length - 1024 := by
  obtain ⟨more, -, hwaiting, -, hmore⟩ := law.poll w.stack h (.fromMillis w.ticks.toInt64)
  have hstate := (law.poll_state w.stack h (.fromMillis w.ticks.toInt64)).1 hended
  rw [hmore hended, List.append_nil] at hwaiting
  have hpolled : B.waiting (poll N w).stack h = B.waiting w.stack h := hwaiting
  cases hrecv : N.recvSlice (poll N w).stack h 1024 with
  | mk stack r =>
    have hround : round N h w = { poll N w with stack } := by rw [round, hrecv]
    obtain ⟨hsame, -, -, hcase⟩ := law.recvSlice _ _ _ _ _ hrecv
    rw [hround]
    dsimp only
    refine ⟨hsame ▸ hstate, ?_⟩
    cases r with
    | ok chunk => rw [hcase.2, hpolled, List.length_drop]
    | error e =>
      rw [hcase.2.2, ← hpolled, hcase.2.1]
      rfl

/-- So the call returns, by induction on what waits. -/
theorem exists_readResponse_of_ended (law : N.Buffered B) (hw : Whole N B h w response)
    (hended : (N.state w.stack h).Ended) (n : Nat) (hn : (B.waiting w.stack h).length ≤ n) :
    ∃ fuel r, readResponse N h fuel w response = some r := by
  induction n generalizing w response with
  | zero =>
    rcases hw.round law with hreturns | ⟨response', -, hmay, -⟩
    · exact ⟨1, hreturns 0⟩
    · obtain ⟨hended', hlen⟩ := ended_round law hended
      have hne := ((law.mayRecv_iff _ _).1 hmay).resolve_left hended'.not_receiving
      have hpos := List.length_pos_of_ne_nil hne
      omega
  | succ n ih =>
    rcases hw.round law with hreturns | ⟨response', hw', hmay, hnext⟩
    · exact ⟨1, hreturns 0⟩
    · obtain ⟨hended', hlen⟩ := ended_round law hended
      obtain ⟨fuel, r, hr⟩ := ih hw' hended' (by omega)
      exact ⟨fuel + 1, r, (hnext fuel).trans hr⟩

/-- Nothing arrives any more. -/
theorem arrived_round_of_ended (law : N.Buffered B) (hended : (N.state w.stack h).Ended) (n : Nat) :
    B.arrived ((round N h)^[n] w).stack h = B.arrived w.stack h := by
  induction n generalizing w with
  | zero => rfl
  | succ n ih =>
    obtain ⟨more, harrived, -, -, hmore⟩ := law.poll w.stack h (.fromMillis w.ticks.toInt64)
    rw [hmore hended, List.append_nil] at harrived
    obtain ⟨-, hrecv, -, -⟩ := law.recvSlice (poll N w).stack h 1024 _ _ rfl
    rw [Function.iterate_succ_apply, ih (ended_round law hended).1]
    exact hrecv.trans harrived

/-- So two rounds after the end have seen the same. -/
theorem arrived_of_ended (law : N.Buffered B) {m n : Nat}
    (hm : (N.state ((round N h)^[m] w).stack h).Ended) (hn : (N.state ((round N h)^[n] w).stack h).Ended) :
    B.arrived ((round N h)^[m] w).stack h = B.arrived ((round N h)^[n] w).stack h := by
  have hle {i j : Nat} (hi : (N.state ((round N h)^[i] w).stack h).Ended) (hij : i ≤ j) :
      B.arrived ((round N h)^[j] w).stack h = B.arrived ((round N h)^[i] w).stack h := by
    obtain ⟨d, rfl⟩ := Nat.exists_eq_add_of_le' hij
    rw [Function.iterate_add_apply]
    exact arrived_round_of_ended law hi d
  rcases Nat.le_total m n with h | h
  · exact (hle hm h).symm
  · exact hle hn h

theorem exists_readResponse_iff (law : N.Buffered B) (hw : Whole N B h w response) :
    (∃ fuel r, readResponse N h fuel w response = some r) ↔
      ∃ n, (N.state ((round N h)^[n] w).stack h).Ended := by
  constructor
  · rintro ⟨fuel, ⟨w', all⟩, hr⟩
    obtain ⟨hdone, -, n, rfl⟩ := hw.readResponse law hr
    exact ⟨n, hdone.ended⟩
  · rintro ⟨n, hn⟩
    induction n generalizing w response with
    | zero => exact exists_readResponse_of_ended law hw hn _ le_rfl
    | succ n ih =>
      rw [Function.iterate_succ_apply] at hn
      rcases hw.round law with hreturns | ⟨response', hw', -, hnext⟩
      · exact ⟨1, hreturns 0⟩
      · obtain ⟨fuel, r, hr⟩ := ih hw' hn
        exact ⟨fuel + 1, r, (hnext fuel).trans hr⟩

/-! ## The call -/

/-- Nothing was read yet, and nothing else was sent. -/
structure Fresh (B : Buffers S H) (h : H) (stack : S) : Prop where
  arrived : B.arrived stack h = B.waiting stack h
  queued : B.queued stack h = []
  capacity : B.capacity stack h = 16384

theorem Fresh.poll (law : N.Buffered B) (hw : Fresh B h w.stack) : Fresh B h (poll N w).stack := by
  obtain ⟨more, harrived, hwaiting, hsent, -⟩ := law.poll w.stack h (.fromMillis w.ticks.toInt64)
  refine ⟨?_, hsent.queued.trans hw.queued, hsent.capacity.trans hw.capacity⟩
  exact harrived.trans (by rw [hw.arrived, ← hwaiting]; rfl)

theorem Fresh.waitActive (law : N.Buffered B) (n : Nat) (hw : Fresh B h w.stack) :
    Fresh B h (waitActive N h n w).stack := by
  induction n generalizing w with
  | zero => exact hw
  | succ n ih =>
    unfold Tls.waitActive
    dsimp only
    split
    · exact hw.poll law
    · exact ih (hw.poll law)

theorem fresh_openSocket (law : N.Buffered B) {stack stack₁ : S} {ip : IpAddress} {r : Except Unit Unit}
    (hopen : openSocket N k stack ⟨ip, port⟩ = (k₁, h, stack₁, r)) : Fresh B h stack₁ := by
  simp only [openSocket, Prod.mk.injEq] at hopen
  obtain ⟨-, rfl, rfl, -⟩ := hopen
  obtain ⟨harrived, hwaiting, hqueued, hcap⟩ := law.add stack 4096 16384 _ _ rfl
  obtain ⟨harrived', hwaiting', hsent⟩ := law.connect _ _ _ _ _ _ rfl
  exact ⟨by rw [harrived', hwaiting', harrived, hwaiting], hsent.queued.trans hqueued,
    hsent.capacity.trans hcap⟩

/-- The request is on its way, up to the size of the transmit buffer. -/
theorem reading_whole (law : N.Buffered B) (hr : reading N k host port request = some (k₁, h, w)) :
    Whole N B h w [] ∧ B.queued w.stack h = request.take 16384 := by
  unfold reading at hr
  split at hr
  · cases hr
  split at hr
  · cases hr
  split at hr
  · cases hr
  next k₂ h₂ stack₂ _ hopen =>
  dsimp only at hr
  split at hr
  · split at hr
    · cases hr
    · next hsend =>
      cases hr
      have hfresh := (fresh_openSocket law hopen).waitActive law 100000 (w := ⟨stack₂, k₁.pollTicks⟩)
      obtain ⟨hqueued, harrived, hwaiting, hstate⟩ := law.sendSlice _ _ _ _ _ hsend hfresh.queued
      have hopened := (law.sendSlice_ok_iff _ _ _).1 ⟨_, _, hsend⟩
      refine ⟨⟨?_, ?_⟩, by rw [hqueued, hfresh.capacity]⟩
      · dsimp only
        rw [harrived, hwaiting, hfresh.arrived, List.nil_append]
      · dsimp only
        rw [hstate]
        simp only [List.mem_cons, List.not_mem_nil, or_false] at hopened
        rcases hopened with he | he <;> simp [he, TcpState.Receiving, TcpState.Ended]
  · cases hr

/-- A call hands over its request or fails. If it hands it over, the request is sent up to the size of the
transmit buffer; the call returns iff the peer ends the connection at some round, and then with all that it
has sent. -/
theorem response_exact (law : N.Buffered B) (k : Tls S) (host : Str) (port : UInt16) (request : List UInt8) :
    (reading N k host port request = none → ∃ k' e, ∀ fuel,
      (httpsRequest N k fuel host port request).result = some (k', .error e)) ∧
    ∀ k₁ h w, reading N k host port request = some (k₁, h, w) →
      B.queued w.stack h = request.take 16384 ∧
      (∀ fuel k' r, (httpsRequest N k fuel host port request).result = some (k', r) → ∃ w' response,
        k' = release N k₁ h w' ∧ r = .ok response ∧ Done N B h w' response ∧
          B.SameSent h w.stack w'.stack) ∧
      ((∃ fuel, (httpsRequest N k fuel host port request).result.isSome) ↔
        ∃ n, (N.state ((round N h)^[n] w).stack h).Ended) := by
  refine ⟨httpsRequest_of_not_reading, fun k₁ h w hr => ?_⟩
  obtain ⟨hwhole, hqueued⟩ := reading_whole law hr
  refine ⟨hqueued, fun fuel k' r hresult => ?_, ?_⟩
  · rw [httpsRequest_of_reading hr] at hresult
    obtain ⟨⟨w', response⟩, hread, he⟩ := Option.map_eq_some_iff.1 hresult
    cases he
    obtain ⟨hdone, hsent, -⟩ := hwhole.readResponse law hread
    exact ⟨w', response, rfl, rfl, hdone, hsent⟩
  · rw [← exists_readResponse_iff law hwhole]
    refine exists_congr fun fuel => ?_
    rw [httpsRequest_of_reading hr, Option.isSome_map, Option.isSome_iff_exists]

/-! ## A peer that sends some chunks -/

structure Fed where
  socket : TcpState
  chunks : List (List UInt8)
  arrived : List UInt8
  waiting : List UInt8
  queued : List UInt8
  capacity : Nat

/-- A stack with one socket: the handshake takes one poll, each further poll brings one chunk, and then the
peer closes. -/
def fed : TcpStack Fed Unit where
  add s _ tx := ({ s with socket := .closed, arrived := [], waiting := [], queued := [], capacity := tx }, ())
  connect s _ _ _ := ({ s with socket := .synSent }, .ok ())
  poll s _ :=
    match s.socket, s.chunks with
    | .synSent, _ => { s with socket := .established }
    | .established, [] => { s with socket := .closeWait }
    | .established, chunk :: chunks =>
      { s with chunks, arrived := s.arrived ++ chunk, waiting := s.waiting ++ chunk }
    | _, _ => s
  state s _ := s.socket
  isActive s _ := s.socket ∉ [.closed, .timeWait, .listen]
  sendSlice s _ data :=
    if s.socket ∈ [.established, .closeWait] then
      let taken := data.take (s.capacity - s.queued.length)
      ({ s with queued := s.queued ++ taken }, .ok taken.length)
    else (s, .error ())
  recvSlice s _ n :=
    if s.socket.Receiving ∨ s.waiting ≠ [] then ({ s with waiting := s.waiting.drop n }, .ok (s.waiting.take n))
    else (s, .error ())
  mayRecv s _ := s.socket.Receiving ∨ s.waiting ≠ []
  remove s _ := { s with socket := .closed }

def fedBuffers : Buffers Fed Unit where
  arrived s _ := s.arrived
  waiting s _ := s.waiting
  queued s _ := s.queued
  capacity s _ := s.capacity

theorem fed_buffered : fed.Buffered fedBuffers where
  connect_synSent := by
    intro s h e p s' hc
    cases hc
    rfl
  isActive_iff s h := decide_eq_true_iff
  sendSlice_ok_iff s h data := by
    simp only [fed]
    split <;> simp_all
  add := by
    intro s rx tx s' h hadd
    cases hadd
    exact ⟨rfl, rfl, rfl, rfl⟩
  connect := by
    intro s h e p s' r hc
    cases hc
    exact ⟨rfl, rfl, rfl, rfl⟩
  poll := by
    rintro ⟨socket, chunks, arrived, waiting, queued, capacity⟩ h t
    cases socket with
    | established =>
      cases chunks with
      | nil => exact ⟨[], (List.append_nil _).symm, (List.append_nil _).symm, ⟨rfl, rfl⟩, fun _ => rfl⟩
      | cons chunk chunks => exact ⟨chunk, rfl, rfl, ⟨rfl, rfl⟩, by simp [fed, TcpState.Ended]⟩
    | _ => exact ⟨[], (List.append_nil _).symm, (List.append_nil _).symm, ⟨rfl, rfl⟩, fun _ => rfl⟩
  poll_state := by
    rintro ⟨socket, chunks, arrived, waiting, queued, capacity⟩ h t
    cases socket with
    | established => cases chunks <;> simp [fed, TcpState.Ended, TcpState.Receiving]
    | _ => simp [fed, TcpState.Ended, TcpState.Receiving]
  sendSlice := by
    intro s h data s' n hsend hq
    have hq : s.queued = [] := hq
    simp only [fed] at hsend
    split at hsend
    · cases hsend
      exact ⟨by simp [fedBuffers, hq], rfl, rfl, rfl⟩
    · cases hsend
  recvSlice := by
    intro s h n s' r hrecv
    simp only [fed] at hrecv
    split at hrecv
    · cases hrecv
      exact ⟨rfl, rfl, ⟨rfl, rfl⟩, rfl, rfl⟩
    · next hnot =>
      cases hrecv
      obtain ⟨hstate, hnil⟩ := not_or.1 hnot
      exact ⟨rfl, rfl, ⟨rfl, rfl⟩, hstate, not_not.1 hnil, not_not.1 hnil⟩
  mayRecv_iff s h := decide_eq_true_iff

/-- `GET`, answered in two chunks. -/
theorem response_exact_fed : ∃ k₁ w, reading fed ⟨some ⟨.closed, [[72, 84], [84, 80]], [], [], [], 0⟩, 0, 0⟩
      "auth.docker.io".toList 443 [71, 69, 84] = some (k₁, (), w) ∧
    fedBuffers.queued w.stack () = [71, 69, 84] ∧
    ∃ fuel, (httpsRequest fed ⟨some ⟨.closed, [[72, 84], [84, 80]], [], [], [], 0⟩, 0, 0⟩ fuel
      "auth.docker.io".toList 443 [71, 69, 84]).result.isSome := by
  refine ⟨_, _, rfl, ?_⟩
  obtain ⟨hqueued, -, hreturns⟩ := (response_exact fed_buffered
    ⟨some ⟨.closed, [[72, 84], [84, 80]], [], [], [], 0⟩, 0, 0⟩ "auth.docker.io".toList 443 [71, 69, 84]).2
      _ _ _ rfl
  exact ⟨hqueued, hreturns.2 ⟨3, by decide⟩⟩

end Tls

end OciKernel
