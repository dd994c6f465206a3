import OciKernel.Net.ListenerRun

/-!
# Net.ListenerSetup

Repeated calls of `setup_http_listener`. Each call stores its port in `HTTP_PORT` and adds a socket of
its own; only `HTTP_HANDLE` is written once. The stack stays a parameter; `ListenStack` adds what it
shows of its socket set, and `Lawful` what it documents about the calls that the server makes.

* `listens_setup`: a call adds one listening socket, unless its port is `0`, which the stack refuses.
* `Bound.step`: the server never leaves the port that is in `HTTP_PORT`.
* `idempotent_iff`: the calls after the first change nothing iff there is none, or all ports are `0`.
-/

namespace OciKernel

open Transition

/-- A stack that shows its sockets. -/
structure ListenStack (S H : Type) extends ServedStack S H where
  sockets : S → List H
  /-- The port of the socket's listen endpoint; `none` is the unspecified endpoint. -/
  listenPort : S → H → Option UInt16

namespace ListenStack

variable {S H : Type} (N : ListenStack S H)

/-- The socket is in the set and listens on the port. -/
def ListensOn (s : S) (h : H) (port : UInt16) : Prop :=
  h ∈ N.sockets s ∧ N.state s h = .listen ∧ N.listenPort s h = some port

/-- The sockets are those before, and the listen endpoint of each is as before or cleared. -/
def Keeps (s s' : S) : Prop :=
  N.sockets s' = N.sockets s ∧
    ∀ h, N.listenPort s' h = N.listenPort s h ∨ N.listenPort s' h = none

/-- What setting up and serving a listener rely on. -/
structure Lawful : Prop where
  add_fresh : ∀ s rx tx, (N.add s rx tx).2 ∉ N.sockets s
  add_sockets : ∀ s rx tx h,
    h ∈ N.sockets (N.add s rx tx).1 ↔ h ∈ N.sockets s ∨ h = (N.add s rx tx).2
  add_new : ∀ s rx tx, N.state (N.add s rx tx).1 (N.add s rx tx).2 = .closed ∧
    N.listenPort (N.add s rx tx).1 (N.add s rx tx).2 = none
  add_old : ∀ s rx tx, ∀ h ∈ N.sockets s, N.state (N.add s rx tx).1 h = N.state s h ∧
    N.listenPort (N.add s rx tx).1 h = N.listenPort s h
  /-- Port `0` is refused, and nothing changes. -/
  listen_zero : ∀ s h, (N.listen s h 0).1 = s
  listen_closed : ∀ s port, ∀ h ∈ N.sockets s, port ≠ 0 → N.state s h ∈ [.closed, .timeWait] →
    N.state (N.listen s h port).1 h = .listen ∧ N.listenPort (N.listen s h port).1 h = some port
  listen_sockets : ∀ s h port, N.sockets (N.listen s h port).1 = N.sockets s
  listen_others : ∀ s h port i, i ≠ h → N.state (N.listen s h port).1 i = N.state s i ∧
    N.listenPort (N.listen s h port).1 i = N.listenPort s i
  /-- A refused call leaves the endpoint. -/
  listen_port : ∀ s h port, N.listenPort (N.listen s h port).1 h = N.listenPort s h ∨
    N.listenPort (N.listen s h port).1 h = some port
  deliver_keeps : ∀ s h seg, N.Keeps s (N.deliver s h seg)
  poll_keeps : ∀ s t, N.Keeps s (N.poll s t)
  recv_keeps : ∀ s h, N.Keeps s (N.recv s h).1
  sendSlice_keeps : ∀ s h data, N.Keeps s (N.sendSlice s h data).1
  close_keeps : ∀ s h, N.Keeps s (N.close s h)

variable {N} {s s' s'' : S} {h : H} {p q : UInt16}

theorem Keeps.refl (N : ListenStack S H) (s : S) : N.Keeps s s := ⟨rfl, fun _ => .inl rfl⟩

theorem Keeps.trans (h₁ : N.Keeps s s') (h₂ : N.Keeps s' s'') : N.Keeps s s'' := by
  refine ⟨h₂.1.trans h₁.1, fun h => ?_⟩
  rcases h₂.2 h with he | he
  · rw [he]
    exact h₁.2 h
  · exact .inr he

end ListenStack

/-! ## Repeated calls -/

section Setup

variable {S H : Type} (N : ListenStack S H)

/-- The module after `init` and one call of `setup_http_listener` for each port. -/
def afterCalls (stack : S) (ports : List UInt16) : NetMod S H :=
  ports.foldl (fun g port => g.setupHttpListener N.toHttpStack port) (NetMod.init stack)

/-- The socket that the first call adds. -/
def firstHandle (stack : S) : H := (N.add stack 1536 1536).2

def Listens (g : NetMod S H) (h : H) (port : UInt16) : Prop :=
  ∃ s, g.network = some s ∧ N.ListensOn s h port

/-- `HTTP_HANDLE`, `HTTP_PORT` and the set of listening sockets are the same. -/
structure SameListener (g g' : NetMod S H) : Prop where
  handle : g'.httpHandle = g.httpHandle
  port : g'.httpPort = g.httpPort
  listening : ∀ h port, Listens N g' h port ↔ Listens N g h port

/-- When `serve_http_once` finds the active socket `h` closed it listens on `port` again, and no other
port is listened on. -/
structure ArmedOn (h : H) (port : UInt16) (g : NetMod S H) : Prop where
  active : g.httpHandle = some h
  rearms : ∀ s, g.network = some s →
    N.state (N.poll s (.fromMillis g.netTicks.toInt64)) h ∈ [.closed, .timeWait] →
    (g.serveHttpOnce N.toHttpStack).network = some (N.listen (N.poll s (.fromMillis g.netTicks.toInt64)) h port).1
  only : ∀ i q, Listens N g i q → q = port

/-- The calls for the ports `ps` after that for `p` change nothing, and whatever the peer and the
server do from there, the active socket stays on `p`. -/
structure Idempotent (stack : S) (p : UInt16) (ps : List UInt16) : Prop where
  same : SameListener N (afterCalls N stack [p]) (afterCalls N stack (p :: ps))
  armed : ∀ es : List ServerEvent, ArmedOn N (firstHandle N stack) p
    (es.foldl (ServerEvent.step N.toServedStack (firstHandle N stack)) (afterCalls N stack (p :: ps)))

end Setup

section Calls

variable {S H : Type} {N : ListenStack S H} {g : NetMod S H} {s stack : S} {h : H} {p q : UInt16}
  {ps : List UInt16}

theorem setupHttpListener_eq (hn : g.network = some s) (q : UInt16) :
    g.setupHttpListener N.toHttpStack q =
      { g with
        httpPort := q
        network := some (N.listen (N.add s 1536 1536).1 (N.add s 1536 1536).2 q).1
        httpHandle := g.httpHandle.or (some (N.add s 1536 1536).2) } := by
  rw [NetMod.setupHttpListener]
  simp only [hn, NetMod.setupTcpListener]

/-- A new socket does not listen, and the others are as before. -/
theorem listensOn_add (law : N.Lawful) (s : S) (rx tx : Nat) :
    N.ListensOn (N.add s rx tx).1 h p ↔ N.ListensOn s h p := by
  unfold ListenStack.ListensOn
  rw [law.add_sockets]
  constructor
  · rintro ⟨hm | rfl, hst, hp⟩
    · obtain ⟨hs, hport⟩ := law.add_old s rx tx h hm
      exact ⟨hm, hs ▸ hst, hport ▸ hp⟩
    · rw [(law.add_new s rx tx).1] at hst
      cases hst
  · rintro ⟨hm, hst, hp⟩
    obtain ⟨hs, hport⟩ := law.add_old s rx tx h hm
    exact ⟨.inl hm, hs.trans hst, hport.trans hp⟩

/-- A closed socket that is told to listen does, unless on port `0`. -/
theorem listensOn_listen (law : N.Lawful) {f : H} (hf : f ∈ N.sockets s)
    (hst : N.state s f = .closed) :
    N.ListensOn (N.listen s f q).1 h p ↔ N.ListensOn s h p ∨ q ≠ 0 ∧ h = f ∧ p = q := by
  by_cases hq : q = 0
  · subst hq
    rw [law.listen_zero]
    simp
  · unfold ListenStack.ListensOn
    rw [law.listen_sockets]
    obtain ⟨hlisten, hport⟩ := law.listen_closed s q f hf hq (by simp [hst])
    by_cases hh : h = f
    · subst hh
      simp [hf, hst, hlisten, hport, hq, eq_comm]
    · obtain ⟨hs, hp⟩ := law.listen_others s f q h hh
      simp [hs, hp, hh]

theorem listens_setup (law : N.Lawful) (hn : g.network = some s) (q : UInt16) :
    Listens N (g.setupHttpListener N.toHttpStack q) h p ↔
      Listens N g h p ∨ q ≠ 0 ∧ h = (N.add s 1536 1536).2 ∧ p = q := by
  have hmem : (N.add s 1536 1536).2 ∈ N.sockets (N.add s 1536 1536).1 :=
    (law.add_sockets ..).2 (.inr rfl)
  have hiff := listensOn_listen (h := h) (p := p) (q := q) law hmem (law.add_new ..).1
  rw [listensOn_add law] at hiff
  rw [setupHttpListener_eq hn]
  simpa [Listens, hn] using hiff

theorem setup_network (hn : g.network.isSome) (q : UInt16) :
    (g.setupHttpListener N.toHttpStack q).network.isSome := by
  obtain ⟨s, hn⟩ := Option.isSome_iff_exists.1 hn
  rw [setupHttpListener_eq hn]
  rfl

theorem afterCalls_append (stack : S) (as bs : List UInt16) : afterCalls N stack (as ++ bs) =
    bs.foldl (fun g port => g.setupHttpListener N.toHttpStack port) (afterCalls N stack as) :=
  List.foldl_append ..

theorem afterCalls_network (stack : S) (ports : List UInt16) :
    (afterCalls N stack ports).network.isSome := by
  induction ports using List.reverseRecOn with
  | nil => rfl
  | append_singleton ports q ih =>
    rw [afterCalls_append]
    exact setup_network ih q

/-- A socket that listens goes on listening through later calls. -/
theorem listens_append (law : N.Lawful) (as bs : List UInt16)
    (hl : Listens N (afterCalls N stack as) h p) : Listens N (afterCalls N stack (as ++ bs)) h p := by
  induction bs using List.reverseRecOn with
  | nil => rwa [List.append_nil]
  | append_singleton bs q ih =>
    obtain ⟨s, hn⟩ := Option.isSome_iff_exists.1 (afterCalls_network (N := N) stack (as ++ bs))
    rw [← List.append_assoc, afterCalls_append]
    exact (listens_setup law hn q).2 (.inl ih)

theorem httpPort_append (stack : S) (as : List UInt16) (q : UInt16) :
    (afterCalls N stack (as ++ [q])).httpPort = q := by
  obtain ⟨s, hn⟩ := Option.isSome_iff_exists.1 (afterCalls_network (N := N) stack as)
  rw [afterCalls_append, List.foldl_cons, List.foldl_nil, setupHttpListener_eq hn]

/-- A later call on a port other than `0` leaves a listening socket that was not there. -/
theorem SameListener.eq_zero (law : N.Lawful)
    (hs : SameListener N (afterCalls N stack [p]) (afterCalls N stack (p :: ps))) :
    ∀ q ∈ ps, q = 0 := by
  intro q hq
  by_contra hne
  obtain ⟨as, bs, rfl⟩ := List.append_of_mem hq
  obtain ⟨s, hn⟩ := Option.isSome_iff_exists.1 (afterCalls_network (N := N) stack (p :: as))
  have hnew : Listens N (afterCalls N stack ((p :: as) ++ [q])) (N.add s 1536 1536).2 q := by
    rw [afterCalls_append]
    exact (listens_setup law hn q).2 (.inr ⟨hne, rfl, rfl⟩)
  have hall := listens_append law _ bs hnew
  rw [List.append_assoc, List.singleton_append, List.cons_append, hs.listening] at hall
  obtain ⟨s', hn', hm, _⟩ := listens_append law [p] as hall
  obtain rfl : s = s' := Option.some.inj (hn.symm.trans hn')
  exact law.add_fresh s 1536 1536 hm

theorem SameListener.port_eq_zero (hs : SameListener N (afterCalls N stack [p])
    (afterCalls N stack (p :: ps))) (hz : ∀ q ∈ ps, q = 0) (hne : ps ≠ []) : p = 0 := by
  have hlast := httpPort_append (N := N) stack (p :: ps.dropLast) (ps.getLast hne)
  rw [List.cons_append, List.dropLast_append_getLast hne, hs.port,
    hz _ (List.getLast_mem hne)] at hlast
  exact (httpPort_append (N := N) stack [] p).symm.trans hlast

/-- Calls on port `0` change nothing once `HTTP_PORT` is `0`. -/
theorem sameListener_zero (law : N.Lawful) (stack : S) (hz : ∀ q ∈ ps, q = 0) :
    SameListener N (afterCalls N stack [0]) (afterCalls N stack (0 :: ps)) := by
  induction ps using List.reverseRecOn with
  | nil => exact ⟨rfl, rfl, fun _ _ => .rfl⟩
  | append_singleton ps q ih =>
    obtain rfl : q = 0 := hz q (by simp)
    have hsame := ih fun q hq => hz q (List.mem_append_left _ hq)
    obtain ⟨s, hn⟩ := Option.isSome_iff_exists.1 (afterCalls_network (N := N) stack (0 :: ps))
    rw [← List.cons_append, afterCalls_append, List.foldl_cons, List.foldl_nil]
    have hhandle : (afterCalls N stack (0 :: ps)).httpHandle = some (firstHandle N stack) :=
      hsame.handle
    refine ⟨?_, ?_, fun h port => ?_⟩
    · rw [setupHttpListener_eq hn]
      simp only [hhandle, Option.some_or]
      rfl
    · rw [setupHttpListener_eq hn]
      rfl
    · rw [listens_setup law hn, hsame.listening]
      simp

end Calls

/-! ## Serving -/

section Serving

variable {S H : Type} {N : ListenStack S H} {g : NetMod S H} {s s' stack : S} {h : H} {p q : UInt16}
  {ps : List UInt16}

/-- No socket of the set has an endpoint on another port than `p`. -/
def Confined (N : ListenStack S H) (p : UInt16) (s : S) : Prop :=
  ∀ h ∈ N.sockets s, ∀ q, N.listenPort s h = some q → q = p

theorem Confined.keeps (hc : Confined N p s) (hk : N.Keeps s s') : Confined N p s' := by
  intro h hm q hq
  rw [hk.1] at hm
  rcases hk.2 h with he | he
  · exact hc h hm q (he ▸ hq)
  · rw [he] at hq
    cases hq

theorem Confined.listen (law : N.Lawful) (hc : Confined N p s) (h : H) :
    Confined N p (N.listen s h p).1 := by
  intro i hm q hq
  rw [law.listen_sockets] at hm
  by_cases hi : i = h
  · subst hi
    rcases law.listen_port s i p with he | he
    · exact hc i hm q (he ▸ hq)
    · rw [he] at hq
      exact (Option.some.inj hq).symm
  · rw [(law.listen_others s h p i hi).2] at hq
    exact hc i hm q hq

theorem Confined.add (law : N.Lawful) (hc : Confined N p s) (rx tx : Nat) :
    Confined N p (N.add s rx tx).1 := by
  intro h hm q hq
  rcases (law.add_sockets s rx tx h).1 hm with hm | rfl
  · rw [(law.add_old s rx tx h hm).2] at hq
    exact hc h hm q hq
  · rw [(law.add_new s rx tx).2] at hq
    cases hq

theorem drain_keeps (law : N.Lawful) (n : Nat) (s : S) :
    N.Keeps s (NetMod.drain N.toHttpStack h n s) := by
  induction n generalizing s with
  | zero => exact .refl N s
  | succ n ih =>
    have hrecv := law.recv_keeps s h
    unfold NetMod.drain
    split
    · rename_i he
      rw [he] at hrecv
      exact hrecv
    · rename_i he
      rw [he] at hrecv
      exact hrecv
    · rename_i he
      rw [he] at hrecv
      split
      · exact hrecv
      · exact hrecv.trans (ih _)

/-- The module serves the socket `h` on the port `p` and no other. -/
structure Bound (N : ListenStack S H) (h : H) (p : UInt16) (g : NetMod S H) : Prop where
  active : g.httpHandle = some h
  port : g.httpPort = p
  unlocked : g.locked = false
  network : ∃ s, g.network = some s ∧ Confined N p s

theorem serveSocket_bound (law : N.Lawful) (hh : g.httpHandle = some h) (hp : g.httpPort = p)
    (hl : g.locked = false) (hc : Confined N p s) :
    Bound N h p (NetMod.serveSocket N.toHttpStack g h s) := by
  subst hp
  unfold NetMod.serveSocket
  split
  · exact ⟨hh, rfl, hl, _, rfl, hc.listen law h⟩
  · exact ⟨hh, rfl, hl, _, rfl, hc.listen law h⟩
  · have hdrain := hc.keeps (drain_keeps (h := h) law (N.recvQueue s h + 1) s)
    split
    · split
      · dsimp only
        split
        · exact ⟨hh, rfl, hl, _, rfl,
            (hdrain.keeps (law.sendSlice_keeps ..)).keeps (law.close_keeps ..)⟩
        · exact ⟨hh, rfl, hl, _, rfl, hdrain⟩
      · exact ⟨hh, rfl, hl, s, rfl, hc⟩
    · exact ⟨hh, rfl, hl, s, rfl, hc⟩
  · exact ⟨hh, rfl, hl, s, rfl, hc⟩

theorem serveSocket_listen (hp : g.httpPort = p) (hst : N.state s h ∈ [.closed, .timeWait]) :
    (NetMod.serveSocket N.toHttpStack g h s).network = some (N.listen s h p).1 := by
  subst hp
  simp only [List.mem_cons, List.not_mem_nil, or_false] at hst
  rw [NetMod.serveSocket]
  rcases hst with hst | hst
  · rw [hst]
  · rw [hst]

theorem Bound.step (law : N.Lawful) (hb : Bound N h p g) (e : ServerEvent) :
    Bound N h p (ServerEvent.step N.toServedStack h g e) := by
  obtain ⟨s, hn, hc⟩ := hb.network
  cases e with
  | peer seg =>
    refine ⟨hb.active, hb.port, hb.unlocked, N.deliver s h seg, ?_, hc.keeps (law.deliver_keeps ..)⟩
    rw [ServerEvent.step, hn]
    rfl
  | serveHttpOnce =>
    rw [ServerEvent.step, NetMod.serveHttpOnce, hn, hb.active]
    dsimp only
    rw [hb.unlocked]
    exact serveSocket_bound (g := (NetMod.tick N.toHttpStack g s).1) law hb.active hb.port
      hb.unlocked (hc.keeps (law.poll_keeps ..))
  | poll =>
    rw [ServerEvent.step, NetMod.poll, hn]
    dsimp only
    rw [hb.unlocked]
    exact ⟨hb.active, hb.port, hb.unlocked, _, rfl, hc.keeps (law.poll_keeps ..)⟩

theorem Bound.run (law : N.Lawful) (hb : Bound N h p g) (es : List ServerEvent) :
    Bound N h p (es.foldl (ServerEvent.step N.toServedStack h) g) := by
  induction es generalizing g with
  | nil => exact hb
  | cons e es ih => exact ih (hb.step law e)

theorem Bound.armedOn (hb : Bound N h p g) : ArmedOn N h p g := by
  obtain ⟨s, hn, hc⟩ := hb.network
  refine ⟨hb.active, fun s' hn' hst => ?_, fun i q => ?_⟩
  · rw [NetMod.serveHttpOnce, hn', hb.active]
    dsimp only
    rw [hb.unlocked]
    exact serveSocket_listen (g := (NetMod.tick N.toHttpStack g s').1) hb.port hst
  · rintro ⟨s', hn', hm, _, hq⟩
    obtain rfl : s = s' := Option.some.inj (hn.symm.trans hn')
    exact hc i hm q hq

/-- A call on the port that the module is bound to leaves it so. -/
theorem Bound.setup (law : N.Lawful) (hb : Bound N h p g) :
    Bound N h p (g.setupHttpListener N.toHttpStack p) := by
  obtain ⟨s, hn, hc⟩ := hb.network
  rw [setupHttpListener_eq hn, hb.active]
  exact ⟨rfl, rfl, hb.unlocked, _, rfl, (hc.add law 1536 1536).listen law _⟩

theorem bound_first (law : N.Lawful) (hempty : N.sockets stack = []) (p : UInt16) :
    Bound N (firstHandle N stack) p (afterCalls N stack [p]) := by
  have hc : Confined N p stack := by
    intro h hm
    rw [hempty] at hm
    cases hm
  exact ⟨rfl, rfl, rfl, _, rfl, (hc.add law 1536 1536).listen law _⟩

theorem bound_calls (law : N.Lawful) (hempty : N.sockets stack = []) (hps : ∀ q ∈ ps, q = p) :
    Bound N (firstHandle N stack) p (afterCalls N stack (p :: ps)) := by
  induction ps using List.reverseRecOn with
  | nil => exact bound_first law hempty p
  | append_singleton ps q ih =>
    obtain rfl : q = p := hps q (by simp)
    rw [← List.cons_append, afterCalls_append]
    exact (ih fun r hr => hps r (List.mem_append_left _ hr)).setup law

/-- From a stack without sockets, the calls after the first change nothing, now or later, iff there is
none or every port is `0`. -/
theorem idempotent_iff (law : N.Lawful) (hempty : N.sockets stack = []) (p : UInt16)
    (ps : List UInt16) : Idempotent N stack p ps ↔ ps = [] ∨ p = 0 ∧ ∀ q ∈ ps, q = 0 := by
  constructor
  · intro hid
    have hz := hid.same.eq_zero law
    by_cases hne : ps = []
    · exact .inl hne
    · exact .inr ⟨hid.same.port_eq_zero hz hne, hz⟩
  · rintro (rfl | ⟨rfl, hz⟩)
    · exact ⟨⟨rfl, rfl, fun _ _ => .rfl⟩, fun es => ((bound_first law hempty p).run law es).armedOn⟩
    · exact ⟨sameListener_zero law stack hz, fun es => ((bound_calls law hempty hz).run law es).armedOn⟩

end Serving

/-! ## A set of sockets -/

/-- Sockets with the ports of their endpoints; the handle is the position. -/
abbrev SocketSet := List (Socket × Option UInt16)

namespace SocketSet

def socket (s : SocketSet) (h : Nat) : Socket := (s[h]?.map Prod.fst).getD .new

def port (s : SocketSet) (h : Nat) : Option UInt16 := s[h]?.bind Prod.snd

/-- `f` on one socket. -/
def on (f : Socket → Socket) (s : SocketSet) (h : Nat) : SocketSet := s.modify h fun x => (f x.1, x.2)

def stack : ListenStack SocketSet Nat where
  add s _ _ := (s ++ [(.new, none)], s.length)
  connect s h e p := (s.modify h fun x => ((Socket.stack.connect x.1 () e p).1, none), .ok ())
  poll s t := s.map fun x => (Socket.stack.poll x.1 t, x.2)
  state s h := (socket s h).state
  isActive s h := Socket.stack.isActive (socket s h) ()
  sendSlice s h data := (on (fun x => (Socket.stack.sendSlice x () data).1) s h,
    (Socket.stack.sendSlice (socket s h) () data).2)
  recvSlice s h n := (on (fun x => (Socket.stack.recvSlice x () n).1) s h,
    (Socket.stack.recvSlice (socket s h) () n).2)
  mayRecv s h := Socket.stack.mayRecv (socket s h) ()
  remove s h := on (fun x => Socket.stack.remove x ()) s h
  listen s h p :=
    if p = 0 then (s, .error ())
    else if (socket s h).state ∈ [.closed, .timeWait] then
      (s.modify h fun x => ((Socket.stack.listen x.1 () p).1, some p), .ok ())
    else if (socket s h).state = .listen ∧ port s h = some p then (s, .ok ())
    else (s, .error ())
  canRecv s h := Socket.stack.canRecv (socket s h) ()
  recv s h := (on (fun x => (Socket.stack.recv x ()).1) s h, (Socket.stack.recv (socket s h) ()).2)
  recvQueue s h := Socket.stack.recvQueue (socket s h) ()
  canSend s h := Socket.stack.canSend (socket s h) ()
  close s h := on (fun x => Socket.stack.close x ()) s h
  deliver s h seg := on (fun x => Socket.stack.deliver x () seg) s h
  arrived s h := Socket.stack.arrived (socket s h) ()
  sockets s := List.range s.length
  listenPort := port

theorem keeps_on (f : Socket → Socket) (s : SocketSet) (h : Nat) : stack.Keeps s (on f s h) := by
  refine ⟨by simp [stack, on], fun i => .inl ?_⟩
  simp only [stack, port, on, List.getElem?_modify]
  cases s[i]? with
  | none => rfl
  | some x => by_cases hi : h = i <;> simp [hi]

theorem keeps_poll (s : SocketSet) (t : Instant) : stack.Keeps s (stack.poll s t) := by
  refine ⟨by simp [stack], fun i => .inl ?_⟩
  simp only [stack, port, List.getElem?_map]
  cases s[i]? <;> rfl

/-- The set after a call of `listen` that is not refused. -/
def listening (s : SocketSet) (h : Nat) (p : UInt16) : SocketSet :=
  s.modify h fun x => ((Socket.stack.listen x.1 () p).1, some p)

theorem listen_eq (s : SocketSet) (h : Nat) (p : UInt16) :
    (stack.listen s h p).1 = s ∨ (stack.listen s h p).1 = listening s h p := by
  simp only [stack, listening]
  split
  · exact .inl rfl
  · split
    · exact .inr rfl
    · split <;> exact .inl rfl

theorem stack_lawful : stack.Lawful where
  add_fresh s rx tx := by simp [stack]
  add_sockets s rx tx h := by
    simp only [stack, List.mem_range, List.length_append, List.length_singleton]
    omega
  add_new s rx tx := by simp [stack, socket, port, Socket.new]
  add_old s rx tx h hm := by
    have hlt : h < s.length := List.mem_range.1 hm
    simp [stack, socket, port, List.getElem?_append_left hlt]
  listen_zero s h := by simp [stack]
  listen_closed s p h hm hp hst := by
    have hlt : h < s.length := List.mem_range.1 hm
    have hst : (socket s h).state ∈ [.closed, .timeWait] := hst
    have hlisten : stack.listen s h p = (listening s h p, .ok ()) := by
      simp only [stack, hp, if_false, hst, if_true, listening]
    have hone : (Socket.stack.listen (socket s h) () p).1.state = .listen :=
      Socket.stack_lawful.listen_state (socket s h) () p hp hst
    have hs : socket s h = s[h].1 := by simp [socket, hlt]
    rw [hlisten]
    simp only [stack, listening, socket, port, List.getElem?_modify, List.getElem?_eq_getElem hlt]
    rw [hs] at hone
    exact ⟨by simpa using hone, by simp⟩
  listen_sockets s h p := by
    rcases listen_eq s h p with he | he <;> rw [he]
    simp [stack, listening]
  listen_others s h p i hi := by
    rcases listen_eq s h p with he | he <;> rw [he]
    · exact ⟨rfl, rfl⟩
    · simp [stack, listening, socket, port, Ne.symm hi]
  listen_port s h p := by
    rcases listen_eq s h p with he | he <;> rw [he]
    · exact .inl rfl
    · simp only [stack, listening, port, List.getElem?_modify]
      cases s[h]? with
      | none => exact .inl rfl
      | some x => exact .inr (by simp)
  deliver_keeps s h seg := keeps_on (fun x => Socket.stack.deliver x () seg) s h
  poll_keeps := keeps_poll
  recv_keeps s h := keeps_on (fun x => (Socket.stack.recv x ()).1) s h
  sendSlice_keeps s h data := keeps_on (fun x => (Socket.stack.sendSlice x () data).1) s h
  close_keeps s h := keeps_on (fun x => Socket.stack.close x ()) s h

/-- One call on port 80; a second one on the same port is a second listening socket. -/
theorem idempotent_once : Idempotent stack [] 80 [] ∧ ¬ Idempotent stack [] 80 [80] := by
  refine ⟨(idempotent_iff stack_lawful rfl 80 []).2 (.inl rfl), fun h => ?_⟩
  have := (idempotent_iff stack_lawful rfl 80 [80]).1 h
  simp at this

/-- A second call with port 8080 moves the port that the first socket is re-armed on, and adds a socket. -/
theorem not_idempotent : stack.Lawful ∧ ¬ Idempotent stack [] 80 [8080] := by
  refine ⟨stack_lawful, fun h => ?_⟩
  have hport : (8080 : UInt16) = 80 := h.same.port
  simp at hport

end SocketSet

end OciKernel
