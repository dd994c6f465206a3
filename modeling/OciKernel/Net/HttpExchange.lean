import OciKernel.Net.ListenerRun

/-!
# Net.HttpExchange

What the listener of `net/mod.rs` does on its socket in the runs of `ListenerRun`: a log of its calls is kept
beside the stack.

* `Rounds`: it listens, answers at most once, and listens again; `HTTP_RESPONDED` says where it stands.
* `serve_cases`: the three things a call can do.
* `exchange_exact`: every run is made of rounds, and a request is answered whenever one is there.
-/

namespace OciKernel

open Transition

inductive SocketCall (H : Type) where
  | listen (h : H) (port : UInt16)
  /-- With the state the socket was in. -/
  | send (h : H) (state : TcpState) (data : List UInt8)
  | close (h : H)

section Logging

variable {S H : Type}

/-- The stack `N`, with a log of the calls that start, answer or end a connection. -/
def ServedStack.logging (N : ServedStack S H) : ServedStack (S × List (SocketCall H)) H where
  add s rx tx := let r := N.add s.1 rx tx; ((r.1, s.2), r.2)
  connect s h e p := let r := N.connect s.1 h e p; ((r.1, s.2), r.2)
  poll s t := (N.poll s.1 t, s.2)
  state s h := N.state s.1 h
  isActive s h := N.isActive s.1 h
  sendSlice s h data := let r := N.sendSlice s.1 h data; ((r.1, s.2 ++ [.send h (N.state s.1 h) data]), r.2)
  recvSlice s h n := let r := N.recvSlice s.1 h n; ((r.1, s.2), r.2)
  mayRecv s h := N.mayRecv s.1 h
  remove s h := (N.remove s.1 h, s.2)
  listen s h port := let r := N.listen s.1 h port; ((r.1, s.2 ++ [.listen h port]), r.2)
  canRecv s h := N.canRecv s.1 h
  recv s h := let r := N.recv s.1 h; ((r.1, s.2), r.2)
  recvQueue s h := N.recvQueue s.1 h
  canSend s h := N.canSend s.1 h
  close s h := (N.close s.1 h, s.2 ++ [.close h])
  deliver s h seg := (N.deliver s.1 h seg, s.2)
  arrived s h := N.arrived s.1 h

/-- The response, and the end of this side. -/
def answer (h : H) : List (SocketCall H) := [.send h .established NetMod.httpResponse, .close h]

/-- Rounds of listening, each answered at most once; the last one has been answered or not. -/
inductive Rounds (h : H) (port : UInt16) : Bool → List (SocketCall H) → Prop
  | start : Rounds h port false [.listen h port]
  | again {responded : Bool} {log : List (SocketCall H)} :
      Rounds h port responded log → Rounds h port false (log ++ [.listen h port])
  | answered {log : List (SocketCall H)} :
      Rounds h port false log → Rounds h port true (log ++ answer h)

variable (N : ServedStack S H) (h : H)

/-- A poll has left a request on an established connection, with room for the response. -/
structure Asked (polled : S) : Prop where
  established : N.state polled h = .established
  request : N.canRecv polled h = true
  room : N.canSend (NetMod.drain N.toHttpStack h (N.recvQueue polled h + 1) polled) h = true

/-- The states that the end of this side leads to. -/
def Over (state : TcpState) : Prop := state ∈ [.finWait1, .finWait2, .closing, .timeWait, .closed]

theorem tcpNext_over {state : TcpState} (hst : Over state) (seg : Segment) : Over (tcpNext state seg) := by
  cases state <;> cases seg <;> simp_all [tcpNext, Over]

end Logging

section Calls

variable {S H : Type} {N : ServedStack S H} {h : H} {g : NetMod (S × List (SocketCall H)) H}
  {s : S} {log : List (SocketCall H)}

theorem drain_logging (n : Nat) (s : S) (log : List (SocketCall H)) :
    NetMod.drain N.logging.toHttpStack h n (s, log) = (NetMod.drain N.toHttpStack h n s, log) := by
  induction n generalizing s with
  | zero => rfl
  | succ n ih =>
    have hrecv : N.logging.recv (s, log) h = (((N.recv s h).1, log), (N.recv s h).2) := rfl
    unfold NetMod.drain
    rw [hrecv]
    cases N.recv s h with
    | mk s' r =>
      cases r with
      | error e => rfl
      | ok taken =>
        cases taken with
        | zero => rfl
        | succ taken =>
          change (if !N.canRecv s' h then (s', log) else NetMod.drain N.logging.toHttpStack h n (s', log)) =
            (if !N.canRecv s' h then s' else NetMod.drain N.toHttpStack h n s', log)
          rw [ih, Prod.mk.injEq]
          split
          · exact ⟨rfl, rfl⟩
          · exact ⟨rfl, rfl⟩

theorem logging_answer (hest : N.state s h = .established) :
    N.logging.close (N.logging.sendSlice (s, log) h NetMod.httpResponse).1 h =
      (N.close (N.sendSlice s h NetMod.httpResponse).1 h, log ++ answer h) := by
  have hlog : log ++ answer h =
      log ++ [.send h (N.state s h) NetMod.httpResponse] ++ [.close h] := by
    rw [hest, List.append_assoc]
    rfl
  rw [hlog]
  rfl

/-- What `serve_http_once` makes of the socket that its poll leaves: it arms it again, it answers, or it
leaves state, flag and log as they are. -/
theorem serveSocket_cases (law : N.Lawful) (hp : g.httpPort ≠ 0) (polled : S) (log : List (SocketCall H)) :
    (N.state polled h ∈ [.closed, .timeWait] ∧ ∃ s',
      NetMod.serveSocket N.logging.toHttpStack g h (polled, log) =
        { g with network := some (s', log ++ [.listen h g.httpPort]), httpResponded := false } ∧
      N.state s' h = .listen) ∨
    (Asked N h polled ∧ g.httpResponded = false ∧ ∃ s',
      NetMod.serveSocket N.logging.toHttpStack g h (polled, log) =
        { g with network := some (s', log ++ answer h), httpResponded := true } ∧
      N.state s' h = .finWait1) ∨
    (N.state polled h ∉ [.closed, .timeWait] ∧ (Asked N h polled → g.httpResponded = true) ∧ ∃ s',
      NetMod.serveSocket N.logging.toHttpStack g h (polled, log) = { g with network := some (s', log) } ∧
      N.state s' h = N.state polled h) := by
  have hstate : N.logging.state (polled, log) h = N.state polled h := rfl
  have hdrain := drain_state (h := h) law (N.recvQueue polled h + 1) polled
  unfold NetMod.serveSocket
  rw [hstate]
  split
  · next hst => exact .inl ⟨by simp [hst], _, rfl, law.listen_state _ _ _ hp (by simp [hst])⟩
  · next hst => exact .inl ⟨by simp [hst], _, rfl, law.listen_state _ _ _ hp (by simp [hst])⟩
  · next hst =>
    have hopen : N.state polled h ∉ [.closed, .timeWait] := by simp [hst]
    by_cases hresponded : g.httpResponded = true
    · rw [if_neg (by simp [hresponded])]
      exact .inr (.inr ⟨hopen, fun _ => hresponded, _, rfl, rfl⟩)
    · have hresponded : g.httpResponded = false := by simpa using hresponded
      rw [if_pos (by simp [hresponded])]
      split
      · next hrecv =>
        dsimp only
        rw [show N.logging.recvQueue (polled, log) h = N.recvQueue polled h from rfl, drain_logging]
        split
        · next hsend =>
          have hest := hdrain.trans hst
          refine .inr (.inl ⟨⟨hst, hrecv, hsend⟩, hresponded, _, congrArg (fun s =>
            { g with network := some s, httpResponded := true }) (logging_answer hest), ?_⟩)
          exact law.close_state _ _ ((law.sendSlice_state _ _ _).trans hest)
        · next hsend =>
          refine .inr (.inr ⟨hopen, fun hasked => absurd hasked.room hsend, _, rfl, hdrain⟩)
      · next hrecv =>
        exact .inr (.inr ⟨hopen, fun hasked => absurd hasked.request hrecv, _, rfl, rfl⟩)
  · next hnc hnt hne =>
    refine .inr (.inr ⟨?_, fun hasked => absurd hasked.established hne, _, rfl, rfl⟩)
    simp only [List.mem_cons, List.not_mem_nil, or_false, not_or]
    exact ⟨hnc, hnt⟩

/-- The state of a listener on `port` and the log of its calls. -/
structure Exchanging (N : ServedStack S H) (h : H) (port : UInt16) (g : NetMod (S × List (SocketCall H)) H)
    (s : S) (log : List (SocketCall H)) : Prop where
  serving : Serving h g (s, log)
  bound : g.httpPort = port
  rounds : Rounds h port g.httpResponded log
  ended : g.httpResponded = true → Over (N.state s h)
  server : N.state s h ∉ [.synSent, .lastAck]

theorem poll_server (law : N.Lawful) (hst : N.state s h ∉ [.synSent, .lastAck]) (t : Instant) :
    N.state (N.poll s t) h ∉ [.synSent, .lastAck] ∧ (Over (N.state s h) → Over (N.state (N.poll s t) h)) := by
  have hfold : ∀ (segs : List Segment) (state : TcpState), state ∉ [.synSent, .lastAck] →
      segs.foldl tcpNext state ∉ [.synSent, .lastAck] ∧ (Over state → Over (segs.foldl tcpNext state)) := by
    intro segs
    induction segs with
    | nil => exact fun state hst => ⟨hst, id⟩
    | cons seg segs ih =>
      intro state hst
      obtain ⟨hserver, hover⟩ := ih _ (tcpNext_notMem hst seg)
      exact ⟨hserver, fun h => hover (tcpNext_over h seg)⟩
  have hsyn : N.state s h ≠ .synSent := by
    rintro he
    exact hst (by simp [he])
  rcases law.poll_state s t h hsyn with he | ⟨-, he⟩
  · rw [he]
    exact hfold _ _ hst
  · rw [he]
    exact ⟨by decide, fun _ => by unfold Over; decide⟩

theorem serve_eq (hs : Serving h g (s, log)) : ServerEvent.step N.logging h g .serveHttpOnce =
    NetMod.serveSocket N.logging.toHttpStack { g with netTicks := g.netTicks + 1 } h
      (N.poll s (.fromMillis g.netTicks.toInt64), log) := by
  obtain ⟨network, locked, httpHandle, netTicks, httpPort, httpResponded⟩ := g
  obtain ⟨rfl, rfl, -, rfl⟩ := hs
  rfl

theorem poll_eq (hs : Serving h g (s, log)) : ServerEvent.step N.logging h g .poll =
    { g with netTicks := g.netTicks + 1, network := some (N.poll s (.fromMillis g.netTicks.toInt64), log) } := by
  obtain ⟨network, locked, httpHandle, netTicks, httpPort, httpResponded⟩ := g
  obtain ⟨rfl, rfl, -, rfl⟩ := hs
  rfl

variable {port : UInt16}

theorem Exchanging.serve (law : N.Lawful) (hx : Exchanging N h port g s log) :
    ∃ s' log', Exchanging N h port (ServerEvent.step N.logging h g .serveHttpOnce) s' log' ∧
      (log' = log ++ answer h ↔ Asked N h (N.poll s (.fromMillis g.netTicks.toInt64))) := by
  obtain ⟨hserver, hover⟩ := poll_server law hx.server (.fromMillis g.netTicks.toInt64)
  have hs := hx.serving
  rw [serve_eq hs]
  have hcases := serveSocket_cases (h := h) (g := { g with netTicks := g.netTicks + 1 }) law hs.port
    (N.poll s (.fromMillis g.netTicks.toInt64)) log
  rcases hcases with ⟨hdone, s', heq, hst⟩ | ⟨hasked, hresponded, s', heq, hst⟩ | ⟨hopen, hasked, s', heq, hst⟩
  · rw [heq]
    refine ⟨s', _, ⟨⟨rfl, hs.handle, hs.port, hs.unlocked⟩, hx.bound, ?_, nofun, ?_⟩, ?_⟩
    · exact hx.bound ▸ hx.rounds.again
    · rw [hst]
      decide
    · refine iff_of_false (fun he => ?_) fun hasked => ?_
      · have hlen := congrArg List.length he
        simp [answer] at hlen
      · simp [hasked.established] at hdone
  · rw [heq]
    refine ⟨s', _, ⟨⟨rfl, hs.handle, hs.port, hs.unlocked⟩, hx.bound, ?_, fun _ => ?_, ?_⟩, ?_⟩
    · have hrounds := hx.rounds
      rw [show g.httpResponded = false from hresponded] at hrounds
      exact hrounds.answered
    · rw [hst]
      unfold Over
      decide
    · rw [hst]
      decide
    · exact iff_of_true rfl hasked
  · rw [heq]
    refine ⟨s', log, ⟨⟨rfl, hs.handle, hs.port, hs.unlocked⟩, hx.bound, hx.rounds, fun hr => ?_, ?_⟩, ?_⟩
    · rw [hst]
      exact hover (hx.ended hr)
    · rwa [hst]
    · refine iff_of_false (fun he => ?_) fun h => ?_
      · have hlen := congrArg List.length he
        simp [answer] at hlen
      · -- an answered connection is over, and one that is over has no request to answer
        have hpolled := hover (hx.ended (hasked h))
        rw [h.established] at hpolled
        revert hpolled
        unfold Over
        decide

theorem Exchanging.step (law : N.Lawful) (hx : Exchanging N h port g s log) (e : ServerEvent) :
    ∃ s' log', Exchanging N h port (ServerEvent.step N.logging h g e) s' log' := by
  cases e with
  | peer seg =>
    refine ⟨N.deliver s h seg, log, hx.serving.peer (N := N.logging) seg, hx.bound, hx.rounds, fun hr => ?_, ?_⟩
    · rw [law.deliver_state]
      exact hx.ended hr
    · rw [law.deliver_state]
      exact hx.server
  | serveHttpOnce =>
    obtain ⟨s', log', hx', -⟩ := hx.serve law
    exact ⟨s', log', hx'⟩
  | poll =>
    have hs := hx.serving
    obtain ⟨hserver, hover⟩ := poll_server law hx.server (.fromMillis g.netTicks.toInt64)
    rw [poll_eq hs]
    exact ⟨_, log, ⟨rfl, hs.handle, hs.port, hs.unlocked⟩, hx.bound, hx.rounds,
      fun hr => hover (hx.ended hr), hserver⟩

/-- The log is made of rounds, an answered connection is over, and the next call answers exactly when it
finds a request. -/
def Exchanges (N : ServedStack S H) (h : H) (port : UInt16) (g : NetMod (S × List (SocketCall H)) H) : Prop :=
  ∃ s log, g.network = some (s, log) ∧ Rounds h port g.httpResponded log ∧
    (g.httpResponded = true → Over (N.state s h)) ∧
    ∃ s' log', (ServerEvent.step N.logging h g .serveHttpOnce).network = some (s', log') ∧
      (log' = log ++ answer h ↔ Asked N h (N.poll s (.fromMillis g.netTicks.toInt64)))

theorem Exchanging.exchanges (law : N.Lawful) (hx : Exchanging N h port g s log) : Exchanges N h port g := by
  obtain ⟨s', log', hx', hasked⟩ := hx.serve law
  exact ⟨s, log, hx.serving.network, hx.rounds, hx.ended, s', log', hx'.serving.network, hasked⟩

theorem Exchanging.run (law : N.Lawful) (hx : Exchanging N h port g s log) (es : List ServerEvent) :
    ∃ s' log', Exchanging N h port (es.foldl (ServerEvent.step N.logging h) g) s' log' := by
  induction es generalizing g s log with
  | nil => exact ⟨s, log, hx⟩
  | cons e es ih =>
    obtain ⟨s₁, log₁, hx₁⟩ := hx.step law e
    exact ih hx₁

theorem exchanging_listening (law : N.Lawful) (stack : S) (hport : port ≠ 0) :
    ∃ s, Exchanging N (N.add stack 1536 1536).2 port (listening N.logging (stack, []) port) s
      [.listen (N.add stack 1536 1536).2 port] := by
  have hclosed : N.state (N.add stack 1536 1536).1 (N.add stack 1536 1536).2 ∈ [.closed, .timeWait] := by
    rw [law.add_state]
    decide
  refine ⟨_, ⟨rfl, rfl, hport, rfl⟩, rfl, .start, nofun, ?_⟩
  rw [law.listen_state _ _ port hport hclosed]
  decide

/-- In a run of the server, whatever the peer sends and whenever, it sends nothing but one response in each
round, on an established connection and once; and no flag left from a connection before keeps a request
from being answered. -/
theorem exchange_exact (law : N.Lawful) (stack : S) (hport : port ≠ 0) (es : List ServerEvent) :
    Throughout (ServerEvent.step N.logging (N.add stack 1536 1536).2)
      (Exchanges N (N.add stack 1536 1536).2 port) (listening N.logging (stack, []) port) es := by
  intro pre _
  obtain ⟨s, hx⟩ := exchanging_listening law stack hport
  obtain ⟨s', log', hx'⟩ := hx.run law pre
  exact hx'.exchanges law

end Calls

/-- A client that connects, sends its request and closes, and then another. -/
theorem exchange_exact_request :
    Throughout (ServerEvent.step Socket.stack.logging ()) (Exchanges Socket.stack () 80)
      (listening Socket.stack.logging (.new, []) 80)
      [.peer .syn, .poll, .poll, .peer (.data [71, 69, 84]), .serveHttpOnce, .poll, .peer .fin,
        .serveHttpOnce, .peer .syn, .serveHttpOnce] :=
  exchange_exact Socket.stack_lawful .new (by decide) _

example : ([.peer .syn, .poll, .poll, .peer (.data [71, 69, 84]), .serveHttpOnce, .poll, .peer .fin,
    .serveHttpOnce, .peer .syn, .serveHttpOnce].foldl (ServerEvent.step Socket.stack.logging ())
      (listening Socket.stack.logging (.new, []) 80)).network.map Prod.snd =
    some ([.listen () 80] ++ answer () ++ [.listen () 80]) := rfl

end OciKernel
