import Mathlib.Data.List.Basic
import OciKernel.Net.Tls

/-!
# Net.LocalPorts

The local ports of a run of `https_request` calls, over any network stack.

* `log_httpsRequest`: what a call gives to `connect` is one port, or none when it fails before.
* `ports_eq`: the ports of a run as a function of the counter alone.
* `fresh_iff`: how long a run may get before a port is used again early.
-/

namespace OciKernel

open Text

/-- The stack with a log of the local ports that `connect` was called with. -/
def TcpStack.logged {S H : Type} (N : TcpStack S H) : TcpStack (S × List UInt16) H where
  add s rx tx := (((N.add s.1 rx tx).1, s.2), (N.add s.1 rx tx).2)
  connect s h endpoint localPort :=
    (((N.connect s.1 h endpoint localPort).1, s.2 ++ [localPort]), (N.connect s.1 h endpoint localPort).2)
  poll s t := (N.poll s.1 t, s.2)
  state s h := N.state s.1 h
  isActive s h := N.isActive s.1 h
  sendSlice s h data := (((N.sendSlice s.1 h data).1, s.2), (N.sendSlice s.1 h data).2)
  recvSlice s h n := (((N.recvSlice s.1 h n).1, s.2), (N.recvSlice s.1 h n).2)
  mayRecv s h := N.mayRecv s.1 h
  remove s h := (N.remove s.1 h, s.2)

namespace Tls

/-- A call with the globals it finds. -/
structure Call (S : Type) where
  before : Tls S
  host : Str
  port : UInt16
  request : List UInt8

/-- The call gets as far as the choice of a local port. -/
def Call.reaches {S : Type} (c : Call S) : Bool := c.before.network.isSome && (resolveHost c.host).isSome

variable {S H : Type} (N : TcpStack S H)

/-- The local ports that the call gives to `connect`. -/
def Call.connects (c : Call S) : List UInt16 :=
  match c.before.network, resolveHost c.host with
  | some stack, some ip =>
    (openSocket N.logged { c.before with network := none } (stack, []) ⟨ip, c.port⟩).2.2.1.2
  | _, _ => []

/-- Calls one after the other from a value of `NEXT_PORT` on. Between two calls the rest of the kernel
may change everything else, and the last one may not return. -/
inductive Calls : UInt16 → List (Call S) → Prop where
  | nil {nextPort : UInt16} : Calls nextPort []
  | last (c : Call S) : Calls c.before.nextPort [c]
  | cons (c : Call S) {fuel : Nat} {k : Tls S} {result : Except TlsConnectError (List UInt8)}
      {calls : List (Call S)} :
      (httpsRequest N c.before fuel c.host c.port c.request).result = some (k, result) →
      Calls k.nextPort calls → Calls c.before.nextPort (c :: calls)

/-- Of any 16384 consecutive ports no two are the same. -/
def NotReusedEarly (ports : List UInt16) : Prop :=
  ∀ i j, i < j → j < i + 16384 → j < ports.length → ports[i]? ≠ ports[j]?

def InRange (p : UInt16) : Prop := 49152 ≤ p.toNat ∧ p.toNat ≤ 65535

/-! ## One call -/

variable {N} {k' : Tls S} {fuel : Nat} {result : Except TlsConnectError (List UInt8)}

/-- The counter moves by one in the calls that reach it. -/
theorem nextPort_httpsRequest (c : Call S)
    (hr : (httpsRequest N c.before fuel c.host c.port c.request).result = some (k', result)) :
    k'.nextPort = c.before.nextPort + if c.reaches then 1 else 0 := by
  rcases httpsRequest_returns hr with
    ⟨hnone, rfl⟩ | ⟨stack, ip, hnet, hip, k₁, h, stack₁, connected, hopen, hleft⟩
  · have hreaches : c.reaches = false := by
      rcases hnone with hnone | hnone <;> simp [Call.reaches, hnone]
    simp [hreaches]
  · obtain ⟨w, -, rfl⟩ := hleft (fun _ => True) ⟨fun _ _ => trivial, fun _ _ => trivial, fun _ _ _ => trivial⟩
      trivial
    have hreaches : c.reaches = true := by simp [Call.reaches, hnet, hip]
    have hnext : (openSocket N c.before stack ⟨ip, c.port⟩).1.nextPort = c.before.nextPort + 1 := rfl
    rw [hopen] at hnext
    rw [hreaches]
    exact hnext

theorem keeps_log (h : H) (log : List UInt16) : Keeps N.logged h fun w => w.stack.2 = log :=
  ⟨fun _ hw => hw, fun _ hw => hw, fun _ _ hw => hw⟩

/-- A call that returns has given `connects` to `connect`, and nothing else. -/
theorem log_httpsRequest (c : Call S) (log : List UInt16) {k' : Tls (S × List UInt16)}
    (hr : (httpsRequest N.logged { c.before with network := c.before.network.map (·, log) } fuel c.host
      c.port c.request).result = some (k', result)) :
    k'.network.map Prod.snd = c.before.network.map fun _ => log ++ c.connects N := by
  rcases httpsRequest_returns hr with
    ⟨hnone, rfl⟩ | ⟨⟨stack, log'⟩, ip, hnet, hip, k₁, h, stack₁, connected, hopen, hleft⟩
  · have hconnects : c.connects N = [] := by
      unfold Call.connects
      rcases hnone with hnone | hnone
      · rw [Option.map_eq_none_iff.1 hnone]
      · rw [hnone]
        cases c.before.network <;> rfl
    rw [hconnects, List.append_nil, Option.map_map]
    rfl
  · obtain ⟨stack, hstack, he⟩ := Option.map_eq_some_iff.1 hnet
    cases he
    have hlog : stack₁.2 = log ++ c.connects N := by
      have : (openSocket N.logged { c.before with network := c.before.network.map (·, log) } (stack, log)
          ⟨ip, c.port⟩).2.2.1.2 = log ++ c.connects N := by
        rw [Call.connects, hstack, hip]
        rfl
      rwa [hopen] at this
    obtain ⟨w, hw, rfl⟩ := hleft _ (keeps_log h (log ++ c.connects N)) hlog
    rw [hstack]
    exact congrArg some hw

/-! ## A run -/

/-- `let local_port = if local_port < 49152 { 49152 } else { local_port }` -/
def clamp (n : UInt16) : UInt16 := if n < 49152 then 49152 else n

theorem connects_eq (c : Call S) :
    c.connects N = if c.reaches then [clamp c.before.nextPort] else [] := by
  unfold Call.connects Call.reaches
  cases c.before.network with
  | none => rfl
  | some stack =>
    cases resolveHost c.host with
    | none => rfl
    | some ip => rfl

theorem ports_eq {nextPort : UInt16} {calls : List (Call S)} (h : Calls N nextPort calls) :
    calls.flatMap (Call.connects N) =
      (List.range (calls.countP Call.reaches)).map fun i => clamp (nextPort + .ofNat i) := by
  induction h with
  | nil => rfl
  | last c =>
    rw [List.flatMap_singleton, connects_eq, List.countP_singleton]
    cases c.reaches <;> simp
  | cons c hr _ ih =>
    rw [List.flatMap_cons, ih, connects_eq, List.countP_cons, nextPort_httpsRequest c hr]
    cases c.reaches with
    | false => simp
    | true =>
      have hsucc (n : UInt16) (i : Nat) : n + 1 + .ofNat i = n + .ofNat (i + 1) := by
        rw [Nat.add_comm i, UInt16.ofNat_add, UInt16.add_assoc]
        rfl
      simp [List.range_succ_eq_map, Function.comp_def, hsucc]

theorem inRange_clamp (n : UInt16) : InRange (clamp n) := by
  have hmax := (clamp n).toNat_lt
  refine ⟨?_, by omega⟩
  unfold clamp
  split
  · exact Nat.le_refl _
  · next h => exact UInt16.le_iff_toNat_le.1 (UInt16.not_lt.1 h)

/-- Before the counter wraps the ports count up. -/
theorem clamp_toNat {i : Nat} (h : i < 16384) : (clamp (49152 + .ofNat i)).toNat = 49152 + i := by
  have hsum : (49152 + UInt16.ofNat i).toNat = 49152 + i := by
    rw [UInt16.toNat_add, UInt16.toNat_ofNat']
    simp
    omega
  have hge : ¬ 49152 + UInt16.ofNat i < 49152 := by
    rw [UInt16.lt_iff_toNat_lt, hsum]
    simp
  rw [clamp, if_neg hge, hsum]

/-- The first two ports after that are the same. -/
theorem clamp_wrapped : clamp (49152 + .ofNat 16384) = 49152 ∧ clamp (49152 + .ofNat 16385) = 49152 := by
  decide

theorem notReusedEarly_range (m : Nat) :
    NotReusedEarly ((List.range m).map fun i => clamp (49152 + .ofNat i)) ↔ m ≤ 16385 := by
  have hget {i : Nat} (h : i < m) : ((List.range m).map fun i => clamp (49152 + .ofNat i))[i]? =
      some (clamp (49152 + .ofNat i)) := by
    simp [h]
  constructor
  · intro h
    by_contra hm
    refine h 16384 16385 (by omega) (by omega) (by simp; omega) ?_
    rw [hget (by omega), hget (by omega), clamp_wrapped.1, clamp_wrapped.2]
  · intro hm i j hij hnear hj
    rw [List.length_map, List.length_range] at hj
    rw [hget (by omega), hget hj, ne_eq, Option.some_inj]
    intro heq
    have hi := clamp_toNat (i := i) (by omega)
    by_cases hwrap : j < 16384
    · have hj := clamp_toNat hwrap
      rw [heq, hj] at hi
      omega
    · -- the port after the wrap is that of the first call, which is 16384 calls back
      have hj : j = 16384 := by omega
      rw [heq, hj, clamp_wrapped.1] at hi
      have : (49152 : UInt16).toNat = 49152 := rfl
      omega

/-- The ports are all in range, and no port is used again early, if and only if at most 16385 calls reach
the choice of a port. -/
theorem fresh_iff {calls : List (Call S)} (h : Calls N 49152 calls) :
    ((∀ p ∈ calls.flatMap (Call.connects N), InRange p) ∧
      NotReusedEarly (calls.flatMap (Call.connects N))) ↔ calls.countP Call.reaches ≤ 16385 := by
  rw [ports_eq h, notReusedEarly_range, and_iff_right]
  exact List.forall_mem_map.2 fun i _ => inRange_clamp _

/-! ## Calls that fail -/

/-- A call with the counter `i` further on. The peer does not answer, so that it fails at the request. -/
def failing (i : Nat) : Call Scripted where
  before := { network := some ⟨.closed, []⟩, nextPort := 49152 + .ofNat i, pollTicks := 0 }
  host := "auth.docker.io".toList
  port := 443
  request := []

theorem failing_returns (i : Nat) : ∃ k result, (httpsRequest scripted (failing i).before 0 (failing i).host
    (failing i).port (failing i).request).result = some (k, result) := by
  have hip : resolveHost (failing i).host = some ⟨54, 236, 246, 36⟩ := rfl
  have hout : httpsRequest scripted (failing i).before 0 (failing i).host (failing i).port
      (failing i).request = _ := httpsRequest_of_active 0 [] rfl hip rfl rfl
  exact ⟨_, _, congrArg Outcome.result hout⟩

theorem calls_failing (start n : Nat) :
    Calls scripted (49152 + .ofNat start) ((List.range' start n).map failing) := by
  induction n generalizing start with
  | zero => exact .nil
  | succ n ih =>
    obtain ⟨k, result, hr⟩ := failing_returns start
    have hnext : k.nextPort = 49152 + .ofNat (start + 1) := by
      rw [nextPort_httpsRequest _ hr, UInt16.ofNat_add, ← UInt16.add_assoc]
      rfl
    rw [List.range'_succ, List.map_cons]
    exact .cons (failing start) hr (hnext ▸ ih (start + 1))

theorem countP_failing (n : Nat) : ((List.range' 0 n).map failing).countP Call.reaches = n := by
  have hreaches : ∀ c ∈ (List.range' 0 n).map failing, c.reaches = true :=
    List.forall_mem_map.2 fun i _ => rfl
  rw [List.countP_eq_length.2 hreaches, List.length_map, List.length_range']

theorem fresh_failing : (∀ p ∈ ((List.range' 0 16385).map failing).flatMap (Call.connects scripted),
    InRange p) ∧ NotReusedEarly (((List.range' 0 16385).map failing).flatMap (Call.connects scripted)) :=
  (fresh_iff (calls_failing 0 16385)).2 (countP_failing 16385).le

/-- Of 16386 calls the last two use the same port. -/
theorem not_fresh_failing : Calls scripted 49152 ((List.range' 0 16386).map failing) ∧
    ¬ NotReusedEarly (((List.range' 0 16386).map failing).flatMap (Call.connects scripted)) := by
  have hcalls := calls_failing 0 16386
  refine ⟨hcalls, fun h => ?_⟩
  rw [ports_eq hcalls, countP_failing] at h
  exact absurd ((notReusedEarly_range 16386).1 h) (by decide)

end Tls

end OciKernel
