import OciKernel.Lib.Profile
import OciKernel.Lib.Run
import OciKernel.Net.HttpServer

/-!
# Net.Clock

The instants that the shared network stack is polled with. `serve_http_once` and the timer's `poll`
stamp their polls with `NET_TICKS`, `https_request` its own with `POLL_TICKS`.

* `Clocks`: the two counters, the lock of `NETWORK` and the instants passed so far. `NetEvent` is one
  poll of one caller, or `https_request` taking and returning the lock.
* `polls`: the counters of the polls that a run makes, one after another.
* `monotone_iff`: in which runs the instants never go back, told by how many polls each counter stamped.
* `Tracks.poll`, `Tracks.serveHttpOnce`, `Tracks.httpsRequest`: the callers' code, on a stack that
  records the instants, makes exactly these events.
-/

namespace OciKernel

open Transition

/-- `NET_TICKS` or `POLL_TICKS`. -/
inductive TickCounter where
  | net
  | tls
deriving DecidableEq, Repr

def TickCounter.other : TickCounter → TickCounter
  | .net => .tls
  | .tls => .net

structure Clocks where
  netTicks : UInt64
  pollTicks : UInt64
  /-- `https_request` holds the lock of `NETWORK`. -/
  locked : Bool
  passed : List Instant

inductive NetEvent where
  | serveHttpOnce
  | poll
  | httpsLock
  | httpsPoll
  | httpsUnlock
deriving DecidableEq, Repr

namespace Clocks

def init : Clocks := ⟨0, 0, false, []⟩

def ticks (c : Clocks) : TickCounter → UInt64
  | .net => c.netTicks
  | .tls => c.pollTicks

/-- `fetch_add(1)` on the counter, and a poll at the instant of its old value, taken as milliseconds.
`none` is the panic of `Instant::from_millis`. -/
def stamp (profile : Profile) (c : Clocks) (k : TickCounter) : Option Clocks := do
  let micros ← profile.mul64 (c.ticks k).toInt64 1000
  let passed := c.passed ++ [⟨micros⟩]
  match k with
  | .net => return { c with passed, netTicks := c.netTicks + 1 }
  | .tls => return { c with passed, pollTicks := c.pollTicks + 1 }

/-- The counter that an event stamps its poll with. A poll that finds the lock taken is not made. -/
def stamps (locked : Bool) : NetEvent → Option TickCounter
  | .serveHttpOnce | .poll => if locked then none else some .net
  | .httpsPoll => if locked then some .tls else none
  | .httpsLock | .httpsUnlock => none

def lockAfter (locked : Bool) : NetEvent → Bool
  | .httpsLock => true
  | .httpsUnlock => false
  | _ => locked

def step (profile : Profile) (c : Clocks) (e : NetEvent) : Option Clocks :=
  match stamps c.locked e with
  | some k => c.stamp profile k
  | none => some { c with locked := lockAfter c.locked e }

/-- A run; one that panics has passed the instants of its longest part that does not. -/
def run (profile : Profile) (c : Clocks) (es : List NetEvent) : Option Clocks :=
  es.foldlM (step profile) c

def Monotone (c : Clocks) : Prop := c.passed.Pairwise fun t t' => t.micros ≤ t'.micros

/-- The counters that stamp the polls made by the calls `es`, in order. -/
def polls : Bool → List NetEvent → List TickCounter
  | _, [] => []
  | locked, e :: es => (stamps locked e).toList ++ polls (lockAfter locked e) es

/-- A poll of counter `k` after the polls `before`: the counter has stamped so few of them that its
number of milliseconds is an `i64` of microseconds, and the other counter at most one more. -/
def InBalance (before : List TickCounter) (k : TickCounter) : Prop :=
  before.count k < 9223372036854776 ∧ before.count k.other ≤ before.count k + 1

/-- Each of the polls `ks` is made in balance with the polls before it. -/
def Balanced (ks : List TickCounter) : Prop :=
  StepsMeet (fun before k => before ++ [k]) InBalance [] ks

/-! ## Instants -/

theorem toInt_toInt64 (t : UInt64) (h : t.toNat < 2 ^ 63) : t.toInt64.toInt = t.toNat := by
  have hint : t.toInt64.toInt = t.toBitVec.toInt := rfl
  have hnat : t.toBitVec.toNat = t.toNat := rfl
  rw [hint, BitVec.toInt_eq_toNat_cond, hnat, if_pos (by omega)]

/-- The instant of a tick: exact below the bound, and before the clock's start at the bound. -/
theorem toInt_micros (t : UInt64) (h : t.toNat ≤ 9223372036854776) :
    (t.toInt64 * 1000).toInt =
      if t.toNat < 9223372036854776 then 1000 * (t.toNat : Int) else -9223372036854775616 := by
  have hfactor : Int64.toInt 1000 = 1000 := rfl
  rw [Int64.toInt_mul, hfactor, toInt_toInt64 t (by omega), Int.bmod_def]
  split <;> split <;> omega

/-! ## The invariant -/

/-- After the balanced polls `ks`: the counters count them, and the instants passed lie below those of
the last poll of either counter, which is among them. -/
structure Inv (ks : List TickCounter) (c : Clocks) : Prop where
  ticks : ∀ k, (c.ticks k).toNat = ks.count k
  bounded : ∀ k, ks.count k ≤ 9223372036854776
  monotone : c.Monotone
  below : ∀ t ∈ c.passed, 0 ≤ t.micros.toInt ∧ ∃ k, t.micros.toInt + 1000 ≤ 1000 * ks.count k
  reached : ∀ k, 0 < ks.count k → ∃ t ∈ c.passed, t.micros.toInt + 1000 = 1000 * ks.count k

theorem inv_init : Inv [] init := by
  refine ⟨?_, fun _ => Nat.zero_le _, List.Pairwise.nil, nofun, ?_⟩
  · intro k
    cases k <;> rfl
  · intro k hk
    cases hk

section Steps

variable {profile : Profile} {c c' : Clocks} {k : TickCounter} {ks : List TickCounter}

theorem stamp_spec (h : c.stamp profile k = some c') :
    c'.passed = c.passed ++ [.fromMillis (c.ticks k).toInt64] ∧ c'.ticks k = c.ticks k + 1 ∧
      c'.ticks k.other = c.ticks k.other ∧ c'.locked = c.locked := by
  unfold stamp at h
  obtain ⟨micros, hmul, h⟩ := Option.bind_eq_some_iff.1 h
  obtain rfl := Profile.eq_of_checked hmul
  cases k <;>
    · cases h
      exact ⟨rfl, rfl, rfl, rfl⟩

theorem Inv.micros (h : Inv ks c) (k : TickCounter) :
    (Instant.fromMillis (c.ticks k).toInt64).micros.toInt =
      if ks.count k < 9223372036854776 then 1000 * (ks.count k : Int) else -9223372036854775616 := by
  have hle := h.bounded k
  rw [← h.ticks k] at hle ⊢
  exact toInt_micros _ hle

/-- A poll keeps the instants in order exactly when it is made in balance. -/
theorem Inv.monotone_stamp_iff (h : Inv ks c) (hstamp : c.stamp profile k = some c') :
    c'.Monotone ↔ InBalance ks k := by
  have hpw : c'.Monotone ↔
      ∀ t ∈ c.passed, t.micros ≤ (Instant.fromMillis (c.ticks k).toInt64).micros := by
    have hm : c.passed.Pairwise fun t t' => t.micros ≤ t'.micros := h.monotone
    rw [Monotone, (stamp_spec hstamp).1, List.pairwise_append]
    simp [hm]
  simp only [hpw, Int64.le_iff_toInt_le, h.micros k]
  constructor
  · intro hall
    have hlt : ks.count k < 9223372036854776 := by
      by_contra hge
      obtain ⟨t, ht, -⟩ := h.reached k (by omega)
      have hle := hall t ht
      rw [if_neg hge] at hle
      have := (h.below t ht).1
      omega
    refine ⟨hlt, ?_⟩
    by_contra hgt
    obtain ⟨t, ht, hlast⟩ := h.reached k.other (by omega)
    have hle := hall t ht
    rw [if_pos hlt] at hle
    omega
  · rintro ⟨hlt, hother⟩ t ht
    rw [if_pos hlt]
    obtain ⟨-, j, hj⟩ := h.below t ht
    have hcount : ks.count j ≤ ks.count k + 1 := by
      cases j <;> cases k <;> first | exact Nat.le_succ _ | exact hother
    omega

theorem Inv.stamp (h : Inv ks c) (hstamp : c.stamp profile k = some c') (hb : InBalance ks k) :
    Inv (ks ++ [k]) c' := by
  have hmonotone := (h.monotone_stamp_iff hstamp).2 hb
  have hmicros := h.micros k
  rw [if_pos hb.1] at hmicros
  obtain ⟨hpassed, hself, hother, -⟩ := stamp_spec hstamp
  have hcount : (ks ++ [k]).count k = ks.count k + 1 := by simp
  have hcount' : (ks ++ [k]).count k.other = ks.count k.other := by
    cases k <;> simp [TickCounter.other]
  have hboth : ∀ {P : TickCounter → Prop}, P k → P k.other → ∀ j, P j := by
    intro P hk ho j
    cases j <;> cases k <;> first | exact hk | exact ho
  refine ⟨hboth ?_ ?_, hboth ?_ ?_, hmonotone, ?_, hboth ?_ ?_⟩
  · rw [hself, hcount, UInt64.toNat_add, h.ticks k]
    have hone : UInt64.toNat 1 = 1 := rfl
    have := hb.1
    exact Nat.mod_eq_of_lt (by omega)
  · rw [hother, hcount', h.ticks]
  · rw [hcount]
    exact hb.1
  · rw [hcount']
    exact h.bounded _
  · intro t ht
    rw [hpassed] at ht
    rcases List.mem_append.1 ht with ht | ht
    · obtain ⟨hpos, j, hj⟩ := h.below t ht
      have hle : ks.count j ≤ (ks ++ [k]).count j := by simp
      exact ⟨hpos, j, by omega⟩
    · rw [List.mem_singleton.1 ht, hmicros]
      exact ⟨by omega, k, by omega⟩
  · intro _
    refine ⟨_, hpassed ▸ List.mem_append_right _ (List.mem_singleton_self _), ?_⟩
    rw [hmicros, hcount]
    omega
  · rw [hcount']
    intro hpos
    obtain ⟨t, ht, hlast⟩ := h.reached _ hpos
    exact ⟨t, hpassed ▸ List.mem_append_left _ ht, hlast⟩

/-! ## Runs -/

/-- An event is a poll stamped with its counter, or it is none and moves the lock. -/
theorem step_spec {e : NetEvent} (h : c.step profile e = some c') :
    c'.locked = lockAfter c.locked e ∧
      ((∃ k, stamps c.locked e = some k ∧ c.stamp profile k = some c') ∨
        stamps c.locked e = none ∧ c' = { c with locked := lockAfter c.locked e }) := by
  unfold step at h
  cases hs : stamps c.locked e with
  | some k =>
    rw [hs] at h
    have hlock : lockAfter c.locked e = c.locked := by
      cases e <;> first | rfl | cases hs
    exact ⟨(stamp_spec h).2.2.2.trans hlock.symm, .inl ⟨k, rfl, h⟩⟩
  | none =>
    rw [hs] at h
    cases h
    exact ⟨rfl, .inr ⟨rfl, rfl⟩⟩

theorem run_cons {e : NetEvent} {es : List NetEvent} (h : run profile c (e :: es) = some c') :
    ∃ c₁, c.step profile e = some c₁ ∧ run profile c₁ es = some c' := by
  unfold run at h
  rw [List.foldlM_cons] at h
  exact Option.bind_eq_some_iff.1 h

/-- The instants passed stay passed. -/
theorem passed_stays {es : List NetEvent} (h : run profile c es = some c') :
    c.passed <+: c'.passed := by
  induction es generalizing c with
  | nil =>
    cases h
    exact List.prefix_rfl
  | cons e es ih =>
    obtain ⟨c₁, hstep, hrun⟩ := run_cons h
    refine List.IsPrefix.trans ?_ (ih hrun)
    rcases (step_spec hstep).2 with ⟨k, -, hstamp⟩ | ⟨-, rfl⟩
    · exact ⟨_, (stamp_spec hstamp).1.symm⟩
    · exact List.prefix_rfl

/-- By induction on the events, with the polls `ks` made before them. -/
theorem Inv.monotone_run_iff {es : List NetEvent} (h : Inv ks c) (hrun : run profile c es = some c') :
    c'.Monotone ↔ StepsMeet (fun before k => before ++ [k]) InBalance ks (polls c.locked es) := by
  induction es generalizing c ks with
  | nil =>
    cases hrun
    exact iff_of_true h.monotone stepsMeet_nil
  | cons e es ih =>
    obtain ⟨c₁, hstep, hrun⟩ := run_cons hrun
    obtain ⟨hlock, hcases⟩ := step_spec hstep
    rw [polls, ← hlock]
    rcases hcases with ⟨k, hs, hstamp⟩ | ⟨hs, rfl⟩
    · rw [hs, Option.toList_some, List.singleton_append, stepsMeet_cons]
      by_cases hb : InBalance ks k
      · rw [ih (h.stamp hstamp hb) hrun]
        exact (and_iff_right hb).symm
      · refine iff_of_false (fun hm => hb ?_) fun hm => hb hm.1
        exact (h.monotone_stamp_iff hstamp).1 (List.Pairwise.sublist (passed_stays hrun).sublist hm)
    · rw [hs, Option.toList_none, List.nil_append]
      exact ih ⟨h.ticks, h.bounded, h.monotone, h.below, h.reached⟩ hrun

end Steps

/-- Over any interleaving of the callers, in either profile, the instants passed never go back iff the
polls made are balanced. -/
theorem monotone_iff {profile : Profile} {es : List NetEvent} {c : Clocks}
    (hrun : run profile init es = some c) : c.Monotone ↔ Balanced (polls false es) :=
  inv_init.monotone_run_iff hrun

/-- The server, a request of two polls, the server again. -/
theorem monotone_four : (∃ c, run .dev init [.serveHttpOnce, .httpsLock, .httpsPoll, .httpsPoll,
    .httpsUnlock, .serveHttpOnce] = some c ∧ c.Monotone) ∧
    Balanced [.net, .tls, .tls, .net] := by
  have hbalanced : Balanced [.net, .tls, .tls, .net] :=
    stepsMeet_cons.2 ⟨⟨by decide, by decide⟩, stepsMeet_cons.2 ⟨⟨by decide, by decide⟩,
      stepsMeet_cons.2 ⟨⟨by decide, by decide⟩, stepsMeet_cons.2 ⟨⟨by decide, by decide⟩,
        stepsMeet_nil⟩⟩⟩⟩
  have hrun : run .dev init [.serveHttpOnce, .httpsLock, .httpsPoll, .httpsPoll, .httpsUnlock,
      .serveHttpOnce] = some ⟨2, 2, false, [⟨0⟩, ⟨0⟩, ⟨1000⟩, ⟨1000⟩]⟩ := rfl
  exact ⟨⟨_, hrun, (monotone_iff hrun).2 hbalanced⟩, hbalanced⟩

/-- Two timer interrupts, then the first poll of a request. -/
theorem request_goes_back : ∃ c, run .dev init [.poll, .poll, .httpsLock, .httpsPoll] = some c ∧
    run .release init [.poll, .poll, .httpsLock, .httpsPoll] = some c ∧
    c.passed = [⟨0⟩, ⟨1000⟩, ⟨0⟩] ∧ ¬ c.Monotone := by
  refine ⟨⟨2, 1, true, [⟨0⟩, ⟨1000⟩, ⟨0⟩]⟩, rfl, rfl, rfl, ?_⟩
  rw [Monotone]
  decide

end Clocks

/-! ## The callers -/

/-- The stack `N`, keeping a record of the instants it is polled with. -/
def HttpStack.recording {S H : Type} (N : HttpStack S H) : HttpStack (S × List Instant) H where
  add s rx tx := let r := N.add s.1 rx tx; ((r.1, s.2), r.2)
  connect s h e p := let r := N.connect s.1 h e p; ((r.1, s.2), r.2)
  poll s t := (N.poll s.1 t, s.2 ++ [t])
  state s h := N.state s.1 h
  isActive s h := N.isActive s.1 h
  sendSlice s h data := let r := N.sendSlice s.1 h data; ((r.1, s.2), r.2)
  recvSlice s h n := let r := N.recvSlice s.1 h n; ((r.1, s.2), r.2)
  mayRecv s h := N.mayRecv s.1 h
  remove s h := (N.remove s.1 h, s.2)
  listen s h port := let r := N.listen s.1 h port; ((r.1, s.2), r.2)
  canRecv s h := N.canRecv s.1 h
  recv s h := let r := N.recv s.1 h; ((r.1, s.2), r.2)
  recvQueue s h := N.recvQueue s.1 h
  canSend s h := N.canSend s.1 h
  close s h := (N.close s.1 h, s.2)

/-- The globals of `net/mod.rs` and `POLL_TICKS` are as `c` says, and so are the instants recorded. -/
structure Tracks {S H : Type} (g : NetMod (S × List Instant) H) (pollTicks : UInt64) (c : Clocks) :
    Prop where
  network : ∃ stack, g.network = some (stack, c.passed)
  locked : g.locked = c.locked
  netTicks : g.netTicks = c.netTicks
  pollTicks : pollTicks = c.pollTicks

namespace Tracks

variable {S H : Type} {N : HttpStack S H} {g : NetMod (S × List Instant) H} {pollTicks : UInt64}
  {c : Clocks} {profile : Profile}

theorem drain_record (h : H) (n : Nat) (s : S × List Instant) :
    (NetMod.drain N.recording h n s).2 = s.2 := by
  induction n generalizing s with
  | zero => rfl
  | succ n ih =>
    have hrecv : (N.recording.recv s h).1.2 = s.2 := rfl
    unfold NetMod.drain
    split
    · rename_i he
      rw [← hrecv, he]
    · rename_i he
      rw [← hrecv, he]
    · rename_i s' _ _ he
      have hs' : s'.2 = s.2 := by rw [← hrecv, he]
      split
      · exact hs'
      · exact (ih s').trans hs'

/-- The server's work on its socket polls nothing. -/
theorem serveSocket_record (g : NetMod (S × List Instant) H) (h : H) (s : S × List Instant) :
    (∃ stack, (NetMod.serveSocket N.recording g h s).network = some (stack, s.2)) ∧
      (NetMod.serveSocket N.recording g h s).locked = g.locked ∧
      (NetMod.serveSocket N.recording g h s).netTicks = g.netTicks := by
  have hdrain := drain_record (N := N) h (N.recording.recvQueue s h + 1) s
  have hself : ∃ stack, some s = some (stack, s.2) := ⟨s.1, rfl⟩
  unfold NetMod.serveSocket
  split
  · exact ⟨⟨_, rfl⟩, rfl, rfl⟩
  · exact ⟨⟨_, rfl⟩, rfl, rfl⟩
  · split
    · split
      · dsimp only
        split
        · refine ⟨⟨_, congrArg some (Prod.ext rfl ?_)⟩, rfl, rfl⟩
          exact hdrain
        · exact ⟨⟨_, congrArg some (Prod.ext rfl hdrain)⟩, rfl, rfl⟩
      · exact ⟨hself, rfl, rfl⟩
    · exact ⟨hself, rfl, rfl⟩
  · exact ⟨hself, rfl, rfl⟩

/-- The lock is free, and a poll is stamped with `NET_TICKS`. -/
theorem stamp_net {c' : Clocks} {e : NetEvent} (he : Clocks.stamps false e = some .net)
    (hfree : c.locked = false) (h : c.step profile e = some c') :
    c'.passed = c.passed ++ [.fromMillis c.netTicks.toInt64] ∧ c'.netTicks = c.netTicks + 1 ∧
      c'.pollTicks = c.pollTicks ∧ c'.locked = false := by
  unfold Clocks.step at h
  rw [hfree, he] at h
  obtain ⟨hpassed, hself, hother, hlocked⟩ := Clocks.stamp_spec h
  exact ⟨hpassed, hself, hother, hlocked.trans hfree⟩

/-- A poll that finds the lock taken is not made. -/
theorem step_locked {c' : Clocks} {e : NetEvent} (he : Clocks.stamps true e = none)
    (hlock : Clocks.lockAfter true e = true) (htaken : c.locked = true)
    (h : c.step profile e = some c') : c' = c := by
  unfold Clocks.step at h
  rw [htaken, he, hlock] at h
  cases c
  cases htaken
  cases h
  rfl

theorem poll {c' : Clocks} (h : Tracks g pollTicks c) (hstep : c.step profile .poll = some c') :
    Tracks (NetMod.poll N.recording g) pollTicks c' := by
  obtain ⟨stack, hnet⟩ := h.network
  have hlocked := h.locked
  have hticks := h.netTicks
  unfold NetMod.poll
  rw [hnet]
  dsimp only
  cases hc : c.locked with
  | true =>
    rw [if_pos (hlocked.trans hc), step_locked rfl rfl hc hstep]
    exact h
  | false =>
    obtain ⟨hpassed, hnetTicks, hpollTicks, hfree⟩ := stamp_net rfl hc hstep
    have hopen : ¬ g.locked = true := by simp [hlocked, hc]
    rw [if_neg hopen]
    refine ⟨⟨N.poll stack (.fromMillis g.netTicks.toInt64), ?_⟩, ?_, ?_, ?_⟩
    · rw [hpassed, ← hticks]
      rfl
    · exact (hlocked.trans hc).trans hfree.symm
    · rw [hnetTicks, ← hticks]
      rfl
    · exact h.pollTicks.trans hpollTicks.symm

/-- With the listener set up, a call of `serve_http_once` polls once, or finds the lock taken. -/
theorem serveHttpOnce {c' : Clocks} (h : Tracks g pollTicks c) (hh : g.httpHandle.isSome)
    (hstep : c.step profile .serveHttpOnce = some c') :
    Tracks (NetMod.serveHttpOnce N.recording g) pollTicks c' := by
  obtain ⟨stack, hnet⟩ := h.network
  obtain ⟨handle, hhandle⟩ := Option.isSome_iff_exists.1 hh
  have hlocked := h.locked
  have hticks := h.netTicks
  unfold NetMod.serveHttpOnce
  rw [hnet, hhandle]
  dsimp only
  cases hc : c.locked with
  | true =>
    rw [if_pos (hlocked.trans hc), step_locked rfl rfl hc hstep]
    exact h
  | false =>
    obtain ⟨hpassed, hnetTicks, hpollTicks, hfree⟩ := stamp_net rfl hc hstep
    have hopen : ¬ g.locked = true := by simp [hlocked, hc]
    rw [if_neg hopen]
    obtain ⟨⟨stack', hs⟩, hl, ht⟩ := serveSocket_record (N := N)
      { g with netTicks := g.netTicks + 1 } handle
      (N.poll stack (.fromMillis g.netTicks.toInt64),
        c.passed ++ [.fromMillis g.netTicks.toInt64])
    refine ⟨⟨stack', hs.trans ?_⟩, hl.trans ((hlocked.trans hc).trans hfree.symm), ht.trans ?_,
      h.pollTicks.trans hpollTicks.symm⟩
    · rw [hpassed, ← hticks]
    · rw [hnetTicks, ← hticks]

/-! ### `https_request` -/

/-- The locked stack of a request and its counter are as `c` says. -/
structure Holds (w : Net (S × List Instant)) (c : Clocks) : Prop where
  passed : w.stack.2 = c.passed
  ticks : w.ticks = c.pollTicks
  locked : c.locked = true

/-- `c` after `n` polls of a request. -/
def polls (profile : Profile) (c : Clocks) (n : Nat) : Option Clocks :=
  Clocks.run profile c (List.replicate n .httpsPoll)

theorem polls_succ {c' : Clocks} {n : Nat} (h : polls profile c (n + 1) = some c') :
    ∃ c₁, polls profile c n = some c₁ ∧ c₁.step profile .httpsPoll = some c' := by
  unfold polls Clocks.run at h
  rw [List.replicate_succ', List.foldlM_append] at h
  obtain ⟨c₁, h₁, h₂⟩ := Option.bind_eq_some_iff.1 h
  rw [List.foldlM_cons] at h₂
  obtain ⟨c₂, h₂, h₃⟩ := Option.bind_eq_some_iff.1 h₂
  cases h₃
  exact ⟨c₁, h₁, h₂⟩

variable {w : Net (S × List Instant)}

theorem Holds.step {c' : Clocks} (h : Holds w c) (hstep : c.step profile .httpsPoll = some c') :
    Holds (Tls.poll N.recording.toTcpStack w) c' ∧ c'.netTicks = c.netTicks := by
  unfold Clocks.step at hstep
  rw [h.locked] at hstep
  obtain ⟨hpassed, hself, hother, hlocked⟩ := Clocks.stamp_spec hstep
  refine ⟨⟨?_, ?_, hlocked.trans h.locked⟩, hother⟩
  · have hrecord : (Tls.poll N.recording.toTcpStack w).stack.2 =
        w.stack.2 ++ [.fromMillis w.ticks.toInt64] := rfl
    rw [hrecord, hpassed, h.passed, h.ticks]
    rfl
  · have hticks : (Tls.poll N.recording.toTcpStack w).ticks = w.ticks + 1 := rfl
    rw [hticks, h.ticks]
    exact hself.symm

/-- The calls on an open socket poll the stack, and touch the record in no other way. -/
theorem keeps_holds (profile : Profile) (handle : H) (c : Clocks) :
    Tls.Keeps N.recording.toTcpStack handle fun w => ∃ n, ∀ c', polls profile c n = some c' →
      Holds w c' ∧ c'.netTicks = c.netTicks where
  poll := by
    rintro w ⟨n, hn⟩
    refine ⟨n + 1, fun c' hc' => ?_⟩
    obtain ⟨c₁, hc₁, hstep⟩ := polls_succ hc'
    obtain ⟨hholds, hnet⟩ := hn c₁ hc₁
    obtain ⟨hholds', hnet'⟩ := hholds.step hstep
    exact ⟨hholds', hnet'.trans hnet⟩
  recv := by
    rintro w ⟨n, hn⟩
    refine ⟨n, fun c' hc' => ?_⟩
    obtain ⟨hholds, hnet⟩ := hn c' hc'
    exact ⟨⟨hholds.passed, hholds.ticks, hholds.locked⟩, hnet⟩
  send := by
    rintro w request ⟨n, hn⟩
    refine ⟨n, fun c' hc' => ?_⟩
    obtain ⟨hholds, hnet⟩ := hn c' hc'
    exact ⟨⟨hholds.passed, hholds.ticks, hholds.locked⟩, hnet⟩

/-- Taking the lock, `n` polls, and the lock returned. -/
def requestEvents (n : Nat) : List NetEvent :=
  .httpsLock :: (List.replicate n .httpsPoll ++ [.httpsUnlock])

theorem run_requestEvents {c' : Clocks} {n : Nat}
    (h : Clocks.run profile c (requestEvents n) = some c') :
    ∃ c₁, polls profile { c with locked := true } n = some c₁ ∧ c' = { c₁ with locked := false } := by
  obtain ⟨c₀, hlock, h⟩ := Clocks.run_cons h
  have hc₀ : c₀ = { c with locked := true } := (Option.some.inj hlock).symm
  unfold Clocks.run at h
  rw [hc₀, List.foldlM_append] at h
  obtain ⟨c₁, hpolls, h⟩ := Option.bind_eq_some_iff.1 h
  cases h
  exact ⟨c₁, hpolls, rfl⟩

/-- A request that returns has taken the lock, polled and returned the lock. -/
theorem httpsRequest (h : Tracks g pollTicks c) (hfree : c.locked = false)
    {k k' : Tls (S × List Instant)} (hk : k.network = g.network) (ht : k.pollTicks = pollTicks)
    (fuel : Nat) (host : Text.Str) (port : UInt16) (request : List UInt8)
    {r : Except TlsConnectError (List UInt8)}
    (hr : (Tls.httpsRequest N.recording.toTcpStack k fuel host port request).result =
      some (k', r)) :
    ∃ n, ∀ c', Clocks.run profile c (requestEvents n) = some c' →
      Tracks { g with network := k'.network } k'.pollTicks c' := by
  obtain ⟨stack, hnet⟩ := h.network
  rw [hnet] at hk
  have hticks : k.pollTicks = c.pollTicks := ht.trans h.pollTicks
  rcases Tls.httpsRequest_returns hr with
    ⟨_, rfl⟩ | ⟨s, ip, hs, _, k₁, handle, s₁, connected, hopen, hleft⟩
  · refine ⟨0, fun c' hc' => ?_⟩
    obtain ⟨c₁, hpolls, rfl⟩ := run_requestEvents hc'
    cases hpolls
    exact ⟨⟨stack, hk⟩, h.locked.trans hfree, h.netTicks, hticks⟩
  · rw [hk] at hs
    cases hs
    have hopened : Holds ⟨s₁, k₁.pollTicks⟩ { c with locked := true } := by
      cases hopen
      exact ⟨rfl, hticks, rfl⟩
    obtain ⟨w, ⟨n, hn⟩, rfl⟩ := hleft _ (keeps_holds profile handle { c with locked := true })
      ⟨0, fun c' hc' => by cases hc'; exact ⟨hopened, rfl⟩⟩
    refine ⟨n, fun c' hc' => ?_⟩
    obtain ⟨c₁, hpolls, rfl⟩ := run_requestEvents hc'
    obtain ⟨hholds, hnetTicks⟩ := hn c₁ hpolls
    exact ⟨⟨N.remove w.stack.1 handle, congrArg some (Prod.ext rfl hholds.passed)⟩,
      h.locked.trans hfree, h.netTicks.trans hnetTicks.symm, hholds.ticks⟩

end Tracks

end OciKernel
