import OciKernel.Lib.Run

/-!
# Interrupts

The timer interrupt of `interrupts.rs` against the kernel code it preempts, over the three spin locks
that both take: the heap's `ALLOCATOR`, `NETWORK` and `PICS`. The handler polls the network and
acknowledges the interrupt; it runs to its end before the interrupted code goes on.

* `Waiting`: the handler stands at a lock that the interrupted code holds.
* `Inv`: what every reachable state satisfies as long as no packet is received in the wrong place.
* `never_waiting_iff`: the handler waits in a run iff it receives a packet while the code it
  interrupted is inside the allocator.
* `handler_completes`: otherwise it comes to its end.
-/

namespace OciKernel
namespace Interrupts

open Transition

inductive Owner where
  | kernel
  | handler
deriving DecidableEq, Repr

/-- What `VirtioNet::receive` finds in the used ring. -/
inductive Packet where
  /-- Copied into a `Vec`, which is allocated. -/
  | payload
  /-- Header only: an empty `Vec` is not allocated. -/
  | empty
  /-- A descriptor index out of range: `None` is returned. -/
  | badDescriptor
deriving DecidableEq, Repr

/-- Where `timer_handler` is. -/
inductive HandlerPc where
  /-- At `NETWORK.get()` and `try_lock()`. -/
  | poll
  /-- In `iface.poll`, at `receive`; `NETWORK` is held. -/
  | receive
  /-- At the lock of the allocator, for the packet's `Vec`. -/
  | allocate
  | allocating
  /-- At the lock of the allocator, to drop the packet. -/
  | consume
  | freeing
  /-- At `PICS.lock()`. -/
  | endOfInterrupt
  | notifying
deriving DecidableEq, Repr

/-- Whether the handler has a packet in hand. -/
def HandlerPc.hasPacket : HandlerPc → Bool
  | .allocate | .allocating | .consume | .freeing => true
  | _ => false

/-- Whether the handler is inside the allocator. -/
def HandlerPc.inAllocator : HandlerPc → Bool
  | .allocating | .freeing => true
  | _ => false

/-- How many steps the handler takes at most once nothing is pending. -/
def HandlerPc.steps : HandlerPc → Nat
  | .notifying => 1
  | .endOfInterrupt => 2
  | .receive => 3
  | .freeing => 4
  | .poll => 4
  | .consume => 5
  | .allocating => 6
  | .allocate => 7

structure Machine where
  interruptsEnabled : Bool
  /-- `NETWORK.get()` is `Some`. -/
  networkReady : Bool
  allocator : Option Owner
  network : Option Owner
  pics : Option Owner
  pending : List Packet
  /-- `none` while kernel code runs. -/
  handler : Option HandlerPc
deriving DecidableEq, Repr

/-- What kernel code does to the locks. `receive` is its own poll taking a packet. -/
inductive KernelOp where
  | lockPics | unlockPics | enable | networkInit | lockNetwork | unlockNetwork | receive
  | lockAllocator | unlockAllocator
deriving DecidableEq, Repr

inductive Event where
  | kernel (op : KernelOp)
  | timer
  | handler
  | packet (p : Packet)
deriving DecidableEq, Repr

namespace Machine

/-- The state in which `kernel_main` starts. -/
def boot : Machine :=
  { interruptsEnabled := false, networkReady := false, allocator := none, network := none,
    pics := none, pending := [], handler := none }

/-- The order in which kernel code takes the locks: `PICS` only in `interrupts::init`, before it
enables interrupts; `NETWORK` never from inside the allocator. -/
def kernelGuard (s : Machine) : KernelOp → Bool
  | .lockPics => !s.interruptsEnabled && s.pics = none
  | .unlockPics => s.pics = some .kernel
  | .enable => s.pics = none
  | .networkInit => !s.networkReady && s.allocator ≠ some .kernel
  | .lockNetwork => s.networkReady && s.network = none && s.allocator ≠ some .kernel
  | .unlockNetwork => s.network = some .kernel && s.allocator ≠ some .kernel
  | .receive => s.network = some .kernel
  | .lockAllocator => s.allocator = none
  | .unlockAllocator => s.allocator = some .kernel

def kernelStep (s : Machine) : KernelOp → Machine
  | .lockPics => { s with pics := some .kernel }
  | .unlockPics => { s with pics := none }
  | .enable => { s with interruptsEnabled := true }
  | .networkInit => { s with networkReady := true }
  | .lockNetwork => { s with network := some .kernel }
  | .unlockNetwork => { s with network := none }
  | .receive => { s with pending := s.pending.tail }
  | .lockAllocator => { s with allocator := some .kernel }
  | .unlockAllocator => { s with allocator := none }

/-- The handler goes on; at a lock that is taken it stays where it is. -/
def handlerStep (s : Machine) : HandlerPc → Machine
  | .poll =>
    if s.networkReady && s.network = none then
      { s with network := some .handler, handler := some .receive }
    else { s with handler := some .endOfInterrupt }
  | .receive =>
    match s.pending with
    | .payload :: rest => { s with pending := rest, handler := some .allocate }
    | .empty :: rest => { s with pending := rest }
    | .badDescriptor :: rest =>
      { s with pending := rest, network := none, handler := some .endOfInterrupt }
    | [] => { s with network := none, handler := some .endOfInterrupt }
  | .allocate =>
    if s.allocator = none then { s with allocator := some .handler, handler := some .allocating }
    else s
  | .allocating => { s with allocator := none, handler := some .consume }
  | .consume =>
    if s.allocator = none then { s with allocator := some .handler, handler := some .freeing } else s
  | .freeing => { s with allocator := none, handler := some .receive }
  | .endOfInterrupt =>
    if s.pics = none then { s with pics := some .handler, handler := some .notifying } else s
  | .notifying => { s with pics := none, handler := none }

/-- An event that is not possible changes nothing. -/
def step (s : Machine) : Event → Machine
  | .kernel op => if s.handler = none ∧ s.kernelGuard op then s.kernelStep op else s
  | .timer => if s.handler = none ∧ s.interruptsEnabled then { s with handler := some .poll } else s
  | .handler =>
    match s.handler with
    | some pc => s.handlerStep pc
    | none => s
  | .packet p => { s with pending := s.pending ++ [p] }

/-- The handler is at a lock that the code it interrupted holds. -/
def Waiting (s : Machine) : Prop :=
  (s.handler = some .allocate ∨ s.handler = some .consume) ∧ s.allocator = some .kernel ∨
    s.handler = some .endOfInterrupt ∧ s.pics = some .kernel

/-- The handler does not receive a payload while the code it interrupted is inside the allocator. -/
def ReceivesOutside (s : Machine) (e : Event) : Prop :=
  e = .handler → s.handler = some .receive → s.pending.head? = some .payload →
    s.allocator ≠ some .kernel

/-! ## The invariant -/

structure Inv (s : Machine) : Prop where
  /-- Interrupts come only once `PICS` is released. -/
  pics_free : s.interruptsEnabled = true → s.pics ≠ some .kernel
  enabled : ∀ pc, s.handler = some pc → s.interruptsEnabled = true
  allocator_free : ∀ pc, s.handler = some pc → pc.hasPacket = true → s.allocator ≠ some .kernel
  allocator_handler : s.allocator = some .handler →
    ∃ pc, s.handler = some pc ∧ pc.inAllocator = true
  pics_handler : s.pics = some .handler → s.handler = some .notifying

theorem inv_boot : Inv boot := ⟨nofun, nofun, nofun, nofun, nofun⟩

variable {s : Machine}

theorem Inv.not_waiting (h : s.Inv) : ¬ s.Waiting := by
  rintro (⟨hpc | hpc, ha⟩ | ⟨hpc, hp⟩)
  · exact h.allocator_free _ hpc rfl ha
  · exact h.allocator_free _ hpc rfl ha
  · exact h.pics_free (h.enabled _ hpc) hp

/-- Kernel code keeps the invariant: `PICS` is taken before interrupts are enabled only. -/
theorem Inv.kernel (h : s.Inv) (hnone : s.handler = none) {op : KernelOp}
    (hg : s.kernelGuard op = true) : (s.kernelStep op).Inv := by
  have halloc : s.allocator ≠ some .handler := by
    intro he
    obtain ⟨pc, hpc, _⟩ := h.allocator_handler he
    rw [hnone] at hpc
    cases hpc
  have hpics : s.pics ≠ some .handler := by
    intro he
    have := h.pics_handler he
    rw [hnone] at this
    cases this
  cases op with
  | lockPics =>
    simp only [kernelGuard, Bool.and_eq_true, Bool.not_eq_true'] at hg
    refine ⟨fun he => ?_, h.enabled, h.allocator_free, h.allocator_handler, nofun⟩
    have he : s.interruptsEnabled = true := he
    rw [hg.1] at he
    cases he
  | unlockPics => exact ⟨nofun, h.enabled, h.allocator_free, h.allocator_handler, nofun⟩
  | enable =>
    refine ⟨fun _ => ?_, fun _ _ => rfl, h.allocator_free, h.allocator_handler, h.pics_handler⟩
    have hfree : s.pics = none := by simpa [kernelGuard] using hg
    intro he
    have he : s.pics = some .kernel := he
    rw [hfree] at he
    cases he
  | networkInit | lockNetwork | unlockNetwork | receive =>
    exact ⟨h.pics_free, h.enabled, h.allocator_free, h.allocator_handler, h.pics_handler⟩
  | lockAllocator =>
    refine ⟨h.pics_free, h.enabled, fun pc hpc => ?_, nofun, h.pics_handler⟩
    have hpc : s.handler = some pc := hpc
    rw [hnone] at hpc
    cases hpc
  | unlockAllocator => exact ⟨h.pics_free, h.enabled, fun _ _ _ => nofun, nofun, h.pics_handler⟩

theorem Inv.allocator_ne_handler (h : s.Inv) {pc : HandlerPc} (hpc : s.handler = some pc)
    (hin : pc.inAllocator = false) : s.allocator ≠ some .handler := by
  intro he
  obtain ⟨pc', hpc', hin'⟩ := h.allocator_handler he
  cases hpc.symm.trans hpc'
  rw [hin] at hin'
  cases hin'

theorem Inv.pics_ne_handler (h : s.Inv) {pc : HandlerPc} (hpc : s.handler = some pc)
    (hne : pc ≠ .notifying) : s.pics ≠ some .handler := by
  intro he
  cases hpc.symm.trans (h.pics_handler he)
  exact hne rfl

/-- The handler goes on without a packet, from outside the allocator and `PICS`. -/
theorem Inv.goes_on (h : s.Inv) {pc pc' : HandlerPc} (hpc : s.handler = some pc)
    (hin : pc.inAllocator = false) (hne : pc ≠ .notifying) (hp : pc'.hasPacket = false)
    (network : Option Owner) (pending : List Packet) :
    Inv { s with network := network, pending := pending, handler := some pc' } where
  pics_free := h.pics_free
  enabled := fun _ _ => h.enabled pc hpc
  allocator_free := by
    intro pc'' he hp'
    cases he
    rw [hp] at hp'
    cases hp'
  allocator_handler := fun he => absurd he (h.allocator_ne_handler hpc hin)
  pics_handler := fun he => absurd he (h.pics_ne_handler hpc hne)

/-- So does the handler, if it receives its packets outside the allocator. -/
theorem Inv.handler (h : s.Inv) {pc : HandlerPc} (hpc : s.handler = some pc)
    (hok : s.ReceivesOutside .handler) : (s.handlerStep pc).Inv := by
  have hen := h.enabled pc hpc
  have hpics := h.pics_free hen
  have hout : pc.inAllocator = false → s.allocator ≠ some .handler := h.allocator_ne_handler hpc
  have hnotify : pc ≠ .notifying → s.pics ≠ some .handler := h.pics_ne_handler hpc
  cases pc with
  | poll =>
    dsimp only [handlerStep]
    split
    · exact h.goes_on hpc rfl nofun rfl _ _
    · exact h.goes_on hpc rfl nofun rfl _ _
  | receive =>
    dsimp only [handlerStep]
    split
    · rename_i rest hpending
      refine ⟨fun _ => hpics, fun _ _ => hen, fun _ _ _ => hok rfl hpc (by rw [hpending]; rfl),
        fun he => absurd he (hout rfl), fun he => absurd he (hnotify nofun)⟩
    · exact ⟨fun _ => hpics, fun _ _ => hen, h.allocator_free, fun he => absurd he (hout rfl),
        fun he => absurd he (hnotify nofun)⟩
    · exact h.goes_on hpc rfl nofun rfl _ _
    · exact h.goes_on hpc rfl nofun rfl _ _
  | allocate =>
    dsimp only [handlerStep]
    split
    · exact ⟨fun _ => hpics, fun _ _ => hen, fun _ _ _ => nofun, fun _ => ⟨_, rfl, rfl⟩,
        fun he => absurd he (hnotify nofun)⟩
    · exact h
  | allocating | freeing =>
    exact ⟨fun _ => hpics, fun _ _ => hen, fun _ _ _ => nofun, nofun,
      fun he => absurd he (hnotify nofun)⟩
  | consume =>
    dsimp only [handlerStep]
    split
    · exact ⟨fun _ => hpics, fun _ _ => hen, fun _ _ _ => nofun, fun _ => ⟨_, rfl, rfl⟩,
        fun he => absurd he (hnotify nofun)⟩
    · exact h
  | endOfInterrupt =>
    dsimp only [handlerStep]
    split
    · exact ⟨fun _ => nofun, fun _ _ => hen, fun pc he hp => (by cases he; cases hp),
        fun he => absurd he (hout rfl), fun _ => rfl⟩
    · exact h
  | notifying =>
    exact ⟨fun _ => nofun, nofun, nofun,
      fun he => absurd he (hout rfl), nofun⟩

theorem Inv.step (h : s.Inv) (e : Event) (hok : s.ReceivesOutside e) : (s.step e).Inv := by
  cases e with
  | kernel op =>
    unfold Machine.step
    dsimp only
    split
    · rename_i hg
      exact h.kernel hg.1 hg.2
    · exact h
  | timer =>
    unfold Machine.step
    dsimp only
    split
    · rename_i hg
      refine ⟨h.pics_free, fun _ _ => hg.2, fun pc he hp => (by cases he; cases hp), ?_, ?_⟩
      · intro he
        obtain ⟨pc, hpc, _⟩ := h.allocator_handler he
        rw [hg.1] at hpc
        cases hpc
      · intro he
        have hpc := h.pics_handler he
        rw [hg.1] at hpc
        cases hpc
    · exact h
  | handler =>
    unfold Machine.step
    dsimp only
    split
    · rename_i pc hpc
      exact h.handler hpc hok
    · exact h
  | packet p =>
    exact ⟨h.pics_free, h.enabled, h.allocator_free, h.allocator_handler, h.pics_handler⟩

theorem not_waiting_step_iff (h : s.Inv) (e : Event) :
    ¬ (s.step e).Waiting ↔ s.ReceivesOutside e := by
  constructor
  · intro hnot he hpc hhead ha
    subst he
    obtain ⟨rest, hpending⟩ := List.head?_eq_some_iff.mp hhead
    have hstep : s.step .handler = { s with pending := rest, handler := some .allocate } := by
      unfold Machine.step
      rw [hpc]
      simp only [handlerStep, hpending]
    rw [hstep] at hnot
    exact hnot (.inl ⟨.inl rfl, ha⟩)
  · exact fun hok => (h.step e hok).not_waiting

/-! ## Runs -/

/-- The handler never waits at a lock that the code it interrupted holds iff it never receives a
payload while that code is inside the allocator. -/
theorem never_waiting_iff (es : List Event) :
    Throughout step (fun s => ¬ s.Waiting) boot es ↔ StepsMeet step ReceivesOutside boot es :=
  throughout_iff_stepsMeet (fun _ h => h.not_waiting) (fun _ e h => not_waiting_step_iff h e)
    (fun _ e h hok => h.step e hok) inv_boot

/-- An allocation is interrupted while a packet is there: the handler waits for ever. -/
theorem handler_waits : ([.kernel .lockPics, .kernel .unlockPics, .kernel .enable,
    .kernel .networkInit, .packet .payload, .kernel .lockAllocator, .timer, .handler,
    .handler].foldl step boot).Waiting := .inl ⟨.inl rfl, rfl⟩

/-! ## The end of the handler -/

/-- How many steps the handler takes at most. -/
def remaining (s : Machine) : Nat := 6 * s.pending.length + (s.handler.map HandlerPc.steps).getD 0

theorem Inv.allocator_eq_none (h : s.Inv) {pc : HandlerPc} (hpc : s.handler = some pc)
    (hhas : pc.hasPacket = true) (hin : pc.inAllocator = false) : s.allocator = none := by
  match ha : s.allocator with
  | none => rfl
  | some .kernel => exact absurd ha (h.allocator_free pc hpc hhas)
  | some .handler => exact absurd ha (h.allocator_ne_handler hpc hin)

theorem Inv.pics_eq_none (h : s.Inv) {pc : HandlerPc} (hpc : s.handler = some pc)
    (hne : pc ≠ .notifying) : s.pics = none := by
  match hp : s.pics with
  | none => rfl
  | some .kernel => exact absurd hp (h.pics_free (h.enabled pc hpc))
  | some .handler => exact absurd hp (h.pics_ne_handler hpc hne)

/-- A handler that does not wait gets nearer to its end. -/
theorem Inv.remaining_lt (h : s.Inv) {pc : HandlerPc} (hpc : s.handler = some pc) :
    (s.handlerStep pc).remaining < s.remaining := by
  have hs : s.remaining = 6 * s.pending.length + pc.steps := by rw [remaining, hpc]; rfl
  rw [hs]
  cases pc with
  | poll =>
    rw [handlerStep, apply_ite remaining]
    split <;> simp [remaining, HandlerPc.steps]
  | receive =>
    cases hpending : s.pending with
    | nil => simp [handlerStep, remaining, HandlerPc.steps, hpending]
    | cons p rest =>
      cases p with
      | payload | empty | badDescriptor =>
        simp only [handlerStep, remaining, HandlerPc.steps, hpc, hpending, List.length_cons,
          Option.map_some, Option.getD_some]
        omega
  | allocate =>
    rw [handlerStep, if_pos (h.allocator_eq_none hpc rfl rfl)]
    simp [remaining, HandlerPc.steps]
  | consume =>
    rw [handlerStep, if_pos (h.allocator_eq_none hpc rfl rfl)]
    simp [remaining, HandlerPc.steps]
  | endOfInterrupt =>
    have hne : HandlerPc.endOfInterrupt ≠ .notifying := by simp
    rw [handlerStep, if_pos (h.pics_eq_none hpc hne)]
    simp [remaining, HandlerPc.steps]
  | allocating | freeing | notifying => simp [handlerStep, remaining, HandlerPc.steps]

/-- The handler does not give the allocator to kernel code. -/
theorem handlerStep_allocator (pc : HandlerPc) (ha : s.allocator ≠ some .kernel) :
    (s.handlerStep pc).allocator ≠ some .kernel := by
  cases pc <;> dsimp only [handlerStep]
  case allocating | freeing | notifying => first | exact ha | exact nofun
  all_goals split <;> first | exact ha | exact nofun

theorem handlerStep_pending (pc : HandlerPc) : (s.handlerStep pc).pending ⊆ s.pending := by
  cases pc <;> dsimp only [handlerStep]
  case allocating | freeing | notifying => exact List.Subset.refl _
  case receive =>
    split <;> rename_i hpending <;> simp [hpending]
  all_goals split <;> exact List.Subset.refl _

/-- With kernel code outside the allocator, or no payload to receive, the handler comes to its end. -/
theorem handler_completes (h : s.Inv)
    (hfree : s.allocator ≠ some .kernel ∨ .payload ∉ s.pending) :
    ∃ n, ((List.replicate n Event.handler).foldl step s).handler = none := by
  induction hn : s.remaining using Nat.strongRecOn generalizing s with
  | _ n ih =>
    match hpc : s.handler with
    | none => exact ⟨0, hpc⟩
    | some pc =>
      have hstep : s.step .handler = s.handlerStep pc := by
        unfold Machine.step
        rw [hpc]
      have hok : s.ReceivesOutside .handler := by
        intro _ _ hhead
        exact hfree.resolve_right (fun hnot => hnot (List.mem_of_mem_head? hhead))
      have hfree' : (s.handlerStep pc).allocator ≠ some .kernel ∨
          .payload ∉ (s.handlerStep pc).pending :=
        hfree.imp (handlerStep_allocator pc) (fun hnot hmem => hnot (handlerStep_pending pc hmem))
      obtain ⟨m, hm⟩ := ih _ (hn ▸ h.remaining_lt hpc) (h.handler hpc hok) hfree' rfl
      refine ⟨m + 1, ?_⟩
      rw [List.replicate_succ, List.foldl_cons, hstep]
      exact hm

end Machine
end Interrupts
end OciKernel
