import Mathlib.Data.List.Basic
import Mathlib.Order.Filter.AtTopBot.Basic

/-!
# Lib.Emit

Programs that write events while they run, over arbitrary types of states, events and results. A program
that does not return has written what it has written.

* `Follows`: each event of a list meets `safe` with those before it.
* `Triple`: the events follow, and the postcondition holds of all events, the state and the result.
* `Triple.bind`, `Triple.each`: a sequence of two, and of one program for every element of a list.
* `Settles`: with fuel enough, a program ends as a plain one that writes nothing. `Settles.bind`,
  `Settles.all`: so do their compositions.
-/

universe u

/-- The events written, and the result with the state it leaves. -/
def Emit (σ ω : Type u) (α : Type u) := σ → List ω × Option (α × σ)

namespace Emit

variable {σ ω α β : Type u}

def andThen (m : Emit σ ω α) (f : α → Emit σ ω β) : Emit σ ω β := fun s =>
  match m s with
  | (es, none) => (es, none)
  | (es, some (a, s)) => (es ++ (f a s).1, (f a s).2)

instance : Monad (Emit σ ω) where
  pure a s := ([], some (a, s))
  bind := andThen

def get : Emit σ ω σ := fun s => ([], some (s, s))

/-- Never return. -/
def abort : Emit σ ω α := fun _ => ([], none)

/-- Write these events and change the state. -/
def tell (es : List ω) (f : σ → σ) : Emit σ ω PUnit.{u + 1} := fun s => (es, some (⟨⟩, f s))

/-- One program for each element, one after the other. -/
def each {ι : Type u} (f : ι → Emit σ ω PUnit.{u + 1}) : List ι → Emit σ ω PUnit.{u + 1}
  | [] => pure ⟨⟩
  | i :: is => do
    f i
    each f is

section Rules

variable (safe : List ω → ω → Prop)

/-- Each of `es` is safe after `past` and those of `es` before it. -/
def Follows (past : List ω) : List ω → Prop
  | [] => True
  | e :: es => safe past e ∧ Follows (past ++ [e]) es

theorem follows_append {past es es' : List ω} : Follows safe past (es ++ es') ↔
    Follows safe past es ∧ Follows safe (past ++ es) es' := by
  induction es generalizing past with
  | nil => simp [Follows]
  | cons e es ih => simp [Follows, ih, and_assoc]

theorem follows_iff {past es : List ω} : Follows safe past es ↔
    ∀ before e after, es = before ++ e :: after → safe (past ++ before) e := by
  constructor
  · rintro h before e after rfl
    exact ((follows_append safe).1 h).2.1
  · intro h
    induction es generalizing past with
    | nil => trivial
    | cons e es ih =>
      have hfirst := h [] e es rfl
      rw [List.append_nil] at hfirst
      refine ⟨hfirst, ih fun before e' after he => ?_⟩
      rw [List.append_assoc]
      exact h (e :: before) e' after (congrArg (e :: ·) he)

/-- `P` is asked of the past events and the state, `Q` promised of all events, the state and the result. -/
def Triple (P : List ω → σ → Prop) (m : Emit σ ω α) (Q : List ω → σ → α → Prop) : Prop :=
  ∀ past s, P past s → Follows safe past (m s).1 ∧
    ∀ a s', (m s).2 = some (a, s') → Q (past ++ (m s).1) s' a

variable {safe} {P : List ω → σ → Prop} {m : Emit σ ω α} {R : List ω → σ → α → Prop}

/-- Where no event is unsafe, every program meets the empty specification. -/
theorem Triple.any : Triple (fun _ _ => True) P m fun _ _ _ => True :=
  fun _ _ _ => ⟨(follows_iff _).2 fun _ _ _ _ => True.intro, fun _ _ _ => True.intro⟩

theorem Triple.mono {Q : List ω → σ → α → Prop} (hm : Triple safe P m R)
    (h : ∀ past s a, R past s a → Q past s a) : Triple safe P m Q := by
  intro past s hP
  obtain ⟨hes, hR⟩ := hm past s hP
  exact ⟨hes, fun a s' he => h _ s' a (hR a s' he)⟩

theorem Triple.pure {Q : List ω → σ → α → Prop} {a : α} (h : ∀ past s, P past s → Q past s a) :
    Triple safe P (pure a) Q := by
  intro past s hP
  refine ⟨trivial, ?_⟩
  rintro _ _ ⟨⟩
  exact (List.append_nil past).symm ▸ h past s hP

theorem Triple.abort : Triple safe P abort R := by
  intro past s _
  refine ⟨trivial, ?_⟩
  rintro _ _ ⟨⟩

theorem Triple.get : Triple safe P get fun past s a => P past s ∧ a = s := by
  intro past s hP
  refine ⟨trivial, ?_⟩
  rintro _ _ ⟨⟩
  exact ⟨(List.append_nil past).symm ▸ hP, rfl⟩

theorem Triple.tell {Q : List ω → σ → Prop} {es : List ω} {f : σ → σ}
    (h : ∀ past s, P past s → Follows safe past es ∧ Q (past ++ es) (f s)) :
    Triple safe P (tell es f) fun past s _ => Q past s := by
  intro past s hP
  refine ⟨(h past s hP).1, ?_⟩
  rintro _ _ ⟨⟩
  exact (h past s hP).2

theorem Triple.bind {f : α → Emit σ ω β} {Q : List ω → σ → β → Prop} (hm : Triple safe P m R)
    (hf : ∀ a, Triple safe (fun past s => R past s a) (f a) Q) : Triple safe P (m >>= f) Q := by
  intro past s hP
  obtain ⟨hes, hR⟩ := hm past s hP
  change Follows safe past (andThen m f s).1 ∧
    ∀ b s', (andThen m f s).2 = some (b, s') → Q (past ++ (andThen m f s).1) s' b
  unfold andThen
  split
  · next es he =>
    rw [he] at hes
    refine ⟨hes, ?_⟩
    rintro _ _ ⟨⟩
  · next es a s₁ he =>
    rw [he] at hes hR
    obtain ⟨hes', hQ⟩ := hf a (past ++ es) s₁ (hR a s₁ rfl)
    refine ⟨(follows_append safe).2 ⟨hes, hes'⟩, fun b s' hb => ?_⟩
    rw [← List.append_assoc]
    exact hQ b s' hb

theorem Triple.each {ι : Type u} {I : List ω → σ → Prop} {f : ι → Emit σ ω PUnit.{u + 1}} {is : List ι}
    (h : ∀ i ∈ is, Triple safe I (f i) fun past s _ => I past s) :
    Triple safe I (each f is) fun past s _ => I past s := by
  induction is with
  | nil => exact .pure fun _ _ hI => hI
  | cons i is ih =>
    obtain ⟨hi, his⟩ := List.forall_mem_cons.1 h
    exact hi.bind fun _ => ih his

end Rules

/-! ## Programs with fuel -/

/-- The results of one program for each element. -/
def all {ι : Type u} (f : ι → Emit σ ω α) : List ι → Emit σ ω (List α)
  | [] => pure []
  | i :: is => do
    let a ← f i
    let as ← all f is
    pure (a :: as)

theorem bind_of_some {m : Emit σ ω α} {f : α → Emit σ ω β} {s s' : σ} {a : α} (h : (m s).2 = some (a, s')) :
    ((m >>= f) s).2 = (f a s').2 := by
  change (andThen m f s).2 = _
  unfold andThen
  split
  · next he =>
    rw [he] at h
    cases h
  · next he =>
    rw [he] at h
    cases h
    rfl

theorem bind_of_none {m : Emit σ ω α} {f : α → Emit σ ω β} {s : σ} (h : (m s).2 = none) :
    ((m >>= f) s).2 = none := by
  change (andThen m f s).2 = none
  unfold andThen
  split
  · rfl
  · next he =>
    rw [he] at h
    cases h

section Fuel

open Filter

variable {τ : Type u}

/-- With fuel enough, `m` does not return from `s`, or returns this result and leaves a related state. -/
def SettlesTo (R : σ → τ → Prop) (m : Nat → Emit σ ω α) (s : σ) : Option (α × τ) → Prop
  | none => ∀ᶠ fuel in atTop, (m fuel s).2 = none
  | some (a, t) => ∃ s', R s' t ∧ ∀ᶠ fuel in atTop, (m fuel s).2 = some (a, s')

/-- From related states `m` settles to what `f` gives. -/
def Settles (R : σ → τ → Prop) (m : Nat → Emit σ ω α) (f : StateT τ Option α) : Prop :=
  ∀ s t, R s t → SettlesTo R m s (f t)

variable {R : σ → τ → Prop}

/-- Once the first part returns, the second decides. -/
theorem settlesTo_bind {m : Nat → Emit σ ω α} {k : Nat → α → Emit σ ω β} {s s₁ : σ} {a : α}
    {r : Option (β × τ)} (hm : ∀ᶠ fuel in atTop, (m fuel s).2 = some (a, s₁))
    (hk : SettlesTo R (fun fuel => k fuel a) s₁ r) : SettlesTo R (fun fuel => m fuel >>= k fuel) s r := by
  cases r with
  | none =>
    unfold SettlesTo at hk ⊢
    filter_upwards [hm, hk] with fuel hfirst hsecond
    exact (bind_of_some hfirst).trans hsecond
  | some r =>
    obtain ⟨s', hR, hsecond⟩ := hk
    refine ⟨s', hR, ?_⟩
    filter_upwards [hm, hsecond] with fuel hfirst hsecond
    exact (bind_of_some hfirst).trans hsecond

theorem Settles.pure (a : α) : Settles R (fun _ => (pure a : Emit σ ω α)) (pure a) :=
  fun s _ hR => ⟨s, hR, .of_forall fun _ => rfl⟩

theorem Settles.abort : Settles R (fun _ => (abort : Emit σ ω α)) fun _ => none :=
  fun _ _ _ => .of_forall fun _ => rfl

theorem Settles.tell {es : List ω} {f : σ → σ} {g : τ → τ} (h : ∀ s t, R s t → R (f s) (g t)) :
    Settles R (fun _ => tell es f) (modify g) :=
  fun s t hR => ⟨f s, h s t hR, .of_forall fun _ => rfl⟩

theorem Settles.bind {m : Nat → Emit σ ω α} {f : StateT τ Option α} {k : Nat → α → Emit σ ω β}
    {g : α → StateT τ Option β} (hm : Settles R m f) (hk : ∀ a, Settles R (fun fuel => k fuel a) (g a)) :
    Settles R (fun fuel => m fuel >>= k fuel) (f >>= g) := by
  intro s t hR
  have hfirst := hm s t hR
  cases hf : f t with
  | none =>
    rw [hf] at hfirst
    have hnone : (f >>= g) t = none := congrArg (Option.bind · _) hf
    rw [hnone]
    filter_upwards [hfirst] with fuel hfuel
    exact bind_of_none hfuel
  | some r =>
    obtain ⟨a, t₁⟩ := r
    rw [hf] at hfirst
    obtain ⟨s₁, hR₁, hfirst⟩ := hfirst
    have hsome : (f >>= g) t = g a t₁ := congrArg (Option.bind · _) hf
    rw [hsome]
    exact settlesTo_bind hfirst (hk a s₁ t₁ hR₁)

/-- Where the first part settles to a value, the second may depend on it. -/
theorem Settles.bind_pure {m : Nat → Emit σ ω α} {a : α} {k : Nat → α → Emit σ ω β} {g : StateT τ Option β}
    (hm : Settles R m (Pure.pure a)) (hk : Settles R (fun fuel => k fuel a) g) :
    Settles R (fun fuel => m fuel >>= k fuel) g := by
  intro s t hR
  obtain ⟨s₁, hR₁, hfirst⟩ := hm s t hR
  exact settlesTo_bind hfirst (hk s₁ t hR₁)

/-- What is read of related states may differ. -/
theorem Settles.get {k : Nat → σ → Emit σ ω β} {g : τ → StateT τ Option β}
    (h : ∀ s t, R s t → Settles R (fun fuel => k fuel s) (g t)) :
    Settles R (fun fuel => get >>= k fuel) (getThe τ >>= g) :=
  fun s t hR => h s t hR s t hR

theorem Settles.all {ι : Type u} {m : Nat → ι → Emit σ ω α} {f : ι → StateT τ Option α} (is : List ι)
    (h : ∀ i, Settles R (fun fuel => m fuel i) (f i)) :
    Settles R (fun fuel => all (m fuel) is) (is.mapM f) := by
  induction is with
  | nil => exact .pure []
  | cons i is ih =>
    rw [List.mapM_cons]
    exact (h i).bind fun a => ih.bind fun as => .pure (a :: as)

end Fuel

end Emit
