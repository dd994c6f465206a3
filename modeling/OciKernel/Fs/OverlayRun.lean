import OciKernel.Fs.OverlayFs
import OciKernel.Lib.Register

/-!
# Fs.OverlayRun

Runs of `write` and `remove` on an overlay mount.

* `applyAll`, `events`: where a run leads, and its trace.
* `LastWrite`, `Topmost`: the flat meaning of a path, from the trace and from the lower layers.
* `applyAll_semantics`: a mount after any run reads, tests and removes paths as its trace says.
* `remove_leaves_lower`: what a removal leaves of the path.
-/

namespace OciKernel

open Text

inductive OverlayOp where
  | write (path : Str) (data : Bytes)
  | remove (path : Str)

def OverlayOp.path : OverlayOp → Str
  | .write path _ => path
  | .remove path => path

/-- An operation with its result. -/
abbrev OverlayEvent := OverlayOp × Except FsError Unit

/-- What an event leaves in the upper layer at `p`: `none` if it does not touch that entry. -/
def setsUpper (p : Str) : OverlayEvent → Option (Option Bytes)
  | (.write path data, _) => if path = p then some (some data) else none
  | (.remove path, .ok ()) => if path = p then some none else none
  | (.remove _, .error _) => none

/-- `data` is what the last write of `p` stored, and no successful remove of `p` came after it. -/
def LastWrite (es : List OverlayEvent) (p : Str) (data : Bytes) : Prop :=
  Register.LastSet (setsUpper p) es (some data)

/-- `data` is the content of `p` in the topmost layer that has it; layers are listed bottom first. -/
def Topmost (lower : List MemLayer) (p : Str) (data : Bytes) : Prop :=
  Register.LastSet (fun l => l.read p) lower data

theorem MemLayer.exists_eq (l : MemLayer) (p : Str) : l.exists p = (l.read p).isSome :=
  Std.TreeMap.contains_eq_isSome_getElem?

theorem UpperLayer.exists_eq (u : UpperLayer) (p : Str) : u.exists p = (u.read p).isSome :=
  Std.TreeMap.contains_eq_isSome_getElem?

namespace OverlayMount

variable {m : OverlayMount} {lower : List MemLayer} {p q : Str} {data : Bytes} {e : FsError}

/-- `write` never fails. -/
def apply (m : OverlayMount) : OverlayOp → OverlayMount × Except FsError Unit
  | .write path data => (m.write path data, .ok ())
  | .remove path => m.remove path

def applyAll (m : OverlayMount) (ops : List OverlayOp) : OverlayMount := Transition.final apply m ops

def events (m : OverlayMount) (ops : List OverlayOp) : List OverlayEvent :=
  Transition.trace apply m ops

/-! ## One operation -/

@[simp] theorem write_lower (m : OverlayMount) (p : Str) (data : Bytes) :
    (m.write p data).lower = m.lower := rfl

/-- The copy-up is overwritten at once: only `data` at `p` is left of it. -/
theorem write_upper_read (m : OverlayMount) (p : Str) (data : Bytes) (q : Str) :
    (m.write p data).upper.read q = if p = q then some data else m.upper.read q := by
  have hinsert : ∀ (u : UpperLayer) (d : Bytes),
      (u.write p d).read q = if p = q then some d else u.read q := by
    intro u d
    simp only [UpperLayer.write, UpperLayer.read, Std.TreeMap.getElem?_insert,
      Std.LawfulEqCmp.compare_eq_iff_eq]
  rw [write]
  dsimp only
  rw [hinsert]
  split
  · rfl
  · rename_i hpq
    split
    · split
      · rw [hinsert, if_neg hpq]
      · rfl
    · rfl

@[simp] theorem remove_lower (m : OverlayMount) (p : Str) : (m.remove p).1.lower = m.lower := by
  unfold remove
  dsimp only
  split
  · rfl
  · split <;> rfl

/-- The entry goes whether or not there was one. -/
theorem remove_upper_read (m : OverlayMount) (p q : Str) :
    (m.remove p).1.upper.read q = if p = q then none else m.upper.read q := by
  have herase : (m.remove p).1.upper = ⟨m.upper.files.erase p⟩ := by
    unfold remove
    dsimp only
    split
    · rfl
    · split <;> rfl
  rw [herase]
  simp only [UpperLayer.read, Std.TreeMap.getElem?_erase, Std.LawfulEqCmp.compare_eq_iff_eq]

theorem remove_result (m : OverlayMount) (p : Str) :
    (m.remove p).2 = if m.upper.exists p then .ok ()
      else if m.lower.any fun l => l.exists p then .error .permissionDenied
      else .error .notFound := by
  rw [UpperLayer.exists_eq, UpperLayer.read]
  unfold remove
  dsimp only
  split
  · rfl
  · split <;> rfl

/-- Where the path is decides what a removal returns. -/
theorem remove_cases (m : OverlayMount) (p : Str) :
    m.upper.exists p = true ∧ (m.remove p).2 = .ok () ∨
    m.upper.exists p = false ∧ (m.lower.any fun l => l.exists p) = true ∧
      (m.remove p).2 = .error .permissionDenied ∨
    m.upper.exists p = false ∧ (m.lower.any fun l => l.exists p) = false ∧
      (m.remove p).2 = .error .notFound := by
  rw [remove_result]
  cases hu : m.upper.exists p with
  | true => exact .inl ⟨rfl, rfl⟩
  | false =>
    cases hl : m.lower.any fun l => l.exists p with
    | true => exact .inr (.inl ⟨rfl, rfl, rfl⟩)
    | false => exact .inr (.inr ⟨rfl, rfl, rfl⟩)

theorem remove_ok_iff : (m.remove p).2 = .ok () ↔ m.upper.exists p = true := by
  rcases m.remove_cases p with ⟨hu, hr⟩ | ⟨hu, _, hr⟩ | ⟨hu, _, hr⟩ <;> simp [hu, hr]

theorem remove_denied_iff : (m.remove p).2 = .error .permissionDenied ↔
    m.upper.exists p = false ∧ ∃ l ∈ m.lower, l.exists p = true := by
  rw [← List.any_eq_true]
  rcases m.remove_cases p with ⟨hu, hr⟩ | ⟨hu, hl, hr⟩ | ⟨hu, hl, hr⟩
  · simp [hu, hr]
  · simp [hu, hr, hl]
  · simp [hu, hr, hl]

theorem remove_notFound_iff : (m.remove p).2 = .error .notFound ↔
    m.upper.exists p = false ∧ ∀ l ∈ m.lower, l.exists p = false := by
  have hall : (∀ l ∈ m.lower, l.exists p = false) ↔ (m.lower.any fun l => l.exists p) = false := by
    simp
  rw [hall]
  rcases m.remove_cases p with ⟨hu, hr⟩ | ⟨hu, hl, hr⟩ | ⟨hu, hl, hr⟩
  · simp [hu, hr]
  · simp [hu, hr, hl]
  · simp [hu, hr, hl]

theorem apply_lower (m : OverlayMount) (op : OverlayOp) : (m.apply op).1.lower = m.lower := by
  cases op with
  | write path data => rfl
  | remove path => exact remove_lower m path

/-- An operation changes the entry of `p` as its event says. -/
theorem apply_upper_read (m : OverlayMount) (op : OverlayOp) (p : Str) :
    (m.apply op).1.upper.read p =
      (setsUpper p (op, (m.apply op).2)).getD (m.upper.read p) := by
  cases op with
  | write path data =>
    rw [apply, write_upper_read]
    simp only [setsUpper]
    split <;> rfl
  | remove path =>
    rw [apply, remove_upper_read]
    cases hr : (m.remove path).2 with
    | ok u =>
      simp only [setsUpper]
      split <;> rfl
    | error e =>
      -- the entry was not there
      have habsent : m.upper.read path = none := by
        have hne : ¬ (m.upper.exists path = true) := fun h => by
          rw [remove_ok_iff.2 h] at hr
          cases hr
        rw [UpperLayer.exists_eq] at hne
        simpa using hne
      simp only [setsUpper, Option.getD_none]
      split
      · rename_i hpq
        rw [← hpq, habsent]
      · rfl

/-! ## Reads and tests -/

theorem read_of_upper (h : m.upper.read p = some data) : m.read p = .ok data := by
  rw [read, h]

theorem read_of_lower (h : m.upper.read p = none) (ht : Topmost m.lower p data) :
    m.read p = .ok data := by
  rw [read, h, Register.findSome?_reverse_of_lastSet ht]

theorem read_of_absent (h : m.upper.read p = none) (hl : ∀ l ∈ m.lower, l.read p = none) :
    m.read p = .error .notFound := by
  rw [read, h, Register.findSome?_reverse_of_untouched hl]

theorem read_congr {m' : OverlayMount} (hl : m'.lower = m.lower)
    (hu : m'.upper.read p = m.upper.read p) : m'.read p = m.read p := by
  rw [read, read, hl, hu]

theorem exists_iff_read : m.exists p = true ↔ ∃ data, m.read p = .ok data := by
  rw [«exists», UpperLayer.exists_eq]
  cases hu : m.upper.read p with
  | some data => simp [read_of_upper hu]
  | none =>
    rcases Register.lastSet_or_untouched (fun l : MemLayer => l.read p) m.lower with ⟨data, ht⟩ | hl
    · rw [read_of_lower hu ht]
      obtain ⟨below, l, above, hlower, hl, _⟩ := ht
      simp [hlower, MemLayer.exists_eq, hl]
    · rw [read_of_absent hu hl]
      simpa [MemLayer.exists_eq] using hl

theorem not_exists_iff_read : m.exists p = false ↔ m.read p = .error .notFound := by
  rcases Bool.eq_false_or_eq_true (m.exists p) with h | h
  · obtain ⟨data, hd⟩ := exists_iff_read.1 h
    simp [h, hd]
  · have hnot : ¬ ∃ data, m.read p = .ok data := by rw [← exists_iff_read, h]; simp
    cases hr : m.read p with
    | ok data => exact absurd ⟨data, hr⟩ hnot
    | error e =>
      rw [read] at hr
      split at hr
      · cases hr
      · split at hr
        · cases hr
        · cases hr
          simp [h]

/-! ## Runs -/

theorem applyAll_lower (m : OverlayMount) (ops : List OverlayOp) :
    (m.applyAll ops).lower = m.lower :=
  Transition.final_invariant (P := fun m' => m'.lower = m.lower)
    (fun m' op h => (apply_lower m' op).trans h) rfl ops

/-- The upper layer at `p` is a register that the trace overwrites. -/
theorem applyAll_upper_read (m : OverlayMount) (ops : List OverlayOp) (p : Str) :
    (m.applyAll ops).upper.read p =
      Register.value (setsUpper p) (m.upper.read p) (m.events ops) :=
  Register.component_final (g := fun m => m.upper.read p) (fun m op => apply_upper_read m op p) m ops

/-- The upper layer of a mount that started empty: the last write, or nothing. -/
theorem applyAll_new_upper_read (lower : List MemLayer) (ops : List OverlayOp) (p : Str) :
    ((new lower).applyAll ops).upper.read p = some data ↔
      LastWrite ((new lower).events ops) p data := by
  rw [applyAll_upper_read]
  have hempty : (new lower).upper.read p = none := Std.TreeMap.getElem?_emptyc
  rw [hempty]
  exact Register.value_eq_iff (by simp)

/-- What a mount `m` over `lower` owes to its users after the trace `es`. -/
structure Semantics (lower : List MemLayer) (es : List OverlayEvent) (m : OverlayMount) : Prop where
  read_lastWrite : ∀ p data, LastWrite es p data → m.read p = .ok data
  read_topmost : ∀ p data, (¬ ∃ written, LastWrite es p written) → Topmost lower p data →
    m.read p = .ok data
  read_notFound : ∀ p, (¬ ∃ written, LastWrite es p written) →
    (∀ l ∈ lower, l.exists p = false) → m.read p = .error .notFound
  exists_iff : ∀ p, m.exists p = true ↔ ∃ data, m.read p = .ok data
  upper_iff : ∀ p, m.upper.exists p = true ↔ ∃ written, LastWrite es p written
  remove_ok : ∀ p, (m.remove p).2 = .ok () ↔ m.upper.exists p = true
  remove_denied : ∀ p, (m.remove p).2 = .error .permissionDenied ↔
    m.upper.exists p = false ∧ ∃ l ∈ lower, l.exists p = true
  remove_notFound : ∀ p, (m.remove p).2 = .error .notFound ↔
    m.upper.exists p = false ∧ ∀ l ∈ lower, l.exists p = false
  remove_error : ∀ p e, (m.remove p).2 = .error e → ∀ q, (m.remove p).1.read q = m.read q
  frame : ∀ op q, op.path ≠ q → (m.apply op).1.read q = m.read q

/-- Only the entry of the path it names can change under an operation. -/
theorem apply_read_of_ne (m : OverlayMount) {op : OverlayOp} (h : op.path ≠ q) :
    (m.apply op).1.read q = m.read q := by
  refine read_congr (apply_lower m op) ?_
  cases op with
  | write path data => exact (write_upper_read m path data q).trans (if_neg h)
  | remove path => exact (remove_upper_read m path q).trans (if_neg h)

theorem remove_read_of_error (h : (m.remove p).2 = .error e) (q : Str) :
    (m.remove p).1.read q = m.read q := by
  refine read_congr (remove_lower m p) ?_
  have hstep := apply_upper_read m (.remove p) q
  have hresult : (m.apply (.remove p)).2 = .error e := h
  rw [hresult] at hstep
  exact hstep

theorem applyAll_semantics (lower : List MemLayer) (ops : List OverlayOp) :
    Semantics lower ((new lower).events ops) ((new lower).applyAll ops) := by
  have hlower : ((new lower).applyAll ops).lower = lower := applyAll_lower _ _
  have hupper : ∀ p data, ((new lower).applyAll ops).upper.read p = some data ↔
      LastWrite ((new lower).events ops) p data := fun p _ => applyAll_new_upper_read lower ops p
  have habsent : ∀ p, (¬ ∃ written, LastWrite ((new lower).events ops) p written) →
      ((new lower).applyAll ops).upper.read p = none := by
    intro p h
    cases hr : ((new lower).applyAll ops).upper.read p with
    | none => rfl
    | some data => exact absurd ⟨data, (hupper p data).1 hr⟩ h
  generalize (new lower).applyAll ops = m at hlower hupper habsent
  subst hlower
  exact {
    read_lastWrite := fun p data h => read_of_upper ((hupper p data).2 h)
    read_topmost := fun p data h ht => read_of_lower (habsent p h) ht
    read_notFound := fun p h hl =>
      read_of_absent (habsent p h) fun l hm => by
        have := hl l hm
        rw [MemLayer.exists_eq] at this
        simpa using this
    exists_iff := fun p => exists_iff_read
    upper_iff := fun p => by
      rw [UpperLayer.exists_eq, Option.isSome_iff_exists]
      exact exists_congr fun data => hupper p data
    remove_ok := fun p => remove_ok_iff
    remove_denied := fun p => remove_denied_iff
    remove_notFound := fun p => remove_notFound_iff
    remove_error := fun p e h => remove_read_of_error h
    frame := fun op q h => apply_read_of_ne m h }

/-! ## What a successful removal leaves -/

theorem remove_upper_read_self (m : OverlayMount) (p : Str) : (m.remove p).1.upper.read p = none :=
  (remove_upper_read m p p).trans (if_pos rfl)

/-- Once the upper entry is gone, the path is gone iff no lower layer has it. -/
theorem gone_iff (m : OverlayMount) (p : Str) :
    ((m.remove p).1.exists p = false ∧ (m.remove p).1.read p = .error .notFound) ↔
      ∀ l ∈ m.lower, l.exists p = false := by
  have hexists : (m.remove p).1.exists p = m.lower.any fun l => l.exists p := by
    rw [«exists», UpperLayer.exists_eq, remove_upper_read_self, remove_lower]
    rfl
  rw [← not_exists_iff_read, and_self, hexists]
  simp

/-- A removal is one from the upper layer: in every reachable state, whether it returns `Ok` or not, it
leaves the path as the lower layers have it. -/
theorem remove_leaves_lower (lower : List MemLayer) (ops : List OverlayOp) (p : Str) :
    ((((new lower).applyAll ops).remove p).1.exists p = false ∧
      (((new lower).applyAll ops).remove p).1.read p = .error .notFound ↔
        ∀ l ∈ lower, l.exists p = false) ∧
    ∀ data, Topmost lower p data →
      (((new lower).applyAll ops).remove p).1.exists p = true ∧
        (((new lower).applyAll ops).remove p).1.read p = .ok data := by
  have hlower : ((new lower).applyAll ops).lower = lower := applyAll_lower _ _
  refine ⟨?_, fun data htop => ?_⟩
  · have hgone := gone_iff ((new lower).applyAll ops) p
    rwa [hlower] at hgone
  · have hread : (((new lower).applyAll ops).remove p).1.read p = .ok data :=
      read_of_lower (remove_upper_read_self _ p) (by rwa [remove_lower, hlower])
    exact ⟨exists_iff_read.2 ⟨data, hread⟩, hread⟩

/-- `/etc/hostname` written and removed on the kernel root: the removal succeeds, and the old name
is read again. -/
theorem removal_reveals_lower :
    let m := newKernelRoot.applyAll [.write "/etc/hostname".toList (ascii "box")]
    (m.remove "/etc/hostname".toList).2 = .ok () ∧
      (m.remove "/etc/hostname".toList).1.exists "/etc/hostname".toList = true ∧
      (m.remove "/etc/hostname".toList).1.read "/etc/hostname".toList = .ok (ascii "oci-kernel") := by
  decide

end OverlayMount

end OciKernel
