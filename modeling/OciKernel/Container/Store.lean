import OciKernel.Container.Runtime

/-!
# Container.Store

The container registry of `container/store.rs`, a `BTreeMap` from the raw id to the record.
-/

namespace OciKernel

open Text

structure ContainerRecord where
  id : ContainerId
  image : Str
  state : ContainerState
deriving DecidableEq, Repr

structure ContainerStore where
  entries : Std.TreeMap UInt64 ContainerRecord

namespace ContainerStore

def new : ContainerStore := ⟨∅⟩

def register (s : ContainerStore) (id : ContainerId) (image : Str) (state : ContainerState) :
    ContainerStore := ⟨s.entries.insert id.val ⟨id, image, state⟩⟩

def get (s : ContainerStore) (id : ContainerId) : Option ContainerRecord := s.entries[id.val]?

/-- `get_mut(id)` followed by `r.state = state` when there is a record. -/
def setState (s : ContainerStore) (id : ContainerId) (state : ContainerState) : ContainerStore :=
  ⟨s.entries.modify id.val fun r => { r with state }⟩

def remove (s : ContainerStore) (id : ContainerId) : Option ContainerRecord × ContainerStore :=
  (s.get id, ⟨s.entries.erase id.val⟩)

def runningCount (s : ContainerStore) : Nat :=
  (s.entries.values.filter fun r => r.state = .running).length

def all (s : ContainerStore) : List ContainerRecord := s.entries.values

/-- A record for `id` exists and is in state `Running`. -/
def isRunning (s : ContainerStore) (id : UInt64) : Bool :=
  (s.get ⟨id⟩).any fun r => r.state = .running

variable {s : ContainerStore} {id i : UInt64} {image : Str} {state : ContainerState}

theorem get_register : (s.register ⟨id⟩ image state).get ⟨i⟩ =
    if id = i then some ⟨⟨id⟩, image, state⟩ else s.get ⟨i⟩ := by
  simp [get, register, Std.TreeMap.getElem?_insert]

theorem get_setState : (s.setState ⟨id⟩ state).get ⟨i⟩ =
    if id = i then (s.get ⟨i⟩).map ({ · with state }) else s.get ⟨i⟩ := by
  simp only [get, setState, Std.TreeMap.getElem?_modify, Std.LawfulEqCmp.compare_eq_iff_eq]
  split
  · next h => subst h; rfl
  · rfl

theorem isRunning_register : (s.register ⟨id⟩ image .running).isRunning i =
    (decide (id = i) || s.isRunning i) := by
  rw [isRunning, get_register]
  by_cases h : id = i <;> simp [h, isRunning]

theorem isRunning_setState_stopped : (s.setState ⟨id⟩ .stopped).isRunning i =
    (!decide (id = i) && s.isRunning i) := by
  rw [isRunning, get_setState]
  by_cases h : id = i
  · cases s.get ⟨i⟩ <;> simp [h]
  · simp [h, isRunning]

theorem all_eq_toList (s : ContainerStore) : s.all = s.entries.toList.map Prod.snd := by
  have hall : s.all = s.entries.inner.inner.values := rfl
  have htoList : s.entries.toList =
      Std.DTreeMap.Internal.Impl.Const.toList s.entries.inner.inner := rfl
  rw [hall, htoList, Std.DTreeMap.Internal.Impl.values_eq_map_snd,
    Std.DTreeMap.Internal.Impl.Const.toList_eq_toListModel_map, List.map_map]
  rfl

theorem runningCount_eq (s : ContainerStore) :
    s.runningCount = (s.all.filter fun r => r.state = .running).length := rfl

/-- The registry lists its records in the order of their ids. -/
theorem all_eq_of_get {records : List ContainerRecord}
    (hsorted : records.Pairwise fun a b => a.id.val < b.id.val)
    (hget : ∀ i r, s.get ⟨i⟩ = some r ↔ r ∈ records ∧ r.id.val = i) : s.all = records := by
  have hentries : s.entries.toList = records.map fun r => (r.id.val, r) := by
    have hlt : s.entries.toList.Pairwise fun a b => a.1 < b.1 :=
      Std.TreeMap.ordered_keys_toList.imp Std.compare_eq_lt.1
    have hlt' : (records.map fun r => (r.id.val, r)).Pairwise fun a b => a.1 < b.1 :=
      List.pairwise_map.2 hsorted
    have hnd : ∀ {l : List (UInt64 × ContainerRecord)}, l.Pairwise (fun a b => a.1 < b.1) →
        l.Nodup := by
      intro l h
      exact h.imp fun hab he => absurd (he ▸ hab) (UInt64.lt_irrefl _)
    refine List.Perm.eq_of_pairwise ?_ hlt hlt' ?_
    · intro a b _ _ hab hba
      exact absurd hba (UInt64.lt_asymm hab)
    · rw [List.perm_ext_iff_of_nodup (hnd hlt) (hnd hlt')]
      rintro ⟨i, r⟩
      rw [Std.TreeMap.mem_toList_iff_getElem?_eq_some, List.mem_map]
      refine (hget i r).trans ?_
      constructor
      · rintro ⟨hr, rfl⟩
        exact ⟨r, hr, rfl⟩
      · rintro ⟨r', hr', he⟩
        cases he
        exact ⟨hr', rfl⟩
  rw [all_eq_toList, hentries, List.map_map]
  exact List.map_id _

end ContainerStore

end OciKernel
