import OciKernel.Lib.Profile
import OciKernel.Lib.Text

/-!
# Isolation.Namespace

What isolates a container beside its cgroup: the namespaces of `isolation/namespace.rs` and the
system-call filter of `isolation/seccomp.rs`, as `Container::create` builds them.

* `mapsHigh_iff`: which container ids the user namespace maps to an unprivileged host id.
* `SeccompFilter.defaultPolicy`: the system calls that every container is created with.
-/

namespace OciKernel

open Text

/-- PID namespace: the next PID to hand out, `1` in a fresh namespace. -/
structure PidNamespace where
  nextPid : UInt64
deriving DecidableEq, Repr

def PidNamespace.new : PidNamespace := ⟨1⟩

structure UtsNamespace where
  hostname : Str
  domainname : Str
deriving DecidableEq, Repr

def UtsNamespace.new : UtsNamespace := ⟨"container".toList, []⟩

/-- User namespace: container ids map to host ids by an offset. -/
structure UserNamespace where
  uidOffset : UInt32
  gidOffset : UInt32
deriving DecidableEq, Repr

def UserNamespace.new : UserNamespace := ⟨100000, 100000⟩

namespace UserNamespace

def containerToHostUid (ns : UserNamespace) (profile : Profile) (containerUid : UInt32) :
    Option UInt32 := profile.add32 ns.uidOffset containerUid

def containerToHostGid (ns : UserNamespace) (profile : Profile) (containerGid : UInt32) :
    Option UInt32 := profile.add32 ns.gidOffset containerGid

end UserNamespace

structure IpcNamespace where
  id : UInt64
deriving DecidableEq, Repr

def IpcNamespace.new : IpcNamespace := ⟨0⟩

structure Namespace where
  pid : PidNamespace
  uts : UtsNamespace
  user : UserNamespace
  ipc : IpcNamespace
deriving DecidableEq, Repr

def Namespace.newIsolated : Namespace := ⟨.new, .new, .new, .new⟩

/-! ## Host ids -/

/-- `id` has a host id, one from the offset on that no other id shares. -/
def MapsHigh (toHost : UInt32 → Option UInt32) (id : UInt32) : Prop :=
  ∃ host, toHost id = some host ∧ 100000 ≤ host ∧ ∀ id', toHost id' = some host → id' = id

/-- In either profile, no host id below the offset iff the sum stays in `u32`. -/
theorem mapsHigh_add32_iff (profile : Profile) (id : UInt32) :
    MapsHigh (profile.add32 100000) id ↔ id.toNat < 2 ^ 32 - 100000 := by
  have hoff : UInt32.toNat 100000 = 100000 := rfl
  have hid := id.toNat_lt
  constructor
  · rintro ⟨host, hhost, hhigh, -⟩
    have hle : 100000 ≤ host.toNat := UInt32.le_iff_toNat_le.1 hhigh
    rw [Profile.eq_of_checked hhost, UInt32.toNat_add, hoff] at hle
    by_contra hge
    have hwrap : (100000 + id.toNat) % 2 ^ 32 = 100000 + id.toNat - 2 ^ 32 := by
      rw [Nat.mod_eq_sub_mod (by omega), Nat.mod_eq_of_lt (by omega)]
    omega
  · intro hlt
    have hsum : UInt32.toNat 100000 + id.toNat < 2 ^ 32 := by omega
    refine ⟨100000 + id, Profile.checked_of_fits _ hsum, ?_, ?_⟩
    · rw [UInt32.le_iff_toNat_le, UInt32.toNat_add, Nat.mod_eq_of_lt hsum]
      omega
    · intro id' h
      exact (UInt32.add_right_inj 100000).1 (Profile.eq_of_checked h).symm

/-- A uid or gid maps to an unprivileged host id iff it is below `2 ^ 32 - 100000`. -/
theorem mapsHigh_iff (profile : Profile) (id : UInt32) :
    (MapsHigh (UserNamespace.new.containerToHostUid profile) id ↔ id.toNat < 2 ^ 32 - 100000) ∧
      (MapsHigh (UserNamespace.new.containerToHostGid profile) id ↔ id.toNat < 2 ^ 32 - 100000) :=
  ⟨mapsHigh_add32_iff profile id, mapsHigh_add32_iff profile id⟩

/-- The first id past the bound panics in one profile and is host root in the other. -/
theorem high_uid_is_root :
    UserNamespace.new.containerToHostUid .dev 4294867296 = none ∧
      UserNamespace.new.containerToHostUid .release 4294867296 = some 0 ∧
      ∀ profile, ¬ MapsHigh (UserNamespace.new.containerToHostUid profile) 4294867296 := by
  refine ⟨rfl, rfl, ?_⟩
  rintro profile ⟨host, hhost, hhigh, -⟩
  cases profile with
  | dev => cases hhost
  | release =>
    cases hhost
    exact absurd hhigh (by decide)

inductive Syscall where
  | read | write | open | close | stat | seek
  | mmap | munmap
  | spawn | exit | wait
  | socket | connect | bind | listen | accept | send | recv
  | loadKernelModule | modifyOtherNamespace | rawDiskAccess | killAny
deriving DecidableEq, Repr

/-- An allow-list of system calls. -/
structure SeccompFilter where
  allowed : List Syscall
deriving DecidableEq, Repr

namespace SeccompFilter

def defaultPolicy : SeccompFilter where
  allowed := [.read, .write, .open, .close, .stat, .seek, .mmap, .munmap, .spawn, .exit, .wait,
    .socket, .connect, .bind, .listen, .accept, .send, .recv]

end SeccompFilter

end OciKernel
