import OciKernel.Container.Store
import OciKernel.Net.VSwitch

/-!
# Host.Getty

The shell commands of `host/shell.rs` and what `Getty::execute` of `host/getty.rs` does with them, on
the kernel-global state: the container registry, the port-forward table, the image and volume
registries, the root filesystem and the shell's working directory. What a command prints is not part
of the state.

`launch` is the code that the boot loop of `main.rs` and `container run` share: create, start,
register, then append one port-forward rule for each mapping.
-/

namespace OciKernel

open Text

inductive ShellCommand where
  | ls (path : Option Str)
  | cd (path : Str)
  | pwd
  | cat (path : Str)
  | echo (text : Str) (file : Option Str)
  | touch (path : Str)
  | mkdir (path : Str)
  | rm (path : Str)
  | clear
  | uname (all : Bool)
  | free
  | lsblk
  | df
  | ps
  | containerRun (image : Str) (ports : List PortMapping) (volumes : List VolumeMount)
  | containerStop (id : Str)
  | containerLogs (id : Str) (follow : Bool)
  | containerInspect (id : Str)
  | containerList
  | imagePull (name tag : Str)
  | imageList
  | imageRemove (name tag : Str)
  | volumeCreate (name : Str)
  | volumeRemove (name : Str)
  | kernelInfo
  | help
deriving DecidableEq, Repr

/-- The globals `STORE`, `PORT_FORWARDS`, `IMAGE_STORE`, `VOLUME_STORE`, `ROOT_FS` and `NEXT_ID`, and
the `cwd` of the shell. -/
structure Kernel where
  nextId : UInt64
  store : ContainerStore
  portForwards : List ActivePortForward
  imageStore : List (Str × Str)
  volumeStore : List Str
  rootFs : OverlayMount
  cwd : Str

namespace Kernel

/-- The state before the boot configuration is applied. -/
def init : Kernel :=
  { nextId := 1, store := .new, portForwards := [], imageStore := [], volumeStore := [],
    rootFs := .newKernelRoot, cwd := "/home/root".toList }

def launch (k : Kernel) (spec : ContainerSpec) : Kernel × Except StateError ContainerId :=
  let (c, nextId) := Container.create k.nextId spec
  match c.start with
  | .ok c =>
    ({ k with
        nextId
        store := k.store.register c.id spec.image .running
        portForwards := k.portForwards ++ spec.ports.map fun pm => ⟨c.id.val, pm.host, pm.container⟩ },
      .ok c.id)
  | .error e => ({ k with nextId }, .error e)

/-- Resolve a path against `cwd`, collapsing `.` and `..`. -/
def resolvePath (k : Kernel) (path : Str) : Str :=
  let raw := if path.head? = some '/' then path else k.cwd ++ "/".toList ++ path
  let parts := (raw.splitOn '/').foldl (fun parts seg =>
    if seg = [] ∨ seg = ".".toList then parts
    else if seg = "..".toList then parts.dropLast
    else parts ++ [seg]) []
  if parts = [] then "/".toList else parts.flatMap fun s => '/' :: s

/-- `str::as_bytes`. -/
def asBytes (s : Str) : Bytes := s.flatMap String.utf8EncodeChar

/-- `id.trim().parse::<u64>()`. -/
def parseId (id : Str) : Option ContainerId := do
  let n ← parseUnsigned (2 ^ 64) (trim id)
  some ⟨UInt64.ofNat n⟩

/-- The spec that `container run` builds from its arguments. -/
def runSpec (image : Str) (ports : List PortMapping) (volumes : List VolumeMount) : ContainerSpec :=
  { ContainerSpec.new image [] with ports, volumes }

def execute (k : Kernel) : ShellCommand → Kernel
  | .cd path =>
    let target := k.resolvePath path
    if k.rootFs.isDir target then { k with cwd := target } else k
  | .echo text file =>
    match file with
    | some dest => { k with rootFs := k.rootFs.write (k.resolvePath dest) (asBytes (text ++ ['\n'])) }
    | none => k
  | .touch path =>
    let p := k.resolvePath path
    if !k.rootFs.exists p then { k with rootFs := k.rootFs.write p [] } else k
  | .mkdir path =>
    let keep := OverlayMount.trimEndSlashes (k.resolvePath path) ++ "/.keep".toList
    { k with rootFs := k.rootFs.write keep [] }
  | .rm path =>
    -- the result only decides what is printed
    { k with rootFs := (k.rootFs.remove (k.resolvePath path)).1 }
  | .containerRun image ports volumes => (k.launch (runSpec image ports volumes)).1
  | .containerStop id =>
    match parseId id with
    | none => k
    | some n => { k with store := k.store.setState n .stopped }
  | .imagePull name tag =>
    if k.imageStore.contains (name, tag) then k
    else { k with imageStore := k.imageStore ++ [(name, tag)] }
  | .imageRemove name tag => { k with imageStore := k.imageStore.filter (· ≠ (name, tag)) }
  | .volumeCreate name =>
    if k.volumeStore.contains name then k else { k with volumeStore := k.volumeStore ++ [name] }
  | .volumeRemove name => { k with volumeStore := k.volumeStore.filter (· ≠ name) }
  -- the commands that only print
  | .ls _ | .pwd | .cat _ | .clear | .uname _ | .free | .lsblk | .df | .ps | .containerLogs _ _
  | .containerInspect _ | .containerList | .imageList | .kernelInfo | .help => k

/-! ## What a command can do to the registry and the port-forward table -/

/-- The state `launch` leaves, whose container always starts. -/
def launched (k : Kernel) (spec : ContainerSpec) : Kernel :=
  { k with
    nextId := k.nextId + 1
    store := k.store.register ⟨k.nextId⟩ spec.image .running
    portForwards := k.portForwards ++ spec.ports.map fun pm => ⟨k.nextId, pm.host, pm.container⟩ }

theorem launch_eq (k : Kernel) (spec : ContainerSpec) :
    k.launch spec = (k.launched spec, .ok ⟨k.nextId⟩) := rfl

/-- A command runs a container, stops one, or leaves registry, table and id counter alone. -/
theorem execute_cases (k : Kernel) (cmd : ShellCommand) :
    (∃ image ports volumes, cmd = .containerRun image ports volumes ∧
      k.execute cmd = k.launched (runSpec image ports volumes)) ∨
    (∃ id n, cmd = .containerStop id ∧ parseId id = some n ∧
      k.execute cmd = { k with store := k.store.setState n .stopped }) ∨
    ((∀ image ports volumes, cmd ≠ .containerRun image ports volumes) ∧
      (∀ id, cmd = .containerStop id → parseId id = none) ∧
      (k.execute cmd).store = k.store ∧ (k.execute cmd).portForwards = k.portForwards ∧
      (k.execute cmd).nextId = k.nextId) := by
  cases cmd with
  | containerRun image ports volumes =>
    exact .inl ⟨image, ports, volumes, rfl, by rw [execute, launch_eq]⟩
  | containerStop id =>
    cases hid : parseId id with
    | some n => exact .inr (.inl ⟨id, n, rfl, hid, by simp [execute, hid]⟩)
    | none =>
      refine .inr (.inr ⟨by simp, fun i hi => ?_, by simp [execute, hid]⟩)
      cases hi
      exact hid
  | cd path =>
    refine .inr (.inr ⟨by simp, by simp, ?_⟩)
    simp only [execute]; split <;> exact ⟨rfl, rfl, rfl⟩
  | echo text file =>
    refine .inr (.inr ⟨by simp, by simp, ?_⟩)
    cases file <;> exact ⟨rfl, rfl, rfl⟩
  | touch path =>
    refine .inr (.inr ⟨by simp, by simp, ?_⟩)
    simp only [execute]; split <;> exact ⟨rfl, rfl, rfl⟩
  | imagePull name tag =>
    refine .inr (.inr ⟨by simp, by simp, ?_⟩)
    simp only [execute]; split <;> exact ⟨rfl, rfl, rfl⟩
  | volumeCreate name =>
    refine .inr (.inr ⟨by simp, by simp, ?_⟩)
    simp only [execute]; split <;> exact ⟨rfl, rfl, rfl⟩
  | _ => exact .inr (.inr ⟨by simp, by simp, rfl, rfl, rfl⟩)

end Kernel

end OciKernel
