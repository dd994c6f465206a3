import OciKernel.Lib.Text

/-!
# Container.Spec

The description of a container, `container/spec.rs`: port mappings, volumes, resource limits and
restart policy. Sizes and counts of type `usize` are `Nat`.
-/

namespace OciKernel

open Text

/-- How a host port maps to a container port. -/
structure PortMapping where
  host : UInt16
  container : UInt16
deriving DecidableEq, Repr

/-- A live port-forward rule tracked by the kernel. -/
structure ActivePortForward where
  containerId : UInt64
  hostPort : UInt16
  containerPort : UInt16
deriving DecidableEq, Repr

inductive AccessMode where
  | readOnly
  | readWrite
deriving DecidableEq, Repr

structure VolumeMount where
  source : Str
  target : Str
  access : AccessMode
deriving DecidableEq, Repr

inductive RestartPolicy where
  | never
  | onFailure
  | always
deriving DecidableEq, Repr

inductive NetworkMode where
  | bridge
  | host
  | none
deriving DecidableEq, Repr

/-- Resource limits enforced by the cgroup. -/
structure ResourceLimits where
  /-- Hard limit; `0` is unlimited (256 MB default). -/
  memoryBytes : Nat
  /-- Max simultaneous processes. -/
  pidsMax : Nat
  /-- Relative CPU weight. -/
  cpuShares : UInt32
deriving DecidableEq, Repr

def ResourceLimits.default : ResourceLimits :=
  { memoryBytes := 256 * 1024 * 1024, pidsMax := 100, cpuShares := 1024 }

structure ContainerSpec where
  image : Str
  command : List Str
  env : List (Str × Str)
  ports : List PortMapping
  volumes : List VolumeMount
  network : NetworkMode
  resources : ResourceLimits
  restart : RestartPolicy
deriving DecidableEq, Repr

def ContainerSpec.new (image : Str) (command : List Str) : ContainerSpec :=
  { image, command, env := [], ports := [], volumes := [], network := .bridge,
    resources := .default, restart := .never }

end OciKernel
