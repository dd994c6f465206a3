import OciKernel.Lib.Text
import Mathlib.Data.List.Basic

/-!
# Fs.OverlayFs

The in-memory overlay filesystem of `fs/overlayfs.rs`: read-only lower layers, bottom first, under
one writable upper layer. A layer maps whole paths to file contents.
-/

namespace OciKernel

open Text

abbrev Bytes := List UInt8

/-- `BTreeMap<String, Vec<u8>>`. -/
abbrev Files := Std.TreeMap Str Bytes

inductive FsError where
  | notFound
  | permissionDenied
  | alreadyExists
deriving DecidableEq, Repr

/-- The bytes of an ASCII literal. -/
def ascii (s : String) : Bytes := s.toList.map fun c => c.toNat.toUInt8

structure MemLayer where
  files : Files

namespace MemLayer

def new : MemLayer := ⟨∅⟩

def insert (l : MemLayer) (path : Str) (data : Bytes) : MemLayer := ⟨l.files.insert path data⟩

def read (l : MemLayer) (path : Str) : Option Bytes := l.files[path]?

def «exists» (l : MemLayer) (path : Str) : Bool := l.files.contains path

end MemLayer

structure UpperLayer where
  files : Files

namespace UpperLayer

def new : UpperLayer := ⟨∅⟩

def read (l : UpperLayer) (path : Str) : Option Bytes := l.files[path]?

def write (l : UpperLayer) (path : Str) (data : Bytes) : UpperLayer := ⟨l.files.insert path data⟩

def «exists» (l : UpperLayer) (path : Str) : Bool := l.files.contains path

end UpperLayer

structure OverlayMount where
  lower : List MemLayer
  upper : UpperLayer

namespace OverlayMount

def new (lower : List MemLayer) : OverlayMount := ⟨lower, .new⟩

/-- The one layer of the kernel root filesystem. -/
def kernelRootLayer : MemLayer :=
  [("/etc/hostname", "oci-kernel"),
   ("/etc/os-release",
     "NAME=OCI Kernel\nVERSION=0.1.0\nID=oci-kernel\nPRETTY_NAME=OCI Kernel 0.1.0\n"),
   ("/etc/motd", "Welcome to OCI Kernel 0.1.0\nThe kernel IS the container runtime.\n" ++
     "Type 'help' for available commands.\n"),
   ("/proc/version", "OCI Kernel 0.1.0 (x86_64 no_std Rust) #1"),
   ("/proc/cpuinfo", "processor\t: 0\nmodel name\t: x86_64\n"),
   ("/home/root/.profile", "# OCI Kernel root profile\n"),
   ("/home/root/readme.txt",
     "OCI Kernel 0.1.0 - a Rust bare-metal OCI container runtime kernel.\n" ++
     "Type 'help' for shell commands.\n"),
   ("/var/log/kernel.log", "[boot] OCI Kernel 0.1.0 initialized\n"),
   ("/dev/.keep", ""), ("/tmp/.keep", ""), ("/bin/.keep", ""), ("/var/.keep", ""),
   ("/var/log/.keep", "")].foldl
    (fun l (path, data) => l.insert path.toList (ascii data)) MemLayer.new

def newKernelRoot : OverlayMount := new [kernelRootLayer]

/-- Read from the lower layers only, top first. -/
def readLower (m : OverlayMount) (path : Str) : Option Bytes :=
  m.lower.reverse.findSome? fun l => l.read path

def read (m : OverlayMount) (path : Str) : Except FsError Bytes :=
  match m.upper.read path with
  | some data => .ok data
  | none =>
    match m.lower.reverse.findSome? fun l => l.read path with
    | some data => .ok data
    | none => .error .notFound

/-- Copy up from the lower layers first, then overwrite. -/
def write (m : OverlayMount) (path : Str) (data : Bytes) : OverlayMount :=
  let upper :=
    if !m.upper.exists path then
      match m.readLower path with
      | some existing => m.upper.write path existing
      | none => m.upper
    else m.upper
  { m with upper := upper.write path data }

def remove (m : OverlayMount) (path : Str) : OverlayMount × Except FsError Unit :=
  let removed := m.upper.files[path]?
  let m := { m with upper := ⟨m.upper.files.erase path⟩ }
  if removed.isSome then (m, .ok ())
  else if m.lower.any fun l => l.exists path then (m, .error .permissionDenied)
  else (m, .error .notFound)

def «exists» (m : OverlayMount) (path : Str) : Bool :=
  if m.upper.exists path then true else m.lower.any fun l => l.exists path

/-- `path.trim_end_matches('/')`. -/
def trimEndSlashes (path : Str) : Str := path.rdropWhile (· == '/')

def isDir (m : OverlayMount) (path : Str) : Bool :=
  if path = "/".toList then true
  else
    let pre := trimEndSlashes path ++ "/".toList
    m.upper.files.keys.any pre.isPrefixOf ||
      m.lower.any fun l => l.files.keys.any pre.isPrefixOf

/-- One round of the loop of `list`: the entry that a stored path gives. -/
def listEntry (pre : Str) (all : List Str) (path : Str) : Option Str :=
  match pre.isPrefixOf? path with
  | none => none
  | some rel =>
    if rel = [] then none
    else if rel.head? = some '.' then none
    else
      -- `rel.split('/').next()`
      let component := rel.takeWhile (· ≠ '/')
      if component = [] then none
      else
        let subdir := pre ++ component ++ "/".toList
        if all.any subdir.isPrefixOf then some (component ++ "/".toList) else some component

def list (m : OverlayMount) (dir : Str) : List Str :=
  let pre := if dir = "/".toList then "/".toList else trimEndSlashes dir ++ "/".toList
  let all := m.upper.files.keys ++ m.lower.flatMap fun l => l.files.keys
  let seen : Std.TreeSet Str := all.foldl
    (fun seen path =>
      match listEntry pre all path with
      | some entry => seen.insert entry
      | none => seen) ∅
  seen.toList

end OverlayMount

end OciKernel
