import OciKernel.Host.Lsblk
import OciKernel.Host.Shell
import OciKernel.Lib.Columns

/-!
# Host.Output

What `Getty::execute` of `host/getty.rs` prints for each command, in the state before the command.
-/

namespace OciKernel

open Text

/-- A number with `{}`. -/
def digits (n : Nat) : Str := Nat.toDigits 10 n

/-- `println` of a constant. -/
def say (s : String) : Str := println s.toList

def ContainerState.status : ContainerState → Str
  | .running => "running".toList
  | .created => "created".toList
  | .stopping => "stopping".toList
  | .stopped => "stopped".toList

/-- `,hostfwd=tcp::{}-:{}` -/
def hostfwd (host container : UInt16) : Str :=
  ",hostfwd=tcp::".toList ++ digits host.toNat ++ "-:".toList ++ digits container.toNat

namespace Kernel

/-! ## Files -/

def lsText (k : Kernel) (path : Option Str) : Str :=
  let dir := match path with
    | some p => k.resolvePath p
    | none => k.cwd
  let entries := k.rootFs.list dir
  if entries = [] then
    if !k.rootFs.isDir dir then println ("ls: ".toList ++ dir ++ ": No such file or directory".toList)
    else []
  else entries.flatMap println

def cdText (k : Kernel) (path : Str) : Str :=
  if k.rootFs.isDir (k.resolvePath path) then []
  else println ("cd: ".toList ++ path ++ ": No such directory".toList)

def catText (k : Kernel) (path : Str) : Str :=
  match k.rootFs.read (k.resolvePath path) with
  | .ok data =>
    match fromUtf8 data with
    | some s => s
    | none => println ("<binary file: ".toList ++ digits data.length ++ " bytes>".toList)
  | .error _ => println ("cat: ".toList ++ path ++ ": No such file or directory".toList)

def rmText (k : Kernel) (path : Str) : Str :=
  match (k.rootFs.remove (k.resolvePath path)).2 with
  | .ok () => []
  | .error .permissionDenied =>
    println ("rm: ".toList ++ path ++ ": permission denied (read-only layer)".toList)
  | .error _ => println ("rm: ".toList ++ path ++ ": No such file or directory".toList)

/-! ## System -/

def dfText (k : Kernel) : Str :=
  say "Filesystem   Type       Mounted on" ++ say "─────────────────────────────────────────────" ++
    say "rootfs       overlayfs  /          (in-memory)" ++
    say "tmpfs        overlayfs  /tmp       (in-memory)" ++
    println ('\n' :: digits (k.rootFs.list "/".toList).length ++
      " top-level directories/files in root overlay".toList)

def psText (k : Kernel) : Str :=
  say "PID   IMAGE                STATUS" ++ say "────  ───────────────────  ─────────" ++
    if k.store.all = [] then say "(no processes)"
    else (k.store.all.zipIdx 1).flatMap fun (r, pid) =>
      println (cell 4 (digits pid) ++ cell 19 r.image ++ r.state.status)

/-! ## Containers -/

/-- One line of `container list`. -/
def listRow (r : ContainerRecord) : Str :=
  cell 16 (digits r.id.val.toNat) ++ cell 19 r.image ++ r.state.status

def listText (k : Kernel) : Str :=
  if k.store.all = [] then say "No containers."
  else say "ID                IMAGE                STATUS" ++
    say "────────────────  ───────────────────  ─────────" ++ k.store.all.flatMap fun r => println (listRow r)

/-- The hints that follow when ports are mapped. -/
def accessText : List PortMapping → Str
  | [] => []
  | first :: rest =>
    ((first :: rest).flatMap fun pm => println ("  Port mapping: host:".toList ++
      digits pm.host.toNat ++ " → container:".toList ++ digits pm.container.toNat)) ++
    say "  Access:" ++
    println ("    QEMU only  : make qemu HOSTFWD=\"".toList ++
      ((first :: rest).flatMap fun pm => hostfwd pm.host pm.container) ++ "\"".toList) ++
    println ("                 curl http://localhost:".toList ++ digits first.host.toNat) ++
    println ("    Real HW    : connect to <machine-ip>:".toList ++ digits first.host.toNat) ++
    say "                 (no forwarding needed — direct NIC)"

def runText (k : Kernel) (image : Str) (ports : List PortMapping) (volumes : List VolumeMount) : Str :=
  match (k.launch (runSpec image ports volumes)).2 with
  | .ok id =>
    println ("Container ".toList ++ digits id.val.toNat ++ " started  image=".toList ++ image) ++
      accessText ports ++ say "  (M2: actual process needs image pull + overlayfs)"
  | .error e => println ("Error: ".toList ++ e.message.toList)

/-- The commands that name a container, each with what it says about a record. -/
def recordText (k : Kernel) (id : Str) (text : ContainerId → ContainerRecord → Str) : Str :=
  match parseId id with
  | none => say "Error: container ID must be a number."
  | some n =>
    match k.store.get n with
    | none => say "Error: container not found."
    | some r => text n r

def stopText (n : ContainerId) (_ : ContainerRecord) : Str :=
  println ("Container ".toList ++ digits n.val.toNat ++ " stopped.".toList)

def inspectText (_ : ContainerId) (r : ContainerRecord) : Str :=
  println ("ID:     ".toList ++ digits r.id.val.toNat) ++ println ("Image:  ".toList ++ r.image) ++
    println ("Status: ".toList ++ r.state.status)

def logsText (_ : ContainerId) (r : ContainerRecord) : Str :=
  let id := digits r.id.val.toNat
  println ("[boot ] Container ".toList ++ id ++ " (".toList ++ r.image ++ ") starting...".toList) ++
    println ("[boot ] Container ".toList ++ id ++ " started  pid=1".toList) ++
    (if r.state = .stopped then println ("[event] Container ".toList ++ id ++ " stopped.".toList) else []) ++
    say "(M2: live process stdout will stream here)"

/-! ## Images and volumes -/

def imageListText (k : Kernel) : Str :=
  if k.imageStore = [] then say "No images. Use 'image pull <name:tag>' to add one."
  else say "REPOSITORY           TAG" ++ say "───────────────────  ──────────" ++
    k.imageStore.flatMap fun (name, tag) => println (cell 19 name ++ tag)

def nameTag (name tag : Str) : Str := name ++ ":".toList ++ tag

def imagePullText (k : Kernel) (name tag : Str) : Str :=
  println ("Pulling ".toList ++ nameTag name tag ++ "...".toList) ++
    say "  (M2: HTTPS + OCI registry pull not yet wired)" ++
    if !k.imageStore.contains (name, tag) then
      println ("Cached ".toList ++ nameTag name tag ++ " locally.".toList)
    else println (nameTag name tag ++ " already present.".toList)

def imageRemoveText (k : Kernel) (name tag : Str) : Str :=
  if (k.imageStore.filter (· ≠ (name, tag))).length < k.imageStore.length then
    println ("Removed ".toList ++ nameTag name tag ++ ".".toList)
  else println (nameTag name tag ++ " not found.".toList)

def volumeText (name : Str) (outcome : String) : Str :=
  println ("Volume '".toList ++ name ++ "' ".toList ++ outcome.toList)

def volumeCreateText (k : Kernel) (name : Str) : Str :=
  if k.volumeStore.contains name then volumeText name "already exists." else volumeText name "created."

def volumeRemoveText (k : Kernel) (name : Str) : Str :=
  if (k.volumeStore.filter (· ≠ name)).length < k.volumeStore.length then volumeText name "removed."
  else volumeText name "not found."

/-! ## Kernel and help -/

def forwardRow (r : ActivePortForward) : Str :=
  "  ctr ".toList ++ digits r.containerId.toNat ++ " : host:".toList ++ digits r.hostPort.toNat ++
    " → container:".toList ++ digits r.containerPort.toNat

/-- The value of `HOSTFWD` for all rules. -/
def hostfwds (k : Kernel) : Str := k.portForwards.flatMap fun r => hostfwd r.hostPort r.containerPort

def infoText (k : Kernel) : Str :=
  say "OCI Kernel 0.1.0  arch=x86_64  build=no_std" ++ say "Heap: 8MB at 0xFFFF_C000_0000_0000" ++
    say "Net:  smoltcp 0.11 / virtio-net / 10.0.2.15/24" ++
    say "      QEMU SLIRP NAT — gateway 10.0.2.2" ++
    if k.portForwards = [] then say "Ports: (none — use 'container run -p host:ctr')"
    else say "Ports:" ++ (k.portForwards.flatMap fun r => println (forwardRow r)) ++
      println ("  QEMU: make qemu HOSTFWD=\"".toList ++ k.hostfwds ++ "\"".toList) ++
      say "  Real HW: access via <machine-ip>:<host-port> directly"

def helpText : Str :=
  ["Filesystem:", "  ls [path]     cd [path]     pwd", "  cat <file>    echo <text> [> file]",
    "  touch <file>  mkdir <dir>   rm <file>", "System:", "  uname [-a]    free          df",
    "  lsblk         ps            clear", "Containers:",
    "  container run <image> [-p host:ctr] [-v src:dst[:ro]]", "  container list | ls | ps",
    "  container stop <id> | inspect <id> | logs <id>", "  container pull <name:tag>", "Images:",
    "  image pull <name:tag> | list | rm <name:tag>", "Volumes:", "  volume create <name> | rm <name>",
    "Kernel:", "  kernel info"].flatMap say

/-- What the command prints. The latch that `lsblk` leaves in the host bridge is set again before it is
used again. -/
def output (k : Kernel) (pci : PciBus) : ShellCommand → Str
  | .ls path => k.lsText path
  | .cd path => k.cdText path
  | .pwd => println k.cwd
  | .cat path => k.catText path
  | .echo text file => if file.isSome then [] else println text
  | .touch _ | .mkdir _ => []
  | .rm path => k.rmText path
  -- erase the screen, cursor home
  | .clear => "\x1b[2J\x1b[H".toList
  | .uname all => if all then say "OCI Kernel 0.1.0 oci-kernel 0.1.0 #1 SMP x86_64" else say "OCI Kernel"
  | .free => say "              total" ++ println ("Heap:      ".toList ++
      (digits (8 * 1024 * 1024 / 1024)).leftpad 8 ' ' ++ " KB  (at 0xFFFF_C000_0000_0000)".toList)
  | .lsblk => (OciKernel.lsblk pci).1.flatMap println
  | .df => k.dfText
  | .ps => k.psText
  | .containerRun image ports volumes => k.runText image ports volumes
  | .containerStop id => k.recordText id stopText
  | .containerLogs id _ => k.recordText id logsText
  | .containerInspect id => k.recordText id inspectText
  | .containerList => k.listText
  | .imagePull name tag => k.imagePullText name tag
  | .imageList => k.imageListText
  | .imageRemove name tag => k.imageRemoveText name tag
  | .volumeCreate name => k.volumeCreateText name
  | .volumeRemove name => k.volumeRemoveText name
  | .kernelInfo => k.infoText
  | .help => helpText

end Kernel

end OciKernel
