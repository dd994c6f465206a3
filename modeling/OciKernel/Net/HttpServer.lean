import OciKernel.Net.Tls

/-!
# Net.HttpServer

The kernel's HTTP responder, `net/mod.rs`: the listening socket, `serve_http_once` and the timer's
`poll`, which share one network stack with `https_request`. The stack is a third-party package, so its
calls are a parameter, as for the client.

A call of `serve_http_once` or `poll` is one step: it holds the lock of `NETWORK` for as long as it
touches the stack, and gives up at once when the lock is taken.
-/

namespace OciKernel

/-- The calls of the network stack that the server makes besides those of the client. -/
structure HttpStack (S H : Type) extends TcpStack S H where
  listen : S → H → UInt16 → S × Except Unit Unit
  canRecv : S → H → Bool
  /-- `socket.recv(|buf| (buf.len(), buf.len()))`: how many bytes were taken. -/
  recv : S → H → S × Except Unit Nat
  /-- How many received bytes the socket holds. -/
  recvQueue : S → H → Nat
  canSend : S → H → Bool
  close : S → H → S

/-- The globals of the module: `NETWORK` and whether its lock is taken, `HTTP_HANDLE`, `NET_TICKS`,
`HTTP_PORT` and `HTTP_RESPONDED`. -/
structure NetMod (S H : Type) where
  network : Option S
  locked : Bool
  httpHandle : Option H
  netTicks : UInt64
  httpPort : UInt16
  httpResponded : Bool

namespace NetMod

/-- What `init` leaves. -/
def init {S H : Type} (stack : S) : NetMod S H :=
  { network := some stack, locked := false, httpHandle := none, netTicks := 0, httpPort := 0,
    httpResponded := false }

def HTTP_RESPONSE : String :=
  "HTTP/1.0 200 OK\r\n" ++
  "Content-Type: text/html\r\n" ++
  "Connection: close\r\n" ++
  "\r\n" ++
  "<!DOCTYPE html><html>" ++
  "<head><title>Welcome to nginx! -- OCI Kernel</title></head>" ++
  "<body>" ++
  "<h1>Welcome to nginx!</h1>" ++
  "<p><strong>OCI Kernel 0.1.0</strong> -- the kernel IS the container runtime.</p>" ++
  "<p>Container: <code>nginx:latest</code> (id 1) -- Port 80</p>" ++
  "<hr/>" ++
  "<p><em>Milestone 2 will proxy traffic to the real nginx process.<br/>" ++
  "This response is served directly by the kernel TCP stack.</em></p>" ++
  "</body></html>"

/-- `HTTP_RESPONSE` is a byte string. -/
def httpResponse : List UInt8 := HTTP_RESPONSE.toList.map fun c => c.toNat.toUInt8

section

variable {S H : Type} (N : HttpStack S H)

/-- `NetworkStack::setup_tcp_listener`. -/
def setupTcpListener (stack : S) (port : UInt16) : S × H :=
  let (stack, handle) := N.add stack 1536 1536
  let (stack, _) := N.listen stack handle port
  (stack, handle)

/-- The handle is stored by the first call only. -/
def setupHttpListener (g : NetMod S H) (port : UInt16) : NetMod S H :=
  let g := { g with httpPort := port }
  match g.network with
  | none => g
  | some stack =>
    let (stack, handle) := setupTcpListener N stack port
    { g with network := some stack, httpHandle := g.httpHandle.or (some handle) }

/-- The loop that drains the request. A round that goes on has taken a byte, so `recvQueue` rounds and
the last one suffice. -/
def drain (h : H) : Nat → S → S
  | 0, stack => stack
  | rounds + 1, stack =>
    match N.recv stack h with
    | (stack, .ok 0) | (stack, .error _) => stack
    | (stack, .ok _) => if !N.canRecv stack h then stack else drain h rounds stack

/-- The `match socket.state()` of `serve_http_once`, after its poll. -/
def serveSocket (g : NetMod S H) (h : H) (stack : S) : NetMod S H :=
  match N.state stack h with
  | .closed | .timeWait =>
    let (stack, _) := N.listen stack h g.httpPort
    { g with network := some stack, httpResponded := false }
  | .established =>
    if !g.httpResponded then
      if N.canRecv stack h then
        let stack := drain N h (N.recvQueue stack h + 1) stack
        if N.canSend stack h then
          let (stack, _) := N.sendSlice stack h httpResponse
          let stack := N.close stack h
          { g with network := some stack, httpResponded := true }
        else { g with network := some stack }
      else { g with network := some stack }
    else { g with network := some stack }
  | _ => { g with network := some stack }

/-- `NET_TICKS.fetch_add(1)` and `stack.poll` at that instant. -/
def tick (g : NetMod S H) (stack : S) : NetMod S H × S :=
  ({ g with netTicks := g.netTicks + 1 }, N.poll stack (.fromMillis g.netTicks.toInt64))

def serveHttpOnce (g : NetMod S H) : NetMod S H :=
  match g.network with
  | none => g
  | some stack =>
    match g.httpHandle with
    | none => g
    | some h =>
      if g.locked then g
      else
        let (g, stack) := tick N g stack
        serveSocket N g h stack

def poll (g : NetMod S H) : NetMod S H :=
  match g.network with
  | none => g
  | some stack =>
    if g.locked then g
    else
      let (g, stack) := tick N g stack
      { g with network := some stack }

end

end NetMod

end OciKernel
