import Mathlib.Logic.Function.Basic
import Sylar.Machine.Path
import Sylar.Model.Address.Address

/-! # `Socket`: the descriptor and the cached addresses

The system calls decide what they return, and each step is labelled with it. A descriptor has a local address from
the start and keeps the one it is bound or connected with. Socket options, `listen` and the transfer of data leave
all of this alone.
-/

namespace Sylar

/-- A descriptor the kernel has open. -/
structure KernelSocket where
  name : Address
  /-- It is bound or connected. -/
  named : Bool
deriving DecidableEq, Repr

/-- Binding or connecting gives a local address to a descriptor that is neither. -/
def KernelSocket.assign (name : Address) (d : KernelSocket) : KernelSocket :=
  if d.named then d else ⟨name, true⟩

/-- What the system calls that a step may make return. Those that open, bind or connect say which local address the
kernel has chosen; `getpeername` says the address, `getsockname` only whether it succeeds. -/
structure Calls where
  socket : Option (ℕ × Address)
  bind : Option Address
  connect : Option Address
  connect_with_timeout : Option Address
  getsockname : Bool
  getpeername : Option Address

structure Socket where
  m_sock : ℤ
  m_family : BitVec 32
  m_isConnected : Bool
  m_localAddress : Option Address
  m_remoteAddress : Option Address
  /-- The descriptors of this `Socket` that are open. -/
  kernel : ℤ → Option KernelSocket

namespace Socket

variable (calls : Calls)

/-! ## Descriptors -/

def isValid (s : Socket) : Bool := s.m_sock ≠ -1

/-- The open descriptor behind `m_sock`. -/
def descriptor (s : Socket) : Option KernelSocket := s.kernel s.m_sock

def newSock (s : Socket) : Socket :=
  match calls.socket with
  | some (fd, name) => { s with m_sock := fd, kernel := Function.update s.kernel fd (some ⟨name, false⟩) }
  | none => { s with m_sock := -1 }

/-- What the kernel does in a `bind` or a `connect` that succeeds. -/
def assign (name : Address) (s : Socket) : Socket :=
  { s with kernel := Function.update s.kernel s.m_sock (s.descriptor.map (·.assign name)) }

def close (s : Socket) : Bool × Socket :=
  if !s.m_isConnected && s.m_sock = -1 then (true, s)
  else
    let s := { s with m_isConnected := false }
    if s.m_sock ≠ -1 then (false, { s with m_sock := -1, kernel := Function.update s.kernel s.m_sock none })
    else (false, s)

/-! ## Addresses -/

/-- `getsockname(m_sock, …)`. -/
def getsockname (s : Socket) : Option Address := if calls.getsockname then s.descriptor.map (·.name) else none

def getLocalAddress (s : Socket) : Address × Socket :=
  match s.m_localAddress with
  | some address => (address, s)
  | none =>
      match s.getsockname calls with
      | none => (UnknownAddress.new s.m_family, s)
      | some result => (result, { s with m_localAddress := some result })

def getRemoteAddress (s : Socket) : Address × Socket :=
  match s.m_remoteAddress with
  | some address => (address, s)
  | none =>
      match calls.getpeername with
      | none => (UnknownAddress.new s.m_family, s)
      | some result => (result, { s with m_remoteAddress := some result })

/-! ## Construction -/

/-- `Socket(family, …)`. -/
def new (family : BitVec 32) : Socket where
  m_sock := -1
  m_family := family
  m_isConnected := false
  m_localAddress := none
  m_remoteAddress := none
  kernel _ := none

/-- `CreateUDP`, `CreateUDPSocket` and `CreateUDPSocket6`. -/
def createUDP (family : BitVec 32) : Socket := { (new family).newSock calls with m_isConnected := true }

/-- `accept`, for a descriptor that the kernel has given this address. `ctx` says that the manager of descriptors
knows it as an open socket. -/
def accept (family : BitVec 32) (newsock : ℕ) (name : Address) (ctx : Bool) : Option Socket :=
  if ctx then
    let s := { new family with
      m_sock := newsock
      m_isConnected := true
      kernel := Function.update (fun _ => none) ↑newsock (some ⟨name, true⟩) }
    some (((s.getLocalAddress calls).2.getRemoteAddress calls).2)
  else none

/-! ## `bind` and `connect` -/

/-- `::connect`, or `::connect_with_timeout` if there is one. -/
def connecting (timeout_ms : BitVec 64) : Option Address :=
  if timeout_ms = -1 then calls.connect else calls.connect_with_timeout

def connect (addr : Address) (timeout_ms : BitVec 64) (s : Socket) : Bool × Socket :=
  let s := { s with m_remoteAddress := some addr }
  let s := if s.isValid then s else s.newSock calls
  if !s.isValid then (false, s)
  else if addr.getFamily ≠ s.m_family then (false, s)
  else
    match connecting calls timeout_ms with
    | none => (false, s.close.2)
    | some name =>
        let s := { s.assign name with m_isConnected := true }
        let s := (s.getRemoteAddress calls).2
        (true, (s.getLocalAddress calls).2)

def reconnect (timeout_ms : BitVec 64) (s : Socket) : Bool × Socket :=
  match s.m_remoteAddress with
  | none => (false, s)
  | some addr => connect calls addr timeout_ms { s with m_localAddress := none }

/-- A `Socket` of its own finds out whether something listens on the path of a `UnixAddress`. -/
def listens (addr : Address) : Bool :=
  match addr with
  | .unix _ _ => (connect calls addr (-1) (new (AF_UNIX.setWidth 32))).1
  | _ => false

/-- `bind`; `probe` are the calls of the `Socket` that tries a `UnixAddress`. -/
def bind (probe : Calls) (addr : Address) (s : Socket) : Bool × Socket :=
  let s := if s.isValid then s else s.newSock calls
  if !s.isValid then (false, s)
  else if addr.getFamily ≠ s.m_family then (false, s)
  else if listens probe addr then (false, s)
  else
    match calls.bind with
    | none => (false, s)
    | some name => (true, ((s.assign name).getLocalAddress calls).2)

/-! ## Runs -/

inductive Action where
  | bind (addr : Address) (probe : Calls)
  | connect (addr : Address) (timeout_ms : BitVec 64)
  | reconnect (timeout_ms : BitVec 64)
  | close
  | getLocalAddress

def perform (s : Socket) : Action → Socket
  | .bind addr probe => (s.bind calls probe addr).2
  | .connect addr timeout_ms => (s.connect calls addr timeout_ms).2
  | .reconnect timeout_ms => (s.reconnect calls timeout_ms).2
  | .close => s.close.2
  | .getLocalAddress => (s.getLocalAddress calls).2

/-- A `Socket` as a caller gets it. -/
inductive Made : Socket → Prop
  | new (family : BitVec 32) : Made (new family)
  | createUDP (calls : Calls) (family : BitVec 32) : Made (createUDP calls family)
  | accept {calls : Calls} {family : BitVec 32} {newsock : ℕ} {name : Address} {ctx : Bool} {s : Socket} :
      accept calls family newsock name ctx = some s → Made s

/-- A caller that uses one `Socket`, with what the system calls of each use return. -/
def machine : Machine Socket (Action × Calls) := .ofNext Made fun s event => some (s.perform event.2 event.1)

end Socket

end Sylar
