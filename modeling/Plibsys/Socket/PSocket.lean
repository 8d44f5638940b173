import Plibsys.Support.SysProgram
import Plibsys.Types

/-! # Sockets

`psocket.c` on Linux, with `poll`.  The replies of the system are arbitrary, but every call
on descriptor -1 fails.  What is sent and received and the native form of addresses are
left out, and a function with an `error` parameter brings the error that it sets.
-/

namespace Plibsys.Socket

open Support

inductive PSocketFamily where
  | unknown
  | inet
  | inet6
  deriving Repr, DecidableEq

inductive PSocketProtocol where
  | unknown
  | default
  | tcp
  | udp
  | sctp
  deriving Repr, DecidableEq

inductive PSocketType where
  | unknown
  | stream
  | datagram
  | seqpacket
  deriving Repr, DecidableEq

structure PSocket where
  family : PSocketFamily
  protocol : PSocketProtocol
  type : PSocketType
  fd : Int
  listenBacklog : Int
  timeout : Int
  blocking : Bool
  keepalive : Bool
  closed : Bool
  connected : Bool
  listening : Bool
  deriving Repr, DecidableEq

inductive SysName where
  | getFd
  | setFd
  | getFl
  | setFl
  | getType
  | getDomain
  | getError
  | getKeepalive
  | setKeepalive
  | setReuseAddr
  | setReusePort
  | setRcvBuf
  | setSndBuf
  | getsockname
  | getpeername
  | bind
  | connect
  | listen
  | accept
  | poll
  | recv
  | recvfrom
  | send
  | sendto
  | shutdown
  | close
  deriving Repr, DecidableEq

/-- A call of the system on a descriptor, with its numbers. -/
structure SysCall where
  name : SysName
  fd : Int
  args : List Int
  deriving Repr, DecidableEq

/-- What a call brings: its result, `errno`, and the value and length that it writes. -/
structure SysResult where
  ret : Int
  errno : Int
  val : Int
  len : Nat
  deriving Repr, DecidableEq

variable {σ : Type}

/-- A call of the system; on descriptor -1 it fails. -/
def sysCall (c : SysCall) : SysProgram σ SysCall SysResult SysResult := do
  let r ← SysProgram.call c
  pure (if c.fd = -1 then { r with ret := -1 } else r)

def oNonblock : PInt := 0x800

def socketDefaultBacklog : Int := 5

/-- `zerror_get_io_from_system`, with the numbers of Linux. -/
def zerrorGetIoFromSystem (errCode : Int) : PErrorIO :=
  if errCode = 0 then .none
  -- EACCES, EPERM
  else if errCode ∈ [13, 1] then .accessDenied
  -- ENOMEM, ENOSR, ENOBUFS, ENFILE, ENOSPC, EMFILE
  else if errCode ∈ [12, 63, 105, 23, 28, 24] then .noResources
  -- EINVAL, EBADF, ENOTSOCK, EFAULT, EPROTOTYPE
  else if errCode ∈ [22, 9, 88, 14, 91] then .invalidArgument
  -- ENOPROTOOPT, EPROTONOSUPPORT, EAFNOSUPPORT, EOPNOTSUPP
  else if errCode ∈ [92, 93, 97, 95] then .notSupported
  -- EADDRNOTAVAIL, ENETUNREACH, ENETDOWN, EHOSTDOWN, ENONET, EHOSTUNREACH
  else if errCode ∈ [99, 101, 100, 112, 64, 113] then .notAvailable
  -- EINPROGRESS, EALREADY
  else if errCode ∈ [115, 114] then .inProgress
  -- EISCONN
  else if errCode = 106 then .connected
  -- ECONNREFUSED
  else if errCode = 111 then .connectionRefused
  -- ENOTCONN
  else if errCode = 107 then .notConnected
  -- ECONNABORTED
  else if errCode = 103 then .aborted
  -- EADDRINUSE
  else if errCode = 98 then .addressInUse
  -- ETIMEDOUT
  else if errCode = 110 then .timedOut
  -- EDQUOT
  else if errCode = 122 then .quota
  -- EISDIR
  else if errCode = 21 then .isDirectory
  -- ENOTDIR
  else if errCode = 20 then .notDirectory
  -- EEXIST
  else if errCode = 17 then .existing
  -- ENOENT
  else if errCode = 2 then .notExists
  -- ENAMETOOLONG
  else if errCode = 36 then .nameTooLong
  -- ENOSYS
  else if errCode = 38 then .notImplemented
  -- EAGAIN
  else if errCode = 11 then .wouldBlock
  else .failed

/-- The error after a call that failed. -/
def netError (r : SysResult) (message : String) : PIoError :=
  ⟨zerrorGetIoFromSystem r.errno, r.errno, message⟩

def invalidInput : PIoError := ⟨.invalidArgument, 0, "Invalid input argument"⟩

/-- `pzsocket_set_fd_blocking` -/
def pzsocketSetFdBlocking (fd : Int) (blocking : Bool) : SysProgram σ SysCall SysResult (Except PIoError Unit) := do
  let flags ← sysCall ⟨.getFl, fd, []⟩
  let arg : PInt := if flags.ret < 0 then 0 else BitVec.ofInt 32 flags.ret
  let arg := if blocking then arg &&& ~~~oNonblock else arg ||| oNonblock
  let r ← sysCall ⟨.setFl, fd, [arg.toInt]⟩
  if r.ret < 0 then
    pure (.error (netError r "Failed to set socket blocking flags"))
  else
    pure (.ok ())

/-- The type for a native type. -/
def typeOfNative (value : Int) : PSocketType :=
  if value = 1 then .stream else if value = 2 then .datagram else if value = 5 then .seqpacket else .unknown

/-- The family for a native family. -/
def familyOfNative (ssFamily : Int) : PSocketFamily :=
  if ssFamily = 2 then .inet else if ssFamily = 10 then .inet6 else .unknown

/-- The protocol of an IP socket; one of unknown type keeps what it has. -/
def protocolOfType (type : PSocketType) (protocol : PSocketProtocol) : PSocketProtocol :=
  match type with
  | .stream => .tcp
  | .datagram => .udp
  | .seqpacket => .sctp
  | .unknown => protocol

/-- The call for `SO_DOMAIN`, which is made if the address has no length. -/
def checkDomain (fd : Int) (addrlen : Nat) : SysProgram σ SysCall SysResult (Except PIoError Unit) :=
  if 0 < addrlen then
    pure (.ok ())
  else do
    let r ← sysCall ⟨.getDomain, fd, []⟩
    if r.ret ≠ 0 then
      pure (.error (netError r "Failed to call getsockopt() to get socket SO_DOMAIN option"))
    else
      pure (.ok ())

/-- Whether a socket of a known family has a peer. -/
def hasPeer (socket : PSocket) (family : PSocketFamily) : SysProgram σ SysCall SysResult Bool :=
  if family = .unknown then
    pure socket.connected
  else do
    let r ← sysCall ⟨.getpeername, socket.fd, []⟩
    pure (if 0 ≤ r.ret then true else socket.connected)

/-- `pzsocket_set_details_from_fd` -/
def pzsocketSetDetailsFromFd (socket : PSocket) : SysProgram σ SysCall SysResult (Except PIoError PSocket) := do
  let value ← sysCall ⟨.getType, socket.fd, []⟩
  if value.ret ≠ 0 then
    pure (.error (netError value "Failed to call getsockopt() to get socket info for fd"))
  else if value.len ≠ 4 then
    pure (.error ⟨.invalidArgument, 0, "Failed to get socket info for fd, bad option length"⟩)
  else do
    let address ← sysCall ⟨.getsockname, socket.fd, []⟩
    if address.ret ≠ 0 then
      pure (.error (netError address "Failed to call getsockname() to get socket address info"))
    else do
      let domain ← checkDomain socket.fd address.len
      match domain with
      | .error e => pure (.error e)
      | .ok () => do
          let type := typeOfNative value.val
          let family := familyOfNative address.val
          let protocol := if family = .unknown then socket.protocol else protocolOfType type socket.protocol
          let connected ← hasPeer socket family
          let option ← sysCall ⟨.getKeepalive, socket.fd, []⟩
          let keepalive := if option.ret = 0 then decide (option.val ≠ 0) else false
          pure (.ok { socket with
            type := type
            family := family
            protocol := protocol
            connected := connected
            keepalive := keepalive })

/-- `zsocket_set_listen_backlog` -/
def zsocketSetListenBacklog (socket : PSocket) (backlog : Int) : PSocket :=
  if socket.listening then socket else { socket with listenBacklog := backlog }

/-- `zmalloc0 (sizeof (PSocket))` with its descriptor. -/
def newSocket (fd : Int) : PSocket :=
  ⟨.unknown, .default, .unknown, fd, 0, 0, false, false, false, false, false⟩

/-- `zsocket_new_from_fd`, with the outcome of its allocation. -/
def zsocketNewFromFd (malloc : Bool) (fd : Int) : SysProgram σ SysCall SysResult (Except PIoError PSocket) :=
  if fd < 0 then
    pure (.error ⟨.invalidArgument, 0, "Unable to create socket from bad fd"⟩)
  else if malloc = false then
    pure (.error ⟨.noResources, 0, "Failed to allocate memory for socket"⟩)
  else do
    let details ← pzsocketSetDetailsFromFd (newSocket fd)
    match details with
    | .error e => pure (.error e)
    | .ok ret => do
        let nonblocking ← pzsocketSetFdBlocking ret.fd false
        match nonblocking with
        | .error e => pure (.error e)
        | .ok () =>
            pure (.ok { zsocketSetListenBacklog ret socketDefaultBacklog with timeout := 0, blocking := true })

/-- A `PSocketAddress` that is not `NULL`, by whether `zsocket_address_to_native` succeeds. -/
structure PSocketAddress where
  converts : Bool
  deriving Repr, DecidableEq

end Plibsys.Socket
