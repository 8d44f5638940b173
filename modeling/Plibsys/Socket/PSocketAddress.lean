import Plibsys.ByteOrder

/-! # Socket addresses

`psocketaddress.c` on Linux.  An address is converted from and to the structures of the system,
which are blocks of bytes here: `sockaddr_in` has 16 bytes, `sockaddr_in6` has 28.  Numbers have
the byte order of the host, which is little-endian, and ports have the order of the network.
-/

namespace Plibsys.SocketAddress

open Support

inductive PSocketFamily where
  | unknown
  | inet
  | inet6
  deriving Repr, DecidableEq

/-- `AF_INET` -/
def afInet : BitVec 16 := 2

/-- `AF_INET6` -/
def afInet6 : BitVec 16 := 10

/-- `sizeof (struct sockaddr_in)` -/
def sizeofSockaddrIn : Nat := 16

/-- `sizeof (struct sockaddr_in6)` -/
def sizeofSockaddrIn6 : Nat := 28

/-- A `PSocketAddress`.  The two kinds of addresses share `addr`, where an IPv4 address has the
    first four bytes. -/
structure PSocketAddress where
  family : PSocketFamily
  addr : Vector Byte 16
  port : BitVec 16
  flowinfo : BitVec 32
  scopeId : BitVec 32
  deriving Repr, DecidableEq

namespace PSocketAddress

/-- `zmalloc0 (sizeof (PSocketAddress))` -/
def zero : PSocketAddress := ⟨.unknown, Vector.replicate 16 0, 0, 0, 0⟩

/-- `memcpy` to `addr`. -/
def setAddr (a : PSocketAddress) (bytes : List Byte) : PSocketAddress :=
  { a with addr := Vector.ofFn fun i => bytes.getD i a.addr[i] }

/-- The first bytes of `addr`. -/
def bytes (a : PSocketAddress) (n : Nat) : List Byte := a.addr.toList.take n

end PSocketAddress

/-- `zntohs` and `zhtons` of two bytes. -/
def portOf (bytes : List Byte) : BitVec 16 := puint16SwapBytes (wordOf 16 bytes)

/-- `zsocket_address_new_from_native` -/
def zsocketAddressNewFromNative (allocated : Bool) (native : Option Region) (len : PSize) : Exec (Option PSocketAddress) :=
  match native with
  | none => pure none
  | some native =>
      if len = 0 then
        pure none
      else if allocated = false then
        pure none
      else do
        let saFamily ← native.loadBytes 0 2
        if wordOf 16 saFamily = afInet then
          if len.toNat < sizeofSockaddrIn then
            pure none
          else do
            let sinAddr ← native.loadBytes 4 4
            let sinPort ← native.loadBytes 2 2
            pure (some { PSocketAddress.zero.setAddr sinAddr with family := .inet, port := portOf sinPort })
        else if wordOf 16 saFamily = afInet6 then
          if len.toNat < sizeofSockaddrIn6 then
            pure none
          else do
            let sin6Addr ← native.loadBytes 8 16
            let sinPort ← native.loadBytes 2 2
            let flowinfo ← native.loadBytes 4 4
            let scopeId ← native.loadBytes 24 4
            pure (some { PSocketAddress.zero.setAddr sin6Addr with
              family := .inet6, port := portOf sinPort, flowinfo := wordOf 32 flowinfo, scopeId := wordOf 32 scopeId })
        else
          pure none

/-- The functions of the system that read addresses in text. -/
structure Resolver where
  /-- `inet_pton` of `AF_INET` -/
  inetPton : List Byte → Option (Vector Byte 4)
  /-- `inet_pton` of `AF_INET6` -/
  inetPton6 : List Byte → Option (Vector Byte 16)
  /-- `getaddrinfo` with `AI_NUMERICHOST`: `ai_family`, `ai_addrlen` and `ai_addr` of the first
      result. -/
  getaddrinfo : List Byte → Option (BitVec 16 × PSize × Region)

/-- `zsocket_address_new` -/
def zsocketAddressNew (resolver : Resolver) (allocated : Bool) (address : Option (List Byte)) (port : BitVec 16) :
    Exec (Option PSocketAddress) :=
  match address with
  | none => pure none
  | some address =>
      -- `strchr (address, ':')`
      if address.contains 58 then
        match resolver.getaddrinfo address with
        | none => pure none
        | some (aiFamily, aiAddrlen, aiAddr) =>
            if aiFamily = afInet6 ∧ aiAddrlen.toNat = sizeofSockaddrIn6 then do
              let aiAddr ← aiAddr.storeBytes 2 (bytesOf (puint16SwapBytes port))
              zsocketAddressNewFromNative allocated (some aiAddr) aiAddrlen
            else
              pure none
      else if allocated = false then
        pure none
      else
        match resolver.inetPton address with
        | some sinAddr => pure (some { PSocketAddress.zero.setAddr sinAddr.toList with family := .inet, port := port })
        | none =>
            match resolver.inetPton6 address with
            | some sin6Addr =>
                pure (some { PSocketAddress.zero.setAddr sin6Addr.toList with family := .inet6, port := port })
            | none => pure none

/-- What `zsocket_address_new_any` and `zsocket_address_new_loopback` have in common. -/
def newOf (addr4 addr6 : List Byte) (allocated : Bool) (family : PSocketFamily) (port : BitVec 16) : Option PSocketAddress :=
  if allocated = false then
    none
  else
    match family with
    | .inet => some { PSocketAddress.zero.setAddr addr4 with family := family, port := port }
    | .inet6 => some { PSocketAddress.zero.setAddr addr6 with family := family, port := port }
    | .unknown => none

/-- `IN6ADDR_LOOPBACK_INIT` -/
def in6addrLoopback : List Byte := List.replicate 15 0 ++ [1]

/-- `zsocket_address_new_any` -/
def zsocketAddressNewAny : Bool → PSocketFamily → BitVec 16 → Option PSocketAddress :=
  newOf [0, 0, 0, 0] (List.replicate 16 0)

/-- `zsocket_address_new_loopback` -/
def zsocketAddressNewLoopback : Bool → PSocketFamily → BitVec 16 → Option PSocketAddress :=
  newOf [127, 0, 0, 0] in6addrLoopback

/-- `zsocket_address_to_native`, with the bytes at `dest` after it. -/
def zsocketAddressToNative (addr : Option PSocketAddress) (dest : Option Region) (destlen : PSize) :
    Exec (Bool × Option Region) :=
  match addr, dest with
  | some addr, some dest =>
      if destlen = 0 then
        pure (false, some dest)
      else
        match addr.family with
        | .inet =>
            if destlen.toNat < sizeofSockaddrIn then
              pure (false, some dest)
            else do
              let dest ← dest.storeBytes 4 (addr.bytes 4)
              let dest ← dest.storeBytes 0 (bytesOf afInet)
              let dest ← dest.storeBytes 2 (bytesOf (puint16SwapBytes addr.port))
              let dest ← dest.storeBytes 8 (List.replicate 8 0)
              pure (true, some dest)
        | .inet6 =>
            if destlen.toNat < sizeofSockaddrIn6 then
              pure (false, some dest)
            else do
              let dest ← dest.storeBytes 8 (addr.bytes 16)
              let dest ← dest.storeBytes 0 (bytesOf afInet6)
              let dest ← dest.storeBytes 2 (bytesOf (puint16SwapBytes addr.port))
              let dest ← dest.storeBytes 4 (bytesOf addr.flowinfo)
              let dest ← dest.storeBytes 24 (bytesOf addr.scopeId)
              pure (true, some dest)
        | .unknown => pure (false, some dest)
  | _, _ => pure (false, dest)

/-- `zsocket_address_get_native_size` -/
def zsocketAddressGetNativeSize (addr : Option PSocketAddress) : Nat :=
  match addr with
  | none => 0
  | some addr =>
      match addr.family with
      | .inet => sizeofSockaddrIn
      | .inet6 => sizeofSockaddrIn6
      | .unknown => 0

/-- `zsocket_address_set_flow_info` -/
def zsocketAddressSetFlowInfo (addr : PSocketAddress) (flowinfo : BitVec 32) : PSocketAddress :=
  if addr.family ≠ .inet6 then addr else { addr with flowinfo := flowinfo }

/-- `zsocket_address_set_scope_id` -/
def zsocketAddressSetScopeId (addr : PSocketAddress) (scopeId : BitVec 32) : PSocketAddress :=
  if addr.family ≠ .inet6 then addr else { addr with scopeId := scopeId }

/-- The IPv4 address as a number of the host. -/
def addr4 (addr : PSocketAddress) : BitVec 32 := puint32SwapBytes (wordOf 32 (addr.bytes 4))

/-- `zsocket_address_is_any` -/
def zsocketAddressIsAny (addr : Option PSocketAddress) : Bool :=
  match addr with
  | none => false
  | some addr =>
      match addr.family with
      | .unknown => false
      | .inet => addr4 addr == 0
      -- `IN6_IS_ADDR_UNSPECIFIED`
      | .inet6 => addr.bytes 16 == List.replicate 16 0

/-- `zsocket_address_is_loopback` -/
def zsocketAddressIsLoopback (addr : Option PSocketAddress) : Bool :=
  match addr with
  | none => false
  | some addr =>
      match addr.family with
      | .unknown => false
      | .inet => addr4 addr &&& 0xff000000 == 0x7f000000
      -- `IN6_IS_ADDR_LOOPBACK`
      | .inet6 => addr.bytes 16 == in6addrLoopback

/-- The addresses that the functions of the library make. -/
inductive Built : PSocketAddress → Prop where
  | fromNative {allocated : Bool} {native : Option Region} {len : PSize} {a : PSocketAddress}
      (result : zsocketAddressNewFromNative allocated native len = .ok (some a)) : Built a
  | new {resolver : Resolver} {allocated : Bool} {address : Option (List Byte)} {port : BitVec 16} {a : PSocketAddress}
      (result : zsocketAddressNew resolver allocated address port = .ok (some a)) : Built a
  | any {allocated : Bool} {family : PSocketFamily} {port : BitVec 16} {a : PSocketAddress}
      (result : zsocketAddressNewAny allocated family port = some a) : Built a
  | loopback {allocated : Bool} {family : PSocketFamily} {port : BitVec 16} {a : PSocketAddress}
      (result : zsocketAddressNewLoopback allocated family port = some a) : Built a
  | setFlowInfo {a : PSocketAddress} (built : Built a) (flowinfo : BitVec 32) : Built (zsocketAddressSetFlowInfo a flowinfo)
  | setScopeId {a : PSocketAddress} (built : Built a) (scopeId : BitVec 32) : Built (zsocketAddressSetScopeId a scopeId)

end Plibsys.SocketAddress
