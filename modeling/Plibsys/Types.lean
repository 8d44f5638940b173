import Mathlib.Logic.Basic

/-! # Basic types

`ptypes.h` on a 64-bit platform, and the errors of `perrortypes.h` that the modelled
code reports.
-/

namespace Plibsys

/-- `ppointer`.  `NULL` is zero. -/
abbrev PPointer := BitVec 64

/-- `psize` -/
abbrev PSize := BitVec 64

/-- `pint` -/
abbrev PInt := BitVec 32

/-- `puint` -/
abbrev PUInt := BitVec 32

/-- `pchar`, `puchar` -/
abbrev Byte := BitVec 8

inductive PErrorIO where
  | none
  | noResources
  | notAvailable
  | accessDenied
  | connected
  | inProgress
  | aborted
  | invalidArgument
  | notSupported
  | timedOut
  | wouldBlock
  | addressInUse
  | connectionRefused
  | notConnected
  | quota
  | isDirectory
  | notDirectory
  | nameTooLong
  | existing
  | notExists
  | noMore
  | notImplemented
  | failed
  deriving Repr, DecidableEq

inductive PErrorIPC where
  | none
  | access
  | existing
  | notExists
  | noResources
  | overflow
  | nameTooLong
  | invalidArgument
  | notImplemented
  | deadlock
  | failed
  deriving Repr, DecidableEq

/-- A `PError` with a code of one error domain. -/
structure PError (Code : Type) where
  code : Code
  nativeCode : Int
  message : String
  deriving Repr, DecidableEq

abbrev PIoError := PError PErrorIO

abbrev PIpcError := PError PErrorIPC

end Plibsys
