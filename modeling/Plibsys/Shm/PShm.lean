import Plibsys.Support.Region
import Plibsys.Types
import Mathlib.Logic.Function.Basic

/-! # Shared memory segments

`pshm-posix.c`.  The system keeps named objects; a handle maps the whole object of its
name from offset 0, so an access through a handle is an access to the object.
-/

namespace Plibsys.Shm

open Support

inductive PShmAccessPerms where
  | readonly
  | readwrite
  deriving Repr, DecidableEq

/-- What `zerror_get_last_ipc` and `zerror_get_last_system` tell about a failed call. -/
structure SysError where
  ipc : PErrorIPC
  system : Int
  deriving Repr, DecidableEq

def SysError.einval : SysError := ⟨.invalidArgument, 22⟩

def SysError.report (e : SysError) (message : String) : PIpcError := ⟨e.ipc, e.system, message⟩

/-- The shared memory objects of the system, by platform key. -/
abbrev Objects := String → Option Region

/-- A `PShm` whose segment is mapped. -/
structure PShm where
  shmCreated : Bool
  platformKey : String
  size : PSize
  perms : PShmAccessPerms
  deriving Repr, DecidableEq

/-- The outcome of the calls that one `zshm_new` makes.  Failures that follow from the
    state of the system or from the arguments are not listed: they are computed. -/
structure ShmCalls where
  mallocShm : Bool
  mallocName : Bool
  mallocKey : Bool
  shmOpen : Option SysError
  shmReopen : Option SysError
  fstat : Option SysError
  ftruncate : Option SysError
  mmap : Option SysError
  semaphoreNew : Option PIpcError

/-- `ftruncate` takes the size as a signed number. -/
def ShmCalls.ftruncateError (calls : ShmCalls) (size : PSize) : Option SysError :=
  if size.toInt < 0 then some .einval else calls.ftruncate

/-- `mmap` refuses an empty mapping. -/
def ShmCalls.mmapError (calls : ShmCalls) (size : PSize) : Option SysError :=
  if size = 0 then some .einval else calls.mmap

/-- `pzshm_clean_handle` -/
def pzshmCleanHandle (shm : PShm) (objects : Objects) : PShm × Objects :=
  ({ shm with shmCreated := false, size := 0 },
    if shm.shmCreated then Function.update objects shm.platformKey none else objects)

/-- The way out of `pzshm_create_handle` after a failed system call. -/
def abandon (e : SysError) (message : String) (shm : PShm) (objects : Objects) :
    Option PIpcError × PShm × Objects :=
  (some (e.report message), pzshmCleanHandle shm objects)

/-- The mapping and the semaphore, at the end of `pzshm_create_handle`. -/
def mapHandle (calls : ShmCalls) (shm : PShm) (objects : Objects) : Option PIpcError × PShm × Objects :=
  match calls.mmapError shm.size with
  | some e => abandon e "Failed to call mmap() to map memory segment" shm objects
  | none =>
      match calls.semaphoreNew with
      | some error => (some error, pzshmCleanHandle shm objects)
      | none => (none, shm, objects)

/-- `pzshm_create_handle`, where `none` stands for `TRUE`.  A `shm_open` that is
    interrupted is repeated, so its outcome is never an interruption. -/
def pzshmCreateHandle (calls : ShmCalls) (shm : PShm) (objects : Objects) :
    Option PIpcError × PShm × Objects :=
  match calls.shmOpen with
  | some e => abandon e "Failed to call shm_open() to create memory segment" shm objects
  | none =>
      match objects shm.platformKey with
      | some segment =>
          -- EEXIST: the object is opened without O_CREAT
          match calls.shmReopen, calls.fstat with
          | some e, _ => abandon e "Failed to call shm_open() to create memory segment" shm objects
          | none, some e => abandon e "Failed to call fstat() to get memory segment size" shm objects
          | none, none => mapHandle calls { shm with size := BitVec.ofNat 64 segment.size } objects
      | none =>
          let shm := { shm with shmCreated := true }
          match calls.ftruncateError shm.size with
          | some e =>
              abandon e "Failed to call ftruncate() to set memory segment size" shm
                (Function.update objects shm.platformKey (some (Region.zeros 0)))
          | none =>
              mapHandle calls shm
                (Function.update objects shm.platformKey (some (Region.zeros shm.size.toNat)))

/-- `zshm_free` -/
def zshmFree (shm : PShm) (objects : Objects) : Objects := (pzshmCleanHandle shm objects).2

/-- `zshm_new`, with `zipc_get_platform_key` for the key of a name. -/
def zshmNew (platformKey : String → String) (calls : ShmCalls) (name : String) (size : PSize)
    (perms : PShmAccessPerms) (objects : Objects) : Except PIpcError PShm × Objects :=
  if calls.mallocShm = false then
    (.error ⟨.noResources, 0, "Failed to allocate memory for shared segment"⟩, objects)
  else if calls.mallocName = false then
    (.error ⟨.noResources, 0, "Failed to allocate memory for segment name"⟩, objects)
  else if calls.mallocKey = false then
    -- pzshm_create_handle refuses a handle without a key
    (.error ⟨.invalidArgument, 0, "Invalid input argument"⟩, objects)
  else
    match pzshmCreateHandle calls ⟨false, platformKey (name ++ "_zshm_object"), size, perms⟩ objects with
    | (some error, shm, objects) => (.error error, zshmFree shm objects)
    | (none, shm, objects) =>
        (.ok (if shm.size > size ∧ size ≠ 0 then { shm with size := size } else shm), objects)

end Plibsys.Shm
