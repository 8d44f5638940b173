import Plibsys.Shm.PShm

/-! # Named semaphores

`psemaphore-posix.c`.  The system keeps semaphores by name; one whose name was unlinked
stays until it is closed, and its name is free again.  Of the failures of `sem_open` only
those that follow from its flags and the names in use are modelled, and interruptions.
`sem_post` fails when the value is the largest one.
-/

namespace Plibsys.Shm

open Support

inductive PSemaphoreAccessMode where
  | open
  | create
  deriving Repr, DecidableEq

/-- The reasons for which `sem_open`, when it is not interrupted, and `sem_post` fail here. -/
inductive Errno where
  | eexist
  | enoent
  | eoverflow
  | einval
  deriving Repr, DecidableEq

/-- What `zerror_get_last_ipc` and `zerror_get_last_system` make of an error number. -/
def Errno.sysError : Errno → SysError
  | .eexist => ⟨.existing, 17⟩
  | .enoent => ⟨.notExists, 2⟩
  | .eoverflow => ⟨.overflow, 75⟩
  | .einval => ⟨.invalidArgument, 22⟩

/-- `SEM_VALUE_MAX` -/
def semValueMax : Nat := 2147483647

/-- The semaphores of the system by number, with their values, and the names in use. -/
structure SemNamespace where
  names : String → Option Nat
  values : List Nat
  known : ∀ name id, names name = some id → id < values.length

/-- The flags `O_CREAT` and `O_EXCL`. -/
structure OpenFlags where
  creat : Bool
  excl : Bool
  deriving Repr, DecidableEq

namespace SemNamespace

/-- A new semaphore under a name. -/
def bind (ns : SemNamespace) (name : String) (value : Nat) : SemNamespace where
  names := Function.update ns.names name (some ns.values.length)
  values := ns.values ++ [value]
  known := by
    intro other id named
    rw [List.length_append, List.length_singleton]
    by_cases same : other = name
    · subst same
      rw [Function.update_self, Option.some.injEq] at named
      omega
    · rw [Function.update_of_ne same] at named
      have inside := ns.known other id named
      omega

/-- `sem_unlink` -/
def semUnlink (ns : SemNamespace) (name : String) : SemNamespace where
  names := Function.update ns.names name none
  values := ns.values
  known := by
    intro other id named
    by_cases same : other = name
    · subst same
      rw [Function.update_self] at named
      cases named
    · rw [Function.update_of_ne same] at named
      exact ns.known other id named

/-- `sem_open` that is not interrupted. -/
def semOpen (flags : OpenFlags) (name : String) (value : Nat) (ns : SemNamespace) :
    Except Errno Nat × SemNamespace :=
  match ns.names name with
  | some id => if flags.creat ∧ flags.excl then (.error .eexist, ns) else (.ok id, ns)
  | none => if flags.creat then (.ok ns.values.length, ns.bind name value) else (.error .enoent, ns)

/-- The loop around `sem_open`, which is interrupted some number of times. -/
def semOpenRetry (flags : OpenFlags) (name : String) (value : Nat) : Nat → SemNamespace →
    Except Errno Nat × SemNamespace
  | 0, ns => ns.semOpen flags name value
  -- an interrupted call has no effect, and EINTR repeats it
  | interrupts + 1, ns => semOpenRetry flags name value interrupts ns

/-- `sem_wait`; `none` means that the caller is blocked. -/
def semWait (ns : SemNamespace) (id : Nat) : Option SemNamespace :=
  match ns.values[id]? with
  | some (value + 1) =>
      some { ns with values := ns.values.set id value, known := by simpa using ns.known }
  | _ => none

/-- `sem_post` -/
def semPost (ns : SemNamespace) (id : Nat) : Except Errno SemNamespace :=
  match ns.values[id]? with
  | some value =>
      if value < semValueMax then
        .ok { ns with values := ns.values.set id (value + 1), known := by simpa using ns.known }
      else
        .error .eoverflow
  | none => .error .einval

end SemNamespace

/-- A `PSemaphore`; `none` is the invalid handle. -/
structure PSemaphore where
  semCreated : Bool
  platformKey : String
  semHdl : Option Nat
  mode : PSemaphoreAccessMode
  initVal : PInt
  deriving Repr, DecidableEq

/-- `pzsemaphore_clean_handle` -/
def pzsemaphoreCleanHandle (sem : PSemaphore) (ns : SemNamespace) : PSemaphore × SemNamespace :=
  ({ sem with semCreated := false, semHdl := none },
    if sem.semHdl.isSome ∧ sem.semCreated then ns.semUnlink sem.platformKey else ns)

/-- The second half of `pzsemaphore_create_handle`, with the result of the last `sem_open`. -/
def keepHandle (sem : PSemaphore) (result : Except Errno Nat) (ns : SemNamespace) :
    Option PIpcError × PSemaphore × SemNamespace :=
  match result with
  | .ok id => (none, { sem with semHdl := some id }, ns)
  | .error e =>
      (some (e.sysError.report "Failed to call sem_open() to create semaphore"), pzsemaphoreCleanHandle sem ns)

/-- `pzsemaphore_create_handle`, where `none` stands for `TRUE`, with the numbers of
    interruptions of its two loops. -/
def pzsemaphoreCreateHandle (interrupts : Nat × Nat) (sem : PSemaphore) (ns : SemNamespace) :
    Option PIpcError × PSemaphore × SemNamespace :=
  let initVal := sem.initVal.toNat
  match ns.semOpenRetry ⟨true, true⟩ sem.platformKey initVal interrupts.1 with
  | (.ok id, ns) => keepHandle { sem with semCreated := true } (.ok id) ns
  | (.error .eexist, ns) =>
      let (initVal, ns) := if sem.mode = .create then (initVal, ns.semUnlink sem.platformKey) else (0, ns)
      -- neither O_CREAT nor O_EXCL
      let (result, ns) := ns.semOpenRetry ⟨false, false⟩ sem.platformKey initVal interrupts.2
      keepHandle sem result ns
  | (.error e, ns) => keepHandle sem (.error e) ns

/-- `zsemaphore_free` -/
def zsemaphoreFree (sem : PSemaphore) (ns : SemNamespace) : SemNamespace := (pzsemaphoreCleanHandle sem ns).2

/-- The key of a semaphore name, with `zipc_get_platform_key` for the key of a text. -/
def semaphoreKey (platformKey : String → String) (name : String) : String := platformKey (name ++ "_zsem_object")

/-- `zsemaphore_new` when its allocations succeed. -/
def zsemaphoreNew (platformKey : String → String) (interrupts : Nat × Nat) (name : String) (initVal : PInt)
    (mode : PSemaphoreAccessMode) (ns : SemNamespace) : Except PIpcError PSemaphore × SemNamespace :=
  if initVal.toInt < 0 then
    (.error ⟨.invalidArgument, 0, "Invalid input argument"⟩, ns)
  else
    match pzsemaphoreCreateHandle interrupts ⟨false, semaphoreKey platformKey name, none, mode, initVal⟩ ns with
    | (none, sem, ns) => (.ok sem, ns)
    | (some error, sem, ns) => (.error error, zsemaphoreFree sem ns)

/-- `zsemaphore_take_ownership` -/
def zsemaphoreTakeOwnership (sem : PSemaphore) : PSemaphore := { sem with semCreated := true }

/-- `zsemaphore_acquire`; `none` means that the caller is blocked. -/
def zsemaphoreAcquire (sem : PSemaphore) (ns : SemNamespace) : Option SemNamespace :=
  sem.semHdl.bind ns.semWait

/-- `zsemaphore_release`, where `none` stands for `TRUE`. -/
def zsemaphoreRelease (sem : PSemaphore) (ns : SemNamespace) : Option PIpcError × SemNamespace :=
  match sem.semHdl.elim (.error .einval) ns.semPost with
  | .ok ns => (none, ns)
  | .error e => (some (e.sysError.report "Failed to call sem_post() on semaphore"), ns)

/-- A `PShm` with its semaphore. -/
structure LockedShm where
  shm : PShm
  sem : PSemaphore
  deriving Repr, DecidableEq

/-- `zshm_new` with the semaphore that it makes last: a new one with a new segment, and the
    existing one with an existing segment.  The outcome of the other calls is given. -/
def zshmNewLocked (platformKey : String → String) (calls : ShmCalls) (interrupts : Nat × Nat) (name : String)
    (size : PSize) (perms : PShmAccessPerms) (objects : Objects) (ns : SemNamespace) :
    Except PIpcError LockedShm × Objects × SemNamespace :=
  match zshmNew platformKey { calls with semaphoreNew := none } name size perms objects with
  | (.error error, objects') => (.error error, objects', ns)
  | (.ok shm, objects') =>
      let mode := if (objects shm.platformKey).isSome then .open else .create
      match zsemaphoreNew platformKey interrupts shm.platformKey 1 mode ns with
      | (.ok sem, ns) => (.ok ⟨shm, sem⟩, objects', ns)
      | (.error error, ns) => (.error error, (pzshmCleanHandle shm objects').2, ns)

/-- `zshm_lock`; `none` means that the caller is blocked. -/
def LockedShm.zshmLock (locked : LockedShm) (ns : SemNamespace) : Option SemNamespace :=
  zsemaphoreAcquire locked.sem ns

/-- `zshm_unlock`, where `none` stands for `TRUE`. -/
def LockedShm.zshmUnlock (locked : LockedShm) (ns : SemNamespace) : Option PIpcError × SemNamespace :=
  zsemaphoreRelease locked.sem ns

end Plibsys.Shm
