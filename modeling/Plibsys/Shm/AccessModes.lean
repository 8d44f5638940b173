import Plibsys.Shm.PSemaphore

/-! # Access modes of semaphores

The mode `CREATE` unlinks an existing semaphore, but the `sem_open` after it has no
`O_CREAT` and finds nothing.  A new segment whose lock was left behind by another process
can therefore not be created.
-/

namespace Plibsys.Shm

/-- The value of the semaphore that a handle stands for. -/
def SemNamespace.valueOf (ns : SemNamespace) (sem : PSemaphore) : Option Nat :=
  sem.semHdl.bind fun id => ns.values[id]?

/-- A semaphore that did not exist before, with a value. -/
def IsNew (ns ns' : SemNamespace) (sem : PSemaphore) (value : Nat) : Prop :=
  (∀ id, sem.semHdl = some id → ns.values[id]? = none) ∧ ns'.valueOf sem = some value

/-- What a call of `zsemaphore_new` promises in a mode. -/
def ModeLaw (platformKey : String → String) (interrupts : Nat × Nat) (name : String) (initVal : PInt)
    (mode : PSemaphoreAccessMode) (ns : SemNamespace) : Prop :=
  ∃ sem ns', zsemaphoreNew platformKey interrupts name initVal mode ns = (.ok sem, ns') ∧
    match mode, ns.names (semaphoreKey platformKey name) with
    | .create, _ => ns'.valueOf sem = some initVal.toNat
    | .open, some id => sem.semHdl = some id ∧ ns'.values[id]? = ns.values[id]?
    | .open, none => IsNew ns ns' sem initVal.toNat

/-- The other calls of `zshm_new` succeed. -/
def ShmCalls.succeeding : ShmCalls := ⟨true, true, true, none, none, none, none, none, none⟩

/-- The key of the segment of a name. -/
def segmentKey (platformKey : String → String) (name : String) : String := platformKey (name ++ "_zshm_object")

/-- The segment is made and its lock can be taken by one holder at a time. -/
def LockLaw (platformKey : String → String) (interrupts : Nat × Nat) (name : String) (size : PSize)
    (perms : PShmAccessPerms) (objects : Objects) (ns : SemNamespace) : Prop :=
  ∃ locked objects' ns', zshmNewLocked platformKey .succeeding interrupts name size perms objects ns =
      (.ok locked, objects', ns') ∧
    ∃ taken, locked.zshmLock ns' = some taken ∧ locked.zshmLock taken = none

variable {platformKey : String → String} {interrupts : Nat × Nat} {name : String} {ns : SemNamespace}

theorem semOpenRetry_eq (flags : OpenFlags) (key : String) (value interrupts : Nat) :
    ns.semOpenRetry flags key value interrupts = ns.semOpen flags key value := by
  induction interrupts with
  | zero => rfl
  | succ interrupts ih => exact ih

section Outcomes

variable {initVal : PInt} (nonneg : 0 ≤ initVal.toInt)

include nonneg

/-- Under a free name both modes make a new semaphore. -/
theorem new_of_free (mode : PSemaphoreAccessMode) (free : ns.names (semaphoreKey platformKey name) = none) :
    zsemaphoreNew platformKey interrupts name initVal mode ns =
      (.ok ⟨true, semaphoreKey platformKey name, some ns.values.length, mode, initVal⟩,
        ns.bind (semaphoreKey platformKey name) initVal.toNat) := by
  have accepted : ¬ initVal.toInt < 0 := by omega
  unfold zsemaphoreNew pzsemaphoreCreateHandle
  simp [accepted, semOpenRetry_eq, SemNamespace.semOpen, free, keepHandle]

/-- An existing semaphore is opened and not changed. -/
theorem new_open_existing {id : Nat} (existing : ns.names (semaphoreKey platformKey name) = some id) :
    zsemaphoreNew platformKey interrupts name initVal .open ns =
      (.ok ⟨false, semaphoreKey platformKey name, some id, .open, initVal⟩, ns) := by
  have accepted : ¬ initVal.toInt < 0 := by omega
  unfold zsemaphoreNew pzsemaphoreCreateHandle
  simp [accepted, semOpenRetry_eq, SemNamespace.semOpen, existing, keepHandle]

/-- In the mode `CREATE` the call fails and takes the name away. -/
theorem new_create_existing {id : Nat} (existing : ns.names (semaphoreKey platformKey name) = some id) :
    zsemaphoreNew platformKey interrupts name initVal .create ns =
      (.error ⟨.notExists, 2, "Failed to call sem_open() to create semaphore"⟩,
        ns.semUnlink (semaphoreKey platformKey name)) := by
  have accepted : ¬ initVal.toInt < 0 := by omega
  unfold zsemaphoreNew pzsemaphoreCreateHandle
  simp [accepted, semOpenRetry_eq, SemNamespace.semOpen, SemNamespace.semUnlink, existing, keepHandle,
    pzsemaphoreCleanHandle, zsemaphoreFree, Errno.sysError, SysError.report]

theorem modeLaw_iff (mode : PSemaphoreAccessMode) :
    ModeLaw platformKey interrupts name initVal mode ns ↔
      mode = .open ∨ ns.names (semaphoreKey platformKey name) = none := by
  unfold ModeLaw
  cases existing : ns.names (semaphoreKey platformKey name) with
  | none =>
      simp only [new_of_free nonneg mode existing, or_true, iff_true]
      refine ⟨_, _, rfl, ?_⟩
      cases mode <;> simp [IsNew, SemNamespace.valueOf, SemNamespace.bind]
  | some id =>
      cases mode with
      | «open» =>
          simp only [new_open_existing nonneg existing, true_or, iff_true]
          exact ⟨_, _, rfl, rfl, rfl⟩
      | create => simp [new_create_existing nonneg existing]

end Outcomes

section Locks

variable {size : PSize} {perms : PShmAccessPerms} {objects : Objects}

/-- A new segment, up to its semaphore. -/
theorem zshmNew_fresh (positive : 0 < size.toInt) (fresh : objects (segmentKey platformKey name) = none) :
    zshmNew platformKey ShmCalls.succeeding name size perms objects =
      (.ok ⟨true, segmentKey platformKey name, size, perms⟩,
        Function.update objects (segmentKey platformKey name) (some (Support.Region.zeros size.toNat))) := by
  have nonempty : size ≠ 0#64 := by
    rintro rfl
    simp at positive
  have signed : ¬ size.toInt < 0 := by omega
  unfold segmentKey at fresh
  unfold zshmNew pzshmCreateHandle
  simp [ShmCalls.succeeding, ShmCalls.ftruncateError, ShmCalls.mmapError, mapHandle, fresh, signed, nonempty,
    segmentKey]

theorem mapHandle_semaphore {calls : ShmCalls} {shm shm' : PShm} {objects' : Objects} (error : PIpcError)
    (mapped : mapHandle { calls with semaphoreNew := none } shm objects = (none, shm', objects')) :
    mapHandle { calls with semaphoreNew := some error } shm objects = (some error, pzshmCleanHandle shm' objects') := by
  unfold mapHandle ShmCalls.mmapError at mapped ⊢
  simp only at mapped ⊢
  split at mapped
  · simp [abandon] at mapped
  · simp only [Prod.mk.injEq, true_and] at mapped
    obtain ⟨rfl, rfl⟩ := mapped
    rfl

theorem createHandle_semaphore {calls : ShmCalls} {shm shm' : PShm} {objects' : Objects} (error : PIpcError)
    (created : pzshmCreateHandle { calls with semaphoreNew := none } shm objects = (none, shm', objects')) :
    pzshmCreateHandle { calls with semaphoreNew := some error } shm objects =
      (some error, pzshmCleanHandle shm' objects') := by
  unfold pzshmCreateHandle at created ⊢
  simp only [ShmCalls.ftruncateError] at created ⊢
  split at created
  · simp [abandon] at created
  · split at created
    · split at created
      · simp [abandon] at created
      · simp [abandon] at created
      · exact mapHandle_semaphore error created
    · split at created
      · simp [abandon] at created
      · exact mapHandle_semaphore error created

/-- A semaphore that fails takes the whole call back. -/
theorem zshmNew_semaphore {calls : ShmCalls} {shm : PShm} {objects' : Objects} (error : PIpcError)
    (made : zshmNew platformKey { calls with semaphoreNew := none } name size perms objects = (.ok shm, objects')) :
    zshmNew platformKey { calls with semaphoreNew := some error } name size perms objects =
      (.error error, (pzshmCleanHandle shm objects').2) := by
  unfold zshmNew at made ⊢
  simp only at made ⊢
  split at made
  · cases made
  · next mallocShm =>
      rw [if_neg mallocShm]
      split at made
      · cases made
      · next mallocName =>
          rw [if_neg mallocName]
          split at made
          · cases made
          · next mallocKey =>
              rw [if_neg mallocKey]
              split at made
              · cases made
              · next whole _ created =>
                  rw [createHandle_semaphore error created]
                  simp only [Prod.mk.injEq, Except.ok.injEq] at made
                  obtain ⟨rfl, rfl⟩ := made
                  by_cases narrowed : whole.size > size ∧ size ≠ 0
                  · rw [if_pos narrowed]
                    rfl
                  · rw [if_neg narrowed]
                    rfl

/-- The segment of a call with its lock is that of the call that is told how the semaphore
    turns out. -/
theorem zshmNewLocked_zshmNew (calls : ShmCalls) :
    ∃ outcome : Option PIpcError,
      ((zshmNewLocked platformKey calls interrupts name size perms objects ns).1.map LockedShm.shm,
        (zshmNewLocked platformKey calls interrupts name size perms objects ns).2.1) =
        zshmNew platformKey { calls with semaphoreNew := outcome } name size perms objects := by
  unfold zshmNewLocked
  cases made : zshmNew platformKey { calls with semaphoreNew := none } name size perms objects with
  | mk result objects' =>
      cases result with
      | error error => exact ⟨none, by rw [made]; rfl⟩
      | ok shm =>
          simp only
          split
          · exact ⟨none, by rw [made]; rfl⟩
          · next error _ _ => exact ⟨some error, by rw [zshmNew_semaphore error made]; rfl⟩

/-- A lock of value one can be taken once. -/
theorem lock_taken_once (key : String) (locked : LockedShm) (handle : locked.sem.semHdl = some ns.values.length) :
    ∃ taken, locked.zshmLock (ns.bind key 1) = some taken ∧ locked.zshmLock taken = none := by
  unfold LockedShm.zshmLock zsemaphoreAcquire
  rw [handle]
  refine ⟨_, by simp [SemNamespace.semWait, SemNamespace.bind]; rfl, ?_⟩
  simp [SemNamespace.semWait]

theorem lockLaw_iff (positive : 0 < size.toInt) (fresh : objects (segmentKey platformKey name) = none) :
    LockLaw platformKey interrupts name size perms objects ns ↔
      ns.names (semaphoreKey platformKey (segmentKey platformKey name)) = none := by
  have nonneg : 0 ≤ (1 : PInt).toInt := by decide
  have made : zshmNew platformKey ShmCalls.succeeding name size perms objects = _ := zshmNew_fresh positive fresh
  unfold LockLaw zshmNewLocked
  rw [show { ShmCalls.succeeding with semaphoreNew := none } = ShmCalls.succeeding from rfl, made]
  simp only [fresh, Option.isSome_none, Bool.false_eq_true, if_false]
  cases existing : ns.names (semaphoreKey platformKey (segmentKey platformKey name)) with
  | none =>
      rw [new_of_free nonneg .create existing]
      simp only [iff_true]
      exact ⟨_, _, _, rfl, lock_taken_once _ _ rfl⟩
  | some id =>
      rw [new_create_existing nonneg existing]
      simp

end Locks

/-- A call keeps what its mode promises exactly when the mode is `OPEN` or the name is free,
    and a new segment gets its lock exactly when no semaphore of that name was left behind. -/
theorem access_modes_iff (platformKey : String → String) (interrupts : Nat × Nat) (ns : SemNamespace)
    (name : String) (initVal : PInt) (nonneg : 0 ≤ initVal.toInt) (mode : PSemaphoreAccessMode) :
    (ModeLaw platformKey interrupts name initVal mode ns ↔
      mode = .open ∨ ns.names (semaphoreKey platformKey name) = none) ∧
    ∀ size perms objects, 0 < size.toInt → objects (segmentKey platformKey name) = none →
      (LockLaw platformKey interrupts name size perms objects ns ↔
        ns.names (semaphoreKey platformKey (segmentKey platformKey name)) = none) :=
  ⟨modeLaw_iff nonneg mode, fun _ _ _ positive fresh => lockLaw_iff positive fresh⟩

/-- A semaphore with value 3 under the name of the lock of a segment. -/
def staleNamespace : SemNamespace where
  names := fun name => if name = "seg_zshm_object_zsem_object" then some 0 else none
  values := [3]
  known := by
    intro name id named
    split at named
    · cases named
      decide
    · cases named

theorem access_modes_open_stale :
    ModeLaw id (2, 1) "seg_zshm_object" 1 .open staleNamespace ∧
      LockLaw id (0, 0) "other" 16 .readwrite (fun _ => none) staleNamespace :=
  ⟨(access_modes_iff id (2, 1) staleNamespace "seg_zshm_object" 1 (by decide) .open).1.mpr (Or.inl rfl),
    ((access_modes_iff id (0, 0) staleNamespace "other" 1 (by decide) .open).2 16 .readwrite (fun _ => none)
      (by decide) rfl).mpr (by decide)⟩

/-- The stale lock can be opened, but neither can it be created again nor a new segment with it. -/
theorem access_modes_create_stale :
    (zsemaphoreNew id (0, 0) "seg_zshm_object" 1 .create staleNamespace).1 =
        .error ⟨.notExists, 2, "Failed to call sem_open() to create semaphore"⟩ ∧
      ¬ ModeLaw id (0, 0) "seg_zshm_object" 1 .create staleNamespace ∧
      ¬ LockLaw id (0, 0) "seg" 16 .readwrite (fun _ => none) staleNamespace := by
  refine ⟨by decide, ?_, ?_⟩
  · rw [modeLaw_iff (by decide)]
    decide
  · rw [lockLaw_iff (by decide) rfl]
    decide

end Plibsys.Shm
