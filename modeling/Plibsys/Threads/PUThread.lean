import Plibsys.Support.Heap
import Plibsys.Types
import Mathlib.Logic.Function.Basic

/-! # Threads and their objects

`puthread.c`, with what `puthread-posix.c` does for it.  A thread object is shared by
whoever created the thread and by the thread itself, which keeps it as the value of the key
`pzuthread_specific_data`; a reference counter tells when to free it.  The creator holds a
spin lock while it fills the object, and the new thread passes that lock before it runs.

Every access to an object, to the spin lock or to the key is a step of its own.  The clients
call the functions in any order; they drop only references that they have.
-/

namespace Plibsys.Threads

open Support

/-- What `zuthread_create_full` is called with. -/
structure CreateArgs where
  func : Addr
  data : Addr
  joinable : Bool
  name : Option String
  deriving Repr, DecidableEq

/-- A `PUThread` of `puthread-posix.c`; `hdl` is the thread of the system.  An object that
    `zuthread_current` makes is a `PUThreadBase` and has none. -/
structure PUThread (ι : Type) where
  refCount : PInt
  retCode : PInt
  ours : Bool
  joinable : Bool
  func : Addr
  data : Addr
  name : Option String
  hdl : Option ι

/-- `zmalloc0 (sizeof (PUThread))` -/
def PUThread.zero {ι : Type} : PUThread ι := ⟨0, 0, false, false, 0, 0, none, none⟩

/-- The assignments of `zuthread_create_full` in their order: `ref_count`, `ours`, `joinable`,
    `func`, `data` and `name`. -/
def assignments : Nat := 6

/-- One of the assignments, with the outcome of `zstrdup`. -/
def PUThread.assign {ι : Type} (args : CreateArgs) (copied : Bool) (base : PUThread ι) : Nat → PUThread ι
  | 0 => { base with refCount := 2 }
  | 1 => { base with ours := true }
  | 2 => { base with joinable := args.joinable }
  | 3 => { base with func := args.func }
  | 4 => { base with data := args.data }
  | _ => { base with name := if copied then args.name else none }

/-- Where a thread of the system is.  A new thread remembers what it was created with, which
    its code does not look at. -/
inductive Control where
  /-- Not started yet. -/
  | unborn
  /-- In the code of the client. -/
  | running
  /-- In `zuthread_create_full`, at `zspinlock_lock`. -/
  | createLock (args : CreateArgs)
  /-- At `zuthread_create_internal`. -/
  | createInternal (args : CreateArgs)
  | createAssign (args : CreateArgs) (base : Addr) (i : Nat)
  /-- At `zspinlock_unlock`. -/
  | createUnlock (base : Addr)
  /-- In `zuthread_unref`, past a decrement to zero. -/
  | freeing (base : Addr) (ends : Bool)
  /-- In `zuthread_current`, at `zuthread_set_local`; it was called by `zuthread_exit` when
      there is a code. -/
  | currentSet (base : Addr) (code : Option PInt)
  /-- In `zuthread_exit`, at the test of `ours`. -/
  | exitCheck (base : Addr) (code : PInt)
  /-- At the assignment of `ret_code`. -/
  | exitAssign (base : Addr) (code : PInt)
  /-- In `zuthread_join`, at the test of `joinable`. -/
  | joinCheck (base : Addr)
  /-- In `zuthread_wait_internal`. -/
  | joinWait (base : Addr)
  /-- At the read of `ret_code`, after a `pthread_join` that succeeded or failed. -/
  | joinRead (base : Addr) (joined : Bool)
  /-- In `pzuthread_proxy`, at `zuthread_set_local`. -/
  | proxyStart (base : Addr) (args : CreateArgs)
  | proxyLock (base : Addr) (args : CreateArgs)
  | proxyUnlock (base : Addr) (args : CreateArgs)
  /-- Past the spin lock: `name`, `func` and `data` are read. -/
  | proxyFunc (base : Addr) (args : CreateArgs)
  /-- The thread is over, and its value of the key is due. -/
  | cleanup
  /-- In `pzuthread_cleanup`, at the decrement. -/
  | cleanupUnref (base : Addr)
  | ended
  deriving DecidableEq

/-- A thread of the system with its value of `pzuthread_specific_data`. -/
structure ThreadState where
  control : Control
  specific : Addr
  deriving DecidableEq

structure ThreadSystem (ι : Type) where
  /-- The word of `pzuthread_new_spin`. -/
  spin : PInt
  objects : Heap (PUThread ι)
  threads : ι → ThreadState
  /-- How many references to an object the clients have. -/
  held : Addr → Nat
  /-- How many references were lost because the key could not be set. -/
  lost : Addr → Nat
  /-- What a thread gave to the call of `zuthread_exit` that ended it, and 0 without one. -/
  code : ι → PInt

namespace ThreadSystem

variable {ι : Type} [DecidableEq ι]

def goto (s : ThreadSystem ι) (t : ι) (control : Control) : ThreadSystem ι :=
  { s with threads := Function.update s.threads t { s.threads t with control := control } }

def setSpecific (s : ThreadSystem ι) (t : ι) (value : Addr) : ThreadSystem ι :=
  { s with threads := Function.update s.threads t { s.threads t with specific := value } }

def hold (s : ThreadSystem ι) (base : Addr) : ThreadSystem ι :=
  { s with held := Function.update s.held base (s.held base + 1) }

def unhold (s : ThreadSystem ι) (base : Addr) : ThreadSystem ι :=
  { s with held := Function.update s.held base (s.held base - 1) }

def lose (s : ThreadSystem ι) (base : Addr) : ThreadSystem ι :=
  { s with lost := Function.update s.lost base (s.lost base + 1) }

/-- Write through a pointer to an object. -/
def write (s : ThreadSystem ι) (base : Addr) (f : PUThread ι → PUThread ι) : Exec (ThreadSystem ι) := do
  let objects ← s.objects.modify base f
  pure { s with objects := objects }

/-- `zspinlock_lock`, one exchange of its loop. -/
def spinlockLock (s : ThreadSystem ι) (t : ι) (next : Control) : ThreadSystem ι :=
  if s.spin = 0 then { s with spin := 1 }.goto t next else s

/-- `zspinlock_unlock` -/
def spinlockUnlock (s : ThreadSystem ι) : ThreadSystem ι := { s with spin := 0 }

/-- `zuthread_ref` -/
def ref (s : ThreadSystem ι) (base : Addr) : Exec (ThreadSystem ι) := do
  let s ← s.write base fun c => { c with refCount := c.refCount + 1 }
  pure (s.hold base)

/-- The decrement of `zuthread_unref`, and where the thread goes on when it is not the last. -/
def unref (s : ThreadSystem ι) (t : ι) (base : Addr) (ends : Bool) (next : Control) : Exec (ThreadSystem ι) := do
  let c ← s.objects.load base
  let s ← s.write base fun c => { c with refCount := c.refCount - 1 }
  pure (s.goto t (if c.refCount = 1 then .freeing base ends else next))

/-- `zfree (base_thread->name)`, and `zuthread_free_internal` or `zfree` of the object. -/
def free (s : ThreadSystem ι) (t : ι) (base : Addr) (ends : Bool) : Exec (ThreadSystem ι) := do
  let objects ← s.objects.free base
  pure ({ s with objects := objects }.goto t (if ends then .ended else .running))

/-- `zuthread_create_internal` that succeeds: an object at a free address and a new thread. -/
def createInternal (s : ThreadSystem ι) (t u : ι) (args : CreateArgs) (base : Addr) (nonnull : base ≠ 0) :
    ThreadSystem ι :=
  let object : PUThread ι := { (PUThread.zero : PUThread ι) with joinable := args.joinable, hdl := some u }
  ({ s with objects := s.objects.insert base nonnull object }.goto u (.proxyStart base args)).goto t
    (.createAssign args base 0)

/-- One assignment of `zuthread_create_full`. -/
def createAssign (s : ThreadSystem ι) (t : ι) (args : CreateArgs) (copied : Bool) (base : Addr) (i : Nat) :
    Exec (ThreadSystem ι) := do
  let s ← s.write base fun c => c.assign args copied i
  pure (s.goto t (if i + 1 < assignments then .createAssign args base (i + 1) else .createUnlock base))

/-- The end of `zuthread_create_full`. -/
def createUnlock (s : ThreadSystem ι) (t : ι) (base : Addr) : ThreadSystem ι :=
  let s := s.spinlockUnlock.goto t .running
  if base = 0 then s else s.hold base

/-- A new object of `zuthread_current`, with its first assignment. -/
def currentNew (s : ThreadSystem ι) (t : ι) (base : Addr) (nonnull : base ≠ 0) (code : Option PInt) : ThreadSystem ι :=
  { s with objects := s.objects.insert base nonnull { (PUThread.zero : PUThread ι) with refCount := 1 } }.goto t (.currentSet base code)

/-- What follows `zuthread_current`. -/
def afterCurrent (base : Addr) : Option PInt → Control
  | none => .running
  | some code => .exitCheck base code

/-- The value of the key is set, or it cannot be. -/
def setLocal (s : ThreadSystem ι) (t : ι) (base : Addr) (success : Bool) : ThreadSystem ι :=
  if success then s.setSpecific t base else s.lose base

/-- The test of `zuthread_exit`. -/
def exitCheck (s : ThreadSystem ι) (t : ι) (base : Addr) (code : PInt) : Exec (ThreadSystem ι) := do
  let c ← s.objects.load base
  pure (s.goto t (if c.ours then .exitAssign base code else .running))

def exitAssign (s : ThreadSystem ι) (t : ι) (base : Addr) (code : PInt) : Exec (ThreadSystem ι) := do
  let s ← s.write base fun c => { c with retCode := code }
  pure ({ s with code := Function.update s.code t code }.goto t .cleanup)

/-- The test of `zuthread_join`. -/
def joinCheck (s : ThreadSystem ι) (t : ι) (base : Addr) : Exec (ThreadSystem ι) := do
  let c ← s.objects.load base
  pure (if c.joinable then s.goto t (.joinWait base) else (s.goto t .running).hold base)

/-- `pthread_join` that succeeds: it returns when the thread has ended. -/
def joinWait (s : ThreadSystem ι) (t : ι) (base : Addr) : Exec (ThreadSystem ι) := do
  let c ← s.objects.load base
  match c.hdl with
  | none => .error .fault
  | some u => pure (if (s.threads u).control = .ended then s.goto t (.joinRead base true) else s)

/-- `pthread_join` that fails, as for the thread itself and for a second joiner.  The failure
    is logged, and `zuthread_wait_internal` returns all the same. -/
def joinFails (s : ThreadSystem ι) (t : ι) (base : Addr) : Exec (ThreadSystem ι) := do
  let _ ← s.objects.load base
  pure (s.goto t (.joinRead base false))

/-- `base_thread->ret_code` is returned. -/
def joinRead (s : ThreadSystem ι) (t : ι) (base : Addr) : Exec (ThreadSystem ι) := do
  let _ ← s.objects.load base
  pure ((s.goto t .running).hold base)

/-- The reads of `pzuthread_proxy`, and the call of the routine. -/
def proxyFunc (s : ThreadSystem ι) (t : ι) (base : Addr) : Exec (ThreadSystem ι) := do
  let _ ← s.objects.load base
  pure (s.goto t .running)

/-- The system takes the value of the key away and calls `pzuthread_cleanup` with it. -/
def cleanup (s : ThreadSystem ι) (t : ι) : ThreadSystem ι :=
  let value := (s.threads t).specific
  if value = 0 then s.goto t .ended else (s.setSpecific t 0).goto t (.cleanupUnref value)

/-- At first some threads run that the library did not create. -/
def initial (foreign : ι → Bool) : ThreadSystem ι where
  spin := 0
  objects := Heap.empty
  threads := fun t => ⟨if foreign t then .running else .unborn, 0⟩
  held := fun _ => 0
  lost := fun _ => 0
  code := fun _ => 0

end ThreadSystem

open ThreadSystem in
/-- What a thread can do next, and what comes of it. -/
inductive ThreadStep {ι : Type} [DecidableEq ι] (t : ι) (s : ThreadSystem ι) : Exec (ThreadSystem ι) → Prop where
  | create (args : CreateArgs) (at_t : (s.threads t).control = .running) (func : args.func ≠ 0) :
      ThreadStep t s (.ok (s.goto t (.createLock args)))
  | createLock {args : CreateArgs} (at_t : (s.threads t).control = .createLock args) :
      ThreadStep t s (.ok (s.spinlockLock t (.createInternal args)))
  | createInternal {args : CreateArgs} (u : ι) (base : Addr) (at_t : (s.threads t).control = .createInternal args)
      (nonnull : base ≠ 0) (free : s.objects.cell base = none) (unborn : (s.threads u).control = .unborn) :
      ThreadStep t s (.ok (s.createInternal t u args base nonnull))
  /-- An allocation or `pthread_create` failed, and nothing is left of the object. -/
  | createFailed {args : CreateArgs} (at_t : (s.threads t).control = .createInternal args) :
      ThreadStep t s (.ok (s.goto t (.createUnlock 0)))
  | createAssign {args : CreateArgs} {base : Addr} {i : Nat} (copied : Bool)
      (at_t : (s.threads t).control = .createAssign args base i) : ThreadStep t s (s.createAssign t args copied base i)
  | createUnlock {base : Addr} (at_t : (s.threads t).control = .createUnlock base) :
      ThreadStep t s (.ok (s.createUnlock t base))
  | ref (base : Addr) (at_t : (s.threads t).control = .running)
      (known : 0 < s.held base ∨ (s.threads t).specific = base ∧ base ≠ 0) : ThreadStep t s (s.ref base)
  | unref (base : Addr) (at_t : (s.threads t).control = .running) (owned : 0 < s.held base) :
      ThreadStep t s ((s.unhold base).unref t base false .running)
  | free {base : Addr} {ends : Bool} (at_t : (s.threads t).control = .freeing base ends) :
      ThreadStep t s (s.free t base ends)
  /-- `zuthread_current`, when the key has no value. -/
  | current (base : Addr) (at_t : (s.threads t).control = .running) (null : (s.threads t).specific = 0)
      (nonnull : base ≠ 0) (free : s.objects.cell base = none) :
      ThreadStep t s (.ok (s.currentNew t base nonnull none))
  | currentSet {base : Addr} {code : Option PInt} (success : Bool)
      (at_t : (s.threads t).control = .currentSet base code) :
      ThreadStep t s (.ok ((s.setLocal t base success).goto t (afterCurrent base code)))
  /-- `zuthread_exit`, when the key has a value. -/
  | exit (code : PInt) (at_t : (s.threads t).control = .running) (value : (s.threads t).specific ≠ 0) :
      ThreadStep t s (.ok (s.goto t (.exitCheck (s.threads t).specific code)))
  | exitNew (code : PInt) (base : Addr) (at_t : (s.threads t).control = .running)
      (null : (s.threads t).specific = 0) (nonnull : base ≠ 0) (free : s.objects.cell base = none) :
      ThreadStep t s (.ok (s.currentNew t base nonnull (some code)))
  | exitCheck {base : Addr} {code : PInt} (at_t : (s.threads t).control = .exitCheck base code) :
      ThreadStep t s (s.exitCheck t base code)
  | exitAssign {base : Addr} {code : PInt} (at_t : (s.threads t).control = .exitAssign base code) :
      ThreadStep t s (s.exitAssign t base code)
  | join (base : Addr) (at_t : (s.threads t).control = .running) (owned : 0 < s.held base) :
      ThreadStep t s (.ok ((s.unhold base).goto t (.joinCheck base)))
  | joinCheck {base : Addr} (at_t : (s.threads t).control = .joinCheck base) : ThreadStep t s (s.joinCheck t base)
  | joinWait {base : Addr} (at_t : (s.threads t).control = .joinWait base) : ThreadStep t s (s.joinWait t base)
  | joinFails {base : Addr} (at_t : (s.threads t).control = .joinWait base) : ThreadStep t s (s.joinFails t base)
  | joinRead {base : Addr} {joined : Bool} (at_t : (s.threads t).control = .joinRead base joined) :
      ThreadStep t s (s.joinRead t base)
  | proxyStart {base : Addr} {args : CreateArgs} (success : Bool)
      (at_t : (s.threads t).control = .proxyStart base args) :
      ThreadStep t s (.ok ((s.setLocal t base success).goto t (.proxyLock base args)))
  | proxyLock {base : Addr} {args : CreateArgs} (at_t : (s.threads t).control = .proxyLock base args) :
      ThreadStep t s (.ok (s.spinlockLock t (.proxyUnlock base args)))
  | proxyUnlock {base : Addr} {args : CreateArgs} (at_t : (s.threads t).control = .proxyUnlock base args) :
      ThreadStep t s (.ok (s.spinlockUnlock.goto t (.proxyFunc base args)))
  | proxyFunc {base : Addr} {args : CreateArgs} (at_t : (s.threads t).control = .proxyFunc base args) :
      ThreadStep t s (s.proxyFunc t base)
  /-- The routine returns. -/
  | returns (at_t : (s.threads t).control = .running) : ThreadStep t s (.ok (s.goto t .cleanup))
  | cleanup (at_t : (s.threads t).control = .cleanup) : ThreadStep t s (.ok (s.cleanup t))
  | cleanupUnref {base : Addr} (at_t : (s.threads t).control = .cleanupUnref base) :
      ThreadStep t s (s.unref t base true .ended)

/-- The states that the threads reach in any order of their steps. -/
inductive ThreadsReach {ι : Type} [DecidableEq ι] (foreign : ι → Bool) (allowed : ThreadSystem ι → Prop) :
    ThreadSystem ι → Prop where
  | start : ThreadsReach foreign allowed (.initial foreign)
  | step {s s' : ThreadSystem ι} {t : ι} (reached : ThreadsReach foreign allowed s)
      (next : ThreadStep t s (.ok s')) (meets : allowed s') : ThreadsReach foreign allowed s'

end Plibsys.Threads
