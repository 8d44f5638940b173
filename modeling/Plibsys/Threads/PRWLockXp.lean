import Mathlib.Logic.Function.Basic
import Plibsys.Types

/-! # Read-write locks for Windows XP

The emulation in `prwlock-win.c`.  One word holds a bit for the writer, the number of threads
that are registered as waiters and the number of readers; an auto-reset event wakes the
waiters.  Every access to the word or to the event is a step of its own, and what a call
computes from the access is part of the step.
-/

namespace Plibsys.Threads

/-- `P_RWLOCK_XP_MAX_SPIN` -/
def rwlockXpMaxSpin : Nat := 4000

/-- `P_RWLOCK_XP_IS_CLEAR` -/
def rwlockXpIsClear (lock : BitVec 32) : Bool := (lock &&& 0x40007FFF#32) == 0

/-- `P_RWLOCK_XP_IS_WRITER` -/
def rwlockXpIsWriter (lock : BitVec 32) : Bool := (lock &&& 0x40000000#32) != 0

/-- `P_RWLOCK_XP_SET_WRITER` -/
def rwlockXpSetWriter (lock : BitVec 32) : BitVec 32 := lock ||| 0x40000000#32

/-- `P_RWLOCK_XP_UNSET_WRITER` -/
def rwlockXpUnsetWriter (lock : BitVec 32) : BitVec 32 := lock &&& ~~~0x40000000#32

/-- `P_RWLOCK_XP_SET_READERS` -/
def rwlockXpSetReaders (lock readers : BitVec 32) : BitVec 32 := (lock &&& ~~~0x00007FFF#32) ||| readers

/-- `P_RWLOCK_XP_READER_COUNT` -/
def rwlockXpReaderCount (lock : BitVec 32) : BitVec 32 := lock &&& 0x00007FFF#32

/-- `P_RWLOCK_XP_SET_WAITING` -/
def rwlockXpSetWaiting (lock waiting : BitVec 32) : BitVec 32 := (lock &&& ~~~0x3FFF8000#32) ||| (waiting <<< 15)

/-- `P_RWLOCK_XP_WAITING_COUNT` -/
def rwlockXpWaitingCount (lock : BitVec 32) : BitVec 32 := (lock &&& 0x3FFF8000#32) >>> 15

structure PRWLockXP where
  lock : BitVec 32
  /-- Whether the event is set. -/
  event : Bool
  deriving Repr, DecidableEq

/-- `pzrwlock_init_xp` -/
def pzrwlockInitXp : PRWLockXP := ⟨0, false⟩

/-- What a call asks for. -/
inductive Access where
  | read
  | write
  deriving Repr, DecidableEq

/-- Where a thread is: outside of every call, or at its next access, with the local variables
    that it still needs. -/
inductive XpThread where
  | idle
  | reading
  | writing
  /-- At the head of the loop of `pzrwlock_start_read_xp` or `pzrwlock_start_write_xp`. -/
  | start (access : Access) (i : Nat)
  /-- At the exchange that takes the lock. -/
  | acquire (access : Access) (i : Nat) (tmzlock : BitVec 32)
  /-- At the exchange that registers a waiter. -/
  | enlist (access : Access) (i : Nat) (tmzlock : BitVec 32)
  /-- In `WaitForSingleObject`. -/
  | wait (access : Access)
  /-- Past the wait, at the read of the word. -/
  | woken (access : Access)
  /-- Past the wait, at the exchange that takes the waiter back. -/
  | delist (access : Access) (tmzlock : BitVec 32)
  /-- At the first access of `pzrwlock_start_read_try_xp` or `pzrwlock_start_write_try_xp`. -/
  | startTry (access : Access)
  | acquireTry (access : Access) (tmzlock : BitVec 32)
  /-- At the read of the word in `pzrwlock_end_read_xp`. -/
  | endRead
  | endReadSignal (tmzlock : BitVec 32)
  | endReadExchange (tmzlock : BitVec 32)
  /-- At the read of the word in `pzrwlock_end_write_xp`. -/
  | endWrite
  | endWriteSignal
  | endWriteExchange (tmzlock : BitVec 32)
  deriving Repr, DecidableEq

/-! ## The calls, from the read of the word to the next access -/

/-- `pzrwlock_start_read_xp` -/
def pzrwlockStartReadXp (i : Nat) (tmzlock : BitVec 32) : XpThread :=
  if !rwlockXpIsWriter tmzlock then
    .acquire .read i tmzlock
  else if i < rwlockXpMaxSpin then
    .start .read (i + 1)
  else
    .enlist .read i tmzlock

/-- `pzrwlock_start_write_xp` -/
def pzrwlockStartWriteXp (i : Nat) (tmzlock : BitVec 32) : XpThread :=
  if rwlockXpIsClear tmzlock then
    .acquire .write i tmzlock
  else if i < rwlockXpMaxSpin then
    .start .write (i + 1)
  else
    .enlist .write i tmzlock

/-- `pzrwlock_start_read_try_xp` -/
def pzrwlockStartReadTryXp (tmzlock : BitVec 32) : XpThread :=
  if rwlockXpIsWriter tmzlock then .idle else .acquireTry .read tmzlock

/-- `pzrwlock_start_write_try_xp` -/
def pzrwlockStartWriteTryXp (tmzlock : BitVec 32) : XpThread :=
  if rwlockXpIsClear tmzlock then .acquireTry .write tmzlock else .idle

/-- `pzrwlock_end_read_xp` -/
def pzrwlockEndReadXp (tmzlock : BitVec 32) : XpThread :=
  let counter := rwlockXpReaderCount tmzlock
  if counter = 0 then
    .idle
  else if counter = 1 ∧ rwlockXpWaitingCount tmzlock ≠ 0 then
    .endReadSignal tmzlock
  else
    .endReadExchange tmzlock

/-- `pzrwlock_end_write_xp` -/
def pzrwlockEndWriteXp (tmzlock : BitVec 32) : XpThread :=
  if !rwlockXpIsWriter tmzlock then
    .idle
  else if rwlockXpWaitingCount tmzlock = 0 then
    .endWriteExchange tmzlock
  else
    .endWriteSignal

/-- The word that takes the lock. -/
def Access.taken (tmzlock : BitVec 32) : Access → BitVec 32
  | read => rwlockXpSetReaders tmzlock (rwlockXpReaderCount tmzlock + 1)
  | write => rwlockXpSetWriter tmzlock

def Access.holder : Access → XpThread
  | read => .reading
  | write => .writing

namespace PRWLockXP

/-- `zatomic_int_compare_and_exchange` on the word, and where the thread goes on. -/
def compareAndExchange (xp : PRWLockXP) (oldval newval : BitVec 32) (done failed : XpThread) : XpThread × PRWLockXP :=
  if xp.lock = oldval then (done, { xp with lock := newval }) else (failed, xp)

/-- One access of a thread that is inside a call.  A wait on an event that is not set has no
    step. -/
def step (xp : PRWLockXP) : XpThread → Option (XpThread × PRWLockXP)
  | .idle | .reading | .writing => none
  | .start .read i => some (pzrwlockStartReadXp i xp.lock, xp)
  | .start .write i => some (pzrwlockStartWriteXp i xp.lock, xp)
  | .acquire access i tmzlock =>
      some (xp.compareAndExchange tmzlock (access.taken tmzlock) access.holder (.start access (i + 1)))
  | .enlist access i tmzlock =>
      some (xp.compareAndExchange tmzlock (rwlockXpSetWaiting tmzlock (rwlockXpWaitingCount tmzlock + 1))
        (.wait access) (.start access (i + 1)))
  | .wait access => if xp.event then some (.woken access, { xp with event := false }) else none
  | .woken access => some (.delist access xp.lock, xp)
  | .delist access tmzlock =>
      -- `i` was set to 0 before the wait and is incremented at the end of the round.
      some (xp.compareAndExchange tmzlock (rwlockXpSetWaiting tmzlock (rwlockXpWaitingCount tmzlock - 1))
        (.start access 1) (.woken access))
  | .startTry .read => some (pzrwlockStartReadTryXp xp.lock, xp)
  | .startTry .write => some (pzrwlockStartWriteTryXp xp.lock, xp)
  | .acquireTry access tmzlock =>
      some (xp.compareAndExchange tmzlock (access.taken tmzlock) access.holder .idle)
  | .endRead => some (pzrwlockEndReadXp xp.lock, xp)
  | .endReadSignal tmzlock => some (.endReadExchange tmzlock, { xp with event := true })
  | .endReadExchange tmzlock =>
      some (xp.compareAndExchange tmzlock (rwlockXpSetReaders tmzlock (rwlockXpReaderCount tmzlock - 1)) .idle .endRead)
  | .endWrite => some (pzrwlockEndWriteXp xp.lock, xp)
  | .endWriteSignal => some (.endWrite, { xp with event := true })
  | .endWriteExchange tmzlock =>
      some (xp.compareAndExchange tmzlock (rwlockXpUnsetWriter tmzlock) .idle .endWrite)

end PRWLockXP

/-- The calls that a thread can begin: locks and unlocks come in pairs. -/
inductive XpCalls : XpThread → XpThread → Prop where
  | startRead : XpCalls .idle (.start .read 0)
  | startWrite : XpCalls .idle (.start .write 0)
  | startReadTry : XpCalls .idle (.startTry .read)
  | startWriteTry : XpCalls .idle (.startTry .write)
  | endRead : XpCalls .reading .endRead
  | endWrite : XpCalls .writing .endWrite

/-- The lock and the threads that use it.  The last three fields are a history that no call
    reads: how many waits have returned, the number of the last return of each thread, and
    how many waits had returned when the thread last set the event in
    `pzrwlock_end_read_xp`. -/
structure XpSystem (ι : Type) where
  xp : PRWLockXP
  threads : ι → XpThread
  wakes : Nat
  wokenAt : ι → Nat
  signalledAt : ι → Nat

namespace XpSystem

variable {ι : Type} [DecidableEq ι]

def new : XpSystem ι := ⟨pzrwlockInitXp, fun _ => .idle, 0, fun _ => 0, fun _ => 0⟩

def move (s : XpSystem ι) (t : ι) (state : XpThread) : XpSystem ι :=
  { s with threads := Function.update s.threads t state }

/-- The history after an access. -/
def recorded (s : XpSystem ι) (t : ι) : XpSystem ι :=
  match s.threads t with
  | .wait _ => { s with wakes := s.wakes + 1, wokenAt := Function.update s.wokenAt t (s.wakes + 1) }
  | .endReadSignal _ => { s with signalledAt := Function.update s.signalledAt t s.wakes }
  | _ => s

@[simp] theorem recorded_threads (s : XpSystem ι) (t : ι) : (s.recorded t).threads = s.threads := by
  unfold recorded
  split <;> rfl

end XpSystem

inductive XpStep {ι : Type} [DecidableEq ι] : XpSystem ι → ι → XpSystem ι → Prop where
  | call {s : XpSystem ι} {t : ι} {state : XpThread} (calls : XpCalls (s.threads t) state) :
      XpStep s t (s.move t state)
  | access {s : XpSystem ι} {t : ι} {state : XpThread} {xp : PRWLockXP}
      (next : s.xp.step (s.threads t) = some (state, xp)) :
      XpStep s t { (s.recorded t).move t state with xp := xp }

/-- The states that the threads reach from a new lock in any order of steps that all meet a
    condition on the state before the step and the thread that makes it. -/
inductive XpRun {ι : Type} [DecidableEq ι] (allowed : XpSystem ι → ι → Prop) : XpSystem ι → Prop where
  | start : XpRun allowed XpSystem.new
  | step {s s' : XpSystem ι} {t : ι} (reached : XpRun allowed s) (meets : allowed s t) (next : XpStep s t s') :
      XpRun allowed s'

/-- The states of any interleaving. -/
def XpReachable {ι : Type} [DecidableEq ι] (s : XpSystem ι) : Prop := XpRun (fun _ _ => True) s

end Plibsys.Threads
