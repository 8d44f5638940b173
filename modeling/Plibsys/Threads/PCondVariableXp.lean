import Plibsys.Types
import Mathlib.Logic.Function.Basic

/-! # Condition variables for Windows XP

The emulation in `pcondvariable-win.c`.  A counter has the number of threads that wait, and a
semaphore wakes them.  Every access to the counter, to the semaphore or to the mutex is a step
of its own.
-/

namespace Plibsys.Threads

/-- The count that `CreateSemaphoreA` is given as the limit. -/
def maxLong : Nat := 0x7FFFFFFF

/-- Where a thread is: outside of every call, or at its next access, with the local variables
    that it still needs. -/
inductive XpWaiter where
  | idle
  | waitInc
  | waitUnlock
  /-- In `WaitForSingleObjectEx`. -/
  | waitSema
  /-- At `zmutex_lock`, and whether the wait was successful. -/
  | waitLock (success : Bool)
  /-- At the decrement that follows a wait without success. -/
  | waitFailed
  | signalGet
  | signalAdd
  | signalRelease
  | broadcastGet
  | broadcastSet (waiters : PInt)
  | broadcastRelease (waiters : PInt)
  deriving DecidableEq

/-- A `PCondVariableXP` with the mutex and the threads that use it. -/
structure XpCondition (ι : Type) where
  waitersSema : Nat
  waitersCount : PInt
  mutex : Option ι
  threads : ι → XpWaiter
  /-- How many waiters were taken from the counter without a permit for them: by a broadcast
      that wiped them, less those that it has woken on top of the counter, and by signals and
      broadcasts whose permits the semaphore refused. -/
  wiped : Int

namespace XpCondition

variable {ι : Type} [DecidableEq ι]

/-- `pzcond_variable_init_xp` -/
def init : XpCondition ι := ⟨0, 0, none, fun _ => .idle, 0⟩

def goto (s : XpCondition ι) (t : ι) (place : XpWaiter) : XpCondition ι :=
  { s with threads := Function.update s.threads t place }

/-- `zmutex_lock`, when nobody has the mutex. -/
def lock (s : XpCondition ι) (t : ι) : XpCondition ι := { s with mutex := some t }

/-- `zmutex_unlock` -/
def unlock (s : XpCondition ι) : XpCondition ι := { s with mutex := none }

/-- `zatomic_int_add` of the counter. -/
def add (s : XpCondition ι) (value : PInt) : XpCondition ι := { s with waitersCount := s.waitersCount + value }

/-- `zatomic_int_set` of the counter to zero, by a broadcast that has read it before. -/
def set (s : XpCondition ι) (waiters : PInt) : XpCondition ι :=
  { s with waitersCount := 0, wiped := s.wiped + (s.waitersCount.toInt - waiters.toInt) }

/-- `ReleaseSemaphore`, which fails when the limit would be exceeded. -/
def release (s : XpCondition ι) (count : Nat) : XpCondition ι :=
  if s.waitersSema + count ≤ maxLong then
    { s with waitersSema := s.waitersSema + count }
  else
    { s with wiped := s.wiped + count }

end XpCondition

open XpCondition in
/-- What a thread can do next.  Whether signals are sent with the mutex only, and whether the
    wait for the semaphore always succeeds, is up to the run. -/
inductive XpCondStep {ι : Type} [DecidableEq ι] (careful : Bool) (t : ι) (s : XpCondition ι) : XpCondition ι → Prop where
  | lock (at_t : s.threads t = .idle) (free : s.mutex = none) : XpCondStep careful t s (s.lock t)
  | unlock (at_t : s.threads t = .idle) (owned : s.mutex = some t) : XpCondStep careful t s s.unlock
  | wait (at_t : s.threads t = .idle) (owned : s.mutex = some t) : XpCondStep careful t s (s.goto t .waitInc)
  | waitInc (at_t : s.threads t = .waitInc) : XpCondStep careful t s ((s.add 1).goto t .waitUnlock)
  | waitUnlock (at_t : s.threads t = .waitUnlock) : XpCondStep careful t s (s.unlock.goto t .waitSema)
  | waitSema (at_t : s.threads t = .waitSema) (set : 0 < s.waitersSema) :
      XpCondStep careful t s ({ s with waitersSema := s.waitersSema - 1 }.goto t (.waitLock true))
  /-- The wait fails. -/
  | waitFails (at_t : s.threads t = .waitSema) (careless : careful = false) :
      XpCondStep careful t s (s.goto t (.waitLock false))
  | waitLock {success : Bool} (at_t : s.threads t = .waitLock success) (free : s.mutex = none) :
      XpCondStep careful t s ((s.lock t).goto t (if success then .idle else .waitFailed))
  | waitFailed (at_t : s.threads t = .waitFailed) : XpCondStep careful t s ((s.add (-1)).goto t .idle)
  | signal (at_t : s.threads t = .idle) (owned : careful = true → s.mutex = some t) :
      XpCondStep careful t s (s.goto t .signalGet)
  | signalGet (at_t : s.threads t = .signalGet) :
      XpCondStep careful t s (s.goto t (if 0 < s.waitersCount.toInt then .signalAdd else .idle))
  | signalAdd (at_t : s.threads t = .signalAdd) : XpCondStep careful t s ((s.add (-1)).goto t .signalRelease)
  | signalRelease (at_t : s.threads t = .signalRelease) : XpCondStep careful t s ((s.release 1).goto t .idle)
  | broadcast (at_t : s.threads t = .idle) (owned : careful = true → s.mutex = some t) :
      XpCondStep careful t s (s.goto t .broadcastGet)
  | broadcastGet (at_t : s.threads t = .broadcastGet) :
      XpCondStep careful t s (s.goto t (if 0 < s.waitersCount.toInt then .broadcastSet s.waitersCount else .idle))
  | broadcastSet {waiters : PInt} (at_t : s.threads t = .broadcastSet waiters) :
      XpCondStep careful t s ((s.set waiters).goto t (.broadcastRelease waiters))
  | broadcastRelease {waiters : PInt} (at_t : s.threads t = .broadcastRelease waiters) :
      XpCondStep careful t s ((s.release waiters.toNat).goto t .idle)

/-- The states that threads reach in any order of their steps. -/
inductive XpCondReach {ι : Type} [DecidableEq ι] (careful : Bool) : XpCondition ι → Prop where
  | init : XpCondReach careful .init
  | step {s s' : XpCondition ι} {t : ι} (reached : XpCondReach careful s) (next : XpCondStep careful t s s') :
      XpCondReach careful s'

end Plibsys.Threads
