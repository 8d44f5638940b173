import Plibsys.Support.Counting
import Plibsys.Support.PackedWord
import Plibsys.Types

/-! # Read-write locks over a mutex

`prwlock-general.c`.  The lock keeps the numbers of active and of waiting threads in two
words, readers in the low 15 bits and writers above them.  A section of the code between
taking and releasing the mutex is one step; a wait on a condition variable ends such a
section, and the return from the wait begins another.
-/

namespace Plibsys.Threads

/-- `P_RWLOCK_SET_READERS` -/
def rwlockSetReaders (lock readers : BitVec 32) : BitVec 32 := (lock &&& ~~~0x00007FFF#32) ||| readers

/-- `P_RWLOCK_READER_COUNT` -/
def rwlockReaderCount (lock : BitVec 32) : BitVec 32 := lock &&& 0x00007FFF#32

/-- `P_RWLOCK_SET_WRITERS` -/
def rwlockSetWriters (lock writers : BitVec 32) : BitVec 32 := (lock &&& ~~~0x3FFF8000#32) ||| (writers <<< 15)

/-- `P_RWLOCK_WRITER_COUNT` -/
def rwlockWriterCount (lock : BitVec 32) : BitVec 32 := (lock &&& 0x3FFF8000#32) >>> 15

structure PRWLock where
  activeThreads : BitVec 32
  waitingThreads : BitVec 32
  deriving Repr, DecidableEq

/-- Where a thread is.  A thread in a wait loop is blocked on its condition variable, or it
    was woken and will check its condition again. -/
inductive RWThread where
  | idle
  | readerWaiting (blocked : Bool)
  | writerWaiting (blocked : Bool)
  | reading
  | writing
  deriving Repr, DecidableEq

/-- Which condition variable a section signals. -/
inductive Notify where
  | nobody
  | signalWriter
  | broadcastReaders
  deriving Repr, DecidableEq

/-- What a section leaves behind. -/
structure Outcome where
  lock : PRWLock
  thread : RWThread
  notify : Notify
  deriving Repr, DecidableEq

/-- `zrwlock_new` -/
def zrwlockNew : PRWLock := ⟨0, 0⟩

namespace PRWLock

def addActiveReader (lock : PRWLock) : PRWLock :=
  { lock with activeThreads := rwlockSetReaders lock.activeThreads (rwlockReaderCount lock.activeThreads + 1) }

def setWaitingReaders (lock : PRWLock) (readers : BitVec 32) : PRWLock :=
  { lock with waitingThreads := rwlockSetReaders lock.waitingThreads readers }

def setWaitingWriters (lock : PRWLock) (writers : BitVec 32) : PRWLock :=
  { lock with waitingThreads := rwlockSetWriters lock.waitingThreads writers }

def setActiveWriter (lock : PRWLock) : PRWLock :=
  { lock with activeThreads := rwlockSetWriters lock.activeThreads 1 }

/-- `zrwlock_reader_lock` up to its first wait, or to its end. -/
def zrwlockReaderLock (lock : PRWLock) : Outcome :=
  if rwlockWriterCount lock.activeThreads ≠ 0 then
    ⟨lock.setWaitingReaders (rwlockReaderCount lock.waitingThreads + 1), .readerWaiting true, .nobody⟩
  else
    ⟨lock.addActiveReader, .reading, .nobody⟩

/-- `zrwlock_reader_lock` after a wait: the condition of the loop, and what follows it. -/
def resumeReaderLock (lock : PRWLock) : Outcome :=
  if rwlockWriterCount lock.activeThreads ≠ 0 then
    ⟨lock, .readerWaiting true, .nobody⟩
  else
    let lock := lock.setWaitingReaders (rwlockReaderCount lock.waitingThreads - 1)
    ⟨lock.addActiveReader, .reading, .nobody⟩

/-- `zrwlock_reader_trylock` -/
def zrwlockReaderTrylock (lock : PRWLock) : Outcome :=
  if rwlockWriterCount lock.activeThreads ≠ 0 then
    ⟨lock, .idle, .nobody⟩
  else
    ⟨lock.addActiveReader, .reading, .nobody⟩

/-- `zrwlock_reader_unlock` -/
def zrwlockReaderUnlock (lock : PRWLock) : Outcome :=
  let readerCount := rwlockReaderCount lock.activeThreads
  if readerCount = 0 then
    ⟨lock, .idle, .nobody⟩
  else
    ⟨{ lock with activeThreads := rwlockSetReaders lock.activeThreads (readerCount - 1) }, .idle,
      if readerCount = 1 ∧ rwlockWriterCount lock.waitingThreads ≠ 0 then .signalWriter else .nobody⟩

/-- `zrwlock_writer_lock` up to its first wait, or to its end. -/
def zrwlockWriterLock (lock : PRWLock) : Outcome :=
  if lock.activeThreads ≠ 0 then
    ⟨lock.setWaitingWriters (rwlockWriterCount lock.waitingThreads + 1), .writerWaiting true, .nobody⟩
  else
    ⟨lock.setActiveWriter, .writing, .nobody⟩

/-- `zrwlock_writer_lock` after a wait. -/
def resumeWriterLock (lock : PRWLock) : Outcome :=
  if lock.activeThreads ≠ 0 then
    ⟨lock, .writerWaiting true, .nobody⟩
  else
    let lock := lock.setWaitingWriters (rwlockWriterCount lock.waitingThreads - 1)
    ⟨lock.setActiveWriter, .writing, .nobody⟩

/-- `zrwlock_writer_trylock` -/
def zrwlockWriterTrylock (lock : PRWLock) : Outcome :=
  if lock.activeThreads ≠ 0 then
    ⟨lock, .idle, .nobody⟩
  else
    ⟨lock.setActiveWriter, .writing, .nobody⟩

/-- `zrwlock_writer_unlock` -/
def zrwlockWriterUnlock (lock : PRWLock) : Outcome :=
  ⟨{ lock with activeThreads := rwlockSetWriters lock.activeThreads 0 }, .idle,
    if rwlockWriterCount lock.waitingThreads ≠ 0 then .signalWriter
    else if rwlockReaderCount lock.waitingThreads ≠ 0 then .broadcastReaders
    else .nobody⟩

end PRWLock

/-- The lock and the threads that use it, at a point where the mutex is free. -/
structure RWSystem (ι : Type) where
  lock : PRWLock
  threads : ι → RWThread

/-- What a signal or a broadcast does to the threads: a signal wakes at least one of the
    threads that are blocked on the condition variable, a broadcast wakes all of them. -/
def Notified {ι : Type} (notify : Notify) (before after : ι → RWThread) : Prop :=
  match notify with
  | .nobody => after = before
  | .signalWriter =>
      (∀ t, after t = before t ∨ before t = .writerWaiting true ∧ after t = .writerWaiting false) ∧
        ((∃ t, before t = .writerWaiting true) → ∃ t, before t = .writerWaiting true ∧ after t = .writerWaiting false)
  | .broadcastReaders =>
      ∀ t, after t = if before t = .readerWaiting true then .readerWaiting false else before t

/-- Which section a thread can run next. -/
inductive Runs : RWThread → (PRWLock → Outcome) → Prop where
  | readerLock : Runs .idle PRWLock.zrwlockReaderLock
  | readerTrylock : Runs .idle PRWLock.zrwlockReaderTrylock
  | writerLock : Runs .idle PRWLock.zrwlockWriterLock
  | writerTrylock : Runs .idle PRWLock.zrwlockWriterTrylock
  | readerResume : Runs (.readerWaiting false) PRWLock.resumeReaderLock
  | writerResume : Runs (.writerWaiting false) PRWLock.resumeWriterLock
  | readerUnlock : Runs .reading PRWLock.zrwlockReaderUnlock
  | writerUnlock : Runs .writing PRWLock.zrwlockWriterUnlock

/-- A thread that is woken without a reason. -/
inductive Spurious : RWThread → RWThread → Prop where
  | reader : Spurious (.readerWaiting true) (.readerWaiting false)
  | writer : Spurious (.writerWaiting true) (.writerWaiting false)

inductive RWStep {ι : Type} [DecidableEq ι] : RWSystem ι → RWSystem ι → Prop where
  | run {s : RWSystem ι} {code : PRWLock → Outcome} {threads : ι → RWThread} (t : ι)
      (runs : Runs (s.threads t) code)
      (notified : Notified (code s.lock).notify (Function.update s.threads t (code s.lock).thread) threads) :
      RWStep s ⟨(code s.lock).lock, threads⟩
  | wake {s : RWSystem ι} {state : RWThread} (t : ι) (spurious : Spurious (s.threads t) state) :
      RWStep s { s with threads := Function.update s.threads t state }

/-- The states that any order of steps leads to, from a new lock. -/
inductive RWReachable {ι : Type} [DecidableEq ι] : RWSystem ι → Prop where
  | start : RWReachable ⟨zrwlockNew, fun _ => .idle⟩
  | step {s s' : RWSystem ι} (reached : RWReachable s) (next : RWStep s s') : RWReachable s'

end Plibsys.Threads
