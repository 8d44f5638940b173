import Plibsys.Threads.PRWLock

/-! # What the read-write lock keeps

The two words count the threads by what they do, whatever order the sections run in.  A
reader stays blocked only while there is a writer that will wake it, so a lock that nobody
holds always has somebody on the way to it.
-/

namespace Plibsys.Threads

open Support

namespace RWThread

def isReading : RWThread → Bool
  | reading => true
  | _ => false

def isWriting : RWThread → Bool
  | writing => true
  | _ => false

def isReaderWaiting : RWThread → Bool
  | readerWaiting _ => true
  | _ => false

def isWriterWaiting : RWThread → Bool
  | writerWaiting _ => true
  | _ => false

/-- In a wait loop, woken. -/
def isAwake : RWThread → Bool
  | readerWaiting blocked => !blocked
  | writerWaiting blocked => !blocked
  | _ => false

/-- The same thread once it is woken. -/
def woken : RWThread → RWThread
  | readerWaiting _ => readerWaiting false
  | writerWaiting _ => writerWaiting false
  | thread => thread

end RWThread

/-- The lock with the given numbers of threads. -/
def counted (writers readers waitingWriters waitingReaders : Nat) : PRWLock :=
  ⟨packed 0 writers readers, packed 0 waitingWriters waitingReaders⟩

/-! ## The sections on a lock that is given by its numbers -/

section Sections

variable {w r ww wr : Nat}

@[simp] theorem rwlockReaderCount_packed {high mid low : Nat} : rwlockReaderCount (packed high mid low) = field low :=
  packed_low

@[simp] theorem rwlockWriterCount_packed {high mid low : Nat} : rwlockWriterCount (packed high mid low) = field mid :=
  packed_mid

@[simp] theorem rwlockSetReaders_packed {high mid low n : Nat} :
    rwlockSetReaders (packed high mid low) (field n) = packed high mid n :=
  packed_set_low

@[simp] theorem rwlockSetWriters_packed {high mid low n : Nat} :
    rwlockSetWriters (packed high mid low) (field n) = packed high n low :=
  packed_set_mid

theorem packed_eq_zero (midSmall : w < 2 ^ 15) (lowSmall : r < 2 ^ 15) : packed 0 w r = 0 ↔ w = 0 ∧ r = 0 := by
  constructor
  · intro zero
    exact (packed_inj ⟨by decide, midSmall, lowSmall⟩ (by decide) (zero.trans (by decide : (0 : BitVec 32) = packed 0 0 0))).2
  · rintro ⟨rfl, rfl⟩
    decide

theorem addActiveReader_counted (small : r + 1 < 2 ^ 15) :
    (counted w r ww wr).addActiveReader = counted w (r + 1) ww wr := by
  simp only [PRWLock.addActiveReader, counted, rwlockReaderCount_packed, field_add_one small, rwlockSetReaders_packed]

theorem setActiveWriter_counted : (counted w r ww wr).setActiveWriter = counted 1 r ww wr := by
  have one : (1 : BitVec 32) = field 1 := by decide
  simp only [PRWLock.setActiveWriter, counted, one, rwlockSetWriters_packed]

theorem addWaitingReader_counted (small : wr + 1 < 2 ^ 15) :
    (counted w r ww wr).setWaitingReaders (rwlockReaderCount (counted w r ww wr).waitingThreads + 1) =
      counted w r ww (wr + 1) := by
  simp only [PRWLock.setWaitingReaders, counted, rwlockReaderCount_packed, field_add_one small, rwlockSetReaders_packed]

theorem subWaitingReader_counted (small : wr < 2 ^ 15) (positive : 0 < wr) :
    (counted w r ww wr).setWaitingReaders (rwlockReaderCount (counted w r ww wr).waitingThreads - 1) =
      counted w r ww (wr - 1) := by
  simp only [PRWLock.setWaitingReaders, counted, rwlockReaderCount_packed, field_sub_one small positive,
    rwlockSetReaders_packed]

theorem addWaitingWriter_counted (small : ww + 1 < 2 ^ 15) :
    (counted w r ww wr).setWaitingWriters (rwlockWriterCount (counted w r ww wr).waitingThreads + 1) =
      counted w r (ww + 1) wr := by
  simp only [PRWLock.setWaitingWriters, counted, rwlockWriterCount_packed, field_add_one small, rwlockSetWriters_packed]

theorem subWaitingWriter_counted (small : ww < 2 ^ 15) (positive : 0 < ww) :
    (counted w r ww wr).setWaitingWriters (rwlockWriterCount (counted w r ww wr).waitingThreads - 1) =
      counted w r (ww - 1) wr := by
  simp only [PRWLock.setWaitingWriters, counted, rwlockWriterCount_packed, field_sub_one small positive,
    rwlockSetWriters_packed]

/-- The test of the readers. -/
theorem writerCount_ne_zero (small : w < 2 ^ 15) :
    rwlockWriterCount (counted w r ww wr).activeThreads ≠ 0 ↔ w ≠ 0 := by
  simp only [counted, rwlockWriterCount_packed, ne_eq, field_eq_zero small]

/-- The test of the writers. -/
theorem activeThreads_ne_zero (small : w < 2 ^ 15) (readersSmall : r < 2 ^ 15) :
    (counted w r ww wr).activeThreads ≠ 0 ↔ w ≠ 0 ∨ r ≠ 0 := by
  simp only [counted, ne_eq, packed_eq_zero small readersSmall]
  omega

theorem zrwlockReaderUnlock_counted (small : r < 2 ^ 15) (positive : 0 < r) (waitingSmall : ww < 2 ^ 15) :
    (counted w r ww wr).zrwlockReaderUnlock =
      ⟨counted w (r - 1) ww wr, .idle, if r = 1 ∧ ww ≠ 0 then .signalWriter else .nobody⟩ := by
  have one : field r = 1 ↔ r = 1 := by
    rw [field_eq small]
    constructor
    · intro same
      have numbers := congrArg BitVec.toNat same
      rw [BitVec.toNat_ofNat, Nat.mod_eq_of_lt (by omega)] at numbers
      exact numbers
    · rintro rfl
      rfl
  unfold PRWLock.zrwlockReaderUnlock
  simp only [counted, rwlockReaderCount_packed, rwlockWriterCount_packed, field_eq_zero small, positive.ne', if_false,
    field_sub_one small positive, rwlockSetReaders_packed, one, ne_eq, field_eq_zero waitingSmall]

theorem zrwlockWriterUnlock_counted (writersSmall : ww < 2 ^ 15) (readersSmall : wr < 2 ^ 15) :
    (counted w r ww wr).zrwlockWriterUnlock =
      ⟨counted 0 r ww wr, .idle,
        if ww ≠ 0 then .signalWriter else if wr ≠ 0 then .broadcastReaders else .nobody⟩ := by
  have zero : (0 : BitVec 32) = field 0 := by decide
  unfold PRWLock.zrwlockWriterUnlock
  simp only [counted, rwlockReaderCount_packed, rwlockWriterCount_packed, ne_eq, field_eq_zero writersSmall,
    field_eq_zero readersSmall]
  rw [zero, rwlockSetWriters_packed]

end Sections

/-! ## The invariant -/

section Invariant

variable {ι : Type} [Fintype ι]

def writers (threads : ι → RWThread) : Nat := count RWThread.isWriting threads

def readers (threads : ι → RWThread) : Nat := count RWThread.isReading threads

def waitingWriters (threads : ι → RWThread) : Nat := count RWThread.isWriterWaiting threads

def waitingReaders (threads : ι → RWThread) : Nat := count RWThread.isReaderWaiting threads

/-- The lock that has counted the threads. -/
def tally (threads : ι → RWThread) : PRWLock :=
  counted (writers threads) (readers threads) (waitingWriters threads) (waitingReaders threads)

/-- A reader is blocked only while there is a writer to wake it, and a lock that nobody
    holds has a woken thread among those that wait for it. -/
structure RWInvariant (lock : PRWLock) (threads : ι → RWThread) : Prop where
  lock : lock = tally threads
  single : writers threads ≤ 1
  exclusive : writers threads = 0 ∨ readers threads = 0
  blocked : ∀ t, threads t = .readerWaiting true → 0 < writers threads ∨ 0 < waitingWriters threads
  awake : writers threads = 0 → readers threads = 0 → 0 < waitingWriters threads ∨ 0 < waitingReaders threads →
    ∃ t, (threads t).isAwake = true

theorem rwInvariant_new : RWInvariant zrwlockNew (fun _ : ι => .idle) := by
  have none : ∀ p : RWThread → Bool, p .idle = false → count p (fun _ : ι => RWThread.idle) = 0 :=
    fun p idle => count_eq_zero.mpr fun _ => idle
  have w : writers (fun _ : ι => RWThread.idle) = 0 := none _ rfl
  have r : readers (fun _ : ι => RWThread.idle) = 0 := none _ rfl
  have ww : waitingWriters (fun _ : ι => RWThread.idle) = 0 := none _ rfl
  have wr : waitingReaders (fun _ : ι => RWThread.idle) = 0 := none _ rfl
  refine ⟨?_, w.trans_le (by decide), .inl w, fun t waits => RWThread.noConfusion waits, ?_⟩
  · simp only [tally, w, r, ww, wr]
    decide
  · intro _ _ waits
    simp only [ww, wr] at waits
    omega

/-! ## What a notification changes -/

section Notification

variable {notify : Notify} {before after : ι → RWThread}

omit [Fintype ι] in
theorem Notified.woken (notified : Notified notify before after) (t : ι) : (after t).woken = (before t).woken := by
  cases notify with
  | nobody => rw [show after = before from notified]
  | signalWriter =>
      obtain same | ⟨blocked, woken⟩ := notified.1 t
      · rw [same]
      · rw [blocked, woken]
        rfl
  | broadcastReaders =>
      have at_t := notified t
      split at at_t
      · next blocked =>
          rw [at_t, blocked]
          rfl
      · rw [at_t]

theorem Notified.count_eq (notified : Notified notify before after) {p : RWThread → Bool}
    (blind : ∀ x, p x.woken = p x) : count p after = count p before := by
  apply count_congr
  intro t
  rw [← blind (after t), notified.woken, blind]

theorem Notified.tally_eq (notified : Notified notify before after) :
    writers after = writers before ∧ readers after = readers before ∧
      waitingWriters after = waitingWriters before ∧ waitingReaders after = waitingReaders before :=
  ⟨notified.count_eq fun x => by cases x <;> rfl, notified.count_eq fun x => by cases x <;> rfl,
    notified.count_eq fun x => by cases x <;> rfl, notified.count_eq fun x => by cases x <;> rfl⟩

omit [Fintype ι] in
/-- Nobody is blocked by a notification. -/
theorem Notified.reader_blocked (notified : Notified notify before after) {t : ι}
    (blocked : after t = .readerWaiting true) : before t = .readerWaiting true := by
  cases notify with
  | nobody => rwa [show after = before from notified] at blocked
  | signalWriter =>
      obtain same | ⟨_, woken⟩ := notified.1 t
      · rwa [same] at blocked
      · rw [woken] at blocked
        cases blocked
  | broadcastReaders =>
      have at_t := notified t
      split at at_t
      · rw [at_t] at blocked
        cases blocked
      · rwa [at_t] at blocked

/-- A signal leaves a woken writer behind, when there is a waiting one. -/
theorem Notified.writer_awake (notified : Notified .signalWriter before after) (waits : 0 < waitingWriters before) :
    ∃ t, (after t).isAwake = true := by
  obtain ⟨t, waiting⟩ := count_pos.mp waits
  match at_t : before t with
  | .writerWaiting true =>
      obtain ⟨u, _, woken⟩ := notified.2 ⟨t, at_t⟩
      exact ⟨u, by rw [woken]; rfl⟩
  | .writerWaiting false =>
      obtain same | ⟨blocked, _⟩ := notified.1 t
      · exact ⟨t, by rw [same, at_t]; rfl⟩
      · rw [at_t] at blocked
        cases blocked
  | .idle | .reading | .writing | .readerWaiting _ =>
      rw [at_t] at waiting
      cases waiting

/-- A waiting reader that is not blocked is woken. -/
theorem reader_awake {threads : ι → RWThread} (waits : 0 < waitingReaders threads)
    (open_ : ∀ t, threads t ≠ .readerWaiting true) : ∃ t, (threads t).isAwake = true := by
  obtain ⟨t, waiting⟩ := count_pos.mp waits
  match at_t : threads t with
  | .readerWaiting true => exact absurd at_t (open_ t)
  | .readerWaiting false => exact ⟨t, by rw [at_t]; rfl⟩
  | .idle | .reading | .writing | .writerWaiting _ =>
      rw [at_t] at waiting
      cases waiting

omit [Fintype ι] in
theorem Notified.none_blocked (notified : Notified .broadcastReaders before after) (t : ι) :
    after t ≠ .readerWaiting true := by
  intro blocked
  have at_t := notified t
  rw [notified.reader_blocked blocked, if_pos rfl, blocked] at at_t
  cases at_t

end Notification

/-! ## What a section does -/

/-- The moves of a thread, by the numbers of threads before it. -/
inductive CountedMove (w r ww wr : Nat) : RWThread → Outcome → Prop where
  | fails : CountedMove w r ww wr .idle ⟨counted w r ww wr, .idle, .nobody⟩
  | readerBlocks (held : 0 < w) : CountedMove w r ww wr .idle ⟨counted w r ww (wr + 1), .readerWaiting true, .nobody⟩
  | readerBlocksAgain (held : 0 < w) :
      CountedMove w r ww wr (.readerWaiting false) ⟨counted w r ww wr, .readerWaiting true, .nobody⟩
  | readerEnters (free : w = 0) : CountedMove w r ww wr .idle ⟨counted w (r + 1) ww wr, .reading, .nobody⟩
  | readerResumes (free : w = 0) :
      CountedMove w r ww wr (.readerWaiting false) ⟨counted w (r + 1) ww (wr - 1), .reading, .nobody⟩
  | readerLeaves :
      CountedMove w r ww wr .reading
        ⟨counted w (r - 1) ww wr, .idle, if r = 1 ∧ ww ≠ 0 then .signalWriter else .nobody⟩
  | writerBlocks (held : 0 < w ∨ 0 < r) :
      CountedMove w r ww wr .idle ⟨counted w r (ww + 1) wr, .writerWaiting true, .nobody⟩
  | writerBlocksAgain (held : 0 < w ∨ 0 < r) :
      CountedMove w r ww wr (.writerWaiting false) ⟨counted w r ww wr, .writerWaiting true, .nobody⟩
  | writerEnters (free : w = 0 ∧ r = 0) : CountedMove w r ww wr .idle ⟨counted 1 r ww wr, .writing, .nobody⟩
  | writerResumes (free : w = 0 ∧ r = 0) :
      CountedMove w r ww wr (.writerWaiting false) ⟨counted 1 r (ww - 1) wr, .writing, .nobody⟩
  | writerLeaves :
      CountedMove w r ww wr .writing
        ⟨counted 0 r ww wr, .idle, if ww ≠ 0 then .signalWriter else if wr ≠ 0 then .broadcastReaders else .nobody⟩

/-- The numbers fit their fields, also after a thread in the given state moved. -/
structure Room (w r ww wr : Nat) (thread : RWThread) : Prop where
  writers : w + (!thread.isWriting).toNat < 2 ^ 15
  readers : r + (!thread.isReading).toNat < 2 ^ 15
  waitingWriters : ww + (!thread.isWriterWaiting).toNat < 2 ^ 15
  waitingReaders : wr + (!thread.isReaderWaiting).toNat < 2 ^ 15
  reads : thread.isReading.toNat ≤ r
  waitsToWrite : thread.isWriterWaiting.toNat ≤ ww
  waitsToRead : thread.isReaderWaiting.toNat ≤ wr

theorem Runs.counted_move {w r ww wr : Nat} {thread : RWThread} {code : PRWLock → Outcome} (runs : Runs thread code)
    (room : Room w r ww wr thread) : CountedMove w r ww wr thread (code (counted w r ww wr)) := by
  obtain ⟨wSmall, rSmall, wwSmall, wrSmall, reads, waitsToWrite, waitsToRead⟩ := room
  cases runs with
  | readerLock =>
      unfold PRWLock.zrwlockReaderLock
      rw [addWaitingReader_counted wrSmall, addActiveReader_counted rSmall]
      split
      · next held => exact .readerBlocks (Nat.pos_of_ne_zero ((writerCount_ne_zero (by omega)).mp held))
      · next free => exact .readerEnters (not_not.mp fun held => free ((writerCount_ne_zero (by omega)).mpr held))
  | readerTrylock =>
      unfold PRWLock.zrwlockReaderTrylock
      rw [addActiveReader_counted rSmall]
      split
      · exact .fails
      · next free => exact .readerEnters (not_not.mp fun held => free ((writerCount_ne_zero (by omega)).mpr held))
  | writerLock =>
      unfold PRWLock.zrwlockWriterLock
      rw [addWaitingWriter_counted wwSmall, setActiveWriter_counted]
      split
      · next held =>
          have := (activeThreads_ne_zero (by omega) (by omega)).mp held
          exact .writerBlocks (by omega)
      · next free =>
          have := mt (activeThreads_ne_zero (by omega) (by omega)).mpr free
          exact .writerEnters (by omega)
  | writerTrylock =>
      unfold PRWLock.zrwlockWriterTrylock
      rw [setActiveWriter_counted]
      split
      · exact .fails
      · next free =>
          have := mt (activeThreads_ne_zero (by omega) (by omega)).mpr free
          exact .writerEnters (by omega)
  | readerResume =>
      unfold PRWLock.resumeReaderLock
      simp only [subWaitingReader_counted (show wr < 2 ^ 15 by omega) waitsToRead, addActiveReader_counted rSmall]
      split
      · next held => exact .readerBlocksAgain (Nat.pos_of_ne_zero ((writerCount_ne_zero (by omega)).mp held))
      · next free => exact .readerResumes (not_not.mp fun held => free ((writerCount_ne_zero (by omega)).mpr held))
  | writerResume =>
      unfold PRWLock.resumeWriterLock
      simp only [subWaitingWriter_counted (show ww < 2 ^ 15 by omega) waitsToWrite, setActiveWriter_counted]
      split
      · next held =>
          have := (activeThreads_ne_zero (by omega) (by omega)).mp held
          exact .writerBlocksAgain (by omega)
      · next free =>
          have := mt (activeThreads_ne_zero (by omega) (by omega)).mpr free
          exact .writerResumes (by omega)
  | readerUnlock =>
      rw [zrwlockReaderUnlock_counted (by omega) reads (by omega)]
      exact .readerLeaves
  | writerUnlock =>
      rw [zrwlockWriterUnlock_counted (by omega) (by omega)]
      exact .writerLeaves

/-! ## Runs -/

variable [DecidableEq ι]

/-- The numbers after one thread moved. -/
theorem tally_update (threads : ι → RWThread) (t : ι) (state : RWThread) :
    writers (Function.update threads t state) + (threads t).isWriting.toNat =
        writers threads + state.isWriting.toNat ∧
      readers (Function.update threads t state) + (threads t).isReading.toNat =
        readers threads + state.isReading.toNat ∧
      waitingWriters (Function.update threads t state) + (threads t).isWriterWaiting.toNat =
        waitingWriters threads + state.isWriterWaiting.toNat ∧
      waitingReaders (Function.update threads t state) + (threads t).isReaderWaiting.toNat =
        waitingReaders threads + state.isReaderWaiting.toNat :=
  ⟨count_update _ _ _ _, count_update _ _ _ _, count_update _ _ _ _, count_update _ _ _ _⟩

omit [DecidableEq ι] in
theorem room (few : Fintype.card ι < 2 ^ 15) (threads : ι → RWThread) (t : ι) :
    Room (writers threads) (readers threads) (waitingWriters threads) (waitingReaders threads) (threads t) := by
  have above : ∀ p : RWThread → Bool, count p threads + (!p (threads t)).toNat < 2 ^ 15 :=
    fun p => (count_add_not_le p threads t).trans_lt few
  exact ⟨above _, above _, above _, above _, toNat_le_count _ _ _, toNat_le_count _ _ _, toNat_le_count _ _ _⟩

variable {lock : PRWLock} {before threads : ι → RWThread}

omit [DecidableEq ι] in
theorem counted_eq_tally {w r ww wr : Nat} (same : writers threads = w ∧ readers threads = r ∧
    waitingWriters threads = ww ∧ waitingReaders threads = wr) : counted w r ww wr = tally threads := by
  obtain ⟨rfl, rfl, rfl, rfl⟩ := same
  rfl

/-- A blocked reader has just blocked, or there was a writer to wake it already. -/
theorem RWInvariant.blocked_before (inv : RWInvariant lock before) {t : ι} {state : RWThread} {notify : Notify}
    (notified : Notified notify (Function.update before t state) threads) {u : ι}
    (blocked : threads u = .readerWaiting true) :
    state = .readerWaiting true ∨ 0 < writers before ∨ 0 < waitingWriters before := by
  have earlier := notified.reader_blocked blocked
  by_cases same : u = t
  · rw [same, Function.update_self] at earlier
    exact .inl earlier
  · rw [Function.update_of_ne same] at earlier
    exact .inr (inv.blocked u earlier)

/-- The last reader wakes a writer if there is one; otherwise no reader is blocked. -/
theorem RWInvariant.reader_leaves (inv : RWInvariant lock before) {t : ι} (reads : before t = .reading)
    (notified : Notified (if readers before = 1 ∧ waitingWriters before ≠ 0 then .signalWriter else .nobody)
      (Function.update before t .idle) threads) :
    RWInvariant (counted (writers before) (readers before - 1) (waitingWriters before)
      (waitingReaders before)) threads := by
  have moved := tally_update before t .idle
  have same := notified.tally_eq
  have single := inv.single
  have exclusive := inv.exclusive
  simp only [reads, RWThread.isReading, RWThread.isWriting, RWThread.isReaderWaiting, RWThread.isWriterWaiting,
    Bool.toNat_true, Bool.toNat_false] at moved
  refine ⟨counted_eq_tally (by omega), by omega, by omega, ?_, ?_⟩
  · intro u blocked
    have earlier := inv.blocked_before notified blocked
    simp only [reduceCtorEq, false_or] at earlier
    omega
  · intro noWriter noReader waits
    by_cases writer : waitingWriters before = 0
    · refine reader_awake (by omega) fun u blocked => ?_
      have earlier := inv.blocked_before notified blocked
      simp only [reduceCtorEq, false_or] at earlier
      omega
    · rw [if_pos ⟨by omega, writer⟩] at notified
      exact notified.writer_awake (by omega)

/-- The writer wakes a writer if there is one, and otherwise all readers. -/
theorem RWInvariant.writer_leaves (inv : RWInvariant lock before) {t : ι} (writes : before t = .writing)
    (notified : Notified (if waitingWriters before ≠ 0 then .signalWriter
        else if waitingReaders before ≠ 0 then .broadcastReaders else .nobody)
      (Function.update before t .idle) threads) :
    RWInvariant (counted 0 (readers before) (waitingWriters before) (waitingReaders before)) threads := by
  have moved := tally_update before t .idle
  have same := notified.tally_eq
  have single := inv.single
  have exclusive := inv.exclusive
  simp only [writes, RWThread.isReading, RWThread.isWriting, RWThread.isReaderWaiting, RWThread.isWriterWaiting,
    Bool.toNat_true, Bool.toNat_false] at moved
  have open_ : waitingWriters before = 0 → ∀ u, threads u ≠ .readerWaiting true := by
    intro none u blocked
    rw [if_neg (by omega)] at notified
    split at notified
    · exact notified.none_blocked u blocked
    · have waiting : 0 < waitingReaders threads := count_pos.mpr ⟨u, by rw [blocked]; rfl⟩
      omega
  refine ⟨counted_eq_tally (by omega), by omega, by omega, ?_, ?_⟩
  · intro u blocked
    by_cases none : waitingWriters before = 0
    · exact absurd blocked (open_ none u)
    · omega
  · intro noWriter noReader waits
    by_cases none : waitingWriters before = 0
    · exact reader_awake (by omega) (open_ none)
    · rw [if_pos none] at notified
      exact notified.writer_awake (by omega)

/-- A move that wakes nobody and leaves the lock held. -/
theorem RWInvariant.quiet_move (inv : RWInvariant lock before) {t : ι} {state : RWThread} {after : PRWLock}
    (accounted : after = tally (Function.update before t state))
    (single : writers (Function.update before t state) ≤ 1)
    (exclusive : writers (Function.update before t state) = 0 ∨ readers (Function.update before t state) = 0)
    (held : 0 < writers (Function.update before t state) ∨
      0 < readers (Function.update before t state) ∧ state ≠ .readerWaiting true ∧
        writers before = 0 ∧ waitingWriters before ≤ waitingWriters (Function.update before t state)) :
    RWInvariant after (Function.update before t state) := by
  refine ⟨accounted, single, exclusive, ?_, ?_⟩
  · intro u blocked
    have earlier := inv.blocked_before (show Notified .nobody _ _ from rfl) blocked
    obtain writer | ⟨_, other, noWriter, _⟩ := held
    · exact .inl writer
    · have := earlier.resolve_left other
      omega
  · intro noWriter noReader _
    omega

theorem RWInvariant.run (inv : RWInvariant lock before) (few : Fintype.card ι < 2 ^ 15) {code : PRWLock → Outcome} {t : ι}
    (runs : Runs (before t) code)
    (notified : Notified (code lock).notify (Function.update before t (code lock).thread) threads) :
    RWInvariant (code lock).lock threads := by
  have move := runs.counted_move (room few before t)
  rw [← tally, ← inv.lock] at move
  generalize code lock = outcome at move notified ⊢
  generalize at_t : before t = thread at move
  obtain ⟨after, state, notify⟩ := outcome
  dsimp only at notified ⊢
  have moved := tally_update before t state
  have single := inv.single
  have exclusive := inv.exclusive
  rw [at_t] at moved
  cases move with
  | readerLeaves => exact inv.reader_leaves at_t notified
  | writerLeaves => exact inv.writer_leaves at_t notified
  | fails =>
      obtain rfl : threads = before := by rw [show threads = _ from notified, ← at_t, Function.update_eq_self]
      exact ⟨rfl, inv.single, inv.exclusive, inv.blocked, inv.awake⟩
  | readerBlocks held | readerBlocksAgain held | readerEnters free | readerResumes free | writerBlocks held
  | writerBlocksAgain held | writerEnters free | writerResumes free =>
      simp only [RWThread.isReading, RWThread.isWriting, RWThread.isReaderWaiting, RWThread.isWriterWaiting,
        Bool.toNat_true, Bool.toNat_false] at moved
      rw [show threads = _ from notified]
      refine inv.quiet_move (counted_eq_tally (by omega)) (by omega) (by omega) ?_
      simp
      omega

/-- A thread that is woken is counted as before. -/
theorem RWInvariant.wake (inv : RWInvariant lock before) {t : ι} {state : RWThread} (spurious : Spurious (before t) state) :
    RWInvariant lock (Function.update before t state) := by
  have moved := tally_update before t state
  have awake : state.isAwake = true := by
    generalize before t = thread at spurious
    cases spurious <;> rfl
  have numbers : writers (Function.update before t state) = writers before ∧
      readers (Function.update before t state) = readers before ∧
      waitingWriters (Function.update before t state) = waitingWriters before ∧
      waitingReaders (Function.update before t state) = waitingReaders before := by
    generalize before t = thread at spurious moved
    cases spurious <;>
      simp only [RWThread.isReading, RWThread.isWriting, RWThread.isReaderWaiting, RWThread.isWriterWaiting,
        Bool.toNat_true, Bool.toNat_false] at moved <;> omega
  have single := inv.single
  have exclusive := inv.exclusive
  refine ⟨inv.lock.trans (counted_eq_tally numbers), by simpa only [numbers], by simpa only [numbers], ?_, ?_⟩
  · intro u blocked
    have earlier := inv.blocked_before (show Notified .nobody _ _ from rfl) blocked
    simp only [numbers]
    refine earlier.resolve_left fun same => ?_
    rw [same] at awake
    cases awake
  · intro _ _ _
    exact ⟨t, by simp only [Function.update_self, awake]⟩

theorem RWReachable.invariant (few : Fintype.card ι < 2 ^ 15) {s : RWSystem ι} (reached : RWReachable s) :
    RWInvariant s.lock s.threads := by
  induction reached with
  | start => exact rwInvariant_new
  | step _ next ih =>
      cases next with
      | run t runs notified => exact ih.run few runs notified
      | wake t spurious => exact ih.wake spurious

/-- In every state that the threads can reach, the fields of the two words are the numbers of
    threads, the lock excludes writers, and a free lock that somebody waits for has a woken
    thread. -/
theorem rwlock_counts_threads (few : Fintype.card ι < 2 ^ 15) {s : RWSystem ι} (reached : RWReachable s) :
    (rwlockReaderCount s.lock.activeThreads).toNat = readers s.threads ∧
      (rwlockWriterCount s.lock.activeThreads).toNat = writers s.threads ∧
      writers s.threads ≤ 1 ∧
      ¬(rwlockReaderCount s.lock.activeThreads ≠ 0 ∧ rwlockWriterCount s.lock.activeThreads ≠ 0) ∧
      (rwlockReaderCount s.lock.waitingThreads).toNat = waitingReaders s.threads ∧
      (rwlockWriterCount s.lock.waitingThreads).toNat = waitingWriters s.threads ∧
      (s.lock.activeThreads = 0 → (∃ t, (s.threads t).isReaderWaiting = true ∨ (s.threads t).isWriterWaiting = true) →
        ∃ t, (s.threads t).isAwake = true) := by
  have inv := reached.invariant few
  have small : ∀ p : RWThread → Bool, count p s.threads < 2 ^ 15 := fun p => (count_le p _).trans_lt few
  rw [inv.lock]
  simp only [tally, counted, rwlockReaderCount_packed, rwlockWriterCount_packed]
  refine ⟨toNat_field (small _), toNat_field (small _), inv.single, ?_, toNat_field (small _), toNat_field (small _), ?_⟩
  · rintro ⟨reading, writing⟩
    obtain none | none := inv.exclusive
    · exact writing ((field_eq_zero (small _)).mpr none)
    · exact reading ((field_eq_zero (small _)).mpr none)
  · intro free ⟨t, waits⟩
    obtain ⟨noWriter, noReader⟩ := (packed_eq_zero (small _) (small _)).mp free
    refine inv.awake noWriter noReader ?_
    obtain reader | writer := waits
    · exact .inr (count_pos.mpr ⟨t, reader⟩)
    · exact .inl (count_pos.mpr ⟨t, writer⟩)

omit [Fintype ι] in
theorem RWReachable.run {s : RWSystem ι} (reached : RWReachable s) (t : ι) {thread : RWThread} (at_t : s.threads t = thread)
    {code : PRWLock → Outcome} (runs : Runs thread code) {outcome : Outcome} (computes : code s.lock = outcome)
    (notified : Notified outcome.notify (Function.update s.threads t outcome.thread) threads) :
    RWReachable ⟨outcome.lock, threads⟩ := by
  subst at_t computes
  exact .step reached (.run t runs notified)

/-- A reader, a writer that waits for it, and the hand-over of the lock. -/
theorem rwlock_counts_handover :
    ∃ s : RWSystem (Fin 2), RWReachable s ∧ s.lock = counted 0 0 1 0 ∧ (s.threads 1).isWriterWaiting = true ∧
      ∃ t, (s.threads t).isAwake = true := by
  let idle : Fin 2 → RWThread := fun _ => .idle
  let reads := Function.update idle 0 .reading
  let waits := Function.update reads 1 (.writerWaiting true)
  let leaves := Function.update waits 0 .idle
  have first : RWReachable ⟨counted 0 1 0 0, reads⟩ :=
    RWReachable.start.run 0 rfl .readerLock (show _ = ⟨counted 0 1 0 0, .reading, .nobody⟩ by decide) rfl
  have second : RWReachable ⟨counted 0 1 1 0, waits⟩ :=
    first.run 1 rfl .writerLock (show _ = ⟨counted 0 1 1 0, .writerWaiting true, .nobody⟩ by decide) rfl
  have third : RWReachable ⟨counted 0 0 1 0, Function.update leaves 1 (.writerWaiting false)⟩ :=
    second.run 0 rfl .readerUnlock (show _ = ⟨counted 0 0 1 0, .idle, .signalWriter⟩ by decide)
      ⟨by decide, by decide⟩
  exact ⟨_, third, rfl, rfl, (rwlock_counts_threads (by decide) third).2.2.2.2.2.2 (by decide) ⟨1, .inr rfl⟩⟩

end Invariant

end Plibsys.Threads
