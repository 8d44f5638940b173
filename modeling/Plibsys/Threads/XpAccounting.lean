import Plibsys.Support.Counting
import Plibsys.Support.PackedWord
import Plibsys.Threads.PRWLockXp

/-! # The word of the Windows XP lock

The word counts the holders and the registered waiters in every state.  An exchange that
succeeds finds the word that the thread read, so it changes the numbers of the present state,
however old that read is.
-/

namespace Plibsys.Threads

open Support

/-- Where a thread stands towards the lock. -/
inductive Place where
  | outside
  | trying
  | spinning (access : Access)
  | blocked (access : Access)
  | awake (access : Access)
  | reader
  | writer
  deriving Repr, DecidableEq

namespace XpThread

def place : XpThread → Place
  | idle => .outside
  | startTry _ | acquireTry _ _ => .trying
  | start access _ | acquire access _ _ | enlist access _ _ => .spinning access
  | wait access => .blocked access
  | woken access | delist access _ => .awake access
  | reading | endRead | endReadSignal _ | endReadExchange _ => .reader
  | writing | endWrite | endWriteSignal | endWriteExchange _ => .writer

/-- Holds a read lock; the lock is held until the exchange of `pzrwlock_end_read_xp`. -/
def holdsRead (thread : XpThread) : Bool := thread.place = .reader

def holdsWrite (thread : XpThread) : Bool := thread.place = .writer

/-- Between registering and deregistering as a waiter. -/
def registered (thread : XpThread) : Bool :=
  match thread.place with
  | .blocked _ | .awake _ => true
  | _ => false

/-- An access that leaves no trace in the history. -/
def quiet : XpThread → Bool
  | wait _ | endReadSignal _ => false
  | _ => true

/-- At the exchange of `pzrwlock_end_read_xp`. -/
def givesBack : XpThread → Bool
  | endReadExchange _ => true
  | _ => false

/-- At the exchange of `pzrwlock_end_read_xp`, with a word that makes the call set the event. -/
def Signalled (thread : XpThread) : Prop :=
  ∃ tmzlock, thread = endReadExchange tmzlock ∧ rwlockXpReaderCount tmzlock = 1 ∧ rwlockXpWaitingCount tmzlock ≠ 0

/-- What a thread knows of the word that it read. -/
def Informed : XpThread → Prop
  | acquire .read _ tmzlock | acquireTry .read tmzlock => rwlockXpIsWriter tmzlock = false
  | acquire .write _ tmzlock | acquireTry .write tmzlock => rwlockXpIsClear tmzlock = true
  | enlist .read _ tmzlock => rwlockXpIsWriter tmzlock = true
  | enlist .write _ tmzlock => rwlockXpIsClear tmzlock = false
  | endReadSignal tmzlock => rwlockXpReaderCount tmzlock = 1 ∧ rwlockXpWaitingCount tmzlock ≠ 0
  | endReadExchange tmzlock => rwlockXpReaderCount tmzlock ≠ 0
  | endWriteExchange tmzlock => rwlockXpIsWriter tmzlock = true ∧ rwlockXpWaitingCount tmzlock = 0
  | _ => True

end XpThread

/-! ## The word by its fields -/

section Word

variable {w q r n : Nat}

@[simp] theorem rwlockXpReaderCount_packed : rwlockXpReaderCount (packed w q r) = field r := packed_low

@[simp] theorem rwlockXpWaitingCount_packed : rwlockXpWaitingCount (packed w q r) = field q := packed_mid

@[simp] theorem rwlockXpSetReaders_packed : rwlockXpSetReaders (packed w q r) (field n) = packed w q n := packed_set_low

@[simp] theorem rwlockXpSetWaiting_packed : rwlockXpSetWaiting (packed w q r) (field n) = packed w n r := packed_set_mid

@[simp] theorem rwlockXpSetWriter_packed : rwlockXpSetWriter (packed 0 q r) = packed 1 q r := packed_set_bit

@[simp] theorem rwlockXpUnsetWriter_packed : rwlockXpUnsetWriter (packed 1 q r) = packed 0 q r := packed_clear_bit

theorem packed_eq_zero_iff (bit : w < 2) (waitingSmall : q < 2 ^ 15) (readersSmall : r < 2 ^ 15) :
    packed w q r = 0 ↔ w = 0 ∧ q = 0 ∧ r = 0 := by
  constructor
  · intro zero
    exact packed_inj ⟨by omega, waitingSmall, readersSmall⟩ (by decide)
      (zero.trans (by decide : (0 : BitVec 32) = packed 0 0 0))
  · rintro ⟨rfl, rfl, rfl⟩
    decide

theorem rwlockXpIsWriter_packed (bit : w < 2) : rwlockXpIsWriter (packed w q r) = true ↔ w = 1 := by
  rw [rwlockXpIsWriter, packed_bit bit, bne_iff_ne, ne_eq, packed_eq_zero_iff bit (by decide) (by decide)]
  omega

theorem rwlockXpIsClear_packed (bit : w < 2) (readersSmall : r < 2 ^ 15) :
    rwlockXpIsClear (packed w q r) = true ↔ w = 0 ∧ r = 0 := by
  rw [rwlockXpIsClear, packed_bit_low bit, beq_iff_eq, packed_eq_zero_iff bit (by decide) readersSmall]
  omega

end Word

/-! ## What an access does -/

/-- The accesses by the fields of the word before them, and the word and the event after. -/
inductive XpMove (w q r : Nat) (event : Bool) : XpThread → XpThread → PRWLockXP → Prop where
  | stays {before after : XpThread} (same : after.place = before.place) (quiet : before.quiet = true)
      (unsignalled : ¬after.Signalled) : XpMove w q r event before after ⟨packed w q r, event⟩
  | givesUp {before : XpThread} (tries : before.place = .trying) :
      XpMove w q r event before .idle ⟨packed w q r, event⟩
  | takesRead {before : XpThread} (wants : before.place = .spinning .read ∨ before.place = .trying) (free : w = 0) :
      XpMove w q r event before .reading ⟨packed w q (r + 1), event⟩
  | takesWrite {before : XpThread} (wants : before.place = .spinning .write ∨ before.place = .trying)
      (free : w = 0 ∧ r = 0) : XpMove w q r event before .writing ⟨packed 1 q r, event⟩
  | enlists {i : Nat} {tmzlock : BitVec 32} (access : Access) (held : w = 1 ∨ access = .write ∧ 0 < r) :
      XpMove w q r event (.enlist access i tmzlock) (.wait access) ⟨packed w (q + 1) r, event⟩
  | wakes (access : Access) (set : event = true) :
      XpMove w q r event (.wait access) (.woken access) ⟨packed w q r, false⟩
  | delists {tmzlock : BitVec 32} (access : Access) :
      XpMove w q r event (.delist access tmzlock) (.start access 1) ⟨packed w (q - 1) r, event⟩
  | signalsRead {tmzlock : BitVec 32} :
      XpMove w q r event (.endReadSignal tmzlock) (.endReadExchange tmzlock) ⟨packed w q r, true⟩
  | signalsWrite : XpMove w q r event .endWriteSignal .endWrite ⟨packed w q r, true⟩
  | leavesRead : XpMove w q r event (.endReadExchange (packed w q r)) .idle ⟨packed w q (r - 1), event⟩
  | leavesWrite {tmzlock : BitVec 32} (held : w = 1) (alone : q = 0) :
      XpMove w q r event (.endWriteExchange tmzlock) .idle ⟨packed 0 q r, event⟩

/-- The numbers fit their fields, also after the thread moved, and count the thread. -/
structure XpRoom (w q r : Nat) (thread : XpThread) : Prop where
  bit : w < 2
  waiting : q + (!thread.registered).toNat < 2 ^ 15
  readers : r + (!thread.holdsRead).toNat < 2 ^ 15
  writes : thread.holdsWrite.toNat ≤ w
  waits : thread.registered.toNat ≤ q
  reads : thread.holdsRead.toNat ≤ r

theorem PRWLockXP.compareAndExchange_cases {xp xp' : PRWLockXP} {oldval newval : BitVec 32}
    {done failed state : XpThread} (next : some (xp.compareAndExchange oldval newval done failed) = some (state, xp')) :
    (xp.lock = oldval ∧ state = done ∧ xp' = { xp with lock := newval }) ∨ (state = failed ∧ xp' = xp) := by
  unfold PRWLockXP.compareAndExchange at next
  split at next
  · next same =>
      cases next
      exact .inl ⟨same, rfl, rfl⟩
  · cases next
    exact .inr ⟨rfl, rfl⟩

section Moves

variable {w q r : Nat} {event : Bool} {thread state : XpThread} {xp : PRWLockXP}

theorem XpThread.unsignalled (other : state.givesBack = false) : ¬state.Signalled := by
  rintro ⟨tmzlock, rfl, _⟩
  cases other

theorem XpThread.holdsRead_of_givesBack (gives : state.givesBack = true) : state.holdsRead = true := by
  cases state <;> first | rfl | cases gives

theorem stays_away (same : state.place = thread.place) (quiet : thread.quiet = true)
    (away : thread.holdsRead = false) : XpMove w q r event thread state ⟨packed w q r, event⟩ := by
  refine .stays same quiet (XpThread.unsignalled (eq_false_of_ne_true fun gives => ?_))
  have reads := XpThread.holdsRead_of_givesBack gives
  rw [XpThread.holdsRead, same, ← XpThread.holdsRead, away] at reads
  cases reads

theorem startRead_moves (i : Nat) (word : BitVec 32) :
    (pzrwlockStartReadXp i word).place = .spinning .read ∧ (pzrwlockStartReadXp i word).Informed := by
  unfold pzrwlockStartReadXp
  split
  · next free => exact ⟨rfl, show rwlockXpIsWriter word = false by simpa using free⟩
  · next held =>
      split
      · exact ⟨rfl, trivial⟩
      · exact ⟨rfl, show rwlockXpIsWriter word = true by simpa using held⟩

theorem startWrite_moves (i : Nat) (word : BitVec 32) :
    (pzrwlockStartWriteXp i word).place = .spinning .write ∧ (pzrwlockStartWriteXp i word).Informed := by
  unfold pzrwlockStartWriteXp
  split
  · next free => exact ⟨rfl, free⟩
  · next held =>
      split
      · exact ⟨rfl, trivial⟩
      · exact ⟨rfl, show rwlockXpIsClear word = false by simpa using held⟩

/-- A thread that holds a read lock does not find the word without readers. -/
theorem endRead_moves (room : XpRoom w q r .endRead) :
    (pzrwlockEndReadXp (packed w q r)).place = .reader ∧ ¬(pzrwlockEndReadXp (packed w q r)).Signalled ∧
      (pzrwlockEndReadXp (packed w q r)).Informed := by
  have reads : 1 ≤ r := room.reads
  have small : r < 2 ^ 15 := room.readers
  have nonzero : rwlockXpReaderCount (packed w q r) ≠ 0 := by
    rw [rwlockXpReaderCount_packed, ne_eq, field_eq_zero small]
    omega
  unfold pzrwlockEndReadXp
  simp only [if_neg nonzero]
  split
  · next last => exact ⟨rfl, XpThread.unsignalled rfl, last⟩
  · next notLast =>
      refine ⟨rfl, ?_, nonzero⟩
      rintro ⟨_, same, last⟩
      cases same
      exact notLast last

/-- The thread that holds the write lock finds its bit. -/
theorem endWrite_moves (room : XpRoom w q r .endWrite) :
    (pzrwlockEndWriteXp (packed w q r)).place = .writer ∧ (pzrwlockEndWriteXp (packed w q r)).Informed := by
  have bit := room.bit
  have writes : 1 ≤ w := room.writes
  have held : rwlockXpIsWriter (packed w q r) = true := (rwlockXpIsWriter_packed bit).mpr (by omega)
  unfold pzrwlockEndWriteXp
  simp only [held, Bool.not_true, Bool.false_eq_true, if_false]
  split
  · next alone => exact ⟨rfl, held, alone⟩
  · exact ⟨rfl, trivial⟩

/-- The exchange that takes the lock. -/
theorem take_moves {access : Access} (room : XpRoom w q r thread) (outside : thread.holdsRead = false)
    (wants : thread.place = .spinning access ∨ thread.place = .trying)
    (informed : match access with
      | .read => rwlockXpIsWriter (packed w q r) = false
      | .write => rwlockXpIsClear (packed w q r) = true) :
    XpMove w q r event thread access.holder ⟨access.taken (packed w q r), event⟩ := by
  have readers := room.readers
  rw [outside] at readers
  cases access with
  | read =>
      have free : w = 0 := by
        have := mt (rwlockXpIsWriter_packed (q := q) (r := r) room.bit).mpr (by simpa using informed)
        have := room.bit
        omega
      rw [Access.taken, rwlockXpReaderCount_packed, field_add_one readers, rwlockXpSetReaders_packed]
      exact .takesRead wants free
  | write =>
      have free := (rwlockXpIsClear_packed room.bit (by omega)).mp informed
      rw [Access.taken, free.1, rwlockXpSetWriter_packed]
      exact free.1 ▸ .takesWrite wants free

theorem PRWLockXP.step_moves (room : XpRoom w q r thread) (informed : thread.Informed)
    (next : (⟨packed w q r, event⟩ : PRWLockXP).step thread = some (state, xp)) :
    XpMove w q r event thread state xp ∧ state.Informed := by
  have bit := room.bit
  have waiting := room.waiting
  have readers := room.readers
  cases thread with
  | idle | reading | writing => cases next
  | start access i =>
      cases access with
      | read =>
          cases next
          exact ⟨stays_away (startRead_moves i _).1 rfl rfl, (startRead_moves i _).2⟩
      | write =>
          cases next
          exact ⟨stays_away (startWrite_moves i _).1 rfl rfl, (startWrite_moves i _).2⟩
  | acquire access i tmzlock =>
      obtain ⟨same, rfl, rfl⟩ | ⟨rfl, rfl⟩ := PRWLockXP.compareAndExchange_cases next
      · obtain rfl : tmzlock = packed w q r := same.symm
        refine ⟨take_moves room rfl (.inl rfl) ?_, by cases access <;> trivial⟩
        cases access <;> exact informed
      · exact ⟨stays_away rfl rfl rfl, trivial⟩
  | enlist access i tmzlock =>
      obtain ⟨same, rfl, rfl⟩ | ⟨rfl, rfl⟩ := PRWLockXP.compareAndExchange_cases next
      · obtain rfl : tmzlock = packed w q r := same.symm
        rw [rwlockXpWaitingCount_packed, field_add_one waiting, rwlockXpSetWaiting_packed]
        refine ⟨.enlists access ?_, trivial⟩
        cases access with
        | read => exact .inl ((rwlockXpIsWriter_packed bit).mp informed)
        | write =>
            have held := mt (rwlockXpIsClear_packed (q := q) (r := r) bit (by omega)).mpr
              (ne_true_of_eq_false informed)
            simp only [true_and]
            omega
      · exact ⟨stays_away rfl rfl rfl, trivial⟩
  | wait access =>
      cases event with
      | false => cases next
      | true =>
          cases next
          exact ⟨.wakes access rfl, trivial⟩
  | woken access =>
      cases next
      exact ⟨stays_away rfl rfl rfl, trivial⟩
  | delist access tmzlock =>
      obtain ⟨same, rfl, rfl⟩ | ⟨rfl, rfl⟩ := PRWLockXP.compareAndExchange_cases next
      · obtain rfl : tmzlock = packed w q r := same.symm
        rw [rwlockXpWaitingCount_packed, field_sub_one (show q < 2 ^ 15 from waiting) room.waits, rwlockXpSetWaiting_packed]
        exact ⟨.delists access, trivial⟩
      · exact ⟨stays_away rfl rfl rfl, trivial⟩
  | startTry access =>
      cases access with
      | read =>
          cases next
          unfold pzrwlockStartReadTryXp
          split
          · exact ⟨.givesUp rfl, trivial⟩
          · next free => exact ⟨stays_away rfl rfl rfl, eq_false_of_ne_true free⟩
      | write =>
          cases next
          unfold pzrwlockStartWriteTryXp
          split
          · next free => exact ⟨stays_away rfl rfl rfl, free⟩
          · exact ⟨.givesUp rfl, trivial⟩
  | acquireTry access tmzlock =>
      obtain ⟨same, rfl, rfl⟩ | ⟨rfl, rfl⟩ := PRWLockXP.compareAndExchange_cases next
      · obtain rfl : tmzlock = packed w q r := same.symm
        refine ⟨take_moves room rfl (.inr rfl) ?_, by cases access <;> trivial⟩
        cases access <;> exact informed
      · exact ⟨.givesUp rfl, trivial⟩
  | endRead =>
      cases next
      exact ⟨.stays (endRead_moves room).1 rfl (endRead_moves room).2.1, (endRead_moves room).2.2⟩
  | endReadSignal tmzlock =>
      cases next
      exact ⟨.signalsRead, by rw [XpThread.Informed, informed.1]; decide⟩
  | endReadExchange tmzlock =>
      obtain ⟨same, rfl, rfl⟩ | ⟨rfl, rfl⟩ := PRWLockXP.compareAndExchange_cases next
      · obtain rfl : tmzlock = packed w q r := same.symm
        rw [rwlockXpReaderCount_packed, field_sub_one (show r < 2 ^ 15 from readers) room.reads, rwlockXpSetReaders_packed]
        exact ⟨.leavesRead, trivial⟩
      · exact ⟨.stays rfl rfl (XpThread.unsignalled rfl), trivial⟩
  | endWrite =>
      cases next
      exact ⟨stays_away (endWrite_moves room).1 rfl rfl, (endWrite_moves room).2⟩
  | endWriteSignal =>
      cases next
      exact ⟨.signalsWrite, trivial⟩
  | endWriteExchange tmzlock =>
      obtain ⟨same, rfl, rfl⟩ | ⟨rfl, rfl⟩ := PRWLockXP.compareAndExchange_cases next
      · obtain rfl : tmzlock = packed w q r := same.symm
        have held : w = 1 := (rwlockXpIsWriter_packed bit).mp informed.1
        have alone : q = 0 := (field_eq_zero (by omega)).mp (by simpa using informed.2)
        subst held
        rw [rwlockXpUnsetWriter_packed]
        exact ⟨.leavesWrite rfl alone, trivial⟩
      · exact ⟨stays_away rfl rfl rfl, trivial⟩

end Moves

/-! ## Runs -/

section Runs

variable {ι : Type} [Fintype ι]

def xpWriters (threads : ι → XpThread) : Nat := count XpThread.holdsWrite threads

def xpWaiters (threads : ι → XpThread) : Nat := count XpThread.registered threads

def xpReaders (threads : ι → XpThread) : Nat := count XpThread.holdsRead threads

structure XpAccounted (word : BitVec 32) (threads : ι → XpThread) : Prop where
  word : word = packed (xpWriters threads) (xpWaiters threads) (xpReaders threads)
  single : xpWriters threads ≤ 1
  exclusive : xpWriters threads = 0 ∨ xpReaders threads = 0
  informed : ∀ t, (threads t).Informed

theorem xpAccounted_new : XpAccounted pzrwlockInitXp.lock (fun _ : ι => .idle) := by
  have writers : xpWriters (fun _ : ι => XpThread.idle) = 0 := count_eq_zero.mpr fun _ => rfl
  have waiters : xpWaiters (fun _ : ι => XpThread.idle) = 0 := count_eq_zero.mpr fun _ => rfl
  have readers : xpReaders (fun _ : ι => XpThread.idle) = 0 := count_eq_zero.mpr fun _ => rfl
  refine ⟨?_, by omega, .inl writers, fun _ => trivial⟩
  rw [writers, waiters, readers]
  decide

variable {word : BitVec 32} {threads : ι → XpThread} {t : ι}

theorem XpAccounted.room (accounted : XpAccounted word threads) (few : Fintype.card ι < 2 ^ 15) (t : ι) :
    XpRoom (xpWriters threads) (xpWaiters threads) (xpReaders threads) (threads t) :=
  ⟨Nat.lt_succ_of_le accounted.single, (count_add_not_le _ _ t).trans_lt few, (count_add_not_le _ _ t).trans_lt few,
    toNat_le_count _ _ t, toNat_le_count _ _ t, toNat_le_count _ _ t⟩

/-- What an access finds, by the present numbers. -/
theorem XpAccounted.moves (accounted : XpAccounted word threads) (few : Fintype.card ι < 2 ^ 15) {event : Bool}
    {state : XpThread} {xp : PRWLockXP} (next : (⟨word, event⟩ : PRWLockXP).step (threads t) = some (state, xp)) :
    XpMove (xpWriters threads) (xpWaiters threads) (xpReaders threads) event (threads t) state xp ∧ state.Informed := by
  rw [accounted.word] at next
  exact PRWLockXP.step_moves (accounted.room few t) (accounted.informed t) next

variable [DecidableEq ι]

/-- The numbers after one thread moved. -/
theorem xpNumbers_update (threads : ι → XpThread) (t : ι) (state : XpThread) :
    xpWriters (Function.update threads t state) + (threads t).holdsWrite.toNat =
        xpWriters threads + state.holdsWrite.toNat ∧
      xpWaiters (Function.update threads t state) + (threads t).registered.toNat =
        xpWaiters threads + state.registered.toNat ∧
      xpReaders (Function.update threads t state) + (threads t).holdsRead.toNat =
        xpReaders threads + state.holdsRead.toNat :=
  ⟨count_update _ _ _ _, count_update _ _ _ _, count_update _ _ _ _⟩

omit [Fintype ι] in
theorem informed_update (informed : ∀ u, (threads u).Informed) {state : XpThread} (here : state.Informed) (u : ι) :
    (Function.update threads t state u).Informed := by
  by_cases same : u = t
  · rwa [same, Function.update_self]
  · rw [Function.update_of_ne same]
    exact informed u

/-- A thread that stays where it is changes no number. -/
theorem XpAccounted.same_place (accounted : XpAccounted word threads) {state : XpThread} (here : state.Informed)
    (writer : state.holdsWrite = (threads t).holdsWrite) (waiter : state.registered = (threads t).registered)
    (reader : state.holdsRead = (threads t).holdsRead) : XpAccounted word (Function.update threads t state) := by
  have moved := xpNumbers_update threads t state
  rw [writer, waiter, reader] at moved
  have writers : xpWriters (Function.update threads t state) = xpWriters threads := by omega
  have waiters : xpWaiters (Function.update threads t state) = xpWaiters threads := by omega
  have readers : xpReaders (Function.update threads t state) = xpReaders threads := by omega
  refine ⟨?_, ?_, ?_, informed_update accounted.informed here⟩
  · rw [writers, waiters, readers]
    exact accounted.word
  · rw [writers]
    exact accounted.single
  · rw [writers, readers]
    exact accounted.exclusive

theorem XpAccounted.call (accounted : XpAccounted word threads) {state : XpThread} (calls : XpCalls (threads t) state) :
    XpAccounted word (Function.update threads t state) := by
  generalize at_t : threads t = thread at calls
  cases calls <;> exact accounted.same_place trivial (by rw [at_t]; rfl) (by rw [at_t]; rfl) (by rw [at_t]; rfl)

theorem XpAccounted.renumbered (accounted : XpAccounted word threads) {state : XpThread} {w q r : Nat}
    (here : state.Informed)
    (numbers : xpWriters (Function.update threads t state) = w ∧ xpWaiters (Function.update threads t state) = q ∧
      xpReaders (Function.update threads t state) = r)
    (single : w ≤ 1) (exclusive : w = 0 ∨ r = 0) :
    XpAccounted (packed w q r) (Function.update threads t state) := by
  obtain ⟨rfl, rfl, rfl⟩ := numbers
  exact ⟨rfl, single, exclusive, informed_update accounted.informed here⟩

theorem XpThread.outside_of_wants {thread : XpThread} {access : Access}
    (wants : thread.place = .spinning access ∨ thread.place = .trying) :
    thread.holdsWrite = false ∧ thread.registered = false ∧ thread.holdsRead = false := by
  obtain place | place := wants <;> simp [holdsWrite, registered, holdsRead, place]

theorem XpAccounted.access (accounted : XpAccounted word threads) (few : Fintype.card ι < 2 ^ 15) {event : Bool}
    {state : XpThread} {xp : PRWLockXP} (next : (⟨word, event⟩ : PRWLockXP).step (threads t) = some (state, xp)) :
    XpAccounted xp.lock (Function.update threads t state) := by
  obtain ⟨move, here⟩ := accounted.moves few next
  have moved := xpNumbers_update threads t state
  have single := accounted.single
  have exclusive := accounted.exclusive
  have reads := (accounted.room few t).reads
  generalize at_t : threads t = thread at move moved reads
  cases move with
  | stays same _ _ =>
      rw [← accounted.word]
      subst at_t
      refine accounted.same_place here ?_ ?_ ?_ <;>
        simp only [XpThread.holdsWrite, XpThread.registered, XpThread.holdsRead, same]
  | givesUp tries =>
      simp only [XpThread.outside_of_wants (Or.inr tries : thread.place = .spinning .read ∨ _)] at moved
      exact accounted.renumbered here moved single exclusive
  | takesRead wants free =>
      simp only [XpThread.outside_of_wants wants] at moved
      exact accounted.renumbered here moved single (.inl free)
  | takesWrite wants free =>
      simp only [XpThread.outside_of_wants wants, free] at moved
      exact free.2 ▸ accounted.renumbered here moved (by omega) (.inr rfl)
  | enlists access held => exact accounted.renumbered here moved single exclusive
  | delists access =>
      have waits := (accounted.room few t).waits
      rw [at_t] at waits
      simp only [XpThread.registered, XpThread.place, Bool.toNat_true, Bool.toNat_false] at moved waits
      exact accounted.renumbered here ⟨moved.1, by omega, moved.2.2⟩ single exclusive
  | wakes | signalsRead | signalsWrite =>
      rw [← accounted.word]
      exact accounted.same_place here (by rw [at_t]; rfl) (by rw [at_t]; rfl) (by rw [at_t]; rfl)
  | leavesRead =>
      simp only [XpThread.holdsRead, XpThread.place, reduceCtorEq, decide_true, decide_false, Bool.toNat_true,
        Bool.toNat_false] at moved
      exact accounted.renumbered here ⟨moved.1, moved.2.1, by omega⟩ single (by omega)
  | leavesWrite held alone =>
      simp only [XpThread.holdsWrite, XpThread.place, reduceCtorEq, decide_true, decide_false, Bool.toNat_true,
        Bool.toNat_false] at moved
      exact accounted.renumbered here ⟨by omega, moved.2⟩ (by omega) (.inl rfl)

omit [Fintype ι] in
theorem recorded_of_quiet {s : XpSystem ι} (quiet : (s.threads t).quiet = true) : s.recorded t = s := by
  unfold XpSystem.recorded
  generalize s.threads t = thread at quiet
  cases thread <;> first | rfl | cases quiet

theorem XpRun.accounted {allowed : XpSystem ι → ι → Prop} (few : Fintype.card ι < 2 ^ 15) {s : XpSystem ι}
    (run : XpRun allowed s) : XpAccounted s.xp.lock s.threads := by
  induction run with
  | start => exact xpAccounted_new
  | step _ _ next ih =>
      cases next with
      | call calls => exact ih.call calls
      | access next => simpa only [XpSystem.move, XpSystem.recorded_threads] using ih.access few next

/-- The fields of the word in every state that an interleaving reaches. -/
theorem xp_word_counts_threads (few : Fintype.card ι < 2 ^ 15) {s : XpSystem ι} (reached : XpReachable s) :
    (rwlockXpReaderCount s.xp.lock).toNat = xpReaders s.threads ∧
      (rwlockXpIsWriter s.xp.lock = true ↔ xpWriters s.threads = 1) ∧
      xpWriters s.threads ≤ 1 ∧ (xpWriters s.threads = 0 ∨ xpReaders s.threads = 0) ∧
      (rwlockXpWaitingCount s.xp.lock).toNat = xpWaiters s.threads ∧
      s.xp.lock.toNat = xpWriters s.threads * 2 ^ 30 + xpWaiters s.threads * 2 ^ 15 + xpReaders s.threads := by
  have accounted := XpRun.accounted few reached
  have small : ∀ p : XpThread → Bool, count p s.threads < 2 ^ 15 := fun p => (count_le p _).trans_lt few
  have single := accounted.single
  rw [accounted.word, rwlockXpReaderCount_packed, rwlockXpWaitingCount_packed]
  exact ⟨toNat_field (small _), rwlockXpIsWriter_packed (by omega), single, accounted.exclusive, toNat_field (small _),
    toNat_packed (by omega) (small _) (small _)⟩

end Runs

/-! ## A reader and a writer that waits for it -/

section Duel

/-- The reader is the thread `false`, the writer the thread `true`. -/
def duel (xp : PRWLockXP) (reader writer : XpThread) (wakes signalledAt : Nat) : XpSystem Bool :=
  ⟨xp, fun t => if t then writer else reader, wakes, fun t => if t then wakes else 0,
    fun t => if t then 0 else signalledAt⟩

variable {allowed : XpSystem Bool → Bool → Prop} {xp xp' : PRWLockXP} {reader writer state : XpThread}
  {wakes signalledAt : Nat}

theorem duel_move_reader :
    (duel xp reader writer wakes signalledAt).move false state = duel xp state writer wakes signalledAt := by
  simp only [duel, XpSystem.move, XpSystem.mk.injEq, and_true, true_and]
  funext t
  cases t <;> rfl

theorem duel_move_writer :
    (duel xp reader writer wakes signalledAt).move true state = duel xp reader state wakes signalledAt := by
  simp only [duel, XpSystem.move, XpSystem.mk.injEq, and_true, true_and]
  funext t
  cases t <;> rfl

theorem XpRun.reader_access (run : XpRun allowed (duel xp reader writer wakes signalledAt))
    (meets : allowed (duel xp reader writer wakes signalledAt) false) (next : xp.step reader = some (state, xp'))
    (quiet : reader.quiet = true) : XpRun allowed (duel xp' state writer wakes signalledAt) := by
  have step := run.step meets (.access next)
  rw [recorded_of_quiet quiet, duel_move_reader] at step
  exact step

theorem XpRun.writer_access (run : XpRun allowed (duel xp reader writer wakes signalledAt))
    (meets : allowed (duel xp reader writer wakes signalledAt) true) (next : xp.step writer = some (state, xp'))
    (quiet : writer.quiet = true) : XpRun allowed (duel xp' reader state wakes signalledAt) := by
  have step := run.step meets (.access next)
  rw [recorded_of_quiet quiet, duel_move_writer] at step
  exact step

theorem XpRun.reader_call (run : XpRun allowed (duel xp reader writer wakes signalledAt))
    (meets : allowed (duel xp reader writer wakes signalledAt) false) (calls : XpCalls reader state) :
    XpRun allowed (duel xp state writer wakes signalledAt) := by
  have step := run.step meets (.call (t := false) calls)
  rwa [duel_move_reader] at step

theorem XpRun.writer_call (run : XpRun allowed (duel xp reader writer wakes signalledAt))
    (meets : allowed (duel xp reader writer wakes signalledAt) true) (calls : XpCalls writer state) :
    XpRun allowed (duel xp reader state wakes signalledAt) := by
  have step := run.step meets (.call (t := true) calls)
  rwa [duel_move_writer] at step

section Free

variable (free : ∀ s t, ¬(s.threads t).Signalled → allowed s t)

include free

/-- The writer spins while the reader holds the lock. -/
theorem XpRun.writer_spins {event : Bool} {i : Nat} (rounds : Nat) (few : i + rounds ≤ rwlockXpMaxSpin)
    (run : XpRun allowed (duel ⟨1, event⟩ reader (.start .write i) wakes signalledAt)) :
    XpRun allowed (duel ⟨1, event⟩ reader (.start .write (i + rounds)) wakes signalledAt) := by
  induction rounds with
  | zero => exact run
  | succ rounds ih =>
      refine (ih (by omega)).writer_access (free _ _ (XpThread.unsignalled rfl)) ?_ rfl
      have spins : pzrwlockStartWriteXp (i + rounds) 1 = .start .write (i + rounds + 1) := by
        unfold pzrwlockStartWriteXp
        rw [if_neg (by decide), if_pos (by omega)]
      exact congrArg (fun state => some (state, _)) spins

/-- It registers when it has spun long enough. -/
theorem XpRun.writer_registers {event : Bool} {i : Nat} (few : i ≤ rwlockXpMaxSpin)
    (run : XpRun allowed (duel ⟨1, event⟩ reader (.start .write i) wakes signalledAt)) :
    XpRun allowed (duel ⟨0x8001, event⟩ reader (.wait .write) wakes signalledAt) := by
  have spun := run.writer_spins free (rwlockXpMaxSpin - i) (by omega)
  rw [Nat.add_sub_cancel' few] at spun
  have finds : pzrwlockStartWriteXp rwlockXpMaxSpin 1 = .enlist .write rwlockXpMaxSpin 1 := by decide
  have reads : XpRun allowed (duel ⟨1, event⟩ reader (.enlist .write rwlockXpMaxSpin 1) wakes signalledAt) :=
    spun.writer_access (free _ _ (XpThread.unsignalled rfl)) (congrArg (fun state => some (state, _)) finds) rfl
  exact reads.writer_access (free _ _ (XpThread.unsignalled rfl)) rfl rfl

/-- A reader holds the lock and a writer waits for it. -/
theorem writer_waits : XpRun allowed (duel ⟨0x8001, false⟩ .reading (.wait .write) 0 0) := by
  have new : XpRun allowed (duel pzrwlockInitXp .idle .idle 0 0) := by
    have begins : XpRun allowed XpSystem.new := .start
    simpa only [duel, XpSystem.new, ite_self] using begins
  have calls := new.reader_call (free _ _ (XpThread.unsignalled rfl)) .startRead
  have finds : XpRun allowed (duel ⟨0, false⟩ (.acquire .read 0 0) .idle 0 0) :=
    calls.reader_access (free _ _ (XpThread.unsignalled rfl)) rfl rfl
  have reads : XpRun allowed (duel ⟨1, false⟩ .reading .idle 0 0) :=
    finds.reader_access (free _ _ (XpThread.unsignalled rfl)) rfl rfl
  have wants := reads.writer_call (free _ _ (XpThread.unsignalled rfl)) .startWrite
  exact wants.writer_registers free (by decide)

end Free

/-- The word `0x8001` counts one reader and one registered thread. -/
theorem xp_word_counts_duel :
    XpReachable (duel ⟨0x8001, false⟩ .reading (.wait .write) 0 0) ∧
      (0x8001#32).toNat = xpWriters (duel ⟨0x8001, false⟩ .reading (.wait .write) 0 0).threads * 2 ^ 30 +
        xpWaiters (duel ⟨0x8001, false⟩ .reading (.wait .write) 0 0).threads * 2 ^ 15 +
        xpReaders (duel ⟨0x8001, false⟩ .reading (.wait .write) 0 0).threads := by
  have reached : XpReachable (duel ⟨0x8001, false⟩ .reading (.wait .write) 0 0) := writer_waits fun _ _ _ => trivial
  exact ⟨reached, (xp_word_counts_threads (by decide) reached).2.2.2.2.2⟩

end Duel

end Plibsys.Threads
