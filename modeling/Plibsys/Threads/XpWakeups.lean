import Plibsys.Threads.XpAccounting

/-! # Wake-ups of the Windows XP lock

The last reader sets the event before it gives the lock back.  The writer that the event wakes
cannot take the lock yet; as long as it keeps trying, the free lock has somebody on the way.
If it gives up trying and registers again, the word can be the one that the reader has read,
and the exchange goes through with nobody left to take the lock.
-/

namespace Plibsys.Threads

open Support

namespace XpThread

/-- In `WaitForSingleObject`. -/
def isBlocked (thread : XpThread) : Bool :=
  match thread.place with
  | .blocked _ => true
  | _ => false

/-- Past its wake-up, or spinning. -/
def isOnTheWay (thread : XpThread) : Bool :=
  match thread.place with
  | .awake _ | .spinning _ => true
  | _ => false

/-- Inside `pzrwlock_start_write_xp`. -/
def wantsWrite (thread : XpThread) : Bool :=
  match thread.place with
  | .blocked access | .awake access | .spinning access => access = .write
  | _ => false

/-- Registered by `pzrwlock_start_read_xp`. -/
def readRegistered (thread : XpThread) : Bool :=
  match thread.place with
  | .blocked access | .awake access => access = .read
  | _ => false

end XpThread

/-- What follows from a test that fails. -/
theorem of_failed {b : Bool} {p : Prop} (fails : b = false) (holds : b = true) : p :=
  absurd (fails.symm.trans holds) Bool.false_ne_true

variable {ι : Type}

/-- A free lock is not left to threads that are all blocked on an event that is not set. -/
def NoLostWakeup (s : XpSystem ι) : Prop :=
  (∀ t, (s.threads t).holdsRead = false ∧ (s.threads t).holdsWrite = false) →
    (∃ t, (s.threads t).isBlocked = true) → s.xp.event = true ∨ ∃ t, (s.threads t).isOnTheWay = true

/-- When the exchange of a reader that set the event is about to give the lock back, no
    blocked thread has been woken since that call set the event. -/
def SignalStands (s : XpSystem ι) (t : ι) : Prop :=
  (s.threads t).Signalled → s.threads t = .endReadExchange s.xp.lock →
    ∀ u, (s.threads u).isBlocked = true → s.wokenAt u ≤ s.signalledAt t

/-! ## The invariant -/

section Invariant

variable [Fintype ι]

structure XpWakeful (s : XpSystem ι) : Prop where
  wokenAt : ∀ u, s.wokenAt u ≤ s.wakes
  signalledAt : ∀ t, s.signalledAt t ≤ s.wakes
  /-- A writer does not go while a reader is registered. -/
  readers : ∀ u, (s.threads u).readRegistered = true → xpWriters s.threads = 1
  /-- The event that a reader set stays until it wakes somebody. -/
  pending : ∀ t, (s.threads t).Signalled → s.xp.event = true ∨ ∃ u, s.signalledAt t < s.wokenAt u
  /-- Whom it wakes is a writer that cannot take the lock yet. -/
  writes : ∀ t, (s.threads t).Signalled → ∀ u, s.signalledAt t < s.wokenAt u → (s.threads u).wantsWrite = true
  free : xpWriters s.threads = 0 → xpReaders s.threads = 0 → (∃ t, (s.threads t).isBlocked = true) →
    s.xp.event = true ∨ ∃ t, (s.threads t).isOnTheWay = true

theorem XpWakeful.noLostWakeup {s : XpSystem ι} (wakeful : XpWakeful s) : NoLostWakeup s := by
  intro nobody
  exact wakeful.free (count_eq_zero.mpr fun t => (nobody t).2) (count_eq_zero.mpr fun t => (nobody t).1)

theorem XpThread.Signalled.holdsRead {thread : XpThread} (signalled : thread.Signalled) : thread.holdsRead = true := by
  obtain ⟨_, rfl, _⟩ := signalled
  rfl

theorem xpWakeful_new : XpWakeful (XpSystem.new : XpSystem ι) where
  wokenAt _ := Nat.le_refl 0
  signalledAt _ := Nat.le_refl 0
  readers _ registered := of_failed rfl registered
  pending _ signalled := absurd signalled (XpThread.unsignalled rfl)
  writes _ signalled := absurd signalled (XpThread.unsignalled rfl)
  free _ _ blocked := of_failed rfl blocked.choose_spec

variable [DecidableEq ι] {s : XpSystem ι} {t : ι} {state : XpThread} {xp : PRWLockXP}

/-- A thread moves and leaves no trace in the history. -/
theorem XpWakeful.quiet (wakeful : XpWakeful s) (event : s.xp.event = true → xp.event = true)
    (unsignalled : ¬state.Signalled)
    (readers : ∀ u, (Function.update s.threads t state u).readRegistered = true →
      xpWriters (Function.update s.threads t state) = 1)
    (writes : (s.threads t).wantsWrite = true → 0 < xpReaders s.threads → state.wantsWrite = true)
    (free : xpWriters (Function.update s.threads t state) = 0 → xpReaders (Function.update s.threads t state) = 0 →
      (∃ u, (Function.update s.threads t state u).isBlocked = true) →
      xp.event = true ∨ ∃ u, (Function.update s.threads t state u).isOnTheWay = true) :
    XpWakeful { s.move t state with xp := xp } := by
  -- A thread that has set the event is another one, and where it was before.
  have earlier : ∀ u, (Function.update s.threads t state u).Signalled → (s.threads u).Signalled := by
    intro u signalled
    by_cases same : u = t
    · rw [same, Function.update_self] at signalled
      exact absurd signalled unsignalled
    · rwa [Function.update_of_ne same] at signalled
  refine ⟨wakeful.wokenAt, wakeful.signalledAt, readers, ?_, ?_, free⟩
  · intro u signalled
    exact (wakeful.pending u (earlier u signalled)).imp_left event
  · intro u signalled v woken
    have wants := wakeful.writes u (earlier u signalled) v woken
    show (Function.update s.threads t state v).wantsWrite = true
    by_cases same : v = t
    · rw [same, Function.update_self]
      exact writes (same ▸ wants) (count_pos.mpr ⟨u, (earlier u signalled).holdsRead⟩)
    · rwa [Function.update_of_ne same]

/-- The registered readers, when the writer stays. -/
theorem XpWakeful.readers_update (wakeful : XpWakeful s)
    (here : state.readRegistered = true → (s.threads t).readRegistered = true ∨ xpWriters s.threads = 1)
    (writer : xpWriters s.threads = 1 → xpWriters (Function.update s.threads t state) = 1) (u : ι)
    (registered : (Function.update s.threads t state u).readRegistered = true) :
    xpWriters (Function.update s.threads t state) = 1 := by
  apply writer
  by_cases same : u = t
  · rw [same, Function.update_self] at registered
    exact (here registered).elim (wakeful.readers t) id
  · rw [Function.update_of_ne same] at registered
    exact wakeful.readers u registered

/-- A free lock after a move, when it was free before. -/
theorem XpWakeful.free_update (wakeful : XpWakeful s) (event : s.xp.event = true → xp.event = true)
    (writers : xpWriters s.threads = 0) (readers : xpReaders s.threads = 0)
    (block : state.isBlocked = true → (s.threads t).isBlocked = true)
    (way : (s.threads t).isOnTheWay = true → state.isOnTheWay = true)
    (blocked : ∃ u, (Function.update s.threads t state u).isBlocked = true) :
    xp.event = true ∨ ∃ u, (Function.update s.threads t state u).isOnTheWay = true := by
  have before : ∃ u, (s.threads u).isBlocked = true := by
    obtain ⟨u, blocked⟩ := blocked
    by_cases same : u = t
    · rw [same, Function.update_self] at blocked
      exact ⟨t, block blocked⟩
    · rw [Function.update_of_ne same] at blocked
      exact ⟨u, blocked⟩
  obtain set | ⟨u, onTheWay⟩ := wakeful.free writers readers before
  · exact .inl (event set)
  · by_cases same : u = t
    · exact .inr ⟨t, by rw [Function.update_self]; exact way (same ▸ onTheWay)⟩
    · exact .inr ⟨u, by rwa [Function.update_of_ne same]⟩

theorem registered_of_isBlocked {thread : XpThread} (blocked : thread.isBlocked = true) : thread.registered = true := by
  cases thread <;> first | rfl | cases blocked

theorem registered_of_readRegistered {thread : XpThread} (registered : thread.readRegistered = true) :
    thread.registered = true := by
  cases thread <;> first | rfl | cases registered

omit [DecidableEq ι] in
/-- Without registered threads there is no blocked one. -/
theorem not_blocked {threads : ι → XpThread} (alone : xpWaiters threads = 0) (u : ι) :
    (threads u).isBlocked ≠ true := by
  intro blocked
  have none := count_eq_zero.mp alone u
  rw [registered_of_isBlocked blocked] at none
  cases none

omit [DecidableEq ι] in
/-- The last reader gives the lock back.  If there are registered threads, it has set the
    event; a writer that was woken since is not blocked. -/
theorem XpWakeful.last_reader (wakeful : XpWakeful s) (accounted : XpAccounted s.xp.lock s.threads)
    (few : Fintype.card ι < 2 ^ 15) (stands : SignalStands s t) (leaves : s.threads t = .endReadExchange s.xp.lock)
    (last : xpReaders s.threads = 1) (blocked : ∃ u, (s.threads u).isBlocked = true) :
    s.xp.event = true ∨ ∃ u, u ≠ t ∧ (s.threads u).isOnTheWay = true := by
  have waiting : xpWaiters s.threads ≠ 0 := fun alone => not_blocked alone _ blocked.choose_spec
  have signalled : (s.threads t).Signalled := by
    refine ⟨_, leaves, ?_, ?_⟩
    · rw [accounted.word, rwlockXpReaderCount_packed, last]
      decide
    · rw [accounted.word, rwlockXpWaitingCount_packed]
      exact mt (field_eq_zero ((count_le _ _).trans_lt few)).mp waiting
  obtain set | ⟨u, woken⟩ := wakeful.pending t signalled
  · exact .inl set
  · have wants := wakeful.writes t signalled u woken
    have open_ : (s.threads u).isBlocked ≠ true := fun blocked => absurd (stands signalled leaves u blocked) (by omega)
    refine .inr ⟨u, ?_, ?_⟩
    · rintro rfl
      rw [leaves] at wants
      cases wants
    · generalize s.threads u = thread at wants open_
      cases thread <;> first | rfl | cases wants | exact absurd rfl open_

theorem quiet_of_wants {thread : XpThread} {access : Access}
    (wants : thread.place = .spinning access ∨ thread.place = .trying) :
    thread.quiet = true ∧ (thread.wantsWrite = true → access = .write) := by
  cases thread <;> simp_all [XpThread.place, XpThread.quiet, XpThread.wantsWrite]

theorem XpWakeful.access_quiet (wakeful : XpWakeful s) (accounted : XpAccounted s.xp.lock s.threads)
    (few : Fintype.card ι < 2 ^ 15) (stands : SignalStands s t) (next : s.xp.step (s.threads t) = some (state, xp))
    (quiet : (s.threads t).quiet = true) : XpWakeful { s.move t state with xp := xp } := by
  obtain ⟨move, here⟩ := accounted.moves few next
  have moved := xpNumbers_update s.threads t state
  have exclusive := accounted.exclusive
  generalize at_t : s.threads t = thread at move moved quiet
  cases move with
  | stays same _ unsignalled =>
      simp only [XpThread.holdsWrite, XpThread.registered, XpThread.holdsRead, same] at moved
      refine wakeful.quiet id unsignalled (wakeful.readers_update ?_ (by omega)) ?_ ?_
      · simp only [XpThread.readRegistered, same, at_t]
        exact .inl
      · simp only [XpThread.wantsWrite, same, at_t]
        exact fun wants _ => wants
      · intro noWriter noReader
        refine wakeful.free_update id (by omega) (by omega) ?_ ?_
        · simp only [XpThread.isBlocked, same, at_t]
          exact id
        · simp only [XpThread.isOnTheWay, same, at_t]
          exact id
  | givesUp tries =>
      have wants : thread.place = .spinning .read ∨ thread.place = .trying := .inr tries
      simp only [XpThread.outside_of_wants wants] at moved
      refine wakeful.quiet id (XpThread.unsignalled rfl)
        (wakeful.readers_update (of_failed rfl) fun held => moved.1.trans held) ?_ ?_
      · rw [at_t]
        exact fun write _ => absurd ((quiet_of_wants wants).2 write) (by decide)
      · intro noWriter noReader
        refine wakeful.free_update id (moved.1.symm.trans noWriter) (moved.2.2.symm.trans noReader) (of_failed rfl) ?_
        simp only [at_t, XpThread.isOnTheWay, tries]
        exact of_failed rfl
  | takesRead wants free =>
      simp only [XpThread.outside_of_wants wants] at moved
      refine wakeful.quiet id (XpThread.unsignalled rfl)
        (wakeful.readers_update (of_failed rfl) fun held => moved.1.trans held) ?_ ?_
      · rw [at_t]
        exact fun write _ => absurd ((quiet_of_wants wants).2 write) (by decide)
      · intro _ noReader
        have entered : xpReaders (Function.update s.threads t .reading) = xpReaders s.threads + 1 := moved.2.2
        omega
  | takesWrite wants free =>
      simp only [XpThread.outside_of_wants wants] at moved
      have entered : xpWriters (Function.update s.threads t .writing) = xpWriters s.threads + 1 := moved.1
      refine wakeful.quiet id (XpThread.unsignalled rfl)
        (wakeful.readers_update (of_failed rfl) fun held => by omega) ?_ ?_
      · intro _ held
        omega
      · intro noWriter
        omega
  | enlists access held =>
      have writers : xpWriters (Function.update s.threads t (.wait access)) = xpWriters s.threads := moved.1
      have readers : xpReaders (Function.update s.threads t (.wait access)) = xpReaders s.threads := moved.2.2
      refine wakeful.quiet id (XpThread.unsignalled rfl)
        (wakeful.readers_update ?_ fun held => writers.trans held) ?_ ?_
      · intro registered
        obtain writer | ⟨rfl, _⟩ := held
        · exact .inr writer
        · cases registered
      · rw [at_t]
        exact fun wants _ => wants
      · intro noWriter noReader
        omega
  | wakes access set => cases quiet
  | delists access =>
      have writers : xpWriters (Function.update s.threads t (.start access 1)) = xpWriters s.threads := moved.1
      have readers : xpReaders (Function.update s.threads t (.start access 1)) = xpReaders s.threads := moved.2.2
      refine wakeful.quiet id (XpThread.unsignalled rfl)
        (wakeful.readers_update (of_failed rfl) fun held => writers.trans held) ?_ ?_
      · rw [at_t]
        exact fun wants _ => wants
      · intro noWriter noReader
        exact wakeful.free_update id (by omega) (by omega) (of_failed rfl) fun _ => rfl
  | signalsRead => cases quiet
  | signalsWrite =>
      have writers : xpWriters (Function.update s.threads t .endWrite) = xpWriters s.threads := by
        simpa [XpThread.holdsWrite, XpThread.place] using moved.1
      have held : 0 < xpWriters (Function.update s.threads t .endWrite) :=
        count_pos.mpr ⟨t, by rw [Function.update_self]; rfl⟩
      refine wakeful.quiet (fun _ => rfl) (XpThread.unsignalled rfl)
        (wakeful.readers_update (of_failed rfl) fun held => writers.trans held) ?_ ?_
      · rw [at_t]
        exact of_failed rfl
      · intro noWriter
        omega
  | leavesRead =>
      have writers : xpWriters (Function.update s.threads t .idle) = xpWriters s.threads := moved.1
      have readers : xpReaders (Function.update s.threads t .idle) + 1 = xpReaders s.threads := moved.2.2
      rw [← accounted.word] at at_t
      refine wakeful.quiet id (XpThread.unsignalled rfl)
        (wakeful.readers_update (of_failed rfl) fun held => writers.trans held) ?_ ?_
      · rw [at_t]
        exact of_failed rfl
      · rintro _ noReader ⟨u, blocked⟩
        have other : u ≠ t := by
          rintro rfl
          rw [Function.update_self] at blocked
          cases blocked
        rw [Function.update_of_ne other] at blocked
        obtain set | ⟨v, apart, onTheWay⟩ := wakeful.last_reader accounted few stands at_t (by omega) ⟨u, blocked⟩
        · exact .inl set
        · exact .inr ⟨v, by rwa [Function.update_of_ne apart]⟩
  | leavesWrite held alone =>
      have waiters : xpWaiters (Function.update s.threads t .idle) = 0 := moved.2.1.trans alone
      refine wakeful.quiet id (XpThread.unsignalled rfl) ?_ ?_ ?_
      · intro u registered
        have none := count_eq_zero.mp waiters u
        rw [registered_of_readRegistered registered] at none
        cases none
      · rw [at_t]
        exact of_failed rfl
      · rintro _ _ ⟨u, blocked⟩
        exact absurd blocked (not_blocked waiters u)

/-- A wait returns: a reader that has set the event has woken this thread, and it is a writer. -/
theorem XpWakeful.access_wait (wakeful : XpWakeful s) (accounted : XpAccounted s.xp.lock s.threads) {access : Access}
    (waits : s.threads t = .wait access) :
    XpWakeful { (s.recorded t).move t (.woken access) with xp := { s.xp with event := false } } := by
  have records : s.recorded t =
      { s with wakes := s.wakes + 1, wokenAt := Function.update s.wokenAt t (s.wakes + 1) } := by
    simp only [XpSystem.recorded, waits]
  have writers := (xpNumbers_update s.threads t (.woken access)).1
  have earlier : ∀ u, (Function.update s.threads t (.woken access) u).Signalled → (s.threads u).Signalled := by
    intro u signalled
    by_cases same : u = t
    · rw [same, Function.update_self] at signalled
      exact absurd signalled (XpThread.unsignalled rfl)
    · rwa [Function.update_of_ne same] at signalled
  rw [waits] at writers
  rw [records]
  refine ⟨?_, fun u => (wakeful.signalledAt u).trans (Nat.le_succ _), ?_, ?_, ?_, ?_⟩
  · intro u
    show Function.update s.wokenAt t (s.wakes + 1) u ≤ s.wakes + 1
    by_cases same : u = t
    · rw [same, Function.update_self]
    · rw [Function.update_of_ne same]
      exact (wakeful.wokenAt u).trans (Nat.le_succ _)
  · exact wakeful.readers_update (fun registered => .inl (by rw [waits]; exact registered))
      fun held => writers.trans held
  · intro u _
    refine .inr ⟨t, ?_⟩
    show s.signalledAt u < Function.update s.wokenAt t (s.wakes + 1) t
    rw [Function.update_self]
    exact Nat.lt_succ_of_le (wakeful.signalledAt u)
  · intro u signalled v woken
    show (Function.update s.threads t (.woken access) v).wantsWrite = true
    by_cases same : v = t
    · rw [same, Function.update_self]
      cases access with
      | write => rfl
      | read =>
          have held := wakeful.readers t (by rw [waits]; rfl)
          have reads : 0 < xpReaders s.threads := count_pos.mpr ⟨u, (earlier u signalled).holdsRead⟩
          have exclusive := accounted.exclusive
          omega
    · rw [Function.update_of_ne same]
      refine wakeful.writes u (earlier u signalled) v ?_
      have later : s.signalledAt u < Function.update s.wokenAt t (s.wakes + 1) v := woken
      rwa [Function.update_of_ne same] at later
  · intro _ _ _
    refine .inr ⟨t, ?_⟩
    show (Function.update s.threads t (.woken access) t).isOnTheWay = true
    rw [Function.update_self]
    rfl

/-- A reader sets the event: nobody has been woken since. -/
theorem XpWakeful.access_signal (wakeful : XpWakeful s) {tmzlock : BitVec 32}
    (signals : s.threads t = .endReadSignal tmzlock) :
    XpWakeful { (s.recorded t).move t (.endReadExchange tmzlock) with xp := { s.xp with event := true } } := by
  have records : s.recorded t = { s with signalledAt := Function.update s.signalledAt t s.wakes } := by
    simp only [XpSystem.recorded, signals]
  have writers := (xpNumbers_update s.threads t (.endReadExchange tmzlock)).1
  rw [signals] at writers
  rw [records]
  refine ⟨wakeful.wokenAt, ?_, ?_, fun _ _ => .inl rfl, ?_, fun _ _ _ => .inl rfl⟩
  · intro u
    show Function.update s.signalledAt t s.wakes u ≤ s.wakes
    by_cases same : u = t
    · rw [same, Function.update_self]
    · rw [Function.update_of_ne same]
      exact wakeful.signalledAt u
  · exact wakeful.readers_update (of_failed rfl) fun held => writers.trans held
  · intro u signalled v woken
    have later : Function.update s.signalledAt t s.wakes u < s.wokenAt v := woken
    show (Function.update s.threads t (.endReadExchange tmzlock) v).wantsWrite = true
    by_cases same : u = t
    · rw [same, Function.update_self] at later
      exact absurd (wakeful.wokenAt v) (by omega)
    · rw [Function.update_of_ne same] at later
      have before : (s.threads u).Signalled := by
        have here : (Function.update s.threads t (.endReadExchange tmzlock) u).Signalled := signalled
        rwa [Function.update_of_ne same] at here
      have wants := wakeful.writes u before v later
      by_cases self : v = t
      · rw [self, signals] at wants
        cases wants
      · rwa [Function.update_of_ne self]

theorem XpWakeful.access (wakeful : XpWakeful s) (accounted : XpAccounted s.xp.lock s.threads)
    (few : Fintype.card ι < 2 ^ 15) (stands : SignalStands s t) (next : s.xp.step (s.threads t) = some (state, xp)) :
    XpWakeful { (s.recorded t).move t state with xp := xp } := by
  cases quiet : (s.threads t).quiet with
  | true =>
      rw [recorded_of_quiet quiet]
      exact wakeful.access_quiet accounted few stands next quiet
  | false =>
      match at_t : s.threads t with
      | .wait access =>
          rw [at_t] at next
          simp only [PRWLockXP.step] at next
          split at next
          · cases next
            exact wakeful.access_wait accounted at_t
          · cases next
      | .endReadSignal tmzlock =>
          rw [at_t] at next
          cases next
          exact wakeful.access_signal at_t
      | .idle | .reading | .writing | .start _ _ | .acquire _ _ _ | .enlist _ _ _ | .woken _ | .delist _ _
      | .startTry _ | .acquireTry _ _ | .endRead | .endReadExchange _ | .endWrite | .endWriteSignal
      | .endWriteExchange _ =>
          rw [at_t] at quiet
          cases quiet

/-- A call begins away from the event. -/
theorem XpCalls.away {thread : XpThread} (calls : XpCalls thread state) :
    ¬state.Signalled ∧ state.readRegistered = false ∧ state.isBlocked = false ∧ thread.wantsWrite = false ∧
      thread.isOnTheWay = false ∧ state.holdsWrite = thread.holdsWrite ∧ state.holdsRead = thread.holdsRead := by
  cases calls <;> exact ⟨XpThread.unsignalled rfl, rfl, rfl, rfl, rfl, rfl, rfl⟩

theorem XpWakeful.call (wakeful : XpWakeful s) (calls : XpCalls (s.threads t) state) : XpWakeful (s.move t state) := by
  obtain ⟨unsignalled, registered, blocked, wants, onTheWay, writes, reads⟩ := calls.away
  have moved := xpNumbers_update s.threads t state
  rw [writes, reads] at moved
  refine wakeful.quiet id unsignalled (wakeful.readers_update ?_ (by omega)) ?_ ?_
  · rw [registered]
    exact of_failed rfl
  · rw [wants]
    exact of_failed rfl
  · intro noWriter noReader
    refine wakeful.free_update id (by omega) (by omega) ?_ ?_
    · rw [blocked]
      exact of_failed rfl
    · rw [onTheWay]
      exact of_failed rfl

theorem XpRun.wakeful (few : Fintype.card ι < 2 ^ 15) (run : XpRun SignalStands s) : XpWakeful s := by
  induction run with
  | start => exact xpWakeful_new
  | step run stands next ih =>
      cases next with
      | call calls => exact ih.call calls
      | access next => exact ih.access (run.accounted few) few stands next

/-- In a run in which no reader gives the lock back over a thread that was woken since the
    reader set the event and is blocked again, no wake-up is lost. -/
theorem xp_no_lost_wakeup_of_stands (few : Fintype.card ι < 2 ^ 15) (run : XpRun SignalStands s) : NoLostWakeup s :=
  (run.wakeful few).noLostWakeup

end Invariant

section Duel

variable {allowed : XpSystem Bool → Bool → Prop} {lock : BitVec 32} {event : Bool} {reader writer : XpThread}
  {wakes signalledAt : Nat}

theorem XpRun.reader_signals {tmzlock : BitVec 32}
    (run : XpRun allowed (duel ⟨lock, event⟩ (.endReadSignal tmzlock) writer wakes signalledAt))
    (meets : allowed (duel ⟨lock, event⟩ (.endReadSignal tmzlock) writer wakes signalledAt) false) :
    XpRun allowed (duel ⟨lock, true⟩ (.endReadExchange tmzlock) writer wakes wakes) := by
  have step := run.step meets (.access rfl)
  have records : (duel ⟨lock, event⟩ (.endReadSignal tmzlock) writer wakes signalledAt).recorded false =
      duel ⟨lock, event⟩ (.endReadSignal tmzlock) writer wakes wakes := by
    simp only [XpSystem.recorded, duel, Bool.false_eq_true, if_false, XpSystem.mk.injEq, true_and]
    funext t
    cases t <;> rfl
  rwa [records, duel_move_reader] at step

theorem XpRun.writer_wakes {access : Access}
    (run : XpRun allowed (duel ⟨lock, true⟩ reader (.wait access) wakes signalledAt))
    (meets : allowed (duel ⟨lock, true⟩ reader (.wait access) wakes signalledAt) true) :
    XpRun allowed (duel ⟨lock, false⟩ reader (.woken access) (wakes + 1) signalledAt) := by
  have step := run.step meets (.access rfl)
  have records : (duel ⟨lock, true⟩ reader (.wait access) wakes signalledAt).recorded true =
      duel ⟨lock, true⟩ reader (.wait access) (wakes + 1) signalledAt := by
    simp only [XpSystem.recorded, duel, if_true, XpSystem.mk.injEq, true_and, and_true]
    funext t
    cases t <;> rfl
  rwa [records, duel_move_writer] at step

/-- The reader has set the event and is about to give the lock back. -/
theorem reader_has_signalled (free : ∀ s t, ¬(s.threads t).Signalled → allowed s t) :
    XpRun allowed (duel ⟨0x8001, true⟩ (.endReadExchange 0x8001) (.wait .write) 0 0) := by
  have calls := (writer_waits free).reader_call (free _ _ (XpThread.unsignalled rfl)) .endRead
  have finds : XpRun allowed (duel ⟨0x8001, false⟩ (.endReadSignal 0x8001) (.wait .write) 0 0) :=
    calls.reader_access (free _ _ (XpThread.unsignalled rfl)) rfl rfl
  exact finds.reader_signals (free _ _ (XpThread.unsignalled rfl))

/-- The reader gives the lock back while the writer is still in its first wait. -/
theorem xp_no_lost_wakeup_first_wait :
    XpRun SignalStands (duel ⟨0x8000, true⟩ .idle (.wait .write) 0 0) ∧
      NoLostWakeup (duel ⟨0x8000, true⟩ .idle (.wait .write) 0 0) := by
  have signalled : XpRun SignalStands (duel ⟨0x8001, true⟩ (.endReadExchange 0x8001) (.wait .write) 0 0) :=
    reader_has_signalled fun _ _ other here => absurd here other
  have leaves : XpRun SignalStands (duel ⟨0x8000, true⟩ .idle (.wait .write) 0 0) := by
    refine signalled.reader_access ?_ rfl rfl
    intro _ _ u _
    cases u <;> exact Nat.le_refl 0
  exact ⟨leaves, xp_no_lost_wakeup_of_stands (by decide) leaves⟩

/-- The writer is woken, spins, registers again and is blocked; then the reader gives the lock
    back, and nobody is left to wake the writer. -/
theorem xp_wakeup_lost :
    XpReachable (duel ⟨0x8000, false⟩ .idle (.wait .write) 1 0) ∧
      ¬NoLostWakeup (duel ⟨0x8000, false⟩ .idle (.wait .write) 1 0) := by
  constructor
  · have woken := (reader_has_signalled fun _ _ _ => trivial).writer_wakes trivial
    have finds : XpReachable (duel ⟨0x8001, false⟩ (.endReadExchange 0x8001) (.delist .write 0x8001) 1 0) :=
      XpRun.writer_access woken trivial rfl rfl
    have delists : XpReachable (duel ⟨1, false⟩ (.endReadExchange 0x8001) (.start .write 1) 1 0) :=
      XpRun.writer_access finds trivial rfl rfl
    have blocks := XpRun.writer_registers (fun _ _ _ => trivial) (by decide) delists
    exact XpRun.reader_access blocks trivial rfl rfl
  · intro kept
    have nobody := kept (by decide) ⟨true, rfl⟩
    exact absurd nobody (by decide)

end Duel

end Plibsys.Threads
