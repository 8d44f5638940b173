import Plibsys.Support.Counting
import Plibsys.Threads.PCondVariableXp

/-! # The waiters of a condition variable for Windows XP

The counter is the number of threads that wait and that no wakeup is meant for, except for
what broadcasts have wiped from it.  A broadcast wipes something only when the counter changes
between its read and its write, and so never when it is sent with the mutex.
-/

namespace Plibsys.Threads

open Support

namespace XpWaiter

/-- Whether the thread waits: it has been counted, and no wakeup has reached it. -/
def waits : XpWaiter → Nat
  | waitUnlock | waitSema | waitLock false | waitFailed => 1
  | _ => 0

/-- The wakeups that the thread is about to give to the semaphore. -/
def owes : XpWaiter → Nat
  | signalRelease => 1
  | broadcastRelease waiters => waiters.toNat
  | _ => 0

/-- Whether the thread has the mutex there, when signals are sent with it. -/
def inside : XpWaiter → Bool
  | waitInc | waitUnlock | signalGet | signalAdd | signalRelease | broadcastGet | broadcastSet _ | broadcastRelease _ => true
  | _ => false

/-- Whether the wait of the thread has failed. -/
def failed : XpWaiter → Bool
  | waitLock false | waitFailed => true
  | _ => false

/-- The number of waiters that a broadcast has read is positive. -/
def Sensible : XpWaiter → Prop
  | broadcastSet waiters | broadcastRelease waiters => 0 < waiters.toInt
  | _ => True

theorem waits_le (place : XpWaiter) : place.waits ≤ 1 := by
  unfold waits
  split <;> omega

end XpWaiter

variable {ι : Type} [Fintype ι] [DecidableEq ι]

namespace XpCondition

/-- How many threads wait. -/
def waiting (s : XpCondition ι) : Nat := total XpWaiter.waits s.threads

/-- How many wakeups are about to be given to the semaphore. -/
def owed (s : XpCondition ι) : Nat := total XpWaiter.owes s.threads

/-- The counter is right up to whole turns of the word. -/
structure Accounted (s : XpCondition ι) : Prop where
  counter : (s.waiting - s.waitersSema - s.owed - s.wiped : Int) % 2 ^ 32 = s.waitersCount.toNat
  sensible : ∀ t, (s.threads t).Sensible

variable {s s' : XpCondition ι} {t : ι} {place : XpWaiter} {careful : Bool}

omit [Fintype ι] [DecidableEq ι] in
@[simp] theorem add_threads (s : XpCondition ι) (value : PInt) : (s.add value).threads = s.threads := rfl

omit [Fintype ι] [DecidableEq ι] in
@[simp] theorem add_waitersSema (s : XpCondition ι) (value : PInt) : (s.add value).waitersSema = s.waitersSema := rfl

omit [Fintype ι] [DecidableEq ι] in
@[simp] theorem add_wiped (s : XpCondition ι) (value : PInt) : (s.add value).wiped = s.wiped := rfl

omit [Fintype ι] [DecidableEq ι] in
@[simp] theorem add_waitersCount (s : XpCondition ι) (value : PInt) :
    (s.add value).waitersCount = s.waitersCount + value := rfl

omit [Fintype ι] [DecidableEq ι] in
@[simp] theorem release_threads (s : XpCondition ι) (count : Nat) : (s.release count).threads = s.threads := by
  unfold release
  split <;> rfl

/-- The numbers after one thread has moved. -/
theorem waiting_goto (s : XpCondition ι) (t : ι) (place : XpWaiter) :
    (s.goto t place).waiting + (s.threads t).waits = s.waiting + place.waits := total_update ..

theorem owed_goto (s : XpCondition ι) (t : ι) (place : XpWaiter) :
    (s.goto t place).owed + (s.threads t).owes = s.owed + place.owes := total_update ..

theorem toNat_add_neg_one (count : PInt) : ((count + -1).toNat : Int) = ((count.toNat : Int) - 1) % 2 ^ 32 := by
  have small := count.isLt
  have down : (count + -1).toNat = (count.toNat + (2 ^ 32 - 1)) % 2 ^ 32 := by
    rw [BitVec.toNat_add]
    rfl
  omega

theorem toInt_emod (count : PInt) : count.toInt % 2 ^ 32 = count.toNat := by
  have small := count.isLt
  rw [BitVec.toInt_eq_toNat_cond]
  split <;> omega

/-- A step that moves one thread and changes the numbers by as much. -/
theorem Accounted.move (accounted : s.Accounted) (same : s'.threads = s.threads) (sensible : place.Sensible)
    (counter : ((s.waitersCount.toNat : Int) + (place.waits - (s.threads t).waits) -
      (s'.waitersSema - s.waitersSema) - (place.owes - (s.threads t).owes) - (s'.wiped - s.wiped)) % 2 ^ 32 =
      s'.waitersCount.toNat) : (s'.goto t place).Accounted where
  counter := by
    have before := accounted.counter
    have waiting := waiting_goto s' t place
    have owed := owed_goto s' t place
    rw [show s'.waiting = s.waiting by rw [XpCondition.waiting, same]; rfl, same] at waiting
    rw [show s'.owed = s.owed by rw [XpCondition.owed, same]; rfl, same] at owed
    show ((s'.goto t place).waiting - s'.waitersSema - (s'.goto t place).owed - s'.wiped : Int) % 2 ^ 32 =
      s'.waitersCount.toNat
    omega
  sensible := by
    intro u
    show (Function.update s'.threads t place u).Sensible
    rw [same]
    by_cases mine : u = t
    · subst mine
      rw [Function.update_self]
      exact sensible
    · rw [Function.update_of_ne mine]
      exact accounted.sensible u

/-- The counter goes down with one waiter less, or with one wakeup more. -/
theorem Accounted.decrement {value : PInt} (accounted : s.Accounted)
    (down : ((s.waitersCount + value).toNat : Int) = ((s.waitersCount.toNat : Int) - 1) % 2 ^ 32)
    (sensible : place.Sensible)
    (numbers : (place.waits : Int) - place.owes + 1 = (s.threads t).waits - (s.threads t).owes) :
    ((s.add value).goto t place).Accounted := by
  refine accounted.move (add_threads s value) sensible ?_
  rw [add_waitersSema, add_wiped, add_waitersCount, down]
  omega

theorem sensible_of_positive {waiters : PInt} (positive : 0 < waiters.toInt) : waiters.toNat = waiters.toInt := by
  rw [BitVec.toInt_eq_toNat_cond] at positive ⊢
  split at positive <;> omega

theorem accounted_step (accounted : s.Accounted) (step : XpCondStep careful t s s') : s'.Accounted := by
  have small := s.waitersCount.isLt
  have sensible := accounted.sensible t
  cases step with
  | lock | unlock => exact ⟨accounted.counter, accounted.sensible⟩
  | wait at_t | waitUnlock at_t | waitFails at_t | signal at_t | broadcast at_t =>
      refine accounted.move rfl trivial ?_
      simp [at_t, XpWaiter.waits, XpWaiter.owes, unlock]
      omega
  | waitInc at_t =>
      refine accounted.move (add_threads s 1) trivial ?_
      simp [at_t, XpWaiter.waits, XpWaiter.owes]
  | waitSema at_t set =>
      refine accounted.move rfl trivial ?_
      simp [at_t, XpWaiter.waits, XpWaiter.owes]
      omega
  | @waitLock success at_t free =>
      cases success <;> refine accounted.move rfl trivial ?_ <;> simp [at_t, XpWaiter.waits, XpWaiter.owes, lock] <;> omega
  | waitFailed at_t | signalAdd at_t =>
      exact accounted.decrement (toNat_add_neg_one s.waitersCount) trivial (by rw [at_t]; rfl)
  | signalGet at_t =>
      split <;> refine accounted.move rfl trivial ?_ <;> simp [at_t, XpWaiter.waits, XpWaiter.owes] <;> omega
  | signalRelease at_t | broadcastRelease at_t =>
      refine accounted.move (release_threads s _) trivial ?_
      unfold release
      split <;> simp [at_t, XpWaiter.waits, XpWaiter.owes] <;> omega
  | broadcastGet at_t =>
      split
      · next positive =>
          refine accounted.move rfl positive ?_
          simp [at_t, XpWaiter.waits, XpWaiter.owes]
          omega
      · refine accounted.move rfl trivial ?_
        simp [at_t, XpWaiter.waits, XpWaiter.owes]
        omega
  | broadcastSet at_t =>
      rw [at_t] at sensible
      refine accounted.move rfl sensible ?_
      have same := sensible_of_positive sensible
      have count := toInt_emod s.waitersCount
      simp only [at_t, XpWaiter.waits, XpWaiter.owes, set]
      show _ = ((0 : Nat) : Int)
      omega

omit [DecidableEq ι] in
theorem accounted_init : (init : XpCondition ι).Accounted where
  counter := by
    have waiting : (init : XpCondition ι).waiting = 0 := total_eq_zero.mpr fun _ => rfl
    have owed : (init : XpCondition ι).owed = 0 := total_eq_zero.mpr fun _ => rfl
    rw [waiting, owed]
    rfl
  sensible := fun _ => trivial

/-- Signals are sent with the mutex, and waits do not fail. -/
structure Guarded (s : XpCondition ι) : Prop where
  exclusive : ∀ t, (s.threads t).inside = true → s.mutex = some t
  succeeds : ∀ t, (s.threads t).failed = false
  /-- Nothing is wiped, and the counter is right. -/
  counter : s.wiped = 0 ∧ s.waitersCount.toNat + s.waitersSema + s.owed = s.waiting
  signals : ∀ t, s.threads t = .signalAdd → 0 < s.waitersCount.toNat
  broadcasts : ∀ t waiters, s.threads t = .broadcastSet waiters → waiters = s.waitersCount
  wiped : ∀ t waiters, s.threads t = .broadcastRelease waiters → s.waitersCount = 0

namespace Guarded

omit [DecidableEq ι] in
/-- Nobody else is at work while a thread has the mutex. -/
theorem alone (guarded : s.Guarded) (owned : s.mutex = some t ∨ s.mutex = none) {u : ι} (other : u ≠ t) :
    (s.threads u).inside = false := by
  by_contra inside
  have mine := guarded.exclusive u (by simpa using inside)
  rcases owned with owned | free
  · rw [owned] at mine
    exact other (Option.some.inj mine).symm
  · rw [free] at mine
    cases mine

/-- A step of a thread that has the mutex, or that changes neither the mutex nor the counter. -/
theorem move (guarded : s.Guarded) (same : s'.threads = s.threads)
    (apart : (s.mutex = some t ∨ s.mutex = none) ∨ s'.mutex = s.mutex ∧ s'.waitersCount = s.waitersCount)
    (inside : place.inside = true → s'.mutex = some t) (succeeds : place.failed = false) (wiped : s'.wiped = 0)
    (counter : s'.waitersCount.toNat + s'.waitersSema + place.owes + (s.threads t).waits =
      s.waitersCount.toNat + s.waitersSema + (s.threads t).owes + place.waits)
    (signals : place = .signalAdd → 0 < s'.waitersCount.toNat)
    (broadcasts : ∀ waiters, place = .broadcastSet waiters → waiters = s'.waitersCount)
    (zero : ∀ waiters, place = .broadcastRelease waiters → s'.waitersCount = 0) : (s'.goto t place).Guarded := by
  have at_t : (s'.goto t place).threads t = place := Function.update_self ..
  have others : ∀ u, u ≠ t → (s'.goto t place).threads u = s.threads u := by
    intro u other
    rw [← same]
    exact Function.update_of_ne other ..
  -- another thread with the mutex sees the same mutex and the same counter
  have unchanged : ∀ u, u ≠ t → (s.threads u).inside = true → s'.mutex = s.mutex ∧ s'.waitersCount = s.waitersCount := by
    intro u other at_u
    rcases apart with owned | kept
    · rw [guarded.alone owned other] at at_u
      cases at_u
    · exact kept
  constructor
  case exclusive =>
    intro u at_u
    by_cases mine : u = t
    · subst mine
      rw [at_t] at at_u
      exact inside at_u
    · rw [others u mine] at at_u
      exact (unchanged u mine at_u).1.trans (guarded.exclusive u at_u)
  case succeeds =>
    intro u
    by_cases mine : u = t
    · subst mine
      rw [at_t]
      exact succeeds
    · rw [others u mine]
      exact guarded.succeeds u
  case counter =>
    refine ⟨wiped, ?_⟩
    have before := guarded.counter.2
    have waiting := waiting_goto s' t place
    have owed := owed_goto s' t place
    rw [show s'.waiting = s.waiting by rw [XpCondition.waiting, same]; rfl, same] at waiting
    rw [show s'.owed = s.owed by rw [XpCondition.owed, same]; rfl, same] at owed
    show s'.waitersCount.toNat + s'.waitersSema + (s'.goto t place).owed = (s'.goto t place).waiting
    omega
  case signals =>
    intro u at_u
    by_cases mine : u = t
    · subst mine
      rw [at_t] at at_u
      exact signals at_u
    · rw [others u mine] at at_u
      have kept := (unchanged u mine (by rw [at_u]; rfl)).2
      show 0 < s'.waitersCount.toNat
      rw [kept]
      exact guarded.signals u at_u
  case broadcasts =>
    intro u waiters at_u
    by_cases mine : u = t
    · subst mine
      rw [at_t] at at_u
      exact broadcasts waiters at_u
    · rw [others u mine] at at_u
      have kept := (unchanged u mine (by rw [at_u]; rfl)).2
      exact (guarded.broadcasts u waiters at_u).trans kept.symm
  case wiped =>
    intro u waiters at_u
    by_cases mine : u = t
    · subst mine
      rw [at_t] at at_u
      exact zero waiters at_u
    · rw [others u mine] at at_u
      have kept := (unchanged u mine (by rw [at_u]; rfl)).2
      exact kept.trans (guarded.wiped u waiters at_u)

/-- A signal takes one waiter from the counter. -/
theorem taken {value : PInt} (guarded : s.Guarded) (owned : s.mutex = some t) (at_t : s.threads t = .signalAdd)
    (down : (s.waitersCount + value).toNat + 1 = s.waitersCount.toNat) : ((s.add value).goto t .signalRelease).Guarded := by
  refine guarded.move (add_threads s value) (.inl (.inl owned)) (fun _ => owned) rfl guarded.counter.1 ?_ nofun nofun nofun
  rw [add_waitersSema, add_waitersCount, at_t]
  simp only [XpWaiter.owes, XpWaiter.waits]
  omega

end Guarded

omit [DecidableEq ι] in
theorem waiting_le (s : XpCondition ι) : s.waiting ≤ Fintype.card ι := by
  have few := total_le fun t => (s.threads t).waits_le
  unfold waiting
  omega

theorem toNat_pos_of_toInt {count : PInt} (positive : 0 < count.toInt) : 0 < count.toNat := by
  have same := sensible_of_positive positive
  omega

theorem guarded_step (guarded : s.Guarded) (few : Fintype.card ι < 2 ^ 31) (step : XpCondStep true t s s') :
    s'.Guarded := by
  have waiting := s.waiting_le
  obtain ⟨wiped, counter⟩ := guarded.counter
  have owes : (s.threads t).owes ≤ s.owed := le_total XpWaiter.owes s.threads t
  have inside := guarded.exclusive t
  cases step with
  | lock at_t free =>
      refine ⟨fun u at_u => ?_, guarded.succeeds, guarded.counter, guarded.signals, guarded.broadcasts, guarded.wiped⟩
      have mine := guarded.exclusive u at_u
      rw [free] at mine
      cases mine
  | unlock at_t owned =>
      refine ⟨fun u at_u => ?_, guarded.succeeds, guarded.counter, guarded.signals, guarded.broadcasts, guarded.wiped⟩
      have mine := guarded.exclusive u at_u
      rw [owned, Option.some.injEq] at mine
      subst mine
      change (s.threads t).inside = true at at_u
      rw [at_t] at at_u
      cases at_u
  | wait at_t owned =>
      refine guarded.move rfl (.inr ⟨rfl, rfl⟩) (fun _ => owned) rfl wiped ?_ nofun nofun nofun
      simp [at_t, XpWaiter.owes, XpWaiter.waits]
  | waitInc at_t =>
      have owned := inside (by rw [at_t]; rfl)
      have up : (s.waitersCount + 1).toNat = s.waitersCount.toNat + 1 := by
        rw [BitVec.toNat_add]
        show (_ + 1) % 2 ^ 32 = _
        omega
      refine guarded.move (add_threads s 1) (.inl (.inl owned)) (fun _ => owned) rfl wiped ?_ nofun nofun nofun
      rw [add_waitersSema, add_waitersCount, up, at_t]
      simp only [XpWaiter.owes, XpWaiter.waits]
      omega
  | waitUnlock at_t =>
      have owned := inside (by rw [at_t]; rfl)
      refine guarded.move rfl (.inl (.inl owned)) nofun rfl wiped ?_ nofun nofun nofun
      simp [at_t, unlock, XpWaiter.owes, XpWaiter.waits]
  | waitSema at_t set =>
      refine guarded.move rfl (.inr ⟨rfl, rfl⟩) nofun rfl wiped ?_ nofun nofun nofun
      simp [at_t, XpWaiter.owes, XpWaiter.waits]
      omega
  | waitFails at_t careless => cases careless
  | @waitLock success at_t free =>
      cases success with
      | true =>
          refine guarded.move rfl (.inl (.inr free)) nofun rfl wiped ?_ nofun nofun nofun
          simp [at_t, lock, XpWaiter.owes, XpWaiter.waits]
      | false =>
          have succeeds := guarded.succeeds t
          rw [at_t] at succeeds
          cases succeeds
  | waitFailed at_t =>
      have succeeds := guarded.succeeds t
      rw [at_t] at succeeds
      cases succeeds
  | signal at_t owned | broadcast at_t owned =>
      refine guarded.move rfl (.inr ⟨rfl, rfl⟩) (fun _ => owned rfl) rfl wiped ?_ nofun nofun nofun
      simp [at_t, XpWaiter.owes, XpWaiter.waits]
  | signalGet at_t =>
      have owned := inside (by rw [at_t]; rfl)
      split
      · next positive =>
          refine guarded.move rfl (.inr ⟨rfl, rfl⟩) (fun _ => owned) rfl wiped ?_ (fun _ => toNat_pos_of_toInt positive)
            nofun nofun
          simp [at_t, XpWaiter.owes, XpWaiter.waits]
      · refine guarded.move rfl (.inr ⟨rfl, rfl⟩) nofun rfl wiped ?_ nofun nofun nofun
        simp [at_t, XpWaiter.owes, XpWaiter.waits]
  | signalAdd at_t =>
      have owned := inside (by rw [at_t]; rfl)
      have positive := guarded.signals t at_t
      have down := toNat_add_neg_one s.waitersCount
      exact guarded.taken owned at_t (by omega)
  | signalRelease at_t =>
      rw [at_t] at owes
      simp only [XpWaiter.owes] at owes
      have room : s.waitersSema + 1 ≤ maxLong := by
        unfold maxLong
        omega
      unfold release
      rw [if_pos room]
      refine guarded.move rfl (.inr ⟨rfl, rfl⟩) nofun rfl wiped ?_ nofun nofun nofun
      simp only [at_t, XpWaiter.owes, XpWaiter.waits]
      omega
  | broadcastGet at_t =>
      have owned := inside (by rw [at_t]; rfl)
      split
      · refine guarded.move rfl (.inr ⟨rfl, rfl⟩) (fun _ => owned) rfl wiped ?_ nofun ?_ nofun
        · simp [at_t, XpWaiter.owes, XpWaiter.waits]
        · intro waiters same
          cases same
          rfl
      · refine guarded.move rfl (.inr ⟨rfl, rfl⟩) nofun rfl wiped ?_ nofun nofun nofun
        simp [at_t, XpWaiter.owes, XpWaiter.waits]
  | @broadcastSet waiters at_t =>
      have owned := inside (by rw [at_t]; rfl)
      have same := guarded.broadcasts t waiters at_t
      subst same
      refine guarded.move rfl (.inl (.inl owned)) (fun _ => owned) rfl ?_ ?_ nofun nofun (fun _ _ => rfl)
      · simp [set, wiped]
      · simp [set, at_t, XpWaiter.owes, XpWaiter.waits]
        omega
  | @broadcastRelease waiters at_t =>
      rw [at_t] at owes
      simp only [XpWaiter.owes] at owes
      have room : s.waitersSema + waiters.toNat ≤ maxLong := by
        unfold maxLong
        omega
      unfold release
      rw [if_pos room]
      refine guarded.move rfl (.inr ⟨rfl, rfl⟩) nofun rfl wiped ?_ nofun nofun nofun
      simp only [at_t, XpWaiter.owes, XpWaiter.waits]
      omega

omit [DecidableEq ι] in
theorem guarded_init : (init : XpCondition ι).Guarded where
  exclusive := nofun
  succeeds := fun _ => rfl
  counter := by
    have waiting : (init : XpCondition ι).waiting = 0 := total_eq_zero.mpr fun _ => rfl
    have owed : (init : XpCondition ι).owed = 0 := total_eq_zero.mpr fun _ => rfl
    rw [waiting, owed]
    exact ⟨rfl, rfl⟩
  signals := nofun
  broadcasts := nofun
  wiped := nofun

end XpCondition

open XpCondition

variable {s : XpCondition ι} {careful : Bool}

/-- Whoever sends signals when, and whether waits fail or not, the counter is the number of
    waiting threads without the wakeups on their way to them, and without what broadcasts
    have wiped. -/
theorem xp_condition_counts_waiters (reached : XpCondReach careful s) :
    s.waitersCount = BitVec.ofInt 32 (s.waiting - s.waitersSema - s.owed - s.wiped) := by
  have accounted : s.Accounted := by
    induction reached with
    | init => exact accounted_init
    | step reached next accounted => exact accounted_step accounted next
  rw [← BitVec.toNat_inj, BitVec.toNat_ofInt]
  have counter := accounted.counter
  omega

/-- A thread begins to wait between the read and the write of a broadcast that is sent without
    the mutex.  It is wiped from the counter, and its wakeup is lost. -/
theorem xp_condition_counts_waiters_wiped : ∃ s : XpCondition (Fin 3), s.waiting = 2 ∧ s.waitersSema = 1 ∧ s.wiped = 1 ∧
    s.waitersCount = BitVec.ofInt 32 (s.waiting - s.waitersSema - s.owed - s.wiped) := by
  have fresh : XpCondReach (ι := Fin 3) false .init := .init
  have locked := fresh.step (t := 0) (.lock rfl rfl)
  have first := ((locked.step (t := 0) (.wait rfl rfl)).step (t := 0) (.waitInc rfl)).step (t := 0) (.waitUnlock rfl)
  have read := (first.step (t := 1) (.broadcast rfl nofun)).step (t := 1) (.broadcastGet rfl)
  have locked' := read.step (t := 2) (.lock rfl rfl)
  have second := ((locked'.step (t := 2) (.wait rfl rfl)).step (t := 2) (.waitInc rfl)).step (t := 2) (.waitUnlock rfl)
  have sent := (second.step (t := 1) (.broadcastSet rfl)).step (t := 1) (.broadcastRelease rfl)
  exact ⟨_, rfl, rfl, rfl, xp_condition_counts_waiters sent⟩

omit [DecidableEq ι] in
/-- With the mutex, nobody else is about to wake threads. -/
theorem XpCondition.Guarded.owed_eq (guarded : s.Guarded) {t : ι} (owned : s.mutex = some t) :
    s.owed = (s.threads t).owes := by
  classical
  have others : total XpWaiter.owes (Function.update s.threads t .idle) = 0 := by
    rw [total_eq_zero]
    intro u
    by_cases mine : u = t
    · subst mine
      rw [Function.update_self]
      rfl
    · rw [Function.update_of_ne mine]
      have outside := guarded.alone (.inl owned) mine
      cases at_u : s.threads u <;> simp_all [XpWaiter.owes, XpWaiter.inside]
  have whole := total_update XpWaiter.owes s.threads t .idle
  have idle : XpWaiter.idle.owes = 0 := rfl
  rw [others, idle] at whole
  unfold owed
  omega

/-- When signals and broadcasts are sent with the mutex, no wakeup is lost: the waiting threads
    are those of the counter and those that wakeups are on their way to, and a broadcast
    leaves as many wakeups as threads wait. -/
theorem xp_condition_keeps_wakeups (few : Fintype.card ι < 2 ^ 31) (reached : XpCondReach true s) :
    s.waiting = s.waitersCount.toNat + s.waitersSema + s.owed ∧ s.wiped = 0 ∧
    ∀ t waiters, s.threads t = .broadcastRelease waiters →
      (s.release waiters.toNat).waitersSema = s.waiting ∧ s.mutex = some t := by
  have guarded : s.Guarded := by
    induction reached with
    | init => exact guarded_init
    | step reached next guarded => exact guarded_step guarded few next
  obtain ⟨wiped, counter⟩ := guarded.counter
  refine ⟨counter.symm, wiped, fun t waiters at_t => ?_⟩
  have owned := guarded.exclusive t (by rw [at_t]; rfl)
  have owes := guarded.owed_eq owned
  rw [at_t] at owes
  simp only [XpWaiter.owes] at owes
  have waiting := s.waiting_le
  rw [guarded.wiped t waiters at_t, owes] at counter
  have room : s.waitersSema + waiters.toNat ≤ maxLong := by
    unfold maxLong
    omega
  unfold release
  rw [if_pos room]
  exact ⟨by rw [← counter]; simp, owned⟩

theorem xp_condition_keeps_wakeups_broadcast : ∃ s : XpCondition (Fin 2), s.threads 1 = .broadcastRelease 1 ∧
    (s.release 1).waitersSema = s.waiting := by
  have fresh : XpCondReach (ι := Fin 2) true .init := .init
  have locked := fresh.step (t := 0) (.lock rfl rfl)
  have first := ((locked.step (t := 0) (.wait rfl rfl)).step (t := 0) (.waitInc rfl)).step (t := 0) (.waitUnlock rfl)
  have locked' := first.step (t := 1) (.lock rfl rfl)
  have read := (locked'.step (t := 1) (.broadcast rfl fun _ => rfl)).step (t := 1) (.broadcastGet rfl)
  have sent := read.step (t := 1) (.broadcastSet rfl)
  exact ⟨_, rfl, ((xp_condition_keeps_wakeups (by decide) sent).2.2 1 1 rfl).1⟩

end Plibsys.Threads
