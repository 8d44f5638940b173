import Plibsys.Threads.ThreadLedger

/-! # What a step changes

One step of one thread changes few things: an object in one of a few ways, and of the other
threads at most one that it creates.
-/

namespace Plibsys.Threads

open Support

variable {ι : Type} [Fintype ι] [DecidableEq ι]

/-- The fields that the first `i` assignments of `zuthread_create_full` have set. -/
structure PUThread.Assigned (args : CreateArgs) (i : Nat) (c : PUThread ι) : Prop where
  ours : 1 < i → c.ours = true
  joinable : 2 < i → c.joinable = args.joinable
  func : 3 < i → c.func = args.func
  data : 4 < i → c.data = args.data
  name : c.name = args.name ∨ c.name = none

/-- All but the counter and the code is the same. -/
structure PUThread.Alike (c c' : PUThread ι) : Prop where
  ours : c'.ours = c.ours
  joinable : c'.joinable = c.joinable
  func : c'.func = c.func
  data : c'.data = c.data
  name : c'.name = c.name
  hdl : c'.hdl = c.hdl

namespace PUThread

omit [Fintype ι] [DecidableEq ι]

variable {args : CreateArgs} {i : Nat} {c c' : PUThread ι}

theorem Alike.refl (c : PUThread ι) : c.Alike c := ⟨rfl, rfl, rfl, rfl, rfl, rfl⟩

theorem Assigned.alike (assigned : c.Assigned args i) (alike : c.Alike c') : c'.Assigned args i where
  ours := fun later => alike.ours.trans (assigned.ours later)
  joinable := fun later => alike.joinable.trans (assigned.joinable later)
  func := fun later => alike.func.trans (assigned.func later)
  data := fun later => alike.data.trans (assigned.data later)
  name := by
    rw [alike.name]
    exact assigned.name

@[simp] theorem assign_hdl (args : CreateArgs) (copied : Bool) (c : PUThread ι) (i : Nat) :
    (c.assign args copied i).hdl = c.hdl := by
  unfold assign
  split <;> rfl

@[simp] theorem assign_retCode (args : CreateArgs) (copied : Bool) (c : PUThread ι) (i : Nat) :
    (c.assign args copied i).retCode = c.retCode := by
  unfold assign
  split <;> rfl

/-- One assignment more. -/
theorem Assigned.next (assigned : c.Assigned args i) (copied : Bool) (inside : i < assignments) :
    (c.assign args copied i).Assigned args (i + 1) := by
  obtain ⟨ours, joinable, func, data, name⟩ := assigned
  unfold assignments at inside
  obtain rfl | rfl | rfl | rfl | rfl | rfl : i = 0 ∨ i = 1 ∨ i = 2 ∨ i = 3 ∨ i = 4 ∨ i = 5 := by omega
  · exact ⟨by omega, by omega, by omega, by omega, name⟩
  · exact ⟨fun _ => rfl, by omega, by omega, by omega, name⟩
  · exact ⟨fun _ => ours (by omega), fun _ => rfl, by omega, by omega, name⟩
  · exact ⟨fun _ => ours (by omega), fun _ => joinable (by omega), fun _ => rfl, by omega, name⟩
  · exact ⟨fun _ => ours (by omega), fun _ => joinable (by omega), fun _ => func (by omega), fun _ => rfl, name⟩
  · refine ⟨fun _ => ours (by omega), fun _ => joinable (by omega), fun _ => func (by omega), fun _ => data (by omega), ?_⟩
    cases copied
    · exact .inr rfl
    · exact .inl rfl

end PUThread

namespace ThreadSystem

variable {s s' : ThreadSystem ι} {t u : ι} {base : Addr} {args : CreateArgs} {r : Exec (ThreadSystem ι)}

/-! ## What a step does to an object -/

omit [Fintype ι]

/-- A thread that is created, with its object. -/
structure Creation (s s' : ThreadSystem ι) (t u : ι) (args : CreateArgs) (base : Addr) (nonnull : base ≠ 0) : Prop where
  at_t : (s.threads t).control = .createInternal args
  free : s.objects.cell base = none
  unborn : (s.threads u).control = .unborn
  result : s' = s.createInternal t u args base nonnull

/-- How the object at an address changes in a step of a thread. -/
inductive CellStep (s s' : ThreadSystem ι) (t : ι) (base : Addr) : Option (PUThread ι) → Option (PUThread ι) → Prop where
  | same (cell : Option (PUThread ι)) : CellStep s s' t base cell cell
  | counter (c : PUThread ι) (refCount : PInt) : CellStep s s' t base (some c) (some { c with refCount := refCount })
  | code (c : PUThread ι) {code : PInt} (at_t : (s.threads t).control = .exitAssign base code) :
      CellStep s s' t base (some c) (some { c with retCode := code })
  | assigned (c : PUThread ι) {args : CreateArgs} {i : Nat} (copied : Bool)
      (at_t : (s.threads t).control = .createAssign args base i) :
      CellStep s s' t base (some c) (some (c.assign args copied i))
  | freed (c : PUThread ι) {ends : Bool} (at_t : (s.threads t).control = .freeing base ends) :
      CellStep s s' t base (some c) none
  | made {args : CreateArgs} {u : ι} {nonnull : base ≠ 0} (creation : Creation s s' t u args base nonnull) :
      CellStep s s' t base none (some { (PUThread.zero : PUThread ι) with joinable := args.joinable, hdl := some u })
  | current (at_t : (s.threads t).control = .running) :
      CellStep s s' t base none (some { (PUThread.zero : PUThread ι) with refCount := 1 })

theorem cellStep_adjust {b : Addr} {c : PUThread ι} {f : PUThread ι → PUThread ι} (here : s.objects.cell b = some c)
    (changes : CellStep s s' t b (some c) (some (f c))) (base : Addr) :
    CellStep s s' t base (s.objects.cell base) ((s.objects.adjust b f).cell base) := by
  by_cases same : base = b
  · subst same
    rw [Heap.cell_adjust_self, here]
    exact changes
  · rw [Heap.cell_adjust_ne _ same]
    exact .same _

theorem cellStep_insert {b : Addr} {c : PUThread ι} (nonnull : b ≠ 0) (free : s.objects.cell b = none)
    (changes : CellStep s s' t b none (some c)) (base : Addr) :
    CellStep s s' t base (s.objects.cell base) ((s.objects.insert b nonnull c).cell base) := by
  rw [Heap.cell_insert]
  by_cases same : base = b
  · subst same
    rw [if_pos rfl, free]
    exact changes
  · rw [if_neg same]
    exact .same _

theorem spinlockLock_objects (s : ThreadSystem ι) (t : ι) (next : Control) :
    (s.spinlockLock t next).objects = s.objects := by
  unfold spinlockLock
  split <;> rfl

theorem createUnlock_objects (s : ThreadSystem ι) (t : ι) (base : Addr) : (s.createUnlock t base).objects = s.objects := by
  unfold createUnlock
  split <;> rfl

theorem cleanup_objects (s : ThreadSystem ι) (t : ι) : (s.cleanup t).objects = s.objects := by
  unfold cleanup
  dsimp only
  split <;> rfl

theorem setLocal_goto_objects (s : ThreadSystem ι) (t : ι) (base : Addr) (success : Bool) (control : Control) :
    ((s.setLocal t base success).goto t control).objects = s.objects := by
  cases success <;> rfl

/-- The object that `zfree` takes away. -/
theorem free_ok {ends : Bool} (ok : s.free t base ends = .ok s') : ∃ c, s.objects.cell base = some c ∧
    s' = { s with objects := s.objects.erase base }.goto t (if ends then .ended else .running) := by
  unfold ThreadSystem.free Heap.free at ok
  cases here : s.objects.cell base with
  | none =>
      rw [here] at ok
      cases ok
  | some c =>
      rw [here] at ok
      cases ok
      exact ⟨c, rfl, rfl⟩

theorem cell_step (step : ThreadStep t s r) (result : r = .ok s') (base : Addr) :
    CellStep s s' t base (s.objects.cell base) (s'.objects.cell base) := by
  cases step with
  | create | createFailed | exit | join | proxyUnlock | returns =>
      cases result
      exact .same _
  | createLock | proxyLock =>
      cases result
      rw [spinlockLock_objects]
      exact .same _
  | createInternal u b at_t nonnull free unborn =>
      cases result
      exact cellStep_insert nonnull free (.made ⟨at_t, free, unborn, rfl⟩) base
  | createAssign copied at_t =>
      obtain ⟨c, here, rfl⟩ := written result
      exact cellStep_adjust here (.assigned c copied at_t) base
  | createUnlock =>
      cases result
      rw [createUnlock_objects]
      exact .same _
  | ref b =>
      obtain ⟨c, here, rfl⟩ := written result
      exact cellStep_adjust here (.counter c _) base
  | unref b =>
      obtain ⟨c, here, rfl⟩ := unref_ok result
      exact cellStep_adjust (s := s) here (.counter c _) base
  | cleanupUnref at_t =>
      obtain ⟨c, here, rfl⟩ := unref_ok result
      exact cellStep_adjust here (.counter c _) base
  | @free b ends at_t =>
      obtain ⟨c, here, rfl⟩ := free_ok result
      show CellStep s _ t base (s.objects.cell base) ((s.objects.erase b).cell base)
      rw [Heap.cell_erase]
      by_cases same : base = b
      · subst same
        rw [if_pos rfl, here]
        exact .freed c at_t
      · rw [if_neg same]
        exact .same _
  | current b at_t null nonnull free | exitNew code b at_t null nonnull free =>
      cases result
      exact cellStep_insert nonnull free (.current at_t) base
  | currentSet | proxyStart =>
      cases result
      rw [setLocal_goto_objects]
      exact .same _
  | exitCheck | proxyFunc | joinFails | joinRead =>
      obtain ⟨c, here, rfl⟩ := loaded result
      exact .same _
  | exitAssign at_t =>
      obtain ⟨c, here, rfl⟩ := written result
      exact cellStep_adjust here (.code c at_t) base
  | joinCheck =>
      obtain ⟨c, here, rfl⟩ := loaded result
      split <;> exact .same _
  | joinWait =>
      obtain ⟨c, u, here, hdl, rfl⟩ := joinWait_ok result
      split <;> exact .same _
  | cleanup =>
      cases result
      rw [cleanup_objects]
      exact .same _

/-- An object that is not freed keeps its thread. -/
theorem CellStep.kept {cell' : Option (PUThread ι)} {c : PUThread ι} (changes : CellStep s s' t base (some c) cell')
    (stays : ∀ ends, (s.threads t).control ≠ .freeing base ends) : ∃ c', cell' = some c' ∧ c'.hdl = c.hdl := by
  cases changes with
  | same => exact ⟨c, rfl, rfl⟩
  | counter c refCount => exact ⟨_, rfl, rfl⟩
  | code c at_t => exact ⟨_, rfl, rfl⟩
  | assigned c copied at_t => exact ⟨_, rfl, PUThread.assign_hdl _ copied c _⟩
  | freed c at_t => exact absurd at_t (stays _)

/-- Only its creator changes what an object is for. -/
theorem CellStep.alike {cell' : Option (PUThread ι)} {c : PUThread ι} (changes : CellStep s s' t base (some c) cell')
    (stays : ∀ ends, (s.threads t).control ≠ .freeing base ends)
    (idle : ∀ args i, (s.threads t).control ≠ .createAssign args base i) : ∃ c', cell' = some c' ∧ c.Alike c' := by
  cases changes with
  | same => exact ⟨c, rfl, .refl c⟩
  | counter c refCount => exact ⟨_, rfl, ⟨rfl, rfl, rfl, rfl, rfl, rfl⟩⟩
  | code c at_t => exact ⟨_, rfl, ⟨rfl, rfl, rfl, rfl, rfl, rfl⟩⟩
  | assigned c copied at_t => exact absurd at_t (idle _ _)
  | freed c at_t => exact absurd at_t (stays _)

/-! ## What a step does to the other threads -/

/-- What a thread leaves alone in a step, unless it creates another one. -/
structure Frame (s s' : ThreadSystem ι) (t : ι) : Prop where
  threads : ∀ u, u ≠ t → s'.threads u = s.threads u
  lost : ∀ base, s.lost base ≤ s'.lost base
  code : ∀ u, u ≠ t → s'.code u = s.code u
  own : (∀ base code, (s.threads t).control ≠ .exitAssign base code) → s'.code t = s.code t

theorem Frame.update {th : ThreadState} (moved : s'.threads = Function.update s.threads t th) (lost : s'.lost = s.lost)
    (code : s'.code = s.code) : Frame s s' t where
  threads := fun u other => by rw [moved, Function.update_of_ne other]
  lost := fun base => by rw [lost]
  code := fun u _ => congrFun code u
  own := fun _ => congrFun code t

omit [DecidableEq ι] in
theorem Frame.same (s : ThreadSystem ι) (t : ι) : Frame s s t :=
  ⟨fun _ _ => rfl, fun _ => Nat.le_refl _, fun _ _ => rfl, fun _ => rfl⟩

theorem Frame.goto (s : ThreadSystem ι) (t : ι) (control : Control) : Frame s (s.goto t control) t :=
  .update rfl rfl rfl

theorem Frame.setLocal (s : ThreadSystem ι) (t : ι) (base : Addr) (success : Bool) (control : Control) :
    Frame s ((s.setLocal t base success).goto t control) t where
  threads := fun u other => by rw [setLocal_goto_threads, Function.update_of_ne other]
  lost := fun b => by
    cases success with
    | true => exact Nat.le_refl _
    | false =>
        show s.lost b ≤ Function.update s.lost base (s.lost base + 1) b
        by_cases same : b = base
        · subst same
          rw [Function.update_self]
          omega
        · rw [Function.update_of_ne same]
  code := fun u _ => by cases success <;> rfl
  own := fun _ => by cases success <;> rfl

theorem frame_step (step : ThreadStep t s r) (result : r = .ok s') :
    Frame s s' t ∨ ∃ u args base nonnull, Creation s s' t u args base nonnull := by
  cases step with
  | create | createFailed | exit | returns =>
      cases result
      exact .inl (.goto _ _ _)
  | createLock | proxyLock =>
      cases result
      left
      unfold spinlockLock
      split
      · exact .update rfl rfl rfl
      · exact .same s t
  | createInternal u b at_t nonnull free unborn =>
      cases result
      exact .inr ⟨u, _, b, nonnull, at_t, free, unborn, rfl⟩
  | createAssign copied at_t =>
      obtain ⟨c, here, rfl⟩ := written result
      exact .inl (.update rfl rfl rfl)
  | createUnlock =>
      cases result
      left
      unfold createUnlock
      dsimp only
      split <;> exact .update rfl rfl rfl
  | ref b =>
      obtain ⟨c, here, rfl⟩ := written result
      exact .inl ⟨fun _ _ => rfl, fun _ => Nat.le_refl _, fun _ _ => rfl, fun _ => rfl⟩
  | unref | cleanupUnref =>
      obtain ⟨c, here, rfl⟩ := unref_ok result
      exact .inl (.update rfl rfl rfl)
  | free at_t =>
      obtain ⟨c, here, rfl⟩ := free_ok result
      exact .inl (.update rfl rfl rfl)
  | current | exitNew | join | proxyUnlock =>
      cases result
      exact .inl (.update rfl rfl rfl)
  | currentSet | proxyStart =>
      cases result
      exact .inl (.setLocal _ _ _ _ _)
  | exitCheck | proxyFunc | joinFails | joinRead =>
      obtain ⟨c, here, rfl⟩ := loaded result
      exact .inl (.update rfl rfl rfl)
  | exitAssign at_t =>
      obtain ⟨c, here, rfl⟩ := written result
      left
      refine ⟨fun u other => ?_, fun _ => Nat.le_refl _, fun u other => ?_, fun still => absurd at_t (still _ _)⟩ <;>
        exact Function.update_of_ne other _ _
  | joinCheck =>
      obtain ⟨c, here, rfl⟩ := loaded result
      left
      split <;> exact .update rfl rfl rfl
  | joinWait =>
      obtain ⟨c, u, here, hdl, rfl⟩ := joinWait_ok result
      left
      split
      · exact .goto _ _ _
      · exact .same s t
  | cleanup =>
      cases result
      left
      unfold ThreadSystem.cleanup
      dsimp only
      split
      · exact .goto _ _ _
      · have moved : ((s.setSpecific t 0).goto t (.cleanupUnref (s.threads t).specific)).threads =
            Function.update s.threads t ⟨.cleanupUnref (s.threads t).specific, 0⟩ := by
          simp [ThreadSystem.goto, setSpecific]
        exact .update moved rfl rfl

/-- A thread that was there before stays where it is, when another one takes a step. -/
theorem others_stay (step : ThreadStep t s r) (result : r = .ok s') (other : u ≠ t)
    (born : (s.threads u).control ≠ .unborn) : s'.threads u = s.threads u := by
  rcases frame_step step result with frame | ⟨v, args, base, nonnull, creation⟩
  · exact frame.threads u other
  · have apart : u ≠ v := by
      rintro rfl
      exact born creation.unborn
    rw [creation.result]
    simp [ThreadSystem.createInternal, ThreadSystem.goto, other, apart]

theorem lost_step (step : ThreadStep t s r) (result : r = .ok s') (base : Addr) : s.lost base ≤ s'.lost base := by
  rcases frame_step step result with frame | ⟨v, args, b, nonnull, creation⟩
  · exact frame.lost base
  · rw [creation.result]
    exact Nat.le_refl _

/-- Where a thread may be after its step: it fills an object that it filled before, or one
    that it has made just now. -/
theorem own_step (step : ThreadStep t s r) (result : r = .ok s') : (s'.threads t).control ≠ .unborn ∧
    ∀ args base i, (s'.threads t).control = .createAssign args base i →
      (∃ j, (s.threads t).control = .createAssign args base j) ∨
      ∃ u nonnull, Creation s s' t u args base nonnull := by
  cases step with
  | create | createFailed | exit | returns | current | exitNew | join | proxyUnlock =>
      cases result
      simp [ThreadSystem.goto, currentNew]
  | createLock at_t | proxyLock at_t =>
      cases result
      unfold spinlockLock
      split <;> simp [ThreadSystem.goto, at_t]
  | @createInternal args v b at_t nonnull free unborn =>
      cases result
      have now : ((s.createInternal t v args b nonnull).threads t).control = .createAssign args b 0 := by
        simp [ThreadSystem.createInternal, ThreadSystem.goto]
      rw [now]
      refine ⟨by simp, fun args' base i at_t' => ?_⟩
      cases at_t'
      exact .inr ⟨v, nonnull, at_t, free, unborn, rfl⟩
  | @createAssign args b i copied at_t =>
      obtain ⟨c, here, rfl⟩ := written result
      simp only [ThreadSystem.goto, Function.update_self]
      split
      · refine ⟨by simp, fun args' base j at_t' => ?_⟩
        cases at_t'
        exact .inl ⟨i, at_t⟩
      · simp
  | createUnlock at_t =>
      cases result
      unfold createUnlock
      dsimp only
      split <;> simp [ThreadSystem.goto, hold]
  | ref b at_t =>
      obtain ⟨c, here, rfl⟩ := written result
      simp [hold, at_t]
  | unref b | cleanupUnref =>
      obtain ⟨c, here, rfl⟩ := unref_ok result
      simp only [ThreadSystem.goto, Function.update_self]
      split <;> simp
  | @free b ends at_t =>
      obtain ⟨c, here, rfl⟩ := free_ok result
      simp only [ThreadSystem.goto, Function.update_self]
      split <;> simp
  | @currentSet b code success at_t =>
      cases result
      rw [setLocal_goto_threads, Function.update_self]
      cases code <;> simp [afterCurrent]
  | proxyStart success at_t =>
      cases result
      rw [setLocal_goto_threads, Function.update_self]
      simp
  | exitCheck =>
      obtain ⟨c, here, rfl⟩ := loaded result
      simp only [ThreadSystem.goto, Function.update_self]
      split <;> simp
  | proxyFunc | joinFails | joinRead =>
      obtain ⟨c, here, rfl⟩ := loaded result
      simp [ThreadSystem.goto, hold]
  | exitAssign =>
      obtain ⟨c, here, rfl⟩ := written result
      simp [ThreadSystem.goto]
  | joinCheck =>
      obtain ⟨c, here, rfl⟩ := loaded result
      split <;> simp [ThreadSystem.goto, hold]
  | joinWait at_t =>
      obtain ⟨c, v, here, hdl, rfl⟩ := joinWait_ok result
      split <;> simp [ThreadSystem.goto, at_t]
  | cleanup =>
      cases result
      unfold ThreadSystem.cleanup
      dsimp only
      split <;> simp [ThreadSystem.goto]

/-- Whoever fills an object that was there before, filled it before. -/
theorem builder_before (step : ThreadStep t s r) (result : r = .ok s') {c : PUThread ι}
    (here : s.objects.cell base = some c) {i : Nat} (at_u : (s'.threads u).control = .createAssign args base i) :
    ∃ j, (s.threads u).control = .createAssign args base j := by
  by_cases mine : u = t
  · subst mine
    rcases (own_step step result).2 args base i at_u with before | ⟨v, nonnull, creation⟩
    · exact before
    · rw [creation.free] at here
      cases here
  · rcases frame_step step result with frame | ⟨v, args', b, nonnull, creation⟩
    · rw [frame.threads u mine] at at_u
      exact ⟨i, at_u⟩
    · rw [creation.result] at at_u
      simp only [ThreadSystem.createInternal, ThreadSystem.goto, Function.update_of_ne mine] at at_u
      by_cases newborn : u = v
      · subst newborn
        simp at at_u
      · rw [Function.update_of_ne newborn] at at_u
        exact ⟨i, at_u⟩

/-- Where the value of a key comes from. -/
theorem specific_step (step : ThreadStep t s r) (result : r = .ok s') (u : ι) :
    (s'.threads u).specific = (s.threads u).specific ∨ (s'.threads u).specific = 0 ∨
    u = t ∧ ((∃ code, (s.threads t).control = .currentSet (s'.threads t).specific code) ∨
      ∃ args, (s.threads t).control = .proxyStart (s'.threads t).specific args) := by
  by_cases mine : u = t
  · subst mine
    cases step with
    | create | createFailed | exit | returns | current | exitNew | join | proxyUnlock =>
        cases result
        simp [ThreadSystem.goto, currentNew, unhold, spinlockUnlock]
    | createLock at_t | proxyLock at_t =>
        cases result
        unfold spinlockLock
        split <;> simp [ThreadSystem.goto]
    | @createInternal args v b at_t nonnull free unborn =>
        cases result
        have apart : u ≠ v := by
          rintro rfl
          rw [at_t] at unborn
          cases unborn
        simp [ThreadSystem.createInternal, ThreadSystem.goto, apart]
    | createAssign | exitAssign | ref =>
        obtain ⟨c, here, rfl⟩ := written result
        simp [ThreadSystem.goto, hold]
    | createUnlock at_t =>
        cases result
        unfold createUnlock
        dsimp only
        split <;> simp [ThreadSystem.goto, hold, spinlockUnlock]
    | unref b | cleanupUnref =>
        obtain ⟨c, here, rfl⟩ := unref_ok result
        simp [ThreadSystem.goto, unhold]
    | free =>
        obtain ⟨c, here, rfl⟩ := free_ok result
        simp [ThreadSystem.goto]
    | @currentSet b code success at_t =>
        cases result
        rw [setLocal_goto_threads, Function.update_self]
        cases success with
        | true => exact .inr (.inr ⟨rfl, .inl ⟨code, at_t⟩⟩)
        | false => exact .inl rfl
    | @proxyStart b args success at_t =>
        cases result
        rw [setLocal_goto_threads, Function.update_self]
        cases success with
        | true => exact .inr (.inr ⟨rfl, .inr ⟨args, at_t⟩⟩)
        | false => exact .inl rfl
    | exitCheck | proxyFunc | joinFails | joinRead =>
        obtain ⟨c, here, rfl⟩ := loaded result
        simp [ThreadSystem.goto, hold]
    | joinCheck =>
        obtain ⟨c, here, rfl⟩ := loaded result
        split <;> simp [ThreadSystem.goto, hold]
    | joinWait at_t =>
        obtain ⟨c, v, here, hdl, rfl⟩ := joinWait_ok result
        split <;> simp [ThreadSystem.goto]
    | cleanup =>
        cases result
        unfold ThreadSystem.cleanup
        dsimp only
        split <;> simp [ThreadSystem.goto, setSpecific]
  · left
    rcases frame_step step result with frame | ⟨v, args, b, nonnull, creation⟩
    · rw [frame.threads u mine]
    · rw [creation.result]
      by_cases newborn : u = v
      · subst newborn
        simp [ThreadSystem.createInternal, ThreadSystem.goto, mine]
      · simp [ThreadSystem.createInternal, ThreadSystem.goto, mine, newborn]

/-- What the creator of a thread does to its object. -/
theorem assign_step (step : ThreadStep t s r) (result : r = .ok s') {i : Nat}
    (at_t : (s.threads t).control = .createAssign args base i) : ∃ c copied, s.objects.cell base = some c ∧
      s'.objects.cell base = some (c.assign args copied i) ∧
      (s'.threads t).control = if i + 1 < assignments then .createAssign args base (i + 1) else .createUnlock base := by
  cases step with
  | createAssign copied there =>
      rw [at_t] at there
      cases there
      obtain ⟨c, here, rfl⟩ := written result
      refine ⟨c, copied, here, ?_, ?_⟩
      · show (s.objects.adjust base _).cell base = _
        rw [Heap.cell_adjust_self, here]
        rfl
      · simp [ThreadSystem.goto]
  | _ => simp_all only [reduceCtorEq]

end ThreadSystem

end Plibsys.Threads
