import Plibsys.Threads.ThreadReferences

/-! # The numbers of references in a step

Each function of `puthread.c` keeps the counters right: a reference moves, or it is made or
dropped together with the counter.
-/

namespace Plibsys.Threads

open Support

namespace ThreadSystem

variable {ι : Type} [Fintype ι] [DecidableEq ι] {s s' : ThreadSystem ι} {t : ι} {th : ThreadState} {base : Addr}

section Steps

variable {args : CreateArgs} {control : Control}

/-- A step that moves one thread and nothing else. -/
theorem Ledger.goto (ledger : s.Ledger)
    (weights : ∀ base, (⟨control, (s.threads t).specific⟩ : ThreadState).own base = (s.threads t).own base ∧
      (⟨control, (s.threads t).specific⟩ : ThreadState).early base = (s.threads t).early base ∧
      (⟨control, (s.threads t).specific⟩ : ThreadState).raw base = (s.threads t).raw base ∧
      (⟨control, (s.threads t).specific⟩ : ThreadState).builds base ≤ (s.threads t).builds base ∧
      (⟨control, (s.threads t).specific⟩ : ThreadState).frees base = (s.threads t).frees base)
    (spin : (⟨control, (s.threads t).specific⟩ : ThreadState).inSpin = (s.threads t).inSpin)
    (fresh : (⟨control, (s.threads t).specific⟩ : ThreadState).Fresh) : (s.goto t control).Ledger where
  spin := ledger.spin.update rfl rfl spin
  counted := by
    intro base
    obtain ⟨own, early, raw, builds, frees⟩ := weights base
    exact (ledger.counted base).silent rfl rfl (by rw [own, early]; rfl) raw builds frees (.inr ⟨rfl, own⟩)
  fresh := ledger.fresh_update rfl fresh

open ThreadState

attribute [local simp] own early raw builds frees inSpin Fresh Control.ref keyRef

theorem ledger_createLock (ledger : s.Ledger) (at_t : (s.threads t).control = .createLock args) :
    (s.spinlockLock t (.createInternal args)).Ledger := by
  unfold spinlockLock
  split
  · next free =>
      have moved : ({ s with spin := 1 }.goto t (.createInternal args) : ThreadSystem ι).threads =
        Function.update s.threads t ⟨.createInternal args, (s.threads t).specific⟩ := rfl
      obtain ⟨spin, -⟩ := ledger.spin.locked moved free rfl rfl
      refine ⟨spin, fun base => ?_, ledger.fresh_update moved (by simp)⟩
      exact (ledger.counted base).silent rfl rfl (by simp [at_t, ThreadSystem.goto]) (by simp [at_t]) (by simp)
        (by simp [at_t]) (.inr ⟨rfl, by simp [at_t]⟩)
  · exact ledger

/-- A new thread with its object. -/
theorem ledger_createInternal (ledger : s.Ledger) {u : ι} (nonnull : base ≠ 0) (free : s.objects.cell base = none)
    (at_t : (s.threads t).control = .createInternal args) (unborn : (s.threads u).control = .unborn) :
    (s.createInternal t u args base nonnull).Ledger := by
  have apart : t ≠ u := by
    rintro rfl
    rw [at_t] at unborn
    cases unborn
  have noKey : (s.threads u).specific = 0 := by
    have fresh := ledger.fresh u
    rwa [Fresh, unborn] at fresh
  let started : ThreadSystem ι := s.goto u (.proxyStart base args)
  let made := s.createInternal t u args base nonnull
  have first : started.threads = Function.update s.threads u ⟨.proxyStart base args, 0⟩ := by
    rw [← noKey]
    rfl
  have at_t' : started.threads t = s.threads t := by rw [first, Function.update_of_ne apart]
  have second : made.threads = Function.update started.threads t ⟨.createAssign args base 0, (s.threads t).specific⟩ := by
    rw [← at_t']
    rfl
  have spin : made.SpinLaw := by
    have begun : started.SpinLaw := ledger.spin.update first rfl (by simp [unborn])
    exact begun.update second rfl (by simp [at_t', at_t])
  have begun : ∀ v, (started.threads v).Fresh := ledger.fresh_update first (by simp)
  refine ⟨spin, fun b => ?_, fun v => ?_⟩
  · by_cases same : base = b
    · subst same
      obtain ⟨own₁, early₁, builds₁, raw₁, frees₁, -, -, less⟩ := recount first base
      obtain ⟨own₂, early₂, builds₂, raw₂, frees₂, -, -, -⟩ := recount second base
      rw [at_t'] at own₂ early₂ builds₂ raw₂ frees₂
      simp only [own, early, builds, raw, frees, unborn, Control.ref, keyRef, noKey] at own₁ early₁ builds₁ raw₁ frees₁
      simp only [own, early, builds, raw, frees, at_t, Control.ref, keyRef] at own₂ early₂ builds₂ raw₂ frees₂
      simp only [if_true, nonnull.symm, false_and, if_false] at own₁ early₁ own₂ early₂ builds₂ raw₂
      obtain ⟨none, nobody⟩ := (ledger.counted base).gone free
      have held : made.held base = s.held base := rfl
      have lost : made.lost base = s.lost base := rfl
      unfold ThreadSystem.tokens at none
      have noRaw := raw_zero_of_quiet (show total (ThreadState.builds base) s.threads = 0 by omega)
      have two : made.tokens base = 2 := by
        unfold ThreadSystem.tokens
        omega
      change made.Counted base
      constructor
      · intro gone
        simp [made, ThreadSystem.createInternal, ThreadSystem.goto] at gone
      · intro c here
        have zero : c.refCount.toNat = 0 := by
          simp only [made, ThreadSystem.createInternal, ThreadSystem.goto, Heap.cell_insert, if_true, Option.some.injEq] at here
          rw [← here]
          rfl
        rw [two, zero, if_neg (by decide)]
        constructor <;> omega
      · intro _
        refine ⟨?_, ?_, ?_⟩ <;> omega
    · have started' : started.Counted b := by
        refine (ledger.counted b).silent first rfl ?_ ?_ ?_ ?_ (.inr ⟨rfl, ?_⟩)
        · simp [unborn, same, noKey, started, ThreadSystem.goto]
        · simp [unborn]
        · simp
        · simp [unborn]
        · simp [unborn, noKey]
      refine started'.silent second ?_ ?_ ?_ ?_ ?_ (.inr ⟨rfl, ?_⟩)
      · simp [started, ThreadSystem.createInternal, ThreadSystem.goto, Ne.symm same]
      · rw [at_t']
        simp [at_t, same, started, ThreadSystem.createInternal, ThreadSystem.goto]
      · simp [at_t', at_t, same]
      · simp [same]
      · simp [at_t', at_t]
      · simp [at_t', at_t, same]
  · change (made.threads v).Fresh
    rw [second]
    by_cases same : v = t
    · subst same
      rw [Function.update_self]
      trivial
    · rw [Function.update_of_ne same]
      exact begun v

/-- The first assignment makes the counter right. -/
theorem Counted.initialized (counted : s.Counted base) (copied : Bool) {c : PUThread ι}
    (at_t : (s.threads t).control = .createAssign args base 0) (here : s.objects.cell base = some c)
    (moved : s'.threads = Function.update s.threads t ⟨.createAssign args base 1, (s.threads t).specific⟩)
    (after : s'.objects.cell base = some (c.assign args copied 0)) (held : s'.held = s.held) (lost : s'.lost = s.lost) :
    s'.Counted base := by
  obtain ⟨ownNow, earlyNow, buildsNow, rawNow, freesNow, -, -, -⟩ := recount moved base
  simp only [own, early, builds, raw, frees, at_t, Control.ref, keyRef, if_true] at ownNow earlyNow buildsNow rawNow freesNow
  have creator : 0 < total (ThreadState.builds base) s.threads := total_pos (t := t) (by simp [at_t])
  obtain ⟨noClient, others, one⟩ := counted.building creator
  obtain ⟨number, freed⟩ := counted.counter c here
  have two : s.tokens base = 2 := by
    unfold ThreadSystem.tokens
    omega
  have two' : s'.tokens base = 2 := by
    unfold ThreadSystem.tokens at two ⊢
    rw [held, lost]
    omega
  have isRaw : 0 < total (ThreadState.raw base) s.threads := total_pos (t := t) (by simp [at_t])
  rw [two, if_neg (by decide)] at freed
  constructor
  · intro gone
    rw [after] at gone
    cases gone
  · intro c' here'
    rw [after, Option.some.injEq] at here'
    have written : c'.refCount.toNat = 2 := by
      rw [← here']
      rfl
    rw [two', written, if_neg (by decide)]
    constructor <;> omega
  · intro _
    rw [held, lost]
    refine ⟨noClient, ?_, ?_⟩ <;> omega

omit [Fintype ι] [DecidableEq ι] in
theorem assign_refCount (args : CreateArgs) (copied : Bool) (c : PUThread ι) {i : Nat} (late : 0 < i) :
    (c.assign args copied i).refCount = c.refCount := by
  unfold PUThread.assign
  split <;> first | rfl | omega

omit [Fintype ι] [DecidableEq ι] in
/-- A write that leaves the counter alone. -/
theorem map_refCount_adjust (objects : Heap (PUThread ι)) (base b : Addr) {f : PUThread ι → PUThread ι}
    (same : ∀ c, (f c).refCount = c.refCount) :
    ((objects.adjust base f).cell b).map PUThread.refCount = (objects.cell b).map PUThread.refCount := by
  by_cases here : b = base
  · subst here
    rw [Heap.cell_adjust_self, Option.map_map]
    exact congrArg (Option.map · _) (funext same)
  · rw [Heap.cell_adjust_ne _ here]

theorem ledger_createAssign (ledger : s.Ledger) {copied : Bool} {i : Nat}
    (at_t : (s.threads t).control = .createAssign args base i) (ok : s.createAssign t args copied base i = .ok s') :
    s'.Ledger := by
  obtain ⟨c, here, rfl⟩ := written ok
  split
  · next more =>
      refine ⟨ledger.spin.update rfl rfl (by simp [at_t]), fun b => ?_, ledger.fresh_update rfl (by simp)⟩
      cases i with
      | zero =>
          by_cases same : base = b
          · subst same
            refine (ledger.counted base).initialized copied at_t here rfl ?_ rfl rfl
            simp [ThreadSystem.goto, here]
          · refine (ledger.counted b).silent rfl ?_ ?_ ?_ ?_ ?_ (.inr ⟨rfl, ?_⟩)
            · simp [ThreadSystem.goto, Heap.cell_adjust_ne _ (Ne.symm same)]
            all_goals simp [at_t, same, ThreadSystem.goto]
      | succ i =>
          refine (ledger.counted b).silent rfl ?_ ?_ ?_ ?_ ?_ (.inr ⟨rfl, ?_⟩)
          · exact map_refCount_adjust s.objects base b fun c => assign_refCount args copied c (Nat.succ_pos i)
          all_goals simp [at_t, ThreadSystem.goto]
  · next last =>
      refine ⟨ledger.spin.update rfl rfl (by simp [at_t]), fun b => ?_, ledger.fresh_update rfl (by simp)⟩
      have late : 0 < i := by
        unfold assignments at last
        omega
      have base_ne : base ≠ 0 := by
        rintro rfl
        rw [s.objects.null_free] at here
        cases here
      refine (ledger.counted b).silent rfl ?_ ?_ ?_ ?_ ?_ (.inr ⟨rfl, ?_⟩)
      · exact map_refCount_adjust s.objects base b fun c => assign_refCount args copied c late
      · by_cases same : base = b
        · subst same
          simp [at_t, ThreadSystem.goto, base_ne]
        · simp [at_t, ThreadSystem.goto, same]
      · obtain ⟨i, rfl⟩ := Nat.exists_eq_succ_of_ne_zero late.ne'
        simp [at_t]
      · simp
      · simp [at_t]
      · by_cases same : base = b
        · subst same
          simp [at_t, base_ne]
        · simp [at_t, same]

theorem ledger_createUnlock (ledger : s.Ledger) (at_t : (s.threads t).control = .createUnlock base) :
    (s.createUnlock t base).Ledger := by
  have moved : (s.createUnlock t base).threads = Function.update s.threads t ⟨.running, (s.threads t).specific⟩ := by
    unfold ThreadSystem.createUnlock
    split <;> rfl
  have spin : (s.createUnlock t base).spin = 0 := by
    unfold ThreadSystem.createUnlock
    split <;> rfl
  refine ⟨ledger.spin.unlocked moved spin (by simp [at_t]) rfl, fun b => ?_, ledger.fresh_update moved (by simp)⟩
  by_cases mine : base = b ∧ b ≠ 0
  · obtain ⟨rfl, nonnull⟩ := mine
    have quiet := (ledger.counted base).not_building (t := t) (by simp [at_t, nonnull]) (by simp [at_t])
    refine (ledger.counted base).silent moved ?_ ?_ ?_ ?_ ?_ (.inl quiet)
    · simp [ThreadSystem.createUnlock, nonnull, ThreadSystem.hold, ThreadSystem.goto, ThreadSystem.spinlockUnlock]
    · simp only [ThreadSystem.createUnlock, nonnull, if_false, ThreadSystem.hold, ThreadSystem.goto,
        ThreadSystem.spinlockUnlock, Function.update_self]
      simp [at_t, nonnull]
      omega
    all_goals simp [at_t]
  · have held : (s.createUnlock t base).held b = s.held b ∧ (s.createUnlock t base).lost b = s.lost b := by
      unfold ThreadSystem.createUnlock
      split
      · exact ⟨rfl, rfl⟩
      · next nonnull =>
          have other : b ≠ base := by
            rintro rfl
            exact mine ⟨rfl, nonnull⟩
          exact ⟨Function.update_of_ne other _ _, rfl⟩
    have cells : (s.createUnlock t base).objects = s.objects := by
      unfold ThreadSystem.createUnlock
      split <;> rfl
    refine (ledger.counted b).silent moved (by rw [cells]) ?_ ?_ ?_ ?_ (.inr ⟨held.1, ?_⟩)
    · rw [held.1, held.2]
      simp [at_t, mine]
    all_goals simp [at_t, mine]

omit [DecidableEq ι] in
/-- A client has one reference more, and the counter goes up. -/
theorem Counted.incremented (counted : s.Counted base) (quiet : total (ThreadState.builds base) s.threads = 0)
    (positive : 0 < s.tokens base) (bounded : s'.tokens base < 2 ^ 32) (threads : s'.threads = s.threads)
    (held : s'.held base = s.held base + 1) (lost : s'.lost base = s.lost base) {c : PUThread ι}
    (before : s.objects.cell base = some c)
    (after : (s'.objects.cell base).map PUThread.refCount = some (c.refCount + 1)) : s'.Counted base := by
  have more : s'.tokens base = s.tokens base + 1 := by
    unfold ThreadSystem.tokens
    rw [threads, held, lost]
    omega
  obtain ⟨number, freed⟩ := counted.counter c before
  have noRaw := raw_zero_of_quiet quiet
  rw [if_neg (by omega)] at freed
  constructor
  · intro gone
    rw [gone] at after
    cases after
  · intro c' here
    rw [here, Option.map_some, Option.some.injEq] at after
    have up : (c.refCount + 1).toNat = c.refCount.toNat + 1 := by bv_omega
    rw [after, up, threads, more, if_neg (by omega)]
    exact ⟨by omega, freed⟩
  · intro building
    rw [threads] at building
    omega

/-- A reference more, for a client that knows the object. -/
theorem ledger_ref (ledger : s.Ledger) (at_t : (s.threads t).control = .running)
    (known : 0 < s.held base ∨ (s.threads t).specific = base ∧ base ≠ 0) (ok : s.ref base = .ok s')
    (bounded : s'.tokens base < 2 ^ 32) : s'.Ledger := by
  obtain ⟨c, here, made⟩ := written ok
  have counted := ledger.counted base
  have quiet : total (ThreadState.builds base) s.threads = 0 := by
    rcases known with held | ⟨key, nonnull⟩
    · by_contra building
      have none := (counted.building (Nat.pos_of_ne_zero building)).1
      omega
    · exact counted.not_building (t := t) (by simp [at_t, key, nonnull]) (by simp [at_t])
  have positive : 0 < s.tokens base := by
    unfold ThreadSystem.tokens
    rcases known with held | ⟨key, nonnull⟩
    · omega
    · have mine : 0 < total (ThreadState.own base) s.threads := total_pos (t := t) (by simp [at_t, key, nonnull])
      omega
  have threads : s'.threads = s.threads := by rw [made]; rfl
  have still : s'.threads = Function.update s.threads t (s.threads t) := by rw [threads, Function.update_eq_self]
  refine ⟨ledger.spin.update still (by rw [made]; rfl) rfl, fun b => ?_, fun u => by rw [threads]; exact ledger.fresh u⟩
  by_cases same : b = base
  · subst same
    refine counted.incremented quiet positive bounded threads ?_ ?_ here ?_ <;> rw [made] <;>
      simp [ThreadSystem.hold, here]
  · refine (ledger.counted b).silent still ?_ ?_ rfl (Nat.le_refl _) rfl (.inr ⟨?_, rfl⟩) <;> rw [made] <;>
      simp [ThreadSystem.hold, same]

omit [Fintype ι] in
/-- What a decrement does. -/
theorem unref_ok {ends : Bool} {next : Control} (ok : s.unref t base ends next = .ok s') :
    ∃ c, s.objects.cell base = some c ∧
      s' = { s with objects := s.objects.adjust base fun c => { c with refCount := c.refCount - 1 } }.goto t
        (if c.refCount = 1 then .freeing base ends else next) := by
  unfold ThreadSystem.unref at ok
  cases read : s.objects.load base with
  | error trap =>
      rw [read] at ok
      cases ok
  | ok c =>
      rw [read] at ok
      obtain ⟨c', here, made⟩ := written ok
      exact ⟨c, load_ok read, made⟩

/-- A reference less.  The reference is the client's or the one that `pzuthread_cleanup` has. -/
theorem ledger_unref (ledger : s.Ledger) (ends : Bool) (next : Control)
    (moves : ∃ c, s.objects.cell base = some c ∧ s'.threads = Function.update s.threads t
      ⟨if c.refCount = 1 then .freeing base ends else next, (s.threads t).specific⟩ ∧
      s'.objects = s.objects.adjust base fun c => { c with refCount := c.refCount - 1 })
    (spin : s'.spin = s.spin) (lost : s'.lost = s.lost) (others : ∀ b, b ≠ base → s'.held b = s.held b)
    (bounded : s.tokens base < 2 ^ 32)
    (quiet : total (ThreadState.builds base) s.threads = 0)
    (weights : ∀ b control, control = .freeing base ends ∨ control = next →
      ({ control := control, specific := (s.threads t).specific } : ThreadState).own b +
          (if b = base then s'.held b + 1 else 0) =
        (s.threads t).own b + (if b = base then s.held b else 0) ∧
      ({ control := control, specific := (s.threads t).specific } : ThreadState).early b = (s.threads t).early b ∧
      ({ control := control, specific := (s.threads t).specific } : ThreadState).builds b = 0 ∧
      ({ control := control, specific := (s.threads t).specific } : ThreadState).raw b = (s.threads t).raw b ∧
      ({ control := control, specific := (s.threads t).specific } : ThreadState).inSpin = (s.threads t).inSpin ∧
      ({ control := control, specific := (s.threads t).specific } : ThreadState).Fresh)
    (notFreeing : ∀ b, (s.threads t).frees b = 0) (next_frees : ∀ b, (⟨next, (s.threads t).specific⟩ : ThreadState).frees b = 0) :
    s'.Ledger := by
  obtain ⟨c, here, moved, objects⟩ := moves
  have chosen : (if c.refCount = 1 then Control.freeing base ends else next) = .freeing base ends ∨
      (if c.refCount = 1 then Control.freeing base ends else next) = next := by
    split
    · exact .inl rfl
    · exact .inr rfl
  refine ⟨ledger.spin.update moved spin (weights 0 _ chosen).2.2.2.2.1, fun b => ?_,
    ledger.fresh_update moved (weights 0 _ chosen).2.2.2.2.2⟩
  obtain ⟨own, early, builds, raw, -, -⟩ := weights b _ chosen
  by_cases same : b = base
  · subst same
    rw [if_pos rfl, if_pos rfl] at own
    refine (ledger.counted b).decremented moved quiet bounded here (by rw [objects]; simp [here]) ?_ builds
      (notFreeing b) ?_
    · rw [lost]
      omega
    · by_cases last : c.refCount = 1
      · simp [last]
      · simpa only [last, if_false] using next_frees b
  · rw [if_neg same, if_neg same] at own
    refine (ledger.counted b).silent moved ?_ ?_ raw (by omega) ?_ (.inr ⟨others b same, own⟩)
    · rw [objects, Heap.cell_adjust_ne _ same]
    · rw [lost, others b same]
      omega
    · rw [notFreeing b]
      by_cases last : c.refCount = 1
      · simp [last, Ne.symm same]
      · simpa only [last, if_false] using next_frees b

theorem ledger_clientUnref (ledger : s.Ledger) (at_t : (s.threads t).control = .running) (owned : 0 < s.held base)
    (ok : (s.unhold base).unref t base false .running = .ok s') (bounded : s.tokens base < 2 ^ 32) : s'.Ledger := by
  obtain ⟨c, here, made⟩ := unref_ok ok
  have quiet : total (ThreadState.builds base) s.threads = 0 := by
    by_contra building
    have none := ((ledger.counted base).building (Nat.pos_of_ne_zero building)).1
    omega
  have held : s'.held = Function.update s.held base (s.held base - 1) := by rw [made]; rfl
  refine ledger_unref ledger false .running ⟨c, here, by rw [made]; rfl, by rw [made]; rfl⟩
    (by rw [made]; rfl) (by rw [made]; rfl) (fun b other => by rw [held, Function.update_of_ne other]) bounded quiet ?_
    (by simp [at_t]) (by simp)
  rintro b control (rfl | rfl)
  all_goals
    refine ⟨?_, by simp [at_t], by simp, by simp [at_t], by simp [at_t], by simp⟩
    by_cases same : b = base
    · subst same
      simp only [held, Function.update_self, if_true]
      simp [at_t]
      omega
    · simp [at_t, same]

theorem ledger_cleanupUnref (ledger : s.Ledger) (at_t : (s.threads t).control = .cleanupUnref base)
    (ok : s.unref t base true .ended = .ok s') (bounded : s.tokens base < 2 ^ 32) : s'.Ledger := by
  obtain ⟨c, here, made⟩ := unref_ok ok
  have quiet := (ledger.counted base).not_building (t := t) (by simp [at_t]) (by simp [at_t])
  have held : s'.held = s.held := by rw [made]; rfl
  refine ledger_unref ledger true .ended ⟨c, here, by rw [made]; rfl, by rw [made]; rfl⟩
    (by rw [made]; rfl) (by rw [made]; rfl) (fun b _ => by rw [held]) bounded quiet ?_ (by simp [at_t]) (by simp)
  rintro b control (rfl | rfl)
  all_goals
    refine ⟨?_, by simp [at_t], by simp, by simp [at_t], by simp [at_t], by simp⟩
    by_cases same : b = base
    · subst same
      rw [held]
      simp [at_t]
      omega
    · simp [at_t, same, Ne.symm same]

/-- The one thread that frees an object without references does it. -/
theorem released (moved : s'.threads = Function.update s.threads t th)
    (unreferenced : s.tokens base = 0) (freed : total (ThreadState.frees base) s.threads = 1)
    (gone : s'.objects.cell base = none) (held : s'.held base = s.held base) (lost : s'.lost base = s.lost base)
    (own : th.own base = (s.threads t).own base) (early : th.early base = (s.threads t).early base)
    (builds : th.builds base = (s.threads t).builds base) (was : (s.threads t).frees base = 1)
    (frees : th.frees base = 0) : s'.Counted base := by
  obtain ⟨ownNow, earlyNow, buildsNow, -, freesNow, -, -, less⟩ := recount moved base
  have tokens : s'.tokens base = 0 := by
    unfold ThreadSystem.tokens at unreferenced ⊢
    omega
  constructor
  · intro _
    exact ⟨tokens, by omega⟩
  · intro c here
    rw [gone] at here
    cases here
  · intro building
    unfold ThreadSystem.tokens at unreferenced
    omega

/-- An object without references goes. -/
theorem ledger_free (ledger : s.Ledger) {ends : Bool} (at_t : (s.threads t).control = .freeing base ends)
    (ok : s.free t base ends = .ok s') : s'.Ledger := by
  unfold ThreadSystem.free Heap.free at ok
  cases here : s.objects.cell base with
  | none =>
      rw [here] at ok
      cases ok
  | some c =>
      rw [here] at ok
      cases ok
      have moved : ({ s with objects := s.objects.erase base }.goto t (if ends then .ended else .running)).threads =
          Function.update s.threads t ⟨if ends then .ended else .running, (s.threads t).specific⟩ := rfl
      refine ⟨ledger.spin.update moved rfl (by cases ends <;> simp [at_t]), fun b => ?_,
        ledger.fresh_update moved (by cases ends <;> simp)⟩
      by_cases same : b = base
      · subst same
        obtain ⟨-, freed⟩ := (ledger.counted b).counter c here
        have mine : 0 < total (ThreadState.frees b) s.threads := total_pos (t := t) (by simp [at_t])
        have none : s.tokens b = 0 := by
          by_contra some
          rw [if_neg some] at freed
          omega
        rw [if_pos none] at freed
        refine released moved none freed (by simp [ThreadSystem.goto]) rfl rfl ?_ ?_ ?_ (by simp [at_t]) ?_
        all_goals cases ends <;> simp [at_t]
      · refine (ledger.counted b).silent moved ?_ ?_ ?_ ?_ ?_ (.inr ⟨rfl, ?_⟩)
        · simp [ThreadSystem.goto, same]
        all_goals cases ends <;> simp [at_t, ThreadSystem.goto, Ne.symm same]

/-- A new object that only its thread knows. -/
theorem ledger_currentNew (ledger : s.Ledger) {code : Option PInt} (at_t : (s.threads t).control = .running)
    (null : (s.threads t).specific = 0) (nonnull : base ≠ 0) (free : s.objects.cell base = none) :
    (s.currentNew t base nonnull code).Ledger := by
  have moved : (s.currentNew t base nonnull code).threads =
      Function.update s.threads t ⟨.currentSet base code, (s.threads t).specific⟩ := rfl
  refine ⟨ledger.spin.update moved rfl (by simp [at_t]), fun b => ?_, ledger.fresh_update moved (by simpa using null)⟩
  by_cases same : b = base
  · subst same
    obtain ⟨none, nobody⟩ := (ledger.counted b).gone free
    obtain ⟨ownNow, earlyNow, buildsNow, rawNow, freesNow, -, lessRaw, less⟩ := recount moved b
    simp [at_t, null] at ownNow earlyNow buildsNow rawNow freesNow
    have held : (s.currentNew t b nonnull code).held b = s.held b := rfl
    have lost : (s.currentNew t b nonnull code).lost b = s.lost b := rfl
    unfold ThreadSystem.tokens at none
    have one : (s.currentNew t b nonnull code).tokens b = 1 := by
      unfold ThreadSystem.tokens
      omega
    have cell : (s.currentNew t b nonnull code).objects.cell b = some { (PUThread.zero : PUThread ι) with refCount := 1 } := by
      simp [ThreadSystem.currentNew, ThreadSystem.goto]
    constructor
    · intro gone
      rw [cell] at gone
      cases gone
    · intro c here
      rw [cell, Option.some.injEq] at here
      rw [one, if_neg (by decide), ← here]
      show 1 + 2 * _ = 1 ∧ _
      constructor <;> omega
    · intro building
      omega
  · refine (ledger.counted b).silent moved ?_ ?_ ?_ ?_ ?_ (.inr ⟨rfl, ?_⟩)
    · simp [ThreadSystem.currentNew, ThreadSystem.goto, same]
    all_goals simp [at_t, ThreadSystem.currentNew, ThreadSystem.goto, Ne.symm same]

/-- The references of a function go to the key, or they are lost. -/
theorem ledger_currentSet (ledger : s.Ledger) {code : Option PInt} (success : Bool)
    (at_t : (s.threads t).control = .currentSet base code) :
    ((s.setLocal t base success).goto t (afterCurrent base code)).Ledger := by
  have moved := setLocal_goto_threads s t base success (afterCurrent base code)
  have null : (s.threads t).specific = 0 := by
    have fresh := ledger.fresh t
    rwa [Fresh, at_t] at fresh
  have quiet := (ledger.counted base).not_building (t := t) (by simp [at_t, null]) (by simp [at_t])
  have alive : 0 < s.tokens base := by
    have mine : 0 < total (ThreadState.own base) s.threads := total_pos (t := t) (by simp [at_t, null])
    unfold ThreadSystem.tokens
    omega
  have nonnull : base ≠ 0 := by
    rintro rfl
    have none := ((ledger.counted 0).gone s.objects.null_free).1
    omega
  have spin : ((s.setLocal t base success).goto t (afterCurrent base code)).spin = s.spin := by cases success <;> rfl
  have objects : ((s.setLocal t base success).goto t (afterCurrent base code)).objects = s.objects := by
    cases success <;> rfl
  have held : ((s.setLocal t base success).goto t (afterCurrent base code)).held = s.held := by cases success <;> rfl
  refine ⟨ledger.spin.update moved spin ?_, fun b => ?_, ledger.fresh_update moved ?_⟩
  · cases code <;> simp [at_t, afterCurrent]
  · by_cases same : base = b
    · subst same
      refine (ledger.counted base).silent moved (by rw [objects]) ?_ ?_ ?_ ?_ (.inl quiet)
      · rw [held]
        cases success <;> cases code <;>
          simp [at_t, afterCurrent, ThreadSystem.setLocal, ThreadSystem.lose, ThreadSystem.setSpecific,
            ThreadSystem.goto, null, nonnull] <;> omega
      all_goals cases code <;> simp [at_t, afterCurrent]
    · have lost : ((s.setLocal t base success).goto t (afterCurrent base code)).lost b = s.lost b := by
        cases success
        · exact Function.update_of_ne (Ne.symm same) _ _
        · rfl
      refine (ledger.counted b).silent moved (by rw [objects]) ?_ ?_ ?_ ?_ (.inr ⟨by rw [held], ?_⟩)
      · rw [held, lost]
        cases success <;> cases code <;> simp [at_t, afterCurrent, null, same]
      all_goals cases success <;> cases code <;> simp [at_t, afterCurrent, same, null]
  · cases code <;> simp [afterCurrent]

theorem ledger_proxyStart (ledger : s.Ledger) (success : Bool) (at_t : (s.threads t).control = .proxyStart base args) :
    ((s.setLocal t base success).goto t (.proxyLock base args)).Ledger := by
  have moved := setLocal_goto_threads s t base success (.proxyLock base args)
  have null : (s.threads t).specific = 0 := by
    have fresh := ledger.fresh t
    rwa [Fresh, at_t] at fresh
  have alive : 0 < s.tokens base := by
    have mine : 0 < total (ThreadState.early base) s.threads := total_pos (t := t) (by simp [at_t])
    unfold ThreadSystem.tokens
    omega
  have nonnull : base ≠ 0 := by
    rintro rfl
    have none := ((ledger.counted 0).gone s.objects.null_free).1
    omega
  have spin : ((s.setLocal t base success).goto t (.proxyLock base args)).spin = s.spin := by cases success <;> rfl
  have objects : ((s.setLocal t base success).goto t (.proxyLock base args)).objects = s.objects := by
    cases success <;> rfl
  have held : ((s.setLocal t base success).goto t (.proxyLock base args)).held = s.held := by cases success <;> rfl
  refine ⟨ledger.spin.update moved spin (by simp [at_t]), fun b => ?_, ledger.fresh_update moved (by simp)⟩
  refine (ledger.counted b).silent moved (by rw [objects]) ?_ (by simp [at_t]) (by simp) (by simp [at_t])
    (.inr ⟨by rw [held], by simp [at_t, null]⟩)
  rw [held]
  by_cases same : base = b
  · subst same
    cases success with
    | false =>
        simp [at_t, ThreadSystem.setLocal, ThreadSystem.lose, ThreadSystem.goto, null]
        omega
    | true => simp [at_t, ThreadSystem.setLocal, ThreadSystem.setSpecific, ThreadSystem.goto, null, nonnull]
  · have lost : ((s.setLocal t base success).goto t (.proxyLock base args)).lost b = s.lost b := by
      cases success
      · exact Function.update_of_ne (Ne.symm same) _ _
      · rfl
    rw [lost]
    cases success <;> simp [at_t, null, same]

theorem ledger_proxyLock (ledger : s.Ledger) (at_t : (s.threads t).control = .proxyLock base args) :
    (s.spinlockLock t (.proxyUnlock base args)).Ledger := by
  unfold spinlockLock
  split
  · next free =>
      have moved : ({ s with spin := 1 }.goto t (.proxyUnlock base args) : ThreadSystem ι).threads =
        Function.update s.threads t ⟨.proxyUnlock base args, (s.threads t).specific⟩ := rfl
      obtain ⟨spin, quiet⟩ := ledger.spin.locked moved free rfl rfl
      refine ⟨spin, fun b => ?_, ledger.fresh_update moved (by simp)⟩
      refine (ledger.counted b).silent moved rfl ?_ ?_ ?_ ?_ (.inl (quiet b)) <;> simp [at_t, ThreadSystem.goto]
  · exact ledger

theorem ledger_proxyUnlock (ledger : s.Ledger) (at_t : (s.threads t).control = .proxyUnlock base args) :
    (s.spinlockUnlock.goto t (.proxyFunc base args)).Ledger := by
  have moved : (s.spinlockUnlock.goto t (.proxyFunc base args)).threads =
      Function.update s.threads t ⟨.proxyFunc base args, (s.threads t).specific⟩ := rfl
  refine ⟨ledger.spin.unlocked moved rfl (by simp [at_t]) rfl, fun b => ?_, ledger.fresh_update moved (by simp)⟩
  refine (ledger.counted b).silent moved rfl ?_ ?_ ?_ ?_ (.inr ⟨rfl, ?_⟩) <;>
    simp [at_t, ThreadSystem.goto, ThreadSystem.spinlockUnlock]

/-- The value of the key becomes the reference of `pzuthread_cleanup`. -/
theorem ledger_cleanup (ledger : s.Ledger) (at_t : (s.threads t).control = .cleanup) : (s.cleanup t).Ledger := by
  unfold ThreadSystem.cleanup
  by_cases null : (s.threads t).specific = 0
  · rw [if_pos null]
    apply ledger.goto <;> simp [at_t]
  · rw [if_neg null]
    have moved : ((s.setSpecific t 0).goto t (.cleanupUnref (s.threads t).specific)).threads =
        Function.update s.threads t ⟨.cleanupUnref (s.threads t).specific, 0⟩ := by
      simp [ThreadSystem.setSpecific, ThreadSystem.goto]
    refine ⟨ledger.spin.update moved rfl (by simp [at_t]), fun b => ?_, ledger.fresh_update moved (by simp)⟩
    have own : (⟨.cleanupUnref (s.threads t).specific, 0⟩ : ThreadState).own b = (s.threads t).own b := by
      by_cases same : (s.threads t).specific = b
      · subst same
        simp [at_t, null]
      · simp [at_t, same]
    refine (ledger.counted b).silent moved rfl ?_ ?_ ?_ ?_ (.inr ⟨rfl, own⟩)
    · rw [own]
      simp [at_t, ThreadSystem.setSpecific, ThreadSystem.goto]
    all_goals simp [at_t]

/-- `zuthread_exit` writes another field. -/
theorem ledger_exitAssign (ledger : s.Ledger) {code : PInt} (at_t : (s.threads t).control = .exitAssign base code)
    (ok : s.exitAssign t base code = .ok s') : s'.Ledger := by
  obtain ⟨c, here, rfl⟩ := written ok
  refine ⟨ledger.spin.update rfl rfl (by simp [at_t]), fun b => ?_, ledger.fresh_update rfl (by simp)⟩
  refine (ledger.counted b).silent rfl ?_ ?_ ?_ ?_ ?_ (.inr ⟨rfl, ?_⟩)
  · exact map_refCount_adjust s.objects base b fun c => rfl
  all_goals simp [at_t, ThreadSystem.goto]

/-- The caller of `zuthread_join` keeps its reference meanwhile. -/
theorem ledger_join (ledger : s.Ledger) (at_t : (s.threads t).control = .running) (owned : 0 < s.held base) :
    ((s.unhold base).goto t (.joinCheck base)).Ledger := by
  have moved : ((s.unhold base).goto t (.joinCheck base)).threads =
      Function.update s.threads t ⟨.joinCheck base, (s.threads t).specific⟩ := rfl
  have quiet : total (ThreadState.builds base) s.threads = 0 := by
    by_contra building
    have none := ((ledger.counted base).building (Nat.pos_of_ne_zero building)).1
    omega
  refine ⟨ledger.spin.update moved rfl (by simp [at_t]), fun b => ?_, ledger.fresh_update moved (by simp)⟩
  by_cases same : b = base
  · subst same
    refine (ledger.counted b).silent moved rfl ?_ ?_ ?_ ?_ (.inl quiet)
    · simp [at_t, ThreadSystem.unhold, ThreadSystem.goto]
      omega
    all_goals simp [at_t]
  · refine (ledger.counted b).silent moved rfl ?_ ?_ ?_ ?_ (.inr ⟨?_, ?_⟩) <;>
      simp [at_t, ThreadSystem.unhold, ThreadSystem.goto, same, Ne.symm same]

theorem ledger_joined (ledger : s.Ledger)
    (at_t : (s.threads t).control = .joinCheck base ∨ ∃ joined, (s.threads t).control = .joinRead base joined) :
    ((s.goto t .running).hold base).Ledger := by
  have moved : ((s.goto t .running).hold base).threads = Function.update s.threads t ⟨.running, (s.threads t).specific⟩ :=
    rfl
  have quiet : total (ThreadState.builds base) s.threads = 0 := by
    refine (ledger.counted base).not_building (t := t) ?_ ?_ <;> rcases at_t with at_t | ⟨joined, at_t⟩ <;> simp [at_t]
  have outside : (s.threads t).inSpin = 0 := by rcases at_t with at_t | ⟨joined, at_t⟩ <;> simp [at_t]
  refine ⟨ledger.spin.update moved rfl outside.symm, fun b => ?_, ledger.fresh_update moved (by simp)⟩
  by_cases same : b = base
  · subst same
    refine (ledger.counted b).silent moved rfl ?_ ?_ ?_ ?_ (.inl quiet) <;> rcases at_t with at_t | ⟨joined, at_t⟩ <;>
      simp [at_t, ThreadSystem.hold, ThreadSystem.goto] <;> omega
  · refine (ledger.counted b).silent moved rfl ?_ ?_ ?_ ?_ (.inr ⟨?_, ?_⟩) <;> rcases at_t with at_t | ⟨joined, at_t⟩ <;>
      simp [at_t, ThreadSystem.hold, ThreadSystem.goto, same, Ne.symm same]

/-- Every step keeps the numbers right, as long as the counters do not overflow. -/
theorem ledger_step {r : Exec (ThreadSystem ι)} (ledger : s.Ledger) (step : ThreadStep t s r) (result : r = .ok s')
    (bounded : ∀ base, s.tokens base < 2 ^ 32) (bounded' : ∀ base, s'.tokens base < 2 ^ 32) : s'.Ledger := by
  cases step with
  | create args at_t func =>
      cases result
      apply ledger.goto <;> simp [at_t]
  | createLock at_t =>
      cases result
      exact ledger_createLock ledger at_t
  | createInternal u base at_t nonnull free unborn =>
      cases result
      exact ledger_createInternal ledger nonnull free at_t unborn
  | createFailed at_t =>
      cases result
      apply ledger.goto <;> simp [at_t]
  | createAssign copied at_t => exact ledger_createAssign ledger at_t result
  | createUnlock at_t =>
      cases result
      exact ledger_createUnlock ledger at_t
  | ref base at_t known => exact ledger_ref ledger at_t known result (bounded' base)
  | unref base at_t owned => exact ledger_clientUnref ledger at_t owned result (bounded base)
  | free at_t => exact ledger_free ledger at_t result
  | current base at_t null nonnull free | exitNew code base at_t null nonnull free =>
      cases result
      exact ledger_currentNew ledger at_t null nonnull free
  | currentSet success at_t =>
      cases result
      exact ledger_currentSet ledger success at_t
  | exit code at_t value =>
      cases result
      apply ledger.goto <;> simp [at_t]
  | @exitCheck base code at_t =>
      obtain ⟨c, here, rfl⟩ := loaded result
      split <;> apply ledger.goto <;> simp [at_t]
  | exitAssign at_t => exact ledger_exitAssign ledger at_t result
  | join base at_t owned =>
      cases result
      exact ledger_join ledger at_t owned
  | joinCheck at_t =>
      obtain ⟨c, here, rfl⟩ := loaded result
      split
      · apply ledger.goto <;> simp [at_t]
      · exact ledger_joined ledger (.inl at_t)
  | joinWait at_t =>
      obtain ⟨c, u, here, hdl, rfl⟩ := joinWait_ok result
      split
      · apply ledger.goto <;> simp [at_t]
      · exact ledger
  | joinRead at_t =>
      obtain ⟨c, here, rfl⟩ := loaded result
      exact ledger_joined ledger (.inr ⟨_, at_t⟩)
  | proxyStart success at_t =>
      cases result
      exact ledger_proxyStart ledger success at_t
  | proxyLock at_t =>
      cases result
      exact ledger_proxyLock ledger at_t
  | proxyUnlock at_t =>
      cases result
      exact ledger_proxyUnlock ledger at_t
  | proxyFunc at_t | joinFails at_t =>
      obtain ⟨c, here, rfl⟩ := loaded result
      apply ledger.goto <;> simp [at_t]
  | returns at_t =>
      cases result
      apply ledger.goto <;> simp [at_t]
  | cleanup at_t =>
      cases result
      exact ledger_cleanup ledger at_t
  | cleanupUnref at_t => exact ledger_cleanupUnref ledger at_t result (bounded _)

end Steps

end ThreadSystem

end Plibsys.Threads
