import Plibsys.Threads.ThreadObjects

/-! # Objects and their threads

An object belongs to one thread, and says when it is joinable and what it exited with.  What
a thread may rely on, wherever it is, stays true whatever the others do.
-/

namespace Plibsys.Threads

open Support

namespace ThreadSystem

variable {ι : Type} [Fintype ι] [DecidableEq ι]

/-! ## What every place relies on -/

/-- A thread has an object as the value of its key, or the value was lost. -/
def Known (s : ThreadSystem ι) (t : ι) (base : Addr) : Prop :=
  base ≠ 0 ∧ ((s.threads t).specific = base ∨ 0 < s.lost base)

/-- Nobody fills the object. -/
def Quiet (s : ThreadSystem ι) (base : Addr) : Prop :=
  ∀ u args i, (s.threads u).control ≠ .createAssign args base i

/-- The object of a new thread is filled, or its creator is about to do it. -/
structure Prepared (s : ThreadSystem ι) (t : ι) (base : Addr) (args : CreateArgs) : Prop where
  mine : ∃ c, s.objects.cell base = some c ∧ c.hdl = some t ∧ (s.Quiet base → c.Assigned args assignments)
  same : ∀ u args' i, (s.threads u).control = .createAssign args' base i → args' = args

/-- What a thread may rely on where it is. -/
def Promise (s : ThreadSystem ι) (t : ι) : Control → Prop
  | .createAssign args base i =>
      i < assignments ∧ ∃ c, s.objects.cell base = some c ∧ c.hdl.isSome ∧ c.Assigned args i
  | .proxyStart base args => s.Prepared t base args
  | .proxyLock base args => s.Known t base ∧ s.Prepared t base args
  | .proxyUnlock base args | .proxyFunc base args => s.Known t base ∧ s.Prepared t base args ∧ s.Quiet base
  | .currentSet base _ => ∃ c, s.objects.cell base = some c ∧ c.hdl = none
  | .exitCheck base _ =>
      s.Known t base ∧ ∃ c, s.objects.cell base = some c ∧ ((s.threads t).specific ≠ base → c.hdl = none)
  | .exitAssign base _ => s.Known t base ∧ ∃ c, s.objects.cell base = some c ∧ c.hdl = some t
  | .joinWait base => ∃ c, s.objects.cell base = some c ∧ c.hdl.isSome
  | .joinRead base joined =>
      ∃ c u, s.objects.cell base = some c ∧ c.hdl = some u ∧ (joined = true → (s.threads u).control = .ended)
  | _ => True

/-- Which thread an object belongs to, and what it says about the thread. -/
structure Identity (s : ThreadSystem ι) : Prop where
  born : ∀ base c u, s.objects.cell base = some c → c.hdl = some u →
    (s.threads u).control ≠ .unborn ∧ c.retCode = s.code u
  silent : ∀ u, (s.threads u).control = .unborn → s.code u = 0
  handled : ∀ base c, s.objects.cell base = some c → c.ours = true ∨ c.joinable = true → c.hdl.isSome
  unique : ∀ base base' c c' u, s.objects.cell base = some c → s.objects.cell base' = some c' →
    c.hdl = some u → c'.hdl = some u → base = base'
  key : ∀ t c u, s.objects.cell (s.threads t).specific = some c → c.hdl = some u → u = t
  promise : ∀ t, s.Promise t (s.threads t).control

variable {s s' : ThreadSystem ι} {t u : ι} {base : Addr} {args : CreateArgs} {r : Exec (ThreadSystem ι)}

/-! ## Objects in use -/

omit [DecidableEq ι] in
/-- A place of a thread where it relies on an object. -/
theorem tokens_pos (here : 0 < (s.threads t).own base + (s.threads t).early base + s.lost base) : 0 < s.tokens base := by
  have own := le_total (ThreadState.own base) s.threads t
  have early := le_total (ThreadState.early base) s.threads t
  unfold tokens
  omega

omit [DecidableEq ι] in
theorem Known.tokens_pos (known : s.Known t base) : 0 < s.tokens base := by
  obtain ⟨nonnull, mine | lost⟩ := known
  · apply ThreadSystem.tokens_pos (t := t)
    have value : (s.threads t).keyRef base = 1 := if_pos ⟨mine, by rw [mine]; exact nonnull⟩
    unfold ThreadState.own ThreadState.early
    split <;> split <;> simp_all
  · unfold tokens
    omega

omit [DecidableEq ι] in
/-- Only an object without references is freed. -/
theorem Ledger.stays (ledger : s.Ledger) (positive : 0 < s.tokens base) (ends : Bool) :
    (s.threads t).control ≠ .freeing base ends := by
  intro at_t
  have frees : 0 < (s.threads t).frees base := by simp [ThreadState.frees, at_t]
  obtain ⟨c, here⟩ := (ledger.counted base).alive positive
  have none := ((ledger.counted base).counter c here).2
  rw [if_neg (Nat.ne_of_gt positive)] at none
  have some := le_total (ThreadState.frees base) s.threads t
  omega

theorem hdl_step (ledger : s.Ledger) (step : ThreadStep t s r) (result : r = .ok s') (positive : 0 < s.tokens base)
    {c : PUThread ι} (here : s.objects.cell base = some c) :
    ∃ c', s'.objects.cell base = some c' ∧ c'.hdl = c.hdl := by
  have changes := cell_step step result base
  rw [here] at changes
  exact changes.kept fun ends => ledger.stays positive ends

omit [DecidableEq ι] in
/-- The spin lock admits one creator at a time. -/
theorem Ledger.one_builder (ledger : s.Ledger) {args args' : CreateArgs} {base base' : Addr} {i j : Nat}
    (at_t : (s.threads t).control = .createAssign args base i)
    (at_u : (s.threads u).control = .createAssign args' base' j) : t = u := by
  classical
  by_contra apart
  have both := add_le_total ThreadState.inSpin s.threads apart
  have exclusive := ledger.spin.exclusive
  simp only [ThreadState.inSpin, at_t, at_u] at both
  omega

/-! ## What stays true of the objects -/

omit [Fintype ι] in
theorem Quiet.kept (quiet : s.Quiet base) (step : ThreadStep t s r) (result : r = .ok s') {c : PUThread ι}
    (here : s.objects.cell base = some c) : s'.Quiet base := by
  intro u args i at_u
  obtain ⟨j, before⟩ := builder_before step result here at_u
  exact quiet u args j before

theorem Prepared.kept (prepared : s.Prepared u base args) (ledger : s.Ledger) (identity : s.Identity)
    (step : ThreadStep t s r) (result : r = .ok s') (positive : 0 < s.tokens base) : s'.Prepared u base args := by
  obtain ⟨⟨c, here, hdl, filled⟩, same⟩ := prepared
  constructor
  · by_cases builds : ∃ args' i, (s.threads t).control = .createAssign args' base i
    · obtain ⟨args', i, at_t⟩ := builds
      obtain rfl := same t args' i at_t
      obtain ⟨c', copied, here', after, next⟩ := assign_step step result at_t
      rw [here, Option.some.injEq] at here'
      subst here'
      refine ⟨_, after, (PUThread.assign_hdl ..).trans hdl, fun quiet => ?_⟩
      have promise := identity.promise t
      rw [at_t] at promise
      obtain ⟨inside, c', here', -, assigned⟩ := promise
      rw [here, Option.some.injEq] at here'
      subst here'
      have last : ¬i + 1 < assignments := by
        intro more
        rw [if_pos more] at next
        exact quiet t _ _ next
      have all := assigned.next copied inside
      rwa [show i + 1 = assignments by omega] at all
    · have changes := cell_step step result base
      rw [here] at changes
      obtain ⟨c', after, alike⟩ := changes.alike (fun ends => ledger.stays positive ends)
        fun args' i at_t => builds ⟨args', i, at_t⟩
      refine ⟨c', after, alike.hdl.trans hdl, fun quiet => (filled fun v args' i at_v => ?_).alike alike⟩
      have other : v ≠ t := by
        rintro rfl
        exact builds ⟨args', i, at_v⟩
      apply quiet v args' i
      rw [others_stay step result other (by simp [at_v])]
      exact at_v
  · intro v args' i at_v
    obtain ⟨j, before⟩ := builder_before step result here at_v
    exact same v args' j before

omit [Fintype ι] in
theorem Known.kept (known : s.Known u base) (step : ThreadStep t s r) (result : r = .ok s')
    (stays : s'.threads u = s.threads u) : s'.Known u base := by
  refine ⟨known.1, known.2.imp ?_ ?_⟩
  · intro value
    rw [stays]
    exact value
  · intro lost
    exact Nat.lt_of_lt_of_le lost (lost_step step result base)

omit [Fintype ι] in
theorem ended_stops (step : ThreadStep t s r) (ends : (s.threads t).control = .ended) : False := by
  cases step <;> simp_all only [reduceCtorEq]

/-- What a thread relies on stays true while others take their steps. -/
theorem Promise.kept (ledger : s.Ledger) (identity : s.Identity) (step : ThreadStep t s r) (result : r = .ok s')
    (other : u ≠ t) (born : (s.threads u).control ≠ .unborn) : s'.Promise u (s'.threads u).control := by
  have stays := others_stay step result other born
  have promise := identity.promise u
  rw [stays]
  cases at_u : (s.threads u).control with
  | createAssign args base i =>
      rw [at_u] at promise
      obtain ⟨inside, c, here, handled, assigned⟩ := promise
      have positive : 0 < s.tokens base := tokens_pos (t := u) (by simp [ThreadState.own, at_u, Control.ref])
      have changes := cell_step step result base
      rw [here] at changes
      obtain ⟨c', after, alike⟩ := changes.alike (fun ends => ledger.stays positive ends)
        fun args' j at_t => other (ledger.one_builder at_u at_t)
      exact ⟨inside, c', after, alike.hdl ▸ handled, assigned.alike alike⟩
  | proxyStart base args =>
      rw [at_u] at promise
      have prepared : s.Prepared u base args := promise
      exact prepared.kept ledger identity step result (tokens_pos (t := u) (by simp [ThreadState.early, at_u]))
  | proxyLock base args =>
      rw [at_u] at promise
      obtain ⟨known, prepared⟩ := promise
      exact ⟨known.kept step result stays, prepared.kept ledger identity step result known.tokens_pos⟩
  | proxyUnlock base args | proxyFunc base args =>
      rw [at_u] at promise
      obtain ⟨known, prepared, quiet⟩ := promise
      obtain ⟨c, here, -⟩ := prepared.mine
      exact ⟨known.kept step result stays, prepared.kept ledger identity step result known.tokens_pos,
        quiet.kept step result here⟩
  | currentSet base code =>
      rw [at_u] at promise
      obtain ⟨c, here, none⟩ := promise
      have positive : 0 < s.tokens base := tokens_pos (t := u) (by simp [ThreadState.own, at_u, Control.ref])
      obtain ⟨c', after, hdl⟩ := hdl_step ledger step result positive here
      exact ⟨c', after, hdl.trans none⟩
  | exitCheck base code =>
      rw [at_u] at promise
      obtain ⟨known, c, here, none⟩ := promise
      obtain ⟨c', after, hdl⟩ := hdl_step ledger step result known.tokens_pos here
      refine ⟨known.kept step result stays, c', after, fun elsewhere => hdl.trans (none ?_)⟩
      rwa [stays] at elsewhere
  | exitAssign base code =>
      rw [at_u] at promise
      obtain ⟨known, c, here, mine⟩ := promise
      obtain ⟨c', after, hdl⟩ := hdl_step ledger step result known.tokens_pos here
      exact ⟨known.kept step result stays, c', after, hdl.trans mine⟩
  | joinWait base =>
      rw [at_u] at promise
      obtain ⟨c, here, some⟩ := promise
      have positive : 0 < s.tokens base := tokens_pos (t := u) (by simp [ThreadState.own, at_u, Control.ref])
      obtain ⟨c', after, hdl⟩ := hdl_step ledger step result positive here
      exact ⟨c', after, hdl ▸ some⟩
  | joinRead base success =>
      rw [at_u] at promise
      obtain ⟨c, v, here, joined, ended⟩ := promise
      have positive : 0 < s.tokens base := tokens_pos (t := u) (by simp [ThreadState.own, at_u, Control.ref])
      obtain ⟨c', after, hdl⟩ := hdl_step ledger step result positive here
      refine ⟨c', v, after, hdl.trans joined, fun succeeded => ?_⟩
      have ends := ended succeeded
      have apart : v ≠ t := by
        rintro rfl
        exact ended_stops step ends
      rw [others_stay step result apart (by simp [ends])]
      exact ends
  | _ => trivial

omit [DecidableEq ι] in
/-- While the spin lock is free, nobody fills an object. -/
theorem Ledger.quiet (ledger : s.Ledger) (free : s.spin = 0) (base : Addr) : s.Quiet base := by
  intro u args i at_u
  have word := congrArg BitVec.toNat ledger.spin.word
  have small := ledger.spin.exclusive
  have inside := le_total ThreadState.inSpin s.threads u
  rw [free, BitVec.toNat_ofNat, Nat.mod_eq_of_lt (by omega)] at word
  simp only [ThreadState.inSpin, at_u] at inside
  have zero : (0 : PInt).toNat = 0 := rfl
  omega

omit [Fintype ι] in
/-- The value of the key is where the thread goes on, or it was lost. -/
theorem setLocal_known (s : ThreadSystem ι) (t : ι) (success : Bool) (control : Control) (nonnull : base ≠ 0) :
    ((s.setLocal t base success).goto t control).Known t base := by
  refine ⟨nonnull, ?_⟩
  cases success with
  | true =>
      left
      simp [setLocal, setSpecific, ThreadSystem.goto]
  | false =>
      right
      simp [setLocal, lose, ThreadSystem.goto]

omit [Fintype ι] [DecidableEq ι] in
theorem nonnull_of_cell {c : PUThread ι} (here : s.objects.cell base = some c) : base ≠ 0 := by
  rintro rfl
  rw [s.objects.null_free] at here
  cases here

/-- A thread that takes a step may rely on what it needs next. -/
theorem Promise.next (ledger : s.Ledger) (identity : s.Identity) (step : ThreadStep t s r) (result : r = .ok s') :
    s'.Promise t (s'.threads t).control := by
  have promise := identity.promise t
  have whole := step
  cases step with
  | create | createFailed | returns | join =>
      cases result
      simp [ThreadSystem.goto, Promise]
  | createLock at_t =>
      cases result
      unfold spinlockLock
      split
      · simp [ThreadSystem.goto, Promise]
      · rw [at_t]
        trivial
  | @createInternal args u base at_t nonnull free unborn =>
      cases result
      have apart : u ≠ t := by
        rintro rfl
        rw [at_t] at unborn
        cases unborn
      have at_t' : ((s.createInternal t u args base nonnull).threads t).control = .createAssign args base 0 := by
        simp [ThreadSystem.createInternal, ThreadSystem.goto]
      rw [at_t']
      refine ⟨by decide, _, if_pos rfl, rfl, ?_⟩
      exact ⟨by omega, by omega, by omega, by omega, .inr rfl⟩
  | createAssign copied at_t =>
      obtain ⟨c, copied, here, after, next⟩ := assign_step whole result at_t
      rw [next]
      split
      · next more =>
          rw [at_t] at promise
          obtain ⟨inside, c', here', handled, assigned⟩ := promise
          rw [here, Option.some.injEq] at here'
          subst here'
          refine ⟨more, _, after, ?_, assigned.next copied inside⟩
          rw [PUThread.assign_hdl]
          exact handled
      · trivial
  | createUnlock at_t =>
      cases result
      unfold createUnlock
      dsimp only
      split <;> simp [ThreadSystem.goto, spinlockUnlock, hold, Promise]
  | ref b at_t =>
      obtain ⟨c, here, rfl⟩ := written result
      show ThreadSystem.Promise _ t (s.threads t).control
      rw [at_t]
      trivial
  | unref b | cleanupUnref =>
      obtain ⟨c, here, rfl⟩ := unref_ok result
      simp only [ThreadSystem.goto, Function.update_self]
      split <;> trivial
  | @free b ends at_t =>
      obtain ⟨c, here, rfl⟩ := free_ok result
      simp only [ThreadSystem.goto, Function.update_self]
      split <;> trivial
  | current base at_t null nonnull free | exitNew code base at_t null nonnull free =>
      cases result
      simp only [currentNew, ThreadSystem.goto, Function.update_self]
      exact ⟨_, if_pos rfl, rfl⟩
  | @currentSet base code success at_t =>
      cases result
      rw [setLocal_goto_threads, Function.update_self]
      rw [at_t] at promise
      obtain ⟨c, here, none⟩ := promise
      cases code with
      | none => trivial
      | some code =>
          refine ⟨setLocal_known s t success _ (nonnull_of_cell here), c, ?_, fun _ => none⟩
          rw [setLocal_goto_objects]
          exact here
  | exit code at_t value =>
      cases result
      simp only [ThreadSystem.goto, Function.update_self]
      have known : s.Known t (s.threads t).specific := ⟨value, .inl rfl⟩
      obtain ⟨c, here⟩ := (ledger.counted _).alive known.tokens_pos
      refine ⟨⟨value, .inl ?_⟩, c, here, fun elsewhere => absurd ?_ elsewhere⟩ <;> simp
  | @exitCheck base code at_t =>
      obtain ⟨c, here, rfl⟩ := loaded result
      rw [at_t] at promise
      obtain ⟨known, c', here', none⟩ := promise
      rw [here, Option.some.injEq] at here'
      subst here'
      simp only [ThreadSystem.goto, Function.update_self]
      split
      · next ours =>
          obtain ⟨u, hdl⟩ := Option.isSome_iff_exists.mp (identity.handled base c here (.inl ours))
          have value : (s.threads t).specific = base := by
            by_contra elsewhere
            rw [none elsewhere] at hdl
            cases hdl
          have mine : u = t := identity.key t c u (by rw [value]; exact here) hdl
          subst mine
          refine ⟨⟨known.1, .inl ?_⟩, c, here, hdl⟩
          simpa using value
      · trivial
  | exitAssign at_t =>
      obtain ⟨c, here, rfl⟩ := written result
      simp [ThreadSystem.goto, Promise]
  | joinCheck at_t =>
      obtain ⟨c, here, rfl⟩ := loaded result
      split
      · next joinable =>
          simp only [ThreadSystem.goto, Function.update_self]
          exact ⟨c, here, identity.handled _ c here (.inr joinable)⟩
      · simp [ThreadSystem.goto, hold, Promise]
  | joinWait at_t =>
      obtain ⟨c, u, here, hdl, rfl⟩ := joinWait_ok result
      split
      · next ends =>
          simp only [ThreadSystem.goto, Function.update_self]
          refine ⟨c, u, here, hdl, fun _ => ?_⟩
          have apart : u ≠ t := by
            rintro rfl
            rw [at_t] at ends
            cases ends
          simpa [Function.update_of_ne apart] using ends
      · exact promise
  | joinFails at_t =>
      obtain ⟨c, here, rfl⟩ := loaded result
      rw [at_t] at promise
      obtain ⟨c', here', handled⟩ := promise
      obtain ⟨u, hdl⟩ := Option.isSome_iff_exists.mp handled
      simp only [ThreadSystem.goto, Function.update_self]
      exact ⟨c', u, here', hdl, fun success => Bool.noConfusion success⟩
  | joinRead at_t | proxyFunc at_t =>
      obtain ⟨c, here, rfl⟩ := loaded result
      simp [ThreadSystem.goto, hold, Promise]
  | @proxyStart base args success at_t =>
      rw [at_t] at promise
      have prepared : s.Prepared t base args := promise
      obtain ⟨c, here, -⟩ := prepared.mine
      have kept := prepared.kept ledger identity whole result (tokens_pos (t := t) (by simp [ThreadState.early, at_t]))
      cases result
      rw [setLocal_goto_threads, Function.update_self]
      exact ⟨setLocal_known s t success _ (nonnull_of_cell here), kept⟩
  | @proxyLock base args at_t =>
      have before := promise
      rw [at_t] at promise
      obtain ⟨known, prepared⟩ := promise
      have kept := prepared.kept ledger identity whole result known.tokens_pos
      cases result
      unfold spinlockLock at kept ⊢
      split
      · next free =>
          rw [if_pos free] at kept
          have quiet := ledger.quiet free base
          obtain ⟨c, here, -⟩ := prepared.mine
          simp only [ThreadSystem.goto, Function.update_self] at kept ⊢
          refine ⟨⟨known.1, known.2.imp (fun value => ?_) id⟩, kept, fun u args' i at_u => ?_⟩
          · simpa using value
          · have other : u ≠ t := by
              rintro rfl
              simp at at_u
            simp only [Function.update_of_ne other] at at_u
            exact quiet u args' i at_u
      · exact before
  | @proxyUnlock base args at_t =>
      rw [at_t] at promise
      obtain ⟨known, prepared, quiet⟩ := promise
      obtain ⟨c, here, -⟩ := prepared.mine
      have kept := prepared.kept ledger identity whole result known.tokens_pos
      have still := quiet.kept whole result here
      cases result
      simp only [ThreadSystem.goto, Function.update_self]
      refine ⟨⟨known.1, known.2.imp (fun value => ?_) id⟩, kept, still⟩
      simpa [spinlockUnlock] using value
  | cleanup =>
      cases result
      unfold ThreadSystem.cleanup
      dsimp only
      split <;> simp [ThreadSystem.goto, setSpecific, Promise]

/-! ## Every step keeps the promises -/

omit [Fintype ι] in
/-- The object of a thread was its object before, or has been made just now. -/
theorem hdl_before (step : ThreadStep t s r) (result : r = .ok s') {c' : PUThread ι}
    (here : s'.objects.cell base = some c') (hdl : c'.hdl = some u) :
    (∃ c, s.objects.cell base = some c ∧ c.hdl = some u) ∨ ∃ args nonnull, Creation s s' t u args base nonnull := by
  have changes := cell_step step result base
  rw [here] at changes
  cases before : s.objects.cell base with
  | none =>
      rw [before] at changes
      cases changes with
      | made creation =>
          cases hdl
          exact .inr ⟨_, _, creation⟩
      | current => cases hdl
  | some c =>
      rw [before] at changes
      cases changes with
      | same => exact .inl ⟨c', rfl, hdl⟩
      | counter | code => exact .inl ⟨c, rfl, hdl⟩
      | assigned _ copied =>
          rw [PUThread.assign_hdl] at hdl
          exact .inl ⟨c, rfl, hdl⟩

omit [Fintype ι] in
/-- A thread stays born. -/
theorem unborn_before (step : ThreadStep t s r) (result : r = .ok s') (unborn : (s'.threads u).control = .unborn) :
    u ≠ t ∧ (s.threads u).control = .unborn := by
  have other : u ≠ t := by
    rintro rfl
    exact (own_step step result).1 unborn
  refine ⟨other, ?_⟩
  by_contra born
  rw [others_stay step result other born] at unborn
  exact born unborn

omit [Fintype ι] in
theorem code_step (step : ThreadStep t s r) (result : r = .ok s')
    (still : u ≠ t ∨ ∀ base code, (s.threads t).control ≠ .exitAssign base code) : s'.code u = s.code u := by
  rcases frame_step step result with frame | ⟨v, args, b, nonnull, creation⟩
  · by_cases mine : u = t
    · subst mine
      exact frame.own (still.resolve_left (· rfl))
    · exact frame.code u mine
  · rw [creation.result]
    rfl

omit [Fintype ι] in
/-- The call of `zuthread_exit` that ends a thread leaves the code in its object. -/
theorem exitAssign_step (step : ThreadStep t s r) (result : r = .ok s') {code : PInt}
    (at_t : (s.threads t).control = .exitAssign base code) :
    s'.code t = code ∧ s'.objects = s.objects.adjust base fun c => { c with retCode := code } := by
  cases step with
  | exitAssign there =>
      rw [at_t] at there
      cases there
      obtain ⟨c, here, rfl⟩ := written result
      exact ⟨Function.update_self .., rfl⟩
  | _ => simp_all only [reduceCtorEq]

omit [Fintype ι] in
theorem Identity.born_step (identity : s.Identity) (step : ThreadStep t s r) (result : r = .ok s') {c' : PUThread ι}
    (here : s'.objects.cell base = some c') (hdl : c'.hdl = some u) : c'.retCode = s'.code u := by
  by_cases exits : ∃ b code, (s.threads t).control = .exitAssign b code
  · obtain ⟨b, code, at_t⟩ := exits
    obtain ⟨now, objects⟩ := exitAssign_step step result at_t
    have promise := identity.promise t
    rw [at_t] at promise
    obtain ⟨-, c, own, mine⟩ := promise
    rw [objects] at here
    by_cases same : base = b
    · subst same
      rw [Heap.cell_adjust_self, own] at here
      cases here
      rw [mine] at hdl
      cases hdl
      exact now.symm
    · rw [Heap.cell_adjust_ne _ same] at here
      have other : u ≠ t := by
        rintro rfl
        exact same (identity.unique base b c' c u here own hdl mine)
      rw [code_step step result (.inl other)]
      exact (identity.born base c' u here hdl).2
  · have still : ∀ b code, (s.threads t).control ≠ .exitAssign b code := fun b code at_t => exits ⟨b, code, at_t⟩
    rw [code_step step result (.inr still)]
    have changes := cell_step step result base
    rw [here] at changes
    cases before : s.objects.cell base with
    | none =>
        rw [before] at changes
        cases changes with
        | made creation =>
            cases hdl
            exact (identity.silent u creation.unborn).symm
        | current => cases hdl
    | some c =>
        rw [before] at changes
        cases changes with
        | same => exact (identity.born base c' u before hdl).2
        | counter => exact (identity.born base c u before hdl).2
        | code _ at_t => exact absurd at_t (still _ _)
        | assigned _ copied =>
            rw [PUThread.assign_hdl] at hdl
            rw [PUThread.assign_retCode]
            exact (identity.born base c u before hdl).2

omit [Fintype ι] in
theorem Identity.handled_step (identity : s.Identity) (step : ThreadStep t s r) (result : r = .ok s') {c' : PUThread ι}
    (here : s'.objects.cell base = some c') (joined : c'.ours = true ∨ c'.joinable = true) : c'.hdl.isSome := by
  have changes := cell_step step result base
  rw [here] at changes
  cases before : s.objects.cell base with
  | none =>
      rw [before] at changes
      cases changes with
      | made => rfl
      | current => rcases joined with ours | joinable <;> contradiction
  | some c =>
      rw [before] at changes
      cases changes with
      | same => exact identity.handled base c' before joined
      | counter | code => exact identity.handled base c before joined
      | assigned _ copied at_t =>
          have promise := identity.promise t
          rw [at_t] at promise
          obtain ⟨-, c', here', handled, -⟩ := promise
          rw [before, Option.some.injEq] at here'
          subst here'
          rw [PUThread.assign_hdl]
          exact handled

omit [Fintype ι] in
theorem Identity.unique_step (identity : s.Identity) (step : ThreadStep t s r) (result : r = .ok s')
    {base' : Addr} {c c' : PUThread ι} (here : s'.objects.cell base = some c) (here' : s'.objects.cell base' = some c')
    (hdl : c.hdl = some u) (hdl' : c'.hdl = some u) : base = base' := by
  rcases hdl_before step result here hdl with ⟨d, before, was⟩ | ⟨args, nonnull, creation⟩ <;>
    rcases hdl_before step result here' hdl' with ⟨d', before', was'⟩ | ⟨args', nonnull', creation'⟩
  · exact identity.unique base base' d d' u before before' was was'
  · exact absurd creation'.unborn (identity.born base d u before was).1
  · exact absurd creation.unborn (identity.born base' d' u before' was').1
  · have one := creation.result.symm.trans creation'.result
    have control := congrArg (fun s : ThreadSystem ι => (s.threads t).control) one
    simp only [ThreadSystem.createInternal, ThreadSystem.goto, Function.update_self, Control.createAssign.injEq] at control
    exact control.2.1

theorem Identity.key_step (ledger : s.Ledger) (identity : s.Identity) (step : ThreadStep t s r) (result : r = .ok s')
    {v : ι} {c' : PUThread ι} (here : s'.objects.cell (s'.threads v).specific = some c') (hdl : c'.hdl = some u) :
    u = v := by
  rcases specific_step step result v with same | zero | ⟨rfl, ⟨code, at_v⟩ | ⟨args, at_v⟩⟩
  · rw [same] at here
    rcases hdl_before step result here hdl with ⟨c, before, was⟩ | ⟨args, nonnull, creation⟩
    · exact identity.key v c u before was
    · have known : s.Known v (s.threads v).specific := ⟨nonnull, .inl rfl⟩
      obtain ⟨c, before⟩ := (ledger.counted _).alive known.tokens_pos
      rw [creation.free] at before
      cases before
  · exact absurd zero (nonnull_of_cell here)
  · have promise := identity.promise v
    rw [at_v] at promise
    obtain ⟨c, before, none⟩ := promise
    obtain ⟨c'', after, same⟩ :=
      hdl_step ledger step result (tokens_pos (t := v) (by simp [ThreadState.own, at_v, Control.ref])) before
    rw [here, Option.some.injEq] at after
    rw [← after, hdl, none] at same
    cases same
  · have promise := identity.promise v
    rw [at_v] at promise
    have prepared : s.Prepared v (s'.threads v).specific args := promise
    obtain ⟨c, before, mine, -⟩ := prepared.mine
    obtain ⟨c'', after, same⟩ :=
      hdl_step ledger step result (tokens_pos (t := v) (by simp [ThreadState.early, at_v])) before
    rw [here, Option.some.injEq] at after
    rw [← after, hdl, mine] at same
    exact Option.some.inj same

omit [Fintype ι] in
/-- The object of a new thread is about to be filled by its creator. -/
theorem Identity.newborn (identity : s.Identity) (step : ThreadStep t s r) (result : r = .ok s') {nonnull : base ≠ 0}
    (creation : Creation s s' t u args base nonnull) : s'.Promise u (s'.threads u).control := by
  have apart : u ≠ t := by
    rintro rfl
    have unborn := creation.unborn
    rw [creation.at_t] at unborn
    cases unborn
  have at_t : (s'.threads t).control = .createAssign args base 0 := by
    rw [creation.result]
    simp [ThreadSystem.createInternal, ThreadSystem.goto]
  have at_u : (s'.threads u).control = .proxyStart base args := by
    rw [creation.result]
    simp [ThreadSystem.createInternal, ThreadSystem.goto, apart]
  rw [at_u]
  constructor
  · refine ⟨{ (PUThread.zero : PUThread ι) with joinable := args.joinable, hdl := some u }, ?_, rfl, ?_⟩
    · rw [creation.result]
      exact if_pos rfl
    · intro quiet
      exact absurd at_t (quiet t args 0)
  · intro v args' i at_v
    by_cases creator : v = t
    · subst creator
      rw [at_t] at at_v
      cases at_v
      rfl
    · have born : (s.threads v).control ≠ .unborn := by
        intro unborn
        by_cases newborn : v = u
        · subst newborn
          rw [at_u] at at_v
          cases at_v
        · rw [creation.result] at at_v
          simp [ThreadSystem.createInternal, ThreadSystem.goto, creator, newborn, unborn] at at_v
      rw [others_stay step result creator born] at at_v
      have promise := identity.promise v
      rw [at_v] at promise
      obtain ⟨-, c, before, -⟩ := promise
      rw [creation.free] at before
      cases before

theorem identity_step (ledger : s.Ledger) (identity : s.Identity) (step : ThreadStep t s r) (result : r = .ok s') :
    s'.Identity where
  born := fun base c u here hdl => by
    refine ⟨fun unborn => ?_, identity.born_step step result here hdl⟩
    have before := (unborn_before step result unborn).2
    rcases hdl_before step result here hdl with ⟨d, there, was⟩ | ⟨args, nonnull, creation⟩
    · exact (identity.born base d u there was).1 before
    · have apart := (unborn_before step result unborn).1
      rw [creation.result] at unborn
      simp [ThreadSystem.createInternal, ThreadSystem.goto, apart] at unborn
  silent := fun u unborn => by
    obtain ⟨other, before⟩ := unborn_before step result unborn
    rw [code_step step result (.inl other)]
    exact identity.silent u before
  handled := fun _ _ here joined => identity.handled_step step result here joined
  unique := fun _ _ _ _ _ here here' hdl hdl' => identity.unique_step step result here here' hdl hdl'
  key := fun _ _ _ here hdl => identity.key_step ledger step result here hdl
  promise := fun u => by
    by_cases mine : u = t
    · subst mine
      exact Promise.next ledger identity step result
    · by_cases born : (s.threads u).control = .unborn
      · rcases frame_step step result with frame | ⟨v, args, base, nonnull, creation⟩
        · rw [frame.threads u mine, born]
          trivial
        · by_cases newborn : u = v
          · subst newborn
            exact identity.newborn step result creation
          · have stays : (s'.threads u).control = .unborn := by
              rw [creation.result]
              simpa [ThreadSystem.createInternal, ThreadSystem.goto, mine, newborn] using born
            rw [stays]
            trivial
      · exact Promise.kept ledger identity step result mine born

end ThreadSystem

end Plibsys.Threads
