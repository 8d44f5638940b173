import Plibsys.Threads.ThreadIdentity

/-! # How long thread objects live

With the references counted right, no step touches an object that was freed, and every object
is freed once, when its last reference is gone.  A new thread finds its object filled, and
whoever joins a thread with success reads the code that it exited with.
-/

namespace Plibsys.Threads

open Support

namespace ThreadSystem

variable {ι : Type} [Fintype ι] [DecidableEq ι] {s s' : ThreadSystem ι} {t : ι} {base : Addr} {r : Exec (ThreadSystem ι)}

/-! ## What holds in every state -/

/-- The references to every object fit in its counter. -/
def Bounded (s : ThreadSystem ι) : Prop := ∀ base, s.tokens base < 2 ^ 32

variable {foreign : ι → Bool}

omit [DecidableEq ι] in
/-- At first no thread has anything. -/
theorem initial_total (foreign : ι → Bool) {w : ThreadState → Nat} (unborn : w ⟨.unborn, 0⟩ = 0)
    (running : w ⟨.running, 0⟩ = 0) : total w (initial foreign).threads = 0 := by
  rw [total_eq_zero]
  intro t
  cases inside : foreign t <;> simp [initial, inside, unborn, running]

omit [DecidableEq ι] in
theorem initial_tokens (foreign : ι → Bool) (base : Addr) : (initial foreign).tokens base = 0 := by
  have own := initial_total foreign (w := ThreadState.own base) (by simp [ThreadState.own, ThreadState.keyRef, Control.ref])
    (by simp [ThreadState.own, ThreadState.keyRef, Control.ref])
  have early := initial_total foreign (w := ThreadState.early base) rfl rfl
  unfold tokens
  rw [own, early]
  rfl

omit [DecidableEq ι] in
theorem initial_ledger (foreign : ι → Bool) : (initial foreign).Ledger where
  spin := by
    have nobody := initial_total foreign (w := ThreadState.inSpin) rfl rfl
    exact ⟨by rw [nobody]; rfl, by omega⟩
  counted := fun base => by
    refine ⟨fun _ => ⟨initial_tokens foreign base, initial_total foreign rfl rfl⟩, nofun, fun building => ?_⟩
    have nobody := initial_total foreign (w := ThreadState.builds base) rfl rfl
    omega
  fresh := fun t => by cases inside : foreign t <;> simp [initial, inside, ThreadState.Fresh]

omit [Fintype ι] [DecidableEq ι] in
theorem initial_identity (foreign : ι → Bool) : (initial foreign).Identity where
  born := nofun
  silent := fun _ _ => rfl
  handled := nofun
  unique := nofun
  key := nofun
  promise := fun t => by cases inside : foreign t <;> simp [initial, inside, Promise]

theorem laws_of_reached (reached : ThreadsReach foreign Bounded s) : s.Bounded ∧ s.Ledger ∧ s.Identity := by
  induction reached with
  | start =>
      refine ⟨fun base => ?_, initial_ledger foreign, initial_identity foreign⟩
      rw [initial_tokens]
      decide
  | step reached next meets laws =>
      obtain ⟨bounded, ledger, identity⟩ := laws
      exact ⟨meets, ledger_step ledger next rfl bounded meets, identity_step ledger identity next rfl⟩

omit [Fintype ι] [DecidableEq ι] in
theorem control_of_frees (frees : 0 < (s.threads t).frees base) : ∃ ends, (s.threads t).control = .freeing base ends := by
  unfold ThreadState.frees at frees
  split at frees
  · next b ends at_t =>
      split at frees
      · next same => exact ⟨ends, same ▸ at_t⟩
      · contradiction
  · contradiction

/-- No step goes through a pointer to an object that is not there. -/
theorem step_succeeds (ledger : s.Ledger) (identity : s.Identity) (step : ThreadStep t s r) : ∃ s', r = .ok s' := by
  have promise := identity.promise t
  cases step with
  | @createAssign args base i copied at_t =>
      rw [at_t] at promise
      obtain ⟨-, c, here, -⟩ := promise
      simp [ThreadSystem.createAssign, write, Heap.modify_of_cell here]
  | ref base at_t known =>
      have positive : 0 < s.tokens base := by
        rcases known with held | ⟨value, nonnull⟩
        · unfold tokens
          omega
        · exact Known.tokens_pos (t := t) ⟨nonnull, .inl value⟩
      obtain ⟨c, here⟩ := (ledger.counted base).alive positive
      simp [ThreadSystem.ref, write, Heap.modify_of_cell here]
  | unref base at_t owned =>
      obtain ⟨c, here⟩ := (ledger.counted base).alive (by unfold tokens; omega)
      simp [ThreadSystem.unref, write, unhold, Heap.load_of_cell here, Heap.modify_of_cell here]
  | @free base ends at_t =>
      have frees : 0 < total (ThreadState.frees base) s.threads :=
        total_pos (t := t) (by simp [ThreadState.frees, at_t])
      cases here : s.objects.cell base with
      | none =>
          have nobody := ((ledger.counted base).gone here).2
          omega
      | some c => simp [ThreadSystem.free, Heap.free_of_cell here]
  | @exitCheck base code at_t =>
      rw [at_t] at promise
      obtain ⟨-, c, here, -⟩ := promise
      simp [ThreadSystem.exitCheck, Heap.load_of_cell here]
  | @exitAssign base code at_t =>
      rw [at_t] at promise
      obtain ⟨-, c, here, -⟩ := promise
      simp [ThreadSystem.exitAssign, write, Heap.modify_of_cell here]
  | @joinCheck base at_t =>
      obtain ⟨c, here⟩ := (ledger.counted base).alive
        (tokens_pos (t := t) (by simp [ThreadState.own, at_t, Control.ref]))
      simp [ThreadSystem.joinCheck, Heap.load_of_cell here]
  | @joinWait base at_t =>
      rw [at_t] at promise
      obtain ⟨c, here, handled⟩ := promise
      obtain ⟨u, hdl⟩ := Option.isSome_iff_exists.mp handled
      simp [ThreadSystem.joinWait, Heap.load_of_cell here, hdl]
  | @joinFails base at_t =>
      rw [at_t] at promise
      obtain ⟨c, here, -⟩ := promise
      simp [ThreadSystem.joinFails, Heap.load_of_cell here]
  | @joinRead base joined at_t =>
      rw [at_t] at promise
      obtain ⟨c, u, here, -⟩ := promise
      simp [ThreadSystem.joinRead, Heap.load_of_cell here]
  | @proxyFunc base args at_t =>
      rw [at_t] at promise
      obtain ⟨-, prepared, -⟩ := promise
      obtain ⟨c, here, -⟩ := prepared.mine
      simp [ThreadSystem.proxyFunc, Heap.load_of_cell here]
  | @cleanupUnref base at_t =>
      obtain ⟨c, here⟩ := (ledger.counted base).alive
        (tokens_pos (t := t) (by simp [ThreadState.own, at_t, Control.ref]))
      simp [ThreadSystem.unref, write, Heap.load_of_cell here, Heap.modify_of_cell here]
  | _ => exact ⟨_, rfl⟩

end ThreadSystem

open ThreadSystem

variable {ι : Type} [Fintype ι] [DecidableEq ι] {foreign : ι → Bool} {s : ThreadSystem ι} {base : Addr}
  {args : CreateArgs} {t : ι}

/-! ## The run of two threads

The first one creates the second one, which exits with 7, and joins it. -/

section TwoThreads

omit [Fintype ι] in
theorem ThreadsReach.next {s' : ThreadSystem ι} {allowed : ThreadSystem ι → Prop} {r : Exec (ThreadSystem ι)}
    (reached : ThreadsReach foreign allowed s) (step : ThreadStep t s r) (result : r = .ok s') (meets : allowed s') :
    ThreadsReach foreign allowed s' := by
  subst result
  exact .step reached step meets

theorem ThreadSystem.bounded_of_few {s : ThreadSystem Bool} (few : ∀ base, s.held base + s.lost base ≤ 1) : s.Bounded := by
  intro base
  have own := total_le fun t => (s.threads t).own_le base
  have early := total_le fun t => (s.threads t).early_le base
  have others := few base
  rw [Fintype.card_bool] at own early
  unfold tokens
  omega

def twoThreadsArgs : CreateArgs := ⟨5, 6, true, none⟩

theorem two_threads_few {held : Nat} (few : held ≤ 1) (f : Addr → Nat) (none : ∀ base, base ≠ 1 → f base = 0)
    (base : Addr) : Function.update f 1 held base + 0 ≤ 1 := by
  by_cases same : base = 1
  · subst same
    simpa using few
  · simp [same, none base same]

theorem two_threads : (∃ s : ThreadSystem Bool, ThreadsReach (fun t => !t) Bounded s ∧
      (s.threads true).control = .proxyFunc 1 twoThreadsArgs) ∧
    ∃ s : ThreadSystem Bool, ThreadsReach (fun t => !t) Bounded s ∧ (s.threads false).control = .joinRead 1 true ∧
      (s.objects.cell 1).map PUThread.hdl = some (some true) ∧ s.code true = 7 := by
  have none : ∀ base : Addr, 0 + 0 ≤ 1 := fun _ => by decide
  have one := two_threads_few (Nat.le_refl 1) (fun _ => 0) fun _ _ => rfl
  have zero := two_threads_few (Nat.zero_le 1) (Function.update (fun _ => 0) 1 1) fun _ other => by simp [other]
  have begins : ThreadsReach (ι := Bool) (fun t => !t) Bounded _ := .start
  -- the creator fills the object
  have called := begins.next (t := false) (.create twoThreadsArgs rfl (by decide)) rfl (bounded_of_few none)
  have locked := called.next (t := false) (.createLock rfl) rfl (bounded_of_few none)
  have made := locked.next (t := false) (.createInternal true 1 rfl (by decide) rfl rfl) rfl (bounded_of_few none)
  have counted := made.next (t := false) (.createAssign true rfl) rfl (bounded_of_few none)
  have ours := counted.next (t := false) (.createAssign true rfl) rfl (bounded_of_few none)
  have joinable := ours.next (t := false) (.createAssign true rfl) rfl (bounded_of_few none)
  have func := joinable.next (t := false) (.createAssign true rfl) rfl (bounded_of_few none)
  have data := func.next (t := false) (.createAssign true rfl) rfl (bounded_of_few none)
  have named := data.next (t := false) (.createAssign true rfl) rfl (bounded_of_few none)
  have created := named.next (t := false) (.createUnlock rfl) rfl (bounded_of_few one)
  -- the new thread gets past the spin lock
  have known := created.next (t := true) (.proxyStart true rfl) rfl (bounded_of_few one)
  have passing := known.next (t := true) (.proxyLock rfl) rfl (bounded_of_few one)
  have passed := passing.next (t := true) (.proxyUnlock rfl) rfl (bounded_of_few one)
  refine ⟨⟨_, passed, rfl⟩, ?_⟩
  -- it exits, and the first thread waits for that
  have running := passed.next (t := true) (.proxyFunc rfl) rfl (bounded_of_few one)
  have exits := running.next (t := true) (.exit 7 rfl (by decide)) rfl (bounded_of_few one)
  have checked := exits.next (t := true) (.exitCheck rfl) rfl (bounded_of_few one)
  have exited := checked.next (t := true) (.exitAssign rfl) rfl (bounded_of_few one)
  have due := exited.next (t := true) (.cleanup rfl) rfl (bounded_of_few one)
  have ends := due.next (t := true) (.cleanupUnref rfl) rfl (bounded_of_few one)
  have joins := ends.next (t := false) (.join 1 rfl (by decide)) rfl (bounded_of_few zero)
  have waits := joins.next (t := false) (.joinCheck rfl) rfl (bounded_of_few zero)
  have joined := waits.next (t := false) (.joinWait rfl) rfl (bounded_of_few zero)
  exact ⟨_, joined, rfl, rfl, rfl⟩

end TwoThreads

/-- No step uses an object that was freed, an object is there as long as somebody has a
    reference to it, and the last reference makes one thread free it. -/
theorem thread_objects_live (reached : ThreadsReach foreign Bounded s) :
    (∀ t r, ThreadStep t s r → ∃ s', r = .ok s') ∧
    (∀ base, (s.objects.cell base).isSome ↔ 0 < s.tokens base ∨ ∃ t ends, (s.threads t).control = .freeing base ends) ∧
    ∀ base t u ends ends', (s.threads t).control = .freeing base ends → (s.threads u).control = .freeing base ends' →
      t = u ∧ s.tokens base = 0 := by
  obtain ⟨-, ledger, identity⟩ := laws_of_reached reached
  refine ⟨fun t r step => step_succeeds ledger identity step, fun base => ?_, ?_⟩
  · cases here : s.objects.cell base with
    | none =>
        obtain ⟨none, nobody⟩ := (ledger.counted base).gone here
        simp only [Option.isSome_none, Bool.false_eq_true, false_iff]
        rintro (positive | ⟨t, ends, at_t⟩)
        · omega
        · have mine := total_eq_zero.mp nobody t
          simp [ThreadState.frees, at_t] at mine
    | some c =>
        simp only [Option.isSome_some, true_iff]
        obtain ⟨-, freed⟩ := (ledger.counted base).counter c here
        by_cases zero : s.tokens base = 0
        · rw [if_pos zero] at freed
          obtain ⟨t, frees⟩ := exists_of_total_pos (w := ThreadState.frees base) (f := s.threads) (by omega)
          exact .inr ⟨t, control_of_frees frees⟩
        · exact .inl (Nat.pos_of_ne_zero zero)
  · intro base t u ends ends' at_t at_u
    have mine := le_total (ThreadState.frees base) s.threads t
    simp only [ThreadState.frees, at_t, if_pos] at mine
    cases here : s.objects.cell base with
    | none =>
        have nobody := ((ledger.counted base).gone here).2
        omega
    | some c =>
        obtain ⟨-, freed⟩ := (ledger.counted base).counter c here
        refine ⟨?_, by split at freed <;> omega⟩
        by_contra apart
        have both := add_le_total (ThreadState.frees base) s.threads apart
        simp only [ThreadState.frees, at_t, at_u, if_pos] at both
        split at freed <;> omega

theorem thread_objects_live_joined : ∃ s : ThreadSystem Bool, (s.threads false).control = .joinRead 1 true ∧
    (s.objects.cell 1).isSome ∧ ∀ t r, ThreadStep t s r → ∃ s', r = .ok s' := by
  obtain ⟨s, reached, at_false, object, -⟩ := two_threads.2
  obtain ⟨safe, live, -⟩ := thread_objects_live reached
  refine ⟨s, at_false, ?_, safe⟩
  cases here : s.objects.cell 1 with
  | none => simp [here] at object
  | some c => rfl

/-- Past the spin lock a new thread finds its own object, with what it was created with. -/
theorem new_thread_finds_its_object (reached : ThreadsReach foreign Bounded s)
    (at_t : (s.threads t).control = .proxyFunc base args) : ∃ c, s.objects.cell base = some c ∧ c.hdl = some t ∧
      c.ours = true ∧ c.joinable = args.joinable ∧ c.func = args.func ∧ c.data = args.data ∧
      (c.name = args.name ∨ c.name = none) := by
  obtain ⟨-, ledger, identity⟩ := laws_of_reached reached
  have promise := identity.promise t
  rw [at_t] at promise
  obtain ⟨-, prepared, quiet⟩ := promise
  obtain ⟨c, here, mine, filled⟩ := prepared.mine
  have assigned := filled quiet
  exact ⟨c, here, mine, assigned.ours (by decide), assigned.joinable (by decide), assigned.func (by decide),
    assigned.data (by decide), assigned.name⟩

theorem new_thread_finds_its_object_two : ∃ (s : ThreadSystem Bool) (c : PUThread Bool), s.objects.cell 1 = some c ∧
    c.hdl = some true ∧ c.func = 5 ∧ c.data = 6 := by
  obtain ⟨s, reached, at_true⟩ := two_threads.1
  obtain ⟨c, here, mine, -, -, func, data, -⟩ := new_thread_finds_its_object reached at_true
  exact ⟨s, c, here, mine, func, data⟩

/-- After a `pthread_join` that succeeded, `zuthread_join` returns when the thread has ended,
    with the code of its `zuthread_exit`. -/
theorem join_reads_exit_code (reached : ThreadsReach foreign Bounded s)
    (at_t : (s.threads t).control = .joinRead base true) :
    ∃ c u, s.objects.cell base = some c ∧ c.hdl = some u ∧ (s.threads u).control = .ended ∧ c.retCode = s.code u := by
  obtain ⟨-, ledger, identity⟩ := laws_of_reached reached
  have promise := identity.promise t
  rw [at_t] at promise
  obtain ⟨c, u, here, joined, ended⟩ := promise
  exact ⟨c, u, here, joined, ended rfl, (identity.born base c u here joined).2⟩

theorem join_reads_exit_code_seven : ∃ (s : ThreadSystem Bool) (c : PUThread Bool), s.objects.cell 1 = some c ∧
    (s.threads true).control = .ended ∧ c.retCode = 7 := by
  obtain ⟨s, reached, at_false, object, code⟩ := two_threads.2
  obtain ⟨c, u, here, joined, ends, same⟩ := join_reads_exit_code reached at_false
  have mine : u = true := by
    rw [here] at object
    simpa [joined] using object
  subst mine
  exact ⟨s, c, here, ends, same.trans code⟩

end Plibsys.Threads
