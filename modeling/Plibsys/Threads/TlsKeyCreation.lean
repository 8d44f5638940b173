import Plibsys.Threads.PUThreadPosix

/-! # Concurrent creation of a thread-local key

Every call that finds no key creates a candidate.  The exchange lets one of them through;
the others take their candidates back and read the pointer that was published.
-/

namespace Plibsys.Threads

open Support

variable {ι : Type} {s s' : TlsKeys ι} {i j : ι}

namespace TlsKeys

/-- The call has created the live key in this block, and nobody has touched either. -/
structure Owns (s : TlsKeys ι) (i : ι) (threadKey : Addr) (k : PthreadKey) : Prop where
  block : s.storage.cell threadKey = some ⟨k, i⟩
  alive : s.live k = some i
  created : s.created i = some k
  undeleted : s.deletions i = []
  unfreed : s.frees i = []

/-- The call has not created a key. -/
structure Untouched (s : TlsKeys ι) (i : ι) : Prop where
  created : s.created i = none
  undeleted : s.deletions i = []
  unfreed : s.frees i = []

/-- The call has created a key and has itself deleted the key and freed its block, once. -/
structure CleanedUp (s : TlsKeys ι) (i : ι) : Prop where
  created : ∃ k, s.created i = some k
  deleted : s.deletions i = [i]
  freed : s.frees i = [i]

/-- What holds of a call wherever it is. -/
def CallLaw (s : TlsKeys ι) (i : ι) : Prop :=
  match s.call i with
  | .start => s.Untouched i
  | .absent => s.Untouched i
  | .allocated threadKey => s.Untouched i ∧ ∃ k, s.storage.cell threadKey = some ⟨k, i⟩
  | .created threadKey => ∃ k, s.Owns i threadKey k
  | .lost threadKey => s.key ≠ 0 ∧ ∃ k, s.Owns i threadKey k
  | .deleted threadKey => s.key ≠ 0 ∧ s.deletions i = [i] ∧ s.frees i = [] ∧
      ∃ k, s.storage.cell threadKey = some ⟨k, i⟩ ∧ s.created i = some k
  | .freed => s.key ≠ 0 ∧ s.CleanedUp i
  | .returned threadKey => s.key ≠ 0 ∧ threadKey = s.key ∧
      ((∃ k, s.Owns i threadKey k) ∨ s.CleanedUp i ∨ s.Untouched i)

/-- The call whose candidate was published, with its key. -/
structure Winner (s : TlsKeys ι) (i : ι) (k : PthreadKey) : Prop where
  answered : s.call i = .returned s.key
  owns : s.Owns i s.key k

/-- What holds of all states of a run. -/
structure Law (s : TlsKeys ι) : Prop where
  calls : ∀ i, s.CallLaw i
  published : s.key ≠ 0 → ∃ i k, s.Winner i k
  alive : ∀ k i, s.live k = some i → s.created i = some k ∧ s.deletions i = []

/-- What a step of another call leaves alone. -/
structure Kept (s s' : TlsKeys ι) (j : ι) : Prop where
  call : s'.call j = s.call j
  created : s'.created j = s.created j
  deletions : s'.deletions j = s.deletions j
  frees : s'.frees j = s.frees j
  block : ∀ threadKey k, s.storage.cell threadKey = some ⟨k, j⟩ → s'.storage.cell threadKey = some ⟨k, j⟩
  alive : ∀ k, s.live k = some j → s'.live k = some j
  key : s.key ≠ 0 → s'.key = s.key

end TlsKeys

open TlsKeys

section Kept

theorem TlsKeys.Owns.kept {threadKey : Addr} {k : PthreadKey} (owns : s.Owns j threadKey k) (kept : Kept s s' j) :
    s'.Owns j threadKey k where
  block := kept.block _ _ owns.block
  alive := kept.alive _ owns.alive
  created := kept.created.trans owns.created
  undeleted := kept.deletions.trans owns.undeleted
  unfreed := kept.frees.trans owns.unfreed

theorem TlsKeys.Untouched.kept (untouched : s.Untouched j) (kept : Kept s s' j) : s'.Untouched j where
  created := kept.created.trans untouched.created
  undeleted := kept.deletions.trans untouched.undeleted
  unfreed := kept.frees.trans untouched.unfreed

theorem TlsKeys.CleanedUp.kept (cleaned : s.CleanedUp j) (kept : Kept s s' j) : s'.CleanedUp j where
  created := kept.created ▸ cleaned.created
  deleted := kept.deletions.trans cleaned.deleted
  freed := kept.frees.trans cleaned.freed

/-- The law of a call survives the steps of the others. -/
theorem callLaw_kept (law : s.CallLaw j) (kept : Kept s s' j) : s'.CallLaw j := by
  have keyKept : s.key ≠ 0 → s'.key ≠ 0 := fun published => (kept.key published).symm ▸ published
  unfold CallLaw at law ⊢
  rw [kept.call]
  cases at_j : s.call j with
  | start =>
      rw [at_j] at law
      exact law.kept kept
  | absent =>
      rw [at_j] at law
      exact law.kept kept
  | allocated threadKey =>
      rw [at_j] at law
      obtain ⟨untouched, k, block⟩ := law
      exact ⟨untouched.kept kept, k, kept.block _ _ block⟩
  | created threadKey =>
      rw [at_j] at law
      obtain ⟨k, owns⟩ := law
      exact ⟨k, owns.kept kept⟩
  | lost threadKey =>
      rw [at_j] at law
      obtain ⟨published, k, owns⟩ := law
      exact ⟨keyKept published, k, owns.kept kept⟩
  | deleted threadKey =>
      rw [at_j] at law
      obtain ⟨published, deleted, unfreed, k, block, created⟩ := law
      exact ⟨keyKept published, kept.deletions.trans deleted, kept.frees.trans unfreed, k, kept.block _ _ block,
        kept.created.trans created⟩
  | freed =>
      rw [at_j] at law
      exact ⟨keyKept law.1, law.2.kept kept⟩
  | returned threadKey =>
      rw [at_j] at law
      obtain ⟨published, same, role⟩ := law
      refine ⟨keyKept published, same.trans (kept.key published).symm, ?_⟩
      rcases role with ⟨k, owns⟩ | cleaned | untouched
      · exact Or.inl ⟨k, owns.kept kept⟩
      · exact Or.inr (Or.inl (cleaned.kept kept))
      · exact Or.inr (Or.inr (untouched.kept kept))

/-- A block and its key belong to the call that is about to delete or free them. -/
theorem lost_owns (law : s.Law) {threadKey : Addr} {block : KeyBlock ι} (at_i : s.call i = .lost threadKey)
    (read : s.storage.cell threadKey = some block) :
    s.key ≠ 0 ∧ block.allocatedBy = i ∧ s.Owns i threadKey block.value := by
  have here := law.calls i
  rw [CallLaw, at_i] at here
  obtain ⟨published, k, owns⟩ := here
  obtain rfl : block = ⟨k, i⟩ := Option.some.inj (read.symm.trans owns.block)
  exact ⟨published, rfl, owns⟩

end Kept

section Steps

variable [DecidableEq ι]

@[simp] theorem goto_call_self (s : TlsKeys ι) (i : ι) (next : TlsCall) : (s.goto i next).call i = next :=
  Function.update_self ..

theorem goto_call_other (s : TlsKeys ι) (next : TlsCall) (other : j ≠ i) : (s.goto i next).call j = s.call j :=
  Function.update_of_ne other ..

theorem step_key (step : TlsStep i s s') (published : s.key ≠ 0) : s'.key = s.key := by
  cases step with
  | exchangeWon threadKey at_i null => exact absurd null published
  | getPublished | getNull | malloc | keyCreate | exchangeLost | keyDelete | free | reread => rfl

/-- A step of one call leaves alone what belongs to another. -/
theorem step_kept (law : s.Law) (step : TlsStep i s s') (other : j ≠ i) : Kept s s' j := by
  have key := step_key step
  cases step with
  | getPublished | getNull | exchangeWon | exchangeLost | reread =>
      exact ⟨goto_call_other _ _ other, rfl, rfl, rfl, fun _ _ block => block, fun _ alive => alive, key⟩
  | malloc threadKey at_i nonnull free =>
      refine ⟨goto_call_other _ _ other, rfl, rfl, rfl, fun a k block => ?_, fun _ alive => alive, key⟩
      have elsewhere : a ≠ threadKey := by
        rintro rfl
        rw [free] at block
        cases block
      exact (if_neg elsewhere).trans block
  | keyCreate threadKey k at_i unused readable =>
      have here := law.calls i
      rw [CallLaw, at_i] at here
      obtain ⟨-, value, own⟩ := here
      refine ⟨goto_call_other _ _ other, Function.update_of_ne other _ _, rfl, rfl, fun a k' block => ?_,
        fun k' alive => ?_, key⟩
      · have elsewhere : a ≠ threadKey := by
          rintro rfl
          exact other (congrArg KeyBlock.allocatedBy (Option.some.inj (block.symm.trans own)))
        exact (if_neg elsewhere).trans block
      · have different : k' ≠ k := by
          rintro rfl
          rw [unused] at alive
          cases alive
        exact (Function.update_of_ne different _ _).trans alive
  | keyDelete threadKey block creator at_i read alive =>
      obtain ⟨-, -, owns⟩ := lost_owns law at_i read
      obtain rfl : creator = i := Option.some.inj (alive.symm.trans owns.alive)
      refine ⟨goto_call_other _ _ other, rfl, Function.update_of_ne other _ _, rfl, fun _ _ block => block,
        fun k' alive' => ?_, key⟩
      have different : k' ≠ block.value := by
        rintro rfl
        exact other (Option.some.inj (alive'.symm.trans owns.alive))
      exact (Function.update_of_ne different _ _).trans alive'
  | free threadKey block at_i read =>
      have here := law.calls i
      rw [CallLaw, at_i] at here
      obtain ⟨-, -, -, k, own, -⟩ := here
      obtain rfl : block = ⟨k, i⟩ := Option.some.inj (read.symm.trans own)
      refine ⟨goto_call_other _ _ other, rfl, rfl, Function.update_of_ne other _ _, fun a k' block => ?_,
        fun _ alive => alive, key⟩
      have elsewhere : a ≠ threadKey := by
        rintro rfl
        exact other (congrArg KeyBlock.allocatedBy (Option.some.inj (block.symm.trans own)))
      exact (if_neg elsewhere).trans block

/-- The law of the call that moves. -/
theorem step_self (law : s.Law) (step : TlsStep i s s') : s'.CallLaw i := by
  have here := law.calls i
  unfold CallLaw at here ⊢
  cases step with
  | getPublished at_i published =>
      rw [at_i] at here
      rw [goto_call_self]
      exact ⟨published, rfl, Or.inr (Or.inr ⟨here.created, here.undeleted, here.unfreed⟩)⟩
  | getNull at_i null =>
      rw [at_i] at here
      rw [goto_call_self]
      exact ⟨here.created, here.undeleted, here.unfreed⟩
  | malloc threadKey at_i nonnull free =>
      rw [at_i] at here
      rw [goto_call_self]
      exact ⟨⟨here.created, here.undeleted, here.unfreed⟩, 0, if_pos rfl⟩
  | keyCreate threadKey k at_i unused readable =>
      rw [at_i] at here
      rw [goto_call_self]
      obtain ⟨untouched, value, own⟩ := here
      refine ⟨k, ?_, Function.update_self .., Function.update_self .., untouched.undeleted, untouched.unfreed⟩
      exact (Heap.cell_adjust_self _ _ _).trans (congrArg (Option.map _) own)
  | exchangeWon threadKey at_i null =>
      rw [at_i] at here
      rw [goto_call_self]
      obtain ⟨k, owns⟩ := here
      refine ⟨?_, rfl, Or.inl ⟨k, owns.block, owns.alive, owns.created, owns.undeleted, owns.unfreed⟩⟩
      rintro rfl
      exact absurd (s.storage.null_free.symm.trans owns.block) (by simp)
  | exchangeLost threadKey at_i published =>
      rw [at_i] at here
      rw [goto_call_self]
      obtain ⟨k, owns⟩ := here
      exact ⟨published, k, owns.block, owns.alive, owns.created, owns.undeleted, owns.unfreed⟩
  | keyDelete threadKey block creator at_i read alive =>
      obtain ⟨published, mine, owns⟩ := lost_owns law at_i read
      obtain rfl : creator = i := Option.some.inj (alive.symm.trans owns.alive)
      rw [goto_call_self]
      refine ⟨published, ?_, owns.unfreed, block.value, owns.block, owns.created⟩
      exact (Function.update_self ..).trans (by rw [owns.undeleted, List.nil_append])
  | free threadKey block at_i read =>
      rw [at_i] at here
      obtain ⟨published, deleted, unfreed, k, own, created⟩ := here
      obtain rfl : block = ⟨k, i⟩ := Option.some.inj (read.symm.trans own)
      rw [goto_call_self]
      refine ⟨published, ⟨k, created⟩, deleted, ?_⟩
      exact (Function.update_self ..).trans (by rw [unfreed, List.nil_append])
  | reread at_i =>
      rw [at_i] at here
      rw [goto_call_self]
      exact ⟨here.1, rfl, Or.inr (Or.inl ⟨here.2.created, here.2.deleted, here.2.freed⟩)⟩

/-- A call that has returned makes no step. -/
theorem step_not_returned (step : TlsStep i s s') (threadKey : Addr) : s.call i ≠ .returned threadKey := by
  intro at_i'
  cases step <;> rename_i at_i <;> simp_all

theorem step_published (law : s.Law) (step : TlsStep i s s') (published : s'.key ≠ 0) :
    ∃ w k, s'.Winner w k := by
  by_cases before : s.key = 0
  · cases step with
    | exchangeWon threadKey at_i null =>
        have here := law.calls i
        rw [CallLaw, at_i] at here
        obtain ⟨k, owns⟩ := here
        exact ⟨i, k, goto_call_self _ _ _, owns.block, owns.alive, owns.created, owns.undeleted, owns.unfreed⟩
    | getPublished | getNull | malloc | keyCreate | exchangeLost | keyDelete | free | reread =>
        exact absurd before published
  · obtain ⟨w, k, winner⟩ := law.published before
    have other : w ≠ i := by
      rintro rfl
      exact step_not_returned step _ winner.answered
    have kept := step_kept law step other
    have same := step_key step before
    exact ⟨w, k, kept.call.trans (same.symm ▸ winner.answered), same.symm ▸ winner.owns.kept kept⟩

theorem step_alive (law : s.Law) (step : TlsStep i s s') (k : PthreadKey) (c : ι) (alive : s'.live k = some c) :
    s'.created c = some k ∧ s'.deletions c = [] := by
  cases step with
  | getPublished | getNull | malloc | exchangeWon | exchangeLost | free | reread => exact law.alive k c alive
  | keyCreate threadKey k' at_i unused readable =>
      have here := law.calls i
      rw [CallLaw, at_i] at here
      by_cases same : k = k'
      · subst same
        have creator : Function.update s.live k (some i) k = some c := alive
        rw [Function.update_self] at creator
        obtain rfl : i = c := Option.some.inj creator
        exact ⟨Function.update_self .., here.1.undeleted⟩
      · obtain ⟨created, undeleted⟩ := law.alive k c ((Function.update_of_ne same _ _).symm.trans alive)
        have other : c ≠ i := by
          rintro rfl
          rw [here.1.created] at created
          cases created
        exact ⟨(Function.update_of_ne other _ _).trans created, undeleted⟩
  | keyDelete threadKey block creator at_i read alive' =>
      obtain ⟨-, -, owns⟩ := lost_owns law at_i read
      obtain rfl : creator = i := Option.some.inj (alive'.symm.trans owns.alive)
      have different : k ≠ block.value := by
        rintro rfl
        have dead : some c = none := alive.symm.trans (Function.update_self ..)
        cases dead
      obtain ⟨created, undeleted⟩ := law.alive k c ((Function.update_of_ne different _ _).symm.trans alive)
      have other : c ≠ creator := by
        rintro rfl
        exact different (Option.some.inj (created.symm.trans owns.created))
      exact ⟨created, (Function.update_of_ne other _ _).trans undeleted⟩

theorem step_law (law : s.Law) (step : TlsStep i s s') : s'.Law where
  calls j := by
    by_cases same : j = i
    · exact same ▸ step_self law step
    · exact callLaw_kept (law.calls j) (step_kept law step same)
  published := step_published law step
  alive := step_alive law step

end Steps

section Finished

/-- When all calls are over, only the winner's key is alive, and everybody else has cleaned
    up after itself. -/
theorem finished (law : s.Law) (calls : Nonempty ι) (allOver : ∀ i, ∃ threadKey, s.call i = .returned threadKey) :
    ∃ w k, s.Winner w k ∧ (∀ k' c, s.live k' = some c ↔ k' = k ∧ c = w) ∧
      ∀ i, i ≠ w → ∀ k', s.created i = some k' → s.deletions i = [i] ∧ s.frees i = [i] := by
  obtain ⟨first⟩ := calls
  obtain ⟨_, at_first⟩ := allOver first
  have here := law.calls first
  rw [CallLaw, at_first] at here
  obtain ⟨w, k, winner⟩ := law.published here.1
  have onlyWinner : ∀ i k' , s.Owns i s.key k' → i = w ∧ k' = k := by
    intro i k' owns
    have same := Option.some.inj (owns.block.symm.trans winner.owns.block)
    exact ⟨congrArg KeyBlock.allocatedBy same, congrArg KeyBlock.value same⟩
  refine ⟨w, k, winner, fun k' c => ⟨fun alive => ?_, ?_⟩, fun i other k' created => ?_⟩
  · obtain ⟨created, undeleted⟩ := law.alive k' c alive
    obtain ⟨threadKey, at_c⟩ := allOver c
    have law_c := law.calls c
    rw [CallLaw, at_c] at law_c
    obtain ⟨-, rfl, role⟩ := law_c
    rcases role with ⟨k₂, owns⟩ | cleaned | untouched
    · obtain ⟨rfl, rfl⟩ := onlyWinner c k₂ owns
      exact ⟨Option.some.inj (created.symm.trans owns.created), rfl⟩
    · rw [cleaned.deleted] at undeleted
      cases undeleted
    · rw [untouched.created] at created
      cases created
  · rintro ⟨rfl, rfl⟩
    exact winner.owns.alive
  · obtain ⟨threadKey, at_i⟩ := allOver i
    have law_i := law.calls i
    rw [CallLaw, at_i] at law_i
    obtain ⟨-, rfl, role⟩ := law_i
    rcases role with ⟨k₂, owns⟩ | cleaned | untouched
    · exact absurd (onlyWinner i k₂ owns).1 other
    · exact ⟨cleaned.deleted, cleaned.freed⟩
    · rw [untouched.created] at created
      cases created

end Finished

section Runs

variable [DecidableEq ι]

omit [DecidableEq ι] in
theorem initial_law (ι : Type) : (TlsKeys.initial ι).Law where
  calls _ := ⟨rfl, rfl, rfl⟩
  published published := absurd rfl published
  alive _ _ alive := by cases alive

theorem run_law (run : TlsRun (TlsKeys.initial ι) s) : s.Law := by
  induction run with
  | refl => exact initial_law ι
  | tail _ move ih =>
      obtain ⟨i, step⟩ := move
      exact step_law ih step

/-- What was published stays published. -/
theorem run_key {later : TlsKeys ι} (run : TlsRun s later) (published : s.key ≠ 0) : later.key = s.key := by
  induction run with
  | refl => rfl
  | tail _ move ih =>
      obtain ⟨i, step⟩ := move
      exact (step_key step (ih.symm ▸ published)).trans ih

/-- No call gets stuck: where the system has a key left, each can make its next step. -/
theorem call_moves (law : s.Law) (i : ι) (unfinished : ∀ threadKey, s.call i ≠ .returned threadKey)
    (spare : ∃ k, s.live k = none) : ∃ s', TlsStep i s s' := by
  have here := law.calls i
  unfold CallLaw at here
  cases at_i : s.call i with
  | start =>
      by_cases null : s.key = 0
      · exact ⟨_, .getNull at_i null⟩
      · exact ⟨_, .getPublished at_i null⟩
  | absent => exact ⟨_, .malloc (s.storage.bound + 1) at_i (Nat.succ_ne_zero _) (s.storage.free_above _ (Nat.le_succ _))⟩
  | allocated threadKey =>
      rw [at_i] at here
      obtain ⟨-, value, own⟩ := here
      obtain ⟨k, unused⟩ := spare
      exact ⟨_, .keyCreate threadKey k at_i unused (Option.isSome_of_eq_some own)⟩
  | created threadKey =>
      by_cases null : s.key = 0
      · exact ⟨_, .exchangeWon threadKey at_i null⟩
      · exact ⟨_, .exchangeLost threadKey at_i null⟩
  | lost threadKey =>
      rw [at_i] at here
      obtain ⟨-, k, owns⟩ := here
      exact ⟨_, .keyDelete threadKey ⟨k, i⟩ i at_i owns.block owns.alive⟩
  | deleted threadKey =>
      rw [at_i] at here
      obtain ⟨-, -, -, k, own, -⟩ := here
      exact ⟨_, .free threadKey ⟨k, i⟩ at_i own⟩
  | freed => exact ⟨_, .reread at_i⟩
  | returned threadKey => exact absurd at_i (unfinished threadKey)

/-- Whatever the interleaving: the published pointer never changes and its key is never
    deleted; every call answers it; and when all calls are over, one created key is alive and
    each of the others was deleted and freed once, by the call that created it. -/
theorem tls_key_agreement (run : TlsRun (TlsKeys.initial ι) s) :
    (∀ later, TlsRun s later → s.key ≠ 0 → later.key = s.key) ∧
    (∀ i threadKey, s.call i = .returned threadKey → threadKey = s.key ∧ s.key ≠ 0) ∧
    (s.key ≠ 0 → ∃ w k, s.Winner w k) ∧
    (Nonempty ι → (∀ i, ∃ threadKey, s.call i = .returned threadKey) →
      ∃ w k, s.Winner w k ∧ (∀ k' c, s.live k' = some c ↔ k' = k ∧ c = w) ∧
        ∀ i, i ≠ w → ∀ k', s.created i = some k' → s.deletions i = [i] ∧ s.frees i = [i]) := by
  have law := run_law run
  refine ⟨fun later rest published => run_key rest published, fun i threadKey at_i => ?_, law.published,
    fun calls allOver => finished law calls allOver⟩
  have here := law.calls i
  rw [CallLaw, at_i] at here
  exact ⟨here.2.1, here.1⟩

/-- Two calls that both create a candidate. -/
theorem race : ∃ s, TlsRun (TlsKeys.initial Bool) s ∧ s.key = 2 ∧ ∀ i, s.call i = .returned 2 := by
  refine ⟨_, .tail (.tail (.tail (.tail (.tail (.tail (.tail (.tail (.tail (.tail (.tail .refl
    ⟨true, .getNull rfl rfl⟩) ⟨false, .getNull rfl rfl⟩)
    ⟨true, .malloc 1 rfl (by decide) rfl⟩) ⟨false, .malloc 2 rfl (by decide) rfl⟩)
    ⟨true, .keyCreate 1 10 rfl rfl rfl⟩) ⟨false, .keyCreate 2 11 rfl rfl rfl⟩)
    ⟨false, .exchangeWon 2 rfl rfl⟩) ⟨true, .exchangeLost 1 rfl (by decide)⟩)
    ⟨true, .keyDelete 1 ⟨10, true⟩ true rfl rfl rfl⟩) ⟨true, .free 1 ⟨10, true⟩ rfl rfl⟩)
    ⟨true, .reread rfl⟩, rfl, ?_⟩
  intro i
  cases i <;> rfl

/-- In the race one key is left, and both calls answer its block. -/
theorem tls_key_agreement_race : ∃ s, TlsRun (TlsKeys.initial Bool) s ∧ s.key = 2 ∧
    ∃ w k, s.Winner w k ∧ (∀ k' c, s.live k' = some c ↔ k' = k ∧ c = w) ∧
      ∀ i, i ≠ w → ∀ k', s.created i = some k' → s.deletions i = [i] ∧ s.frees i = [i] := by
  obtain ⟨s, run, key, answers⟩ := race
  exact ⟨s, run, key, (tls_key_agreement run).2.2.2 ⟨true⟩ fun i => ⟨2, answers i⟩⟩

end Runs

end Plibsys.Threads
