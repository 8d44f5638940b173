import Plibsys.Shm.AccessModes

/-! # Semaphores over runs

Any number of handles, of any processes, on the semaphores of one system, which has none at
first.  The handles are made, given the ownership, used and freed in any order, and every call
of the system is a step of its own.  Beside the state there is a record of what happened: how
often the name of a key was taken away, and how often each semaphore was acquired and released.
-/

namespace Plibsys.Shm

/-- What a process does next with one of the handles. -/
inductive SemOp where
  /-- `zsemaphore_new`, up to its first `sem_open`. -/
  | new (i : Nat) (name : String) (initVal : PInt) (mode : PSemaphoreAccessMode)
  /-- The next call of the system in `zsemaphore_new`. -/
  | goOn (i : Nat)
  | takeOwnership (i : Nat)
  | acquire (i : Nat)
  | release (i : Nat)
  | free (i : Nat)
  deriving Repr, DecidableEq

/-- What there is in the place of a handle. -/
inductive SemHandle where
  | unused
  /-- In `pzsemaphore_create_handle`, at `sem_unlink`. -/
  | unlinking (sem : PSemaphore)
  /-- At the second `sem_open`. -/
  | opening (sem : PSemaphore)
  | made (sem : PSemaphore)
  deriving Repr, DecidableEq

/-- `sem`, when it is made. -/
def SemHandle.sem : SemHandle → Option PSemaphore
  | made sem => some sem
  | _ => none

/-- The system with the handles of its processes, and the record. -/
structure SemClients where
  ns : SemNamespace
  handles : Nat → SemHandle
  /-- How often the name of a key was taken away. -/
  unlinks : String → Nat
  /-- What that was for its key when a handle was made. -/
  epoch : Nat → Nat
  /-- The values that the semaphores were made with. -/
  initial : Nat → Nat
  acquired : Nat → Nat
  released : Nat → Nat

/-- One more for the semaphore of a handle. -/
def countAt (counts : Nat → Nat) (hdl : Option Nat) : Nat → Nat :=
  match hdl with
  | some id => Function.update counts id (counts id + 1)
  | none => counts

namespace SemClients

/-- A system without semaphores. -/
def boot : SemClients where
  ns := ⟨fun _ => none, [], nofun⟩
  handles := fun _ => .unused
  unlinks := fun _ => 0
  epoch := fun _ => 0
  initial := fun _ => 0
  acquired := fun _ => 0
  released := fun _ => 0

/-- The names change, and a name that is gone is recorded. -/
def moved (s : SemClients) (ns : SemNamespace) : SemClients :=
  { s with
    ns := ns
    unlinks := fun key => if (s.ns.names key).isSome ∧ ns.names key = none then s.unlinks key + 1 else s.unlinks key }

/-- A new handle, with a new semaphore where it has made one. -/
def opened (s : SemClients) (i : Nat) (sem : PSemaphore) (ns : SemNamespace) : SemClients :=
  { s.moved ns with
    handles := Function.update s.handles i (.made sem)
    epoch := Function.update s.epoch i ((s.moved ns).unlinks sem.platformKey)
    initial := if s.ns.values.length < ns.values.length then Function.update s.initial s.ns.values.length sem.initVal.toNat
      else s.initial }

/-- The place of a handle changes. -/
def place (s : SemClients) (i : Nat) (handle : SemHandle) : SemClients :=
  { s with handles := Function.update s.handles i handle }

/-- A step, which is not possible without a handle, in the place of another one, or while it
    blocks. -/
def step (platformKey : String → String) (s : SemClients) : SemOp → Option SemClients
  | .new i name initVal mode =>
      if s.handles i ≠ .unused then
        none
      else if initVal.toInt < 0 then
        some s
      else
        let sem : PSemaphore := ⟨false, semaphoreKey platformKey name, none, mode, initVal⟩
        match s.ns.semOpen ⟨true, true⟩ sem.platformKey sem.initVal.toNat with
        | (.ok id, ns) => some (s.opened i { sem with semCreated := true, semHdl := some id } ns)
        | (.error .eexist, _) => some (s.place i (if mode = .create then .unlinking sem else .opening sem))
        | (.error _, _) => some s
  | .goOn i =>
      match s.handles i with
      | .unlinking sem => some ((s.moved (s.ns.semUnlink sem.platformKey)).place i (.opening sem))
      | .opening sem =>
          -- neither O_CREAT nor O_EXCL
          match s.ns.semOpen ⟨false, false⟩ sem.platformKey 0 with
          | (.ok id, ns) => some (s.opened i { sem with semHdl := some id } ns)
          | (.error _, _) => some (s.place i .unused)
      | _ => none
  | .takeOwnership i => do
      let sem ← (s.handles i).sem
      some (s.place i (.made (zsemaphoreTakeOwnership sem)))
  | .acquire i => do
      let sem ← (s.handles i).sem
      let ns ← zsemaphoreAcquire sem s.ns
      some { s with ns := ns, acquired := countAt s.acquired sem.semHdl }
  | .release i => do
      let sem ← (s.handles i).sem
      match zsemaphoreRelease sem s.ns with
      | (none, ns) => some { s with ns := ns, released := countAt s.released sem.semHdl }
      | (some _, ns) => some { s with ns := ns }
  | .free i => do
      let sem ← (s.handles i).sem
      some ((s.moved (zsemaphoreFree sem s.ns)).place i .unused)

/-- Steps one after the other. -/
def run (platformKey : String → String) (s : SemClients) (ops : List SemOp) : Option SemClients :=
  ops.foldlM (step platformKey) s

end SemClients

/-! ## Names -/

/-- Every semaphore has a key and a time of its own, and its name stands for it until the name
    is taken away. -/
structure Numbered (ns : SemNamespace) (unlinks : String → Nat) (origin : Nat → String × Nat) : Prop where
  named : ∀ key id, ns.names key = some id → origin id = (key, unlinks key)
  past : ∀ id, id < ns.values.length → (origin id).2 ≤ unlinks (origin id).1
  current : ∀ id, id < ns.values.length → (origin id).2 = unlinks (origin id).1 → ns.names (origin id).1 = some id
  once : ∀ id id', id < ns.values.length → id' < ns.values.length → origin id = origin id' → id = id'

variable {ns ns' : SemNamespace} {unlinks unlinks' : String → Nat} {origin : Nat → String × Nat}

/-- Only values change. -/
theorem Numbered.values (numbered : Numbered ns unlinks origin) (names : ns'.names = ns.names)
    (length : ns'.values.length = ns.values.length) : Numbered ns' unlinks origin where
  named := by rw [names]; exact numbered.named
  past := by rw [length]; exact numbered.past
  current := by rw [length, names]; exact numbered.current
  once := by rw [length]; exact numbered.once

/-- A name is taken away. -/
theorem Numbered.unlink {key : String} (numbered : Numbered ns unlinks origin) (taken : (ns.names key).isSome) :
    Numbered (ns.semUnlink key) (Function.update unlinks key (unlinks key + 1)) origin where
  named := by
    intro other id found
    by_cases same : other = key
    · subst same
      simp [SemNamespace.semUnlink] at found
    · rw [Function.update_of_ne same]
      apply numbered.named
      simpa [SemNamespace.semUnlink, same] using found
  past := by
    intro id inside
    have past := numbered.past id inside
    by_cases same : (origin id).1 = key
    · rw [same, Function.update_self]
      rw [same] at past
      omega
    · rw [Function.update_of_ne same]
      exact past
  current := by
    intro id inside now
    by_cases same : (origin id).1 = key
    · have past := numbered.past id inside
      rw [same] at past now
      rw [Function.update_self] at now
      omega
    · rw [Function.update_of_ne same] at now
      simpa [SemNamespace.semUnlink, same] using numbered.current id inside now
  once := numbered.once

/-- The semaphores of a system with a new one. -/
theorem old_or_new {key : String} {value id : Nat} (inside : id < (ns.bind key value).values.length) :
    id < ns.values.length ∨ id = ns.values.length := by
  simp only [SemNamespace.bind, List.length_append, List.length_singleton] at inside
  omega

/-- A new semaphore under a free name. -/
theorem Numbered.bind {key : String} (numbered : Numbered ns unlinks origin) (free : ns.names key = none) (value : Nat) :
    Numbered (ns.bind key value) unlinks (Function.update origin ns.values.length (key, unlinks key)) where
  named := by
    intro other id found
    by_cases same : other = key
    · subst same
      obtain rfl : ns.values.length = id := by simpa [SemNamespace.bind] using found
      rw [Function.update_self]
    · have found : ns.names other = some id := by simpa [SemNamespace.bind, same] using found
      rw [Function.update_of_ne (Nat.ne_of_lt (ns.known other id found)), numbered.named other id found]
  past := by
    intro id inside
    rcases old_or_new inside with old | rfl
    · rw [Function.update_of_ne (Nat.ne_of_lt old)]
      exact numbered.past id old
    · exact Nat.le_of_eq (by rw [Function.update_self])
  current := by
    intro id inside now
    rcases old_or_new inside with old | rfl
    · rw [Function.update_of_ne (Nat.ne_of_lt old)] at now ⊢
      have found := numbered.current id old now
      have other : (origin id).1 ≠ key := by
        rintro rfl
        rw [free] at found
        contradiction
      simpa [SemNamespace.bind, other] using found
    · rw [Function.update_self]
      simp [SemNamespace.bind]
  once := by
    -- an older semaphore with the key and the time of the new one would still have its name
    have fresh : ∀ id, id < ns.values.length → origin id ≠ (key, unlinks key) := by
      intro id old same
      have found := numbered.current id old (by rw [same])
      rw [same, free] at found
      contradiction
    intro id id' inside inside' same
    rcases old_or_new inside with old | rfl <;> rcases old_or_new inside' with old' | rfl
    · rw [Function.update_of_ne (Nat.ne_of_lt old), Function.update_of_ne (Nat.ne_of_lt old')] at same
      exact numbered.once id id' old old' same
    · rw [Function.update_of_ne (Nat.ne_of_lt old), Function.update_self] at same
      exact absurd same (fresh id old)
    · rw [Function.update_of_ne (Nat.ne_of_lt old'), Function.update_self] at same
      exact absurd same.symm (fresh id' old')
    · rfl

/-! ## Calls -/

/-- What `sem_wait` does when it returns. -/
theorem semWait_eq {id : Nat} (waited : ns.semWait id = some ns') :
    ∃ value, ns.values[id]? = some (value + 1) ∧ ns'.names = ns.names ∧ ns'.values = ns.values.set id value := by
  unfold SemNamespace.semWait at waited
  split at waited
  · next value found =>
      cases waited
      exact ⟨value, found, rfl, rfl⟩
  · contradiction

/-- What `sem_post` does. -/
theorem semPost_cases {id value : Nat} (found : ns.values[id]? = some value) :
    (value < semValueMax ∧ ∃ ns', ns.semPost id = .ok ns' ∧ ns'.names = ns.names ∧ ns'.values = ns.values.set id (value + 1)) ∨
      (semValueMax ≤ value ∧ ns.semPost id = .error .eoverflow) := by
  unfold SemNamespace.semPost
  rw [found]
  by_cases room : value < semValueMax
  · exact .inl ⟨room, _, if_pos room, rfl, rfl⟩
  · exact .inr ⟨Nat.le_of_not_lt room, if_neg room⟩

/-- A release raises the value, or fails and leaves everything as it is. -/
theorem zsemaphoreRelease_cases {sem : PSemaphore} {id value : Nat} (handle : sem.semHdl = some id)
    (found : ns.values[id]? = some value) :
    (value < semValueMax ∧ ∃ ns', zsemaphoreRelease sem ns = (none, ns') ∧ ns'.names = ns.names ∧
        ns'.values = ns.values.set id (value + 1)) ∨
      (semValueMax ≤ value ∧ ∃ error, zsemaphoreRelease sem ns = (some error, ns)) := by
  unfold zsemaphoreRelease
  rw [handle, Option.elim_some]
  rcases semPost_cases found with ⟨room, ns', posted, names, values⟩ | ⟨full, refused⟩
  · rw [posted]
    exact .inl ⟨room, ns', rfl, names, values⟩
  · rw [refused]
    exact .inr ⟨full, _, rfl⟩

theorem initVal_le {initVal : PInt} (nonneg : ¬ initVal.toInt < 0) : initVal.toNat ≤ semValueMax := by
  have bound := initVal.isLt
  rw [BitVec.toInt_eq_toNat_cond] at nonneg
  unfold semValueMax
  split at nonneg <;> omega

/-! ## Runs -/

namespace SemClients

/-- The handles stand for the semaphores that their keys had when they were made, the values
    are accounted for, and only calls in the mode `CREATE` take a name away. -/
structure Sound (s : SemClients) (origin : Nat → String × Nat) : Prop where
  numbered : Numbered s.ns s.unlinks origin
  handled : ∀ i sem, s.handles i = .made sem →
    ∃ id, sem.semHdl = some id ∧ id < s.ns.values.length ∧ origin id = (sem.platformKey, s.epoch i)
  counted : ∀ id value, s.ns.values[id]? = some value →
    value + s.acquired id = s.initial id + s.released id ∧ value ≤ semValueMax
  unused : ∀ id, s.ns.values.length ≤ id → s.acquired id = 0 ∧ s.released id = 0
  creating : ∀ i sem, s.handles i = .unlinking sem → sem.mode = .create

variable {s s' : SemClients} {platformKey : String → String}

theorem sound_boot : Sound boot fun _ => ("", 0) where
  numbered := ⟨nofun, nofun, nofun, nofun⟩
  handled := nofun
  counted := nofun
  unused := fun _ _ => ⟨rfl, rfl⟩
  creating := nofun

@[simp] theorem moved_self (s : SemClients) : s.moved s.ns = s := by
  have unchanged : ∀ key, ¬ ((s.ns.names key).isSome ∧ s.ns.names key = none) := by
    rintro key ⟨some, none⟩
    simp [none] at some
  simp [moved, unchanged]

theorem moved_bind {key : String} (free : s.ns.names key = none) (value : Nat) :
    s.moved (s.ns.bind key value) = { s with ns := s.ns.bind key value } := by
  have unchanged : ∀ other, ¬ ((s.ns.names other).isSome ∧ (s.ns.bind key value).names other = none) := by
    rintro other ⟨some, none⟩
    by_cases same : other = key
    · subst same
      simp [free] at some
    · simp only [SemNamespace.bind, Function.update_of_ne same] at none
      simp [none] at some
  simp [moved, unchanged]

theorem Sound.unlink (sound : Sound s origin) (key : String) : Sound (s.moved (s.ns.semUnlink key)) origin := by
  refine ⟨?_, sound.handled, sound.counted, sound.unused, sound.creating⟩
  by_cases taken : (s.ns.names key).isSome
  · have recorded : (s.moved (s.ns.semUnlink key)).unlinks = Function.update s.unlinks key (s.unlinks key + 1) := by
      funext other
      by_cases same : other = key
      · subst same
        simp [moved, SemNamespace.semUnlink, taken]
      · have kept : ¬ ((s.ns.names other).isSome ∧ s.ns.names other = none) := by
          rintro ⟨some, none⟩
          simp [none] at some
        simp only [moved, SemNamespace.semUnlink, Function.update_of_ne same, if_neg kept]
    rw [recorded]
    exact sound.numbered.unlink taken
  · have free : s.ns.names key = none := by simpa using taken
    have names : Function.update s.ns.names key none = s.ns.names := by rw [← free, Function.update_eq_self]
    have same : s.ns.semUnlink key = s.ns := by simp only [SemNamespace.semUnlink, names]
    rw [same, moved_self]
    exact sound.numbered

/-- A place that gets another handle. -/
theorem Sound.creating_update (sound : Sound s origin) (i : Nat) {handle : SemHandle}
    (creates : ∀ sem, handle = .unlinking sem → sem.mode = .create) :
    ∀ j sem, Function.update s.handles i handle j = .unlinking sem → sem.mode = .create := by
  intro j sem at_j
  by_cases same : j = i
  · subst same
    rw [Function.update_self] at at_j
    exact creates sem at_j
  · rw [Function.update_of_ne same] at at_j
    exact sound.creating j sem at_j

theorem Sound.openExisting (sound : Sound s origin) {id : Nat} {sem : PSemaphore} (i : Nat)
    (found : s.ns.names sem.platformKey = some id) (handle : sem.semHdl = some id) : Sound (s.opened i sem s.ns) origin := by
  simp only [opened, moved_self, if_neg (Nat.lt_irrefl _)]
  refine ⟨sound.numbered, fun j sem' handled => ?_, sound.counted, sound.unused,
    sound.creating_update i fun _ same => SemHandle.noConfusion same⟩
  by_cases same : j = i
  · subst same
    obtain rfl : sem = sem' := by simpa using handled
    refine ⟨id, handle, s.ns.known _ id found, ?_⟩
    dsimp only
    rw [Function.update_self]
    exact sound.numbered.named _ id found
  · simp only [Function.update_of_ne same] at handled ⊢
    exact sound.handled j sem' handled

theorem Sound.openNew (sound : Sound s origin) {sem : PSemaphore} (i : Nat) (free : s.ns.names sem.platformKey = none)
    (handle : sem.semHdl = some s.ns.values.length) (nonneg : ¬ sem.initVal.toInt < 0) :
    Sound (s.opened i sem (s.ns.bind sem.platformKey sem.initVal.toNat))
      (Function.update origin s.ns.values.length (sem.platformKey, s.unlinks sem.platformKey)) := by
  have longer : s.ns.values.length < (s.ns.bind sem.platformKey sem.initVal.toNat).values.length := by simp [SemNamespace.bind]
  simp only [opened, moved_bind free, if_pos longer]
  refine ⟨sound.numbered.bind free _, fun j sem' handled => ?_, fun id value found => ?_, fun id outside => ?_,
    sound.creating_update i fun _ same => SemHandle.noConfusion same⟩
  · by_cases same : j = i
    · subst same
      obtain rfl : sem = sem' := by simpa using handled
      exact ⟨_, handle, longer, by simp⟩
    · simp only [Function.update_of_ne same] at handled ⊢
      obtain ⟨id, at_id, inside, made⟩ := sound.handled j sem' handled
      refine ⟨id, at_id, Nat.lt_trans inside longer, ?_⟩
      rw [Function.update_of_ne (Nat.ne_of_lt inside), made]
  · simp only [SemNamespace.bind] at found ⊢
    by_cases last : id = s.ns.values.length
    · subst last
      obtain rfl : sem.initVal.toNat = value := by simpa using found
      obtain ⟨acquired, released⟩ := sound.unused _ (Nat.le_refl _)
      rw [Function.update_self, acquired, released]
      exact ⟨rfl, initVal_le nonneg⟩
    · obtain ⟨inside, -⟩ := List.getElem?_eq_some_iff.mp found
      have inside : id < (s.ns.bind sem.platformKey sem.initVal.toNat).values.length := inside
      have old := (old_or_new inside).resolve_right last
      rw [List.getElem?_append_left old] at found
      rw [Function.update_of_ne last]
      exact sound.counted id value found
  · exact sound.unused id (Nat.le_trans (Nat.le_of_lt longer) outside)

/-- A value changes in step with the counts of its semaphore. -/
theorem Sound.set (sound : Sound s origin) {id value now : Nat} {acquired released : Nat → Nat}
    (found : s.ns.values[id]? = some value) (names : ns'.names = s.ns.names)
    (values : ns'.values = s.ns.values.set id now)
    (counted : now + acquired id = s.initial id + released id ∧ now ≤ semValueMax)
    (others : ∀ id', id' ≠ id → acquired id' = s.acquired id' ∧ released id' = s.released id') :
    Sound { s with ns := ns', acquired := acquired, released := released } origin := by
  have length : ns'.values.length = s.ns.values.length := by rw [values, List.length_set]
  obtain ⟨inside, -⟩ := List.getElem?_eq_some_iff.mp found
  refine ⟨sound.numbered.values names length, ?_, fun id' value' found' => ?_, fun id' outside => ?_, sound.creating⟩
  · simp only [length]
    exact sound.handled
  · simp only [values] at found' ⊢
    by_cases same : id' = id
    · subst same
      obtain rfl : now = value' := by simpa [inside] using found'
      exact counted
    · rw [List.getElem?_set_ne (Ne.symm same)] at found'
      obtain ⟨acquired', released'⟩ := others id' same
      rw [acquired', released']
      exact sound.counted id' value' found'
  · simp only [length] at outside
    obtain ⟨acquired', released'⟩ := others id' (by omega)
    obtain ⟨never, nor⟩ := sound.unused id' outside
    exact ⟨acquired'.trans never, released'.trans nor⟩

theorem Sound.acquire (sound : Sound s origin) {sem : PSemaphore} {id : Nat} (handle : sem.semHdl = some id)
    (waited : zsemaphoreAcquire sem s.ns = some ns') :
    Sound { s with ns := ns', acquired := countAt s.acquired sem.semHdl } origin := by
  rw [zsemaphoreAcquire, handle, Option.bind_some] at waited
  obtain ⟨value, found, names, values⟩ := semWait_eq waited
  have counted := sound.counted _ _ found
  rw [handle]
  refine sound.set found names values ?_ fun id' other => ⟨Function.update_of_ne other _ _, rfl⟩
  rw [countAt, Function.update_self]
  omega

theorem Sound.release (sound : Sound s origin) {sem : PSemaphore} {id value : Nat} (handle : sem.semHdl = some id)
    (found : s.ns.values[id]? = some value) (room : value < semValueMax) (names : ns'.names = s.ns.names)
    (values : ns'.values = s.ns.values.set id (value + 1)) :
    Sound { s with ns := ns', released := countAt s.released sem.semHdl } origin := by
  have counted := sound.counted _ _ found
  rw [handle]
  refine sound.set found names values ?_ fun id' other => ⟨rfl, Function.update_of_ne other _ _⟩
  rw [countAt, Function.update_self]
  omega

/-- A release fails only at the largest value. -/
theorem Sound.refused (sound : Sound s origin) {i : Nat} {sem : PSemaphore} {error : PIpcError}
    (handled : s.handles i = .made sem) (failed : zsemaphoreRelease sem s.ns = (some error, ns')) :
    ns' = s.ns ∧ ∃ id, sem.semHdl = some id ∧ s.ns.values[id]? = some semValueMax := by
  obtain ⟨id, handle, inside, -⟩ := sound.handled i sem handled
  have found : s.ns.values[id]? = some s.ns.values[id] := List.getElem?_eq_getElem inside
  rcases zsemaphoreRelease_cases handle found with ⟨-, ns₁, released, -⟩ | ⟨full, error₁, refused⟩
  · rw [released] at failed
    cases failed
  · rw [refused] at failed
    cases failed
    have most := (sound.counted id _ found).2
    exact ⟨rfl, id, handle, by rw [found, Nat.le_antisymm most full]⟩

theorem Sound.takeOwnership (sound : Sound s origin) {i : Nat} {sem : PSemaphore} (handled : s.handles i = .made sem) :
    Sound (s.place i (.made (zsemaphoreTakeOwnership sem))) origin := by
  refine ⟨sound.numbered, fun j sem' handled' => ?_, sound.counted, sound.unused,
    sound.creating_update i fun _ same => SemHandle.noConfusion same⟩
  by_cases same : j = i
  · subst same
    obtain rfl : zsemaphoreTakeOwnership sem = sem' := by simpa [place] using handled'
    exact sound.handled j sem handled
  · simp only [place, Function.update_of_ne same] at handled'
    exact sound.handled j sem' handled'

/-- A place without a handle. -/
theorem Sound.place (sound : Sound s origin) (i : Nat) {handle : SemHandle} (absent : handle.sem = none)
    (creates : ∀ sem, handle = .unlinking sem → sem.mode = .create) : Sound (s.place i handle) origin := by
  refine ⟨sound.numbered, fun j sem handled => ?_, sound.counted, sound.unused, sound.creating_update i creates⟩
  by_cases same : j = i
  · subst same
    obtain rfl : handle = .made sem := by simpa [SemClients.place] using handled
    contradiction
  · simp only [SemClients.place, Function.update_of_ne same] at handled
    exact sound.handled j sem handled

theorem made_of_sem {i : Nat} {sem : PSemaphore} (handled : (s.handles i).sem = some sem) : s.handles i = .made sem := by
  cases handle : s.handles i <;> rw [handle] at handled <;> cases handled
  rfl

theorem zsemaphoreFree_eq (sem : PSemaphore) (ns : SemNamespace) :
    zsemaphoreFree sem ns = ns ∨ sem.semCreated = true ∧ zsemaphoreFree sem ns = ns.semUnlink sem.platformKey := by
  unfold zsemaphoreFree pzsemaphoreCleanHandle
  dsimp only
  split
  · next owned => exact .inr ⟨owned.2, rfl⟩
  · exact .inl rfl

section New

variable {i : Nat} {name : String} {initVal : PInt} {mode : PSemaphoreAccessMode} {sem : PSemaphore}

theorem step_new_free (unused : s.handles i = .unused) (nonneg : ¬ initVal.toInt < 0)
    (free : s.ns.names (semaphoreKey platformKey name) = none) : s.step platformKey (.new i name initVal mode) =
      some (s.opened i ⟨true, semaphoreKey platformKey name, some s.ns.values.length, mode, initVal⟩
        (s.ns.bind (semaphoreKey platformKey name) initVal.toNat)) := by
  simp [step, unused, nonneg, SemNamespace.semOpen, free]

theorem step_new_existing {id : Nat} (unused : s.handles i = .unused) (nonneg : ¬ initVal.toInt < 0)
    (found : s.ns.names (semaphoreKey platformKey name) = some id) : s.step platformKey (.new i name initVal mode) =
      some (s.place i (if mode = .create then .unlinking ⟨false, semaphoreKey platformKey name, none, mode, initVal⟩
        else .opening ⟨false, semaphoreKey platformKey name, none, mode, initVal⟩)) := by
  simp [step, unused, nonneg, SemNamespace.semOpen, found]

theorem step_goOn_unlinking (at_i : s.handles i = .unlinking sem) :
    s.step platformKey (.goOn i) = some ((s.moved (s.ns.semUnlink sem.platformKey)).place i (.opening sem)) := by
  simp [step, at_i]

theorem step_goOn_found {id : Nat} (at_i : s.handles i = .opening sem) (found : s.ns.names sem.platformKey = some id) :
    s.step platformKey (.goOn i) = some (s.opened i { sem with semHdl := some id } s.ns) := by
  simp [step, at_i, SemNamespace.semOpen, found]

theorem step_goOn_missing (at_i : s.handles i = .opening sem) (missing : s.ns.names sem.platformKey = none) :
    s.step platformKey (.goOn i) = some (s.place i .unused) := by
  simp [step, at_i, SemNamespace.semOpen, missing]

/-- What the first step of a call does. -/
theorem step_new_cases (next : s.step platformKey (.new i name initVal mode) = some s') :
    s' = s ∨
      (∃ handle, handle.sem = none ∧ (∀ sem, handle = .unlinking sem → sem.mode = .create) ∧ s' = s.place i handle) ∨
      ¬ initVal.toInt < 0 ∧ s.ns.names (semaphoreKey platformKey name) = none ∧
        s' = s.opened i ⟨true, semaphoreKey platformKey name, some s.ns.values.length, mode, initVal⟩
          (s.ns.bind (semaphoreKey platformKey name) initVal.toNat) := by
  by_cases unused : s.handles i = .unused
  · by_cases negative : initVal.toInt < 0
    · simp only [step, unused, negative, ne_eq, not_true_eq_false, if_false, if_true] at next
      cases next
      exact .inl rfl
    · cases found : s.ns.names (semaphoreKey platformKey name) with
      | none =>
          rw [step_new_free unused negative found] at next
          cases next
          exact .inr (.inr ⟨negative, rfl, rfl⟩)
      | some id =>
          rw [step_new_existing unused negative found] at next
          cases next
          refine .inr (.inl ⟨_, ?_, ?_, rfl⟩)
          · split <;> rfl
          · intro sem unlinks
            split at unlinks
            · next creates =>
                cases unlinks
                exact creates
            · cases unlinks
  · simp [step, unused] at next

/-- What the other steps of a call do. -/
theorem step_goOn_cases (next : s.step platformKey (.goOn i) = some s') :
    (∃ sem, s.handles i = .unlinking sem ∧ s' = (s.moved (s.ns.semUnlink sem.platformKey)).place i (.opening sem)) ∨
      (∃ (sem : PSemaphore) (id : Nat), s.ns.names sem.platformKey = some id ∧
        s' = s.opened i { sem with semHdl := some id } s.ns) ∨
        s' = s.place i .unused := by
  cases at_i : s.handles i with
  | unused => simp [step, at_i] at next
  | unlinking sem =>
      rw [step_goOn_unlinking at_i] at next
      cases next
      exact .inl ⟨sem, rfl, rfl⟩
  | opening sem =>
      cases found : s.ns.names sem.platformKey with
      | none =>
          rw [step_goOn_missing at_i found] at next
          cases next
          exact .inr (.inr rfl)
      | some id =>
          rw [step_goOn_found at_i found] at next
          cases next
          exact .inr (.inl ⟨sem, id, found, rfl⟩)
  | made sem => simp [step, at_i] at next

end New

theorem sound_step (sound : Sound s origin) {op : SemOp} (next : s.step platformKey op = some s') :
    ∃ origin', Sound s' origin' := by
  cases op with
  | new i name initVal mode =>
      rcases step_new_cases next with rfl | ⟨handle, absent, creates, rfl⟩ | ⟨nonneg, free, rfl⟩
      · exact ⟨origin, sound⟩
      · exact ⟨origin, sound.place i absent creates⟩
      · exact ⟨_, sound.openNew i free rfl nonneg⟩
  | goOn i =>
      rcases step_goOn_cases next with ⟨sem, -, rfl⟩ | ⟨sem, id, found, rfl⟩ | rfl
      · exact ⟨origin, (sound.unlink _).place i rfl fun _ same => SemHandle.noConfusion same⟩
      · exact ⟨origin, sound.openExisting i found rfl⟩
      · exact ⟨origin, sound.place i rfl fun _ same => SemHandle.noConfusion same⟩
  | takeOwnership i =>
      obtain ⟨sem, handled, next⟩ := Option.bind_eq_some_iff.mp next
      cases next
      exact ⟨origin, sound.takeOwnership (made_of_sem handled)⟩
  | acquire i =>
      obtain ⟨sem, handled, next⟩ := Option.bind_eq_some_iff.mp next
      obtain ⟨ns', waited, next⟩ := Option.bind_eq_some_iff.mp next
      cases next
      obtain ⟨id, handle, -⟩ := sound.handled i sem (made_of_sem handled)
      exact ⟨origin, sound.acquire handle waited⟩
  | release i =>
      obtain ⟨sem, handled, next⟩ := Option.bind_eq_some_iff.mp next
      obtain ⟨id, handle, inside, -⟩ := sound.handled i sem (made_of_sem handled)
      have found : s.ns.values[id]? = some s.ns.values[id] := List.getElem?_eq_getElem inside
      rcases zsemaphoreRelease_cases handle found with ⟨room, ns', released, names, values⟩ | ⟨-, error, refused⟩
      · rw [released] at next
        cases next
        exact ⟨origin, sound.release handle found room names values⟩
      · rw [refused] at next
        cases next
        exact ⟨origin, sound⟩
  | free i =>
      obtain ⟨sem, handled, next⟩ := Option.bind_eq_some_iff.mp next
      cases next
      rcases zsemaphoreFree_eq sem s.ns with same | ⟨-, gone⟩
      · rw [same, moved_self]
        exact ⟨origin, sound.place i rfl fun _ same => SemHandle.noConfusion same⟩
      · rw [gone]
        exact ⟨origin, (sound.unlink _).place i rfl fun _ same => SemHandle.noConfusion same⟩

theorem sound_run {ops : List SemOp} (sound : Sound s origin) (ran : s.run platformKey ops = some s') :
    ∃ origin', Sound s' origin' := by
  induction ops generalizing s origin with
  | nil =>
      cases ran
      exact ⟨origin, sound⟩
  | cons op ops ih =>
      obtain ⟨s₁, next, rest⟩ := Option.bind_eq_some_iff.mp ran
      obtain ⟨origin₁, sound₁⟩ := sound_step sound next
      exact ih sound₁ rest

theorem unlinks_moved {key other : String} (different : other ≠ key) :
    (s.moved (s.ns.semUnlink key)).unlinks other = s.unlinks other := by
  have kept : ¬ ((s.ns.names other).isSome ∧ s.ns.names other = none) := by
    rintro ⟨some, none⟩
    simp [none] at some
  simp only [moved, SemNamespace.semUnlink, Function.update_of_ne different, if_neg kept]

/-- Who can take a name away. -/
theorem unlinks_step {op : SemOp} {key : String} (next : s.step platformKey op = some s')
    (taken : s'.unlinks key ≠ s.unlinks key) :
    ∃ i sem, sem.platformKey = key ∧
      (op = .free i ∧ s.handles i = .made sem ∧ sem.semCreated = true ∨ op = .goOn i ∧ s.handles i = .unlinking sem) := by
  cases op with
  | new i name initVal mode =>
      rcases step_new_cases next with rfl | ⟨handle, absent, -, rfl⟩ | ⟨-, free, rfl⟩
      · contradiction
      · contradiction
      · exact absurd (by simp only [opened, moved_bind free]) taken
  | goOn i =>
      rcases step_goOn_cases next with ⟨sem, at_i, rfl⟩ | ⟨sem, id, found, rfl⟩ | rfl
      · refine ⟨i, sem, ?_, .inr ⟨rfl, at_i⟩⟩
        by_contra different
        exact taken (unlinks_moved (Ne.symm different))
      · exact absurd (by simp only [opened, moved_self]) taken
      · contradiction
  | takeOwnership i =>
      obtain ⟨sem, handled, next⟩ := Option.bind_eq_some_iff.mp next
      cases next
      contradiction
  | acquire i =>
      obtain ⟨sem, handled, next⟩ := Option.bind_eq_some_iff.mp next
      obtain ⟨ns', waited, next⟩ := Option.bind_eq_some_iff.mp next
      cases next
      contradiction
  | release i =>
      obtain ⟨sem, handled, next⟩ := Option.bind_eq_some_iff.mp next
      cases released : zsemaphoreRelease sem s.ns with
      | mk failure ns =>
          rw [released] at next
          cases failure <;> cases next <;> contradiction
  | free i =>
      obtain ⟨sem, handled, next⟩ := Option.bind_eq_some_iff.mp next
      cases next
      rcases zsemaphoreFree_eq sem s.ns with same | ⟨owned, gone⟩
      · exact absurd (by rw [same, moved_self]; rfl) taken
      · refine ⟨i, sem, ?_, .inl ⟨rfl, made_of_sem handled, owned⟩⟩
        by_contra different
        rw [gone] at taken
        exact taken (unlinks_moved (Ne.symm different))

theorem run_cons {op : SemOp} {ops : List SemOp} :
    s.run platformKey (op :: ops) = (s.step platformKey op).bind fun s₁ => s₁.run platformKey ops := rfl

/-- A call that nobody comes between is `zsemaphore_new`, however often it is interrupted. -/
theorem run_new {i : Nat} (unused : s.handles i = .unused) (interrupts : Nat × Nat) (name : String) (initVal : PInt)
    (mode : PSemaphoreAccessMode) : ∃ n s', s.run platformKey (.new i name initVal mode :: List.replicate n (.goOn i)) = some s' ∧
      s'.ns = (zsemaphoreNew platformKey interrupts name initVal mode s.ns).2 ∧
      s'.handles i = match (zsemaphoreNew platformKey interrupts name initVal mode s.ns).1 with
        | .ok sem => .made sem
        | .error _ => .unused := by
  by_cases negative : initVal.toInt < 0
  · refine ⟨0, s, ?_, ?_⟩
    · simp [run, step, unused, negative]
    · simp [zsemaphoreNew, negative, unused]
  · have nonneg : 0 ≤ initVal.toInt := by omega
    cases found : s.ns.names (semaphoreKey platformKey name) with
    | none =>
        refine ⟨0, _, by rw [run_cons, step_new_free unused negative found]; rfl, ?_⟩
        rw [new_of_free nonneg mode found]
        simp [opened, moved]
    | some id =>
        cases mode with
        | «open» =>
            obtain ⟨sem, is_sem⟩ : ∃ sem : PSemaphore, sem = ⟨false, semaphoreKey platformKey name, none, .open, initVal⟩ :=
              ⟨_, rfl⟩
            have first : s.step platformKey (.new i name initVal .open) = some (s.place i (.opening sem)) := by
              rw [is_sem]
              exact step_new_existing unused negative found
            have second : (s.place i (.opening sem)).step platformKey (.goOn i) =
                some ((s.place i (.opening sem)).opened i { sem with semHdl := some id } s.ns) :=
              step_goOn_found (Function.update_self ..) (by rw [is_sem]; exact found)
            refine ⟨1, _, by rw [run_cons, first, Option.bind_some, List.replicate_one, run_cons, second]; rfl, ?_⟩
            rw [new_open_existing nonneg found]
            simp [opened, moved, place, is_sem]
        | create =>
            obtain ⟨sem, is_sem⟩ : ∃ sem : PSemaphore, sem = ⟨false, semaphoreKey platformKey name, none, .create, initVal⟩ :=
              ⟨_, rfl⟩
            have first : s.step platformKey (.new i name initVal .create) = some (s.place i (.unlinking sem)) := by
              rw [is_sem]
              exact step_new_existing unused negative found
            have second : (s.place i (.unlinking sem)).step platformKey (.goOn i) =
                some (((s.place i (.unlinking sem)).moved (s.ns.semUnlink sem.platformKey)).place i (.opening sem)) :=
              step_goOn_unlinking (Function.update_self ..)
            obtain ⟨s₂, is_s₂⟩ : ∃ s₂, s₂ =
                ((s.place i (.unlinking sem)).moved (s.ns.semUnlink sem.platformKey)).place i (.opening sem) := ⟨_, rfl⟩
            have third : s₂.step platformKey (.goOn i) = some (s₂.place i .unused) :=
              step_goOn_missing (by rw [is_s₂]; exact Function.update_self ..) (by rw [is_s₂]; exact Function.update_self ..)
            refine ⟨2, s₂.place i .unused, ?_, ?_⟩
            · rw [run_cons, first, Option.bind_some, List.replicate_succ, run_cons, second, Option.bind_some, ← is_s₂,
                List.replicate_one, run_cons, third]
              rfl
            · rw [new_create_existing nonneg found]
              simp [moved, place, is_sem, is_s₂]

end SemClients

/-- In every interleaving of calls: no semaphore gives more permits than it was made with and
    was given back, a permit is refused only to the largest value, two handles stand for the same
    semaphore if and only if they have the same key and its name was not taken away between them,
    and only the one who owns a semaphore, or who asks for a new one in its place, takes a name
    away. -/
theorem semaphores_keep_permits {platformKey : String → String} {ops : List SemOp} {s : SemClients}
    (ran : SemClients.boot.run platformKey ops = some s) :
    (∀ id value, s.ns.values[id]? = some value →
      value + s.acquired id = s.initial id + s.released id ∧ value ≤ semValueMax) ∧
    (∀ i sem error ns', s.handles i = .made sem → zsemaphoreRelease sem s.ns = (some error, ns') →
      ns' = s.ns ∧ ∃ id, sem.semHdl = some id ∧ s.ns.values[id]? = some semValueMax) ∧
    (∀ i j sem sem', s.handles i = .made sem → s.handles j = .made sem' →
      ∃ id id', sem.semHdl = some id ∧ sem'.semHdl = some id' ∧ id < s.ns.values.length ∧
        (id = id' ↔ sem.platformKey = sem'.platformKey ∧ s.epoch i = s.epoch j) ∧
        (s.ns.names sem.platformKey = some id ↔ s.epoch i = s.unlinks sem.platformKey)) ∧
    ∀ op s' key, s.step platformKey op = some s' → s'.unlinks key ≠ s.unlinks key →
      ∃ i sem, sem.platformKey = key ∧
        (op = .free i ∧ s.handles i = .made sem ∧ sem.semCreated = true ∨
          op = .goOn i ∧ s.handles i = .unlinking sem ∧ sem.mode = .create) := by
  obtain ⟨origin, sound⟩ := SemClients.sound_run SemClients.sound_boot ran
  refine ⟨sound.counted, fun i sem error ns' handled refused => sound.refused handled refused,
    fun i j sem sem' handled handled' => ?_, fun op s' key next taken => ?_⟩
  · obtain ⟨id, handle, inside, made⟩ := sound.handled i sem handled
    obtain ⟨id', handle', inside', made'⟩ := sound.handled j sem' handled'
    refine ⟨id, id', handle, handle', inside, ?_, ?_⟩
    · rw [← Prod.mk.injEq, ← made, ← made']
      exact ⟨fun same => by rw [same], sound.numbered.once id id' inside inside'⟩
    · constructor
      · intro found
        have named := sound.numbered.named _ id found
        rw [made, Prod.mk.injEq] at named
        exact named.2
      · intro now
        have found := sound.numbered.current id inside (by rw [made]; exact now)
        rwa [made] at found
  · obtain ⟨i, sem, same, freed | ⟨going, unlinks⟩⟩ := SemClients.unlinks_step next taken
    · exact ⟨i, sem, same, .inl freed⟩
    · exact ⟨i, sem, same, .inr ⟨going, unlinks, sound.creating i sem unlinks⟩⟩

/-- The owner of a semaphore leaves while somebody else has it. -/
def ownerLeaves : List SemOp :=
  [.new 0 "lock" 1 .open, .new 1 "lock" 5 .open, .goOn 1, .acquire 1, .free 0, .new 2 "lock" 1 .open]

/-- Who comes then gets another semaphore. -/
theorem semaphores_keep_permits_owner : ∃ s sem sem', SemClients.boot.run (fun _ => "key") ownerLeaves = some s ∧
    s.handles 1 = .made sem ∧ s.handles 2 = .made sem' ∧ sem.semHdl ≠ sem'.semHdl := by
  have ran : SemClients.boot.run (fun _ => "key") ownerLeaves = some _ := rfl
  obtain ⟨-, -, shared, -⟩ := semaphores_keep_permits ran
  obtain ⟨id, id', handle, handle', -, same, -⟩ :=
    shared 1 2 ⟨false, "key", some 0, .open, 5⟩ ⟨true, "key", some 1, .open, 1⟩ rfl rfl
  refine ⟨_, ⟨false, "key", some 0, .open, 5⟩, ⟨true, "key", some 1, .open, 1⟩, ran, rfl, rfl, fun equal => ?_⟩
  have equal : some id = some id' := handle.symm.trans (equal.trans handle')
  have epochs : 0 = 1 := (same.mp (Option.some.inj equal)).2
  contradiction

end Plibsys.Shm
