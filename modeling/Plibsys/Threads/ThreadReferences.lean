import Plibsys.Support.Counting
import Plibsys.Threads.PUThread

/-! # References to thread objects

Every reference to a thread object is somewhere: with a client, in the key of a thread, or in
the hands of a function that runs.  The counter of an object is their number, except while
the creator has not written it yet; then nobody else can drop a reference, because the new
thread waits for the spin lock.
-/

namespace Plibsys.Threads

open Support

/-! ## Where the references are -/

/-- The value of the key. -/
def ThreadState.keyRef (base : Addr) (th : ThreadState) : Nat := if th.specific = base ∧ th.specific ≠ 0 then 1 else 0

/-- The reference of the function that runs. -/
def Control.ref (base : Addr) : Control → Nat
  | .createAssign _ b _ | .currentSet b _ | .joinCheck b | .joinWait b | .joinRead b _ | .cleanupUnref b =>
      if b = base then 1 else 0
  | .createUnlock b => if b = base ∧ base ≠ 0 then 1 else 0
  | _ => 0

namespace ThreadState

/-- The reference of a new thread that has not passed the spin lock. -/
def early (base : Addr) (th : ThreadState) : Nat :=
  match th.control with
  | .proxyStart b _ => if b = base then 1 else 0
  | .proxyLock _ _ => th.keyRef base
  | _ => 0

/-- The references of a thread that can drop them. -/
def own (base : Addr) (th : ThreadState) : Nat :=
  match th.control with
  | .proxyLock _ _ => 0
  | control => th.keyRef base + control.ref base

/-- Whether the thread fills the object. -/
def builds (base : Addr) (th : ThreadState) : Nat :=
  match th.control with
  | .createAssign _ b _ => if b = base then 1 else 0
  | _ => 0

/-- Whether the thread is about to write the counter for the first time. -/
def raw (base : Addr) (th : ThreadState) : Nat :=
  match th.control with
  | .createAssign _ b 0 => if b = base then 1 else 0
  | _ => 0

/-- Whether the thread is about to free the object. -/
def frees (base : Addr) (th : ThreadState) : Nat :=
  match th.control with
  | .freeing b _ => if b = base then 1 else 0
  | _ => 0

/-- Whether the thread holds the spin lock. -/
def inSpin (th : ThreadState) : Nat :=
  match th.control with
  | .createInternal _ | .createAssign _ _ _ | .createUnlock _ | .proxyUnlock _ _ => 1
  | _ => 0

/-- A new thread, and one that is about to set its key, has no value of the key. -/
def Fresh (th : ThreadState) : Prop :=
  match th.control with
  | .unborn | .proxyStart _ _ | .currentSet _ _ => th.specific = 0
  | _ => True

theorem keyRef_le (base : Addr) (th : ThreadState) : th.keyRef base ≤ 1 := by
  unfold keyRef
  split <;> omega

theorem own_le (base : Addr) (th : ThreadState) : th.own base ≤ 2 := by
  have key := th.keyRef_le base
  have ref : th.control.ref base ≤ 1 := by
    unfold Control.ref
    split <;> (try split) <;> omega
  unfold own
  split <;> omega

theorem early_le (base : Addr) (th : ThreadState) : th.early base ≤ 1 := by
  have key := th.keyRef_le base
  unfold early
  split <;> (try split) <;> omega

theorem raw_le_builds (base : Addr) (th : ThreadState) : th.raw base ≤ th.builds base := by
  obtain ⟨control, specific⟩ := th
  cases control with
  | createAssign args b i => cases i <;> simp [raw, builds]
  | _ => simp [raw, builds]

theorem builds_le_own (base : Addr) (th : ThreadState) : th.builds base ≤ th.own base := by
  obtain ⟨control, specific⟩ := th
  cases control <;> simp [builds, own, Control.ref]

theorem builds_le_inSpin (base : Addr) (th : ThreadState) : th.builds base ≤ th.inSpin := by
  obtain ⟨control, specific⟩ := th
  cases control <;> simp only [builds, inSpin, Nat.le_refl, Nat.zero_le]
  split <;> omega

end ThreadState

variable {ι : Type} [Fintype ι] [DecidableEq ι]

namespace ThreadSystem

/-- The references to an object. -/
def tokens (s : ThreadSystem ι) (base : Addr) : Nat :=
  s.held base + s.lost base + total (ThreadState.own base) s.threads + total (ThreadState.early base) s.threads

/-- The counter is right, and an object without references is about to be freed by one thread. -/
structure Counted (s : ThreadSystem ι) (base : Addr) : Prop where
  gone : s.objects.cell base = none → s.tokens base = 0 ∧ total (ThreadState.frees base) s.threads = 0
  counter : ∀ c, s.objects.cell base = some c →
    c.refCount.toNat + 2 * total (ThreadState.raw base) s.threads = s.tokens base ∧
    total (ThreadState.frees base) s.threads = if s.tokens base = 0 then 1 else 0
  /-- Of an object that is being filled, the creator has one reference and the new thread the
      other one, unless it was lost. -/
  building : 0 < total (ThreadState.builds base) s.threads →
    s.held base = 0 ∧ s.lost base + total (ThreadState.early base) s.threads = 1 ∧
    total (ThreadState.own base) s.threads = 1

/-- The spin lock is held by at most one thread. -/
structure SpinLaw (s : ThreadSystem ι) : Prop where
  word : s.spin = BitVec.ofNat 32 (total ThreadState.inSpin s.threads)
  exclusive : total ThreadState.inSpin s.threads ≤ 1

/-- The numbers of an object after one thread has changed its state. -/
structure Recount (s s' : ThreadSystem ι) (t : ι) (th : ThreadState) (base : Addr) : Prop where
  own : total (ThreadState.own base) s'.threads + (s.threads t).own base =
    total (ThreadState.own base) s.threads + th.own base
  early : total (ThreadState.early base) s'.threads + (s.threads t).early base =
    total (ThreadState.early base) s.threads + th.early base
  builds : total (ThreadState.builds base) s'.threads + (s.threads t).builds base =
    total (ThreadState.builds base) s.threads + th.builds base
  raw : total (ThreadState.raw base) s'.threads + (s.threads t).raw base =
    total (ThreadState.raw base) s.threads + th.raw base
  frees : total (ThreadState.frees base) s'.threads + (s.threads t).frees base =
    total (ThreadState.frees base) s.threads + th.frees base
  inSpin : total ThreadState.inSpin s'.threads + (s.threads t).inSpin = total ThreadState.inSpin s.threads + th.inSpin
  rawBuilds : total (ThreadState.raw base) s'.threads ≤ total (ThreadState.builds base) s'.threads
  buildsOwn : total (ThreadState.builds base) s.threads ≤ total (ThreadState.own base) s.threads

variable {s s' : ThreadSystem ι} {t : ι} {th : ThreadState} {base : Addr}

theorem recount (moved : s'.threads = Function.update s.threads t th) (base : Addr) : Recount s s' t th base where
  own := by rw [moved, total_update]
  early := by rw [moved, total_update]
  builds := by rw [moved, total_update]
  raw := by rw [moved, total_update]
  frees := by rw [moved, total_update]
  inSpin := by rw [moved, total_update]
  rawBuilds := total_mono fun u => (s'.threads u).raw_le_builds base
  buildsOwn := total_mono fun u => (s.threads u).builds_le_own base

/-- A thread with a reference of its own excludes a creator that fills the object. -/
theorem Counted.not_building (counted : s.Counted base) (own : 0 < (s.threads t).own base)
    (other : (s.threads t).builds base = 0) : total (ThreadState.builds base) s.threads = 0 := by
  by_contra building
  obtain ⟨u, builds⟩ := exists_of_total_pos (Nat.pos_of_ne_zero building)
  have apart : t ≠ u := by
    rintro rfl
    omega
  have both := add_le_total (ThreadState.own base) s.threads apart
  have less := (s.threads u).builds_le_own base
  have one := (counted.building (Nat.pos_of_ne_zero building)).2.2
  omega

omit [DecidableEq ι] in
/-- A thread with a reference keeps the object. -/
theorem Counted.alive (counted : s.Counted base) (positive : 0 < s.tokens base) :
    ∃ c, s.objects.cell base = some c := by
  cases here : s.objects.cell base with
  | none =>
      have none := (counted.gone here).1
      omega
  | some c => exact ⟨c, rfl⟩

/-! ## Steps that keep the numbers -/

/-- References move, and no counter changes. -/
theorem Counted.silent (counted : s.Counted base) (moved : s'.threads = Function.update s.threads t th)
    (cells : (s'.objects.cell base).map PUThread.refCount = (s.objects.cell base).map PUThread.refCount)
    (tokens : s'.held base + s'.lost base + (th.own base + th.early base) =
      s.held base + s.lost base + ((s.threads t).own base + (s.threads t).early base))
    (raw : th.raw base = (s.threads t).raw base) (builds : th.builds base ≤ (s.threads t).builds base)
    (frees : th.frees base = (s.threads t).frees base)
    (still : total (ThreadState.builds base) s.threads = 0 ∨
      s'.held base = s.held base ∧ th.own base = (s.threads t).own base) : s'.Counted base := by
  have r := recount moved base
  have own := r.own
  have early := r.early
  have rawNow := r.raw
  have buildsNow := r.builds
  have freesNow := r.frees
  have same : s'.tokens base = s.tokens base := by
    unfold ThreadSystem.tokens
    omega
  constructor
  · intro here
    rw [here, Option.map_none, eq_comm, Option.map_eq_none_iff] at cells
    obtain ⟨none, nobody⟩ := counted.gone cells
    omega
  · intro c' here
    rw [here, Option.map_some, eq_comm, Option.map_eq_some_iff] at cells
    obtain ⟨c, before, counter⟩ := cells
    obtain ⟨number, freed⟩ := counted.counter c before
    rw [same, ← counter, show total (ThreadState.raw base) s'.threads = total (ThreadState.raw base) s.threads by omega,
      show total (ThreadState.frees base) s'.threads = total (ThreadState.frees base) s.threads by omega]
    exact ⟨number, freed⟩
  · intro building
    obtain ⟨held, others, creator⟩ := counted.building (by omega)
    unfold ThreadSystem.tokens at same
    omega

omit [DecidableEq ι] in
theorem raw_zero_of_quiet (quiet : total (ThreadState.builds base) s.threads = 0) :
    total (ThreadState.raw base) s.threads = 0 := by
  have less : total (ThreadState.raw base) s.threads ≤ total (ThreadState.builds base) s.threads :=
    total_mono fun u => (s.threads u).raw_le_builds base
  omega

/-- The counter of an object goes down with one of its references.  The last reference makes
    the thread free the object. -/
theorem Counted.decremented (counted : s.Counted base) (moved : s'.threads = Function.update s.threads t th)
    (quiet : total (ThreadState.builds base) s.threads = 0) (bounded : s.tokens base < 2 ^ 32) {c : PUThread ι}
    (before : s.objects.cell base = some c)
    (after : (s'.objects.cell base).map PUThread.refCount = some (c.refCount - 1))
    (tokens : s'.held base + s'.lost base + (th.own base + th.early base) + 1 =
      s.held base + s.lost base + ((s.threads t).own base + (s.threads t).early base))
    (builds : th.builds base = 0) (wasFreeing : (s.threads t).frees base = 0)
    (frees : th.frees base = if c.refCount = 1 then 1 else 0) : s'.Counted base := by
  have r := recount moved base
  have own := r.own
  have early := r.early
  have rawNow := r.raw
  have buildsNow := r.builds
  have freesNow := r.frees
  have rawLess := r.rawBuilds
  have noRaw := raw_zero_of_quiet quiet
  have less : s'.tokens base + 1 = s.tokens base := by
    unfold ThreadSystem.tokens
    omega
  obtain ⟨number, freed⟩ := counted.counter c before
  rw [noRaw] at number
  have last : c.refCount = 1 ↔ s'.tokens base = 0 := by
    rw [← BitVec.toNat_inj]
    show c.refCount.toNat = 1 ↔ _
    omega
  constructor
  · intro here
    rw [here] at after
    cases after
  · intro c' here
    rw [here, Option.map_some, Option.some.injEq] at after
    rw [after]
    constructor
    · have down : (c.refCount - 1).toNat = c.refCount.toNat - 1 := by bv_omega
      omega
    · rw [if_neg (show s.tokens base ≠ 0 by omega)] at freed
      by_cases zero : s'.tokens base = 0
      · rw [if_pos (last.mpr zero)] at frees
        rw [if_pos zero]
        omega
      · rw [if_neg fun one => zero (last.mp one)] at frees
        rw [if_neg zero]
        omega
  · intro building
    omega

/-! ## What the accesses do -/

section Accesses

variable {c : PUThread ι} {f : PUThread ι → PUThread ι}

omit [Fintype ι] [DecidableEq ι]

theorem load_ok {objects : Heap (PUThread ι)} (ok : objects.load base = .ok c) : objects.cell base = some c := by
  unfold Heap.load at ok
  split at ok
  · next here =>
      rw [here]
      cases ok
      rfl
  · cases ok

theorem loaded {g : PUThread ι → ThreadSystem ι} (ok : (do let c ← s.objects.load base; pure (g c)) = Except.ok s') :
    ∃ c, s.objects.cell base = some c ∧ s' = g c := by
  cases read : s.objects.load base with
  | error trap =>
      rw [read] at ok
      cases ok
  | ok c =>
      rw [read] at ok
      cases ok
      exact ⟨c, load_ok read, rfl⟩

theorem written {g : ThreadSystem ι → ThreadSystem ι} (ok : (do let s ← s.write base f; pure (g s)) = Except.ok s') :
    ∃ c, s.objects.cell base = some c ∧ s' = g { s with objects := s.objects.adjust base f } := by
  unfold write Heap.modify at ok
  cases here : s.objects.cell base with
  | none =>
      rw [here] at ok
      cases ok
  | some c =>
      rw [here] at ok
      cases ok
      exact ⟨c, rfl, rfl⟩

end Accesses

omit [Fintype ι] in
/-- What `pthread_join` finds. -/
theorem joinWait_ok (ok : s.joinWait t base = .ok s') : ∃ c u, s.objects.cell base = some c ∧ c.hdl = some u ∧
    s' = if (s.threads u).control = .ended then s.goto t (.joinRead base true) else s := by
  unfold joinWait at ok
  cases read : s.objects.load base with
  | error trap =>
      rw [read] at ok
      cases ok
  | ok c =>
      rw [read] at ok
      simp only [Exec.ok_bind] at ok
      cases hdl : c.hdl with
      | none =>
          rw [hdl] at ok
          cases ok
      | some u =>
          rw [hdl] at ok
          cases ok
          exact ⟨c, u, load_ok read, hdl, rfl⟩

omit [Fintype ι] in
theorem setLocal_goto_threads (s : ThreadSystem ι) (t : ι) (base : Addr) (success : Bool) (control : Control) :
    ((s.setLocal t base success).goto t control).threads =
      Function.update s.threads t ⟨control, if success then base else (s.threads t).specific⟩ := by
  cases success <;> simp [setLocal, setSpecific, lose, goto]

/-- The numbers, and the value of the key before it is set. -/
structure Ledger (s : ThreadSystem ι) : Prop where
  spin : s.SpinLaw
  counted : ∀ base, s.Counted base
  fresh : ∀ t, (s.threads t).Fresh

theorem Ledger.fresh_update (ledger : s.Ledger) (moved : s'.threads = Function.update s.threads t th)
    (here : th.Fresh) (u : ι) : (s'.threads u).Fresh := by
  rw [moved]
  by_cases same : u = t
  · subst same
    rw [Function.update_self]
    exact here
  · rw [Function.update_of_ne same]
    exact ledger.fresh u

theorem SpinLaw.update (spin : s.SpinLaw) (moved : s'.threads = Function.update s.threads t th)
    (word : s'.spin = s.spin) (same : th.inSpin = (s.threads t).inSpin) : s'.SpinLaw := by
  have r := (recount moved 0).inSpin
  rw [same] at r
  have kept : total ThreadState.inSpin s'.threads = total ThreadState.inSpin s.threads := by omega
  exact ⟨by rw [word, kept]; exact spin.word, by rw [kept]; exact spin.exclusive⟩

theorem SpinLaw.locked (spin : s.SpinLaw) (moved : s'.threads = Function.update s.threads t th) (free : s.spin = 0)
    (word : s'.spin = 1) (inside : th.inSpin = 1) :
    s'.SpinLaw ∧ ∀ base, total (ThreadState.builds base) s.threads = 0 := by
  have r := (recount moved 0).inSpin
  have nobody : total ThreadState.inSpin s.threads = 0 := by
    have zero := spin.word
    have small := spin.exclusive
    rw [free] at zero
    have numbers := congrArg BitVec.toNat zero
    rw [BitVec.toNat_ofNat, Nat.mod_eq_of_lt (by omega)] at numbers
    exact numbers.symm
  have one : total ThreadState.inSpin s'.threads = 1 := by
    have mine := total_eq_zero.mp nobody t
    omega
  refine ⟨⟨by rw [word, one]; rfl, by omega⟩, fun base => ?_⟩
  have less : total (ThreadState.builds base) s.threads ≤ total ThreadState.inSpin s.threads :=
    total_mono fun u => (s.threads u).builds_le_inSpin base
  omega

theorem SpinLaw.unlocked (spin : s.SpinLaw) (moved : s'.threads = Function.update s.threads t th)
    (word : s'.spin = 0) (was : (s.threads t).inSpin = 1) (outside : th.inSpin = 0) : s'.SpinLaw := by
  have r := (recount moved 0).inSpin
  have small := spin.exclusive
  have none : total ThreadState.inSpin s'.threads = 0 := by omega
  exact ⟨by rw [word, none]; rfl, by omega⟩

end ThreadSystem

end Plibsys.Threads
