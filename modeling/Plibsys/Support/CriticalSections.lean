import Plibsys.Support.AtomicObject

/-! # Critical sections

A lock is anything with an attempt that succeeds when the lock is free and a release that
frees it: a word with an exchange, a semaphore, a mutex of the system.  Callers that run the
body of each operation between the two make an atomic object of what they share, however
many accesses a body has and however they interleave.
-/

namespace Plibsys.Support

structure Lock where
  State : Type
  start : State
  free : State → Prop
  held : State → Prop
  attempt : State → State × Bool
  release : State → State
  start_free : free start
  attempt_free : ∀ s, free s → held (attempt s).1 ∧ (attempt s).2 = true
  attempt_held : ∀ s, held s → attempt s = (s, false)
  release_held : ∀ s, held s → free (release s)

/-- The body of an operation, access by access.  What follows an access depends on what was
    shared before it. -/
inductive Code (σ ρ : Type) where
  | done (reply : ρ)
  | trap (t : Trap)
  | access (effect : σ → Exec σ) (next : σ → Code σ ρ)

namespace Code

variable {σ ρ α : Type}

/-- The body without anybody else. -/
def run : Code σ ρ → σ → Exec (σ × ρ)
  | done reply, s => .ok (s, reply)
  | trap t, _ => .error t
  | access effect next, s => do
      let s' ← effect s
      (next s).run s'

/-- Read something that is shared. -/
def get (load : σ → Exec α) (rest : α → Code σ ρ) : Code σ ρ :=
  .access (fun s => (load s).map fun _ => s) fun s =>
    match load s with
    | .ok a => rest a
    | .error t => .trap t

/-- Change what is shared. -/
def put (store : σ → Exec σ) (rest : Code σ ρ) : Code σ ρ := .access store fun _ => rest

@[simp] theorem run_done (reply : ρ) (s : σ) : (done reply : Code σ ρ).run s = .ok (s, reply) := rfl

@[simp] theorem run_get (load : σ → Exec α) (rest : α → Code σ ρ) (s : σ) :
    (get load rest).run s = load s >>= fun a => (rest a).run s := by
  rw [get, run]
  cases load s <;> rfl

@[simp] theorem run_put (store : σ → Exec σ) (rest : Code σ ρ) (s : σ) :
    (put store rest).run s = store s >>= rest.run := rfl

end Code

/-- Where a caller of a guarded operation is. -/
inductive Place (σ Op ρ : Type) where
  | waiting (op : Op)
  | inside (code : Code σ ρ)

variable {ι σ τ Op ρ : Type}

/-- Operations that run their bodies under a lock. -/
def guarded (lock : Lock) (body : Op → Code σ ρ) : Implementation (σ × lock.State) Op ρ where
  Local := Place σ Op ρ
  enter := .waiting
  access
    | .waiting op, (s, l) =>
        .ok ((s, (lock.attempt l).1), .inl (if (lock.attempt l).2 then .inside (body op) else .waiting op))
    | .inside (.done reply), (s, l) => .ok ((s, lock.release l), .inr reply)
    | .inside (.trap t), _ => .error t
    | .inside (.access effect next), (s, l) => do
        let s' ← effect s
        .ok ((s', l), .inl (.inside (next s)))

/-- Every body is, when it runs alone, one operation on a view of what is shared. -/
structure Bodies (body : Op → Code σ ρ) (apply : Op → τ → τ × ρ) (view : σ → τ) (kept : σ → Prop) : Prop where
  runs : ∀ op s, kept s → ∃ s' reply, (body op).run s = .ok (s', reply) ∧ kept s' ∧ apply op (view s) = (view s', reply)

namespace Guarded

variable {lock : Lock} {body : Op → Code σ ρ} {apply : Op → τ → τ × ρ} {view : σ → τ} {kept : σ → Prop}

/-- The turn of a caller that is not inside a body, and its turn at the atomic object. -/
inductive Outside : Turn (Place σ Op ρ) ρ → Turn Op ρ → Prop where
  | idle : Outside .idle .idle
  | waiting (op : Op) : Outside (.busy (.waiting op)) (.busy op)
  | done (reply : ρ) : Outside (.done reply) (.done reply)

section Inversion

variable {turn : Turn Op ρ}

theorem Outside.of_idle (out : Outside (.idle : Turn (Place σ Op ρ) ρ) turn) : turn = .idle := by
  cases out
  rfl

theorem Outside.of_waiting {op : Op} (out : Outside (.busy (.waiting op) : Turn (Place σ Op ρ) ρ) turn) :
    turn = .busy op := by
  cases out
  rfl

theorem Outside.of_done {reply : ρ} (out : Outside (.done reply : Turn (Place σ Op ρ) ρ) turn) :
    turn = .done reply := by
  cases out
  rfl

theorem Outside.not_inside {s : Turn (Place σ Op ρ) ρ} (out : Outside s turn) (code : Code σ ρ) :
    s ≠ .busy (.inside code) := by
  cases out <;> simp

end Inversion

/-- The lock is free and nobody is inside, or it is held by the one caller that is.  The
    operation of that caller took effect when it got the lock. -/
inductive Related (lock : Lock) (view : σ → τ) (kept : σ → Prop) :
    Callers ι (σ × lock.State) (Place σ Op ρ) ρ → Callers ι τ Op ρ → Prop where
  | vacant {s : Callers ι (σ × lock.State) (Place σ Op ρ) ρ} {a : Callers ι τ Op ρ} (free : lock.free s.shared.2)
      (keeps : kept s.shared.1) (shared : a.shared = view s.shared.1) (others : ∀ u, Outside (s.turns u) (a.turns u)) :
      Related lock view kept s a
  | taken {s : Callers ι (σ × lock.State) (Place σ Op ρ) ρ} {a : Callers ι τ Op ρ} {code : Code σ ρ} {left : σ}
      {reply : ρ} (t : ι) (held : lock.held s.shared.2) (turn : s.turns t = .busy (.inside code))
      (rest : code.run s.shared.1 = .ok (left, reply)) (keeps : kept left) (shared : a.shared = view left)
      (effect : a.turns t = .done reply) (others : ∀ u, u ≠ t → Outside (s.turns u) (a.turns u)) :
      Related lock view kept s a

variable {s : Callers ι (σ × lock.State) (Place σ Op ρ) ρ} {a : Callers ι τ Op ρ} {t : ι}

/-- Outside of the bodies, a turn tells the turn at the atomic object. -/
theorem Related.outside (related : Related lock view kept s a) (out : ∀ code, s.turns t ≠ .busy (.inside code)) :
    Outside (s.turns t) (a.turns t) := by
  cases related with
  | vacant _ _ _ others => exact others t
  | @taken code _ _ v _ inside _ _ _ _ others =>
      refine others t ?_
      rintro rfl
      exact out code inside

variable [DecidableEq ι]

/-- A caller outside of the bodies changes its turn. -/
theorem Related.move (related : Related lock view kept s a) {turn : Turn (Place σ Op ρ) ρ} {turn' : Turn Op ρ}
    (out : ∀ code, s.turns t ≠ .busy (.inside code)) (outside : Outside turn turn') :
    Related lock view kept (s.move t turn) (a.move t turn') := by
  cases related with
  | vacant free keeps shared others =>
      refine .vacant free keeps shared fun u => ?_
      rw [Callers.move_turns, Callers.move_turns]
      by_cases same : u = t
      · rw [if_pos same, if_pos same]
        exact outside
      · rw [if_neg same, if_neg same]
        exact others u
  | @taken code left reply v held inside rest keeps shared effect others =>
      have other : v ≠ t := by
        rintro rfl
        exact out code inside
      refine .taken v held ?_ rest keeps shared ?_ fun u apart => ?_
      · rw [Callers.move_turns, if_neg other, inside]
      · rw [Callers.move_turns, if_neg other, effect]
      · rw [Callers.move_turns, Callers.move_turns]
        by_cases same : u = t
        · rw [if_pos same, if_pos same]
          exact outside
        · rw [if_neg same, if_neg same]
          exact others u apart

/-- A caller at the lock gets it when it is free, and is where it was when it is held. -/
theorem related_attempt (bodies : Bodies body apply view kept) (related : Related lock view kept s a) {op : Op}
    (turn : s.turns t = .busy (.waiting op)) :
    let next : Place σ Op ρ := if (lock.attempt s.shared.2).2 then .inside (body op) else .waiting op
    let s' := s.accessed t (s.shared.1, (lock.attempt s.shared.2).1) (.busy next)
    Related lock view kept s' a ∨ a.turns t = .busy op ∧ Related lock view kept s' (a.commit apply t op) := by
  intro next s'
  cases related with
  | vacant free keeps shared others =>
      right
      obtain ⟨nowHeld, got⟩ := lock.attempt_free _ free
      have waiting := others t
      rw [turn] at waiting
      obtain ⟨left, reply, ran, keeps', applied⟩ := bodies.runs op s.shared.1 keeps
      refine ⟨waiting.of_waiting, .taken t nowHeld ?_ ran keeps' ?_ ?_ fun u apart => ?_⟩
      · simp only [s', next, got, if_true, Callers.accessed_turns]
      · rw [Callers.commit_shared, shared, applied]
      · rw [Callers.commit_turns, if_pos rfl, shared, applied]
      · rw [Callers.accessed_turns, if_neg apart, Callers.commit_turns, if_neg apart]
        exact others u
  | @taken code left reply v held inside rest keeps shared effect others =>
      left
      have other : v ≠ t := by
        rintro rfl
        rw [turn] at inside
        cases inside
      have failed := lock.attempt_held _ held
      have still : s' = s.accessed t s.shared (s.turns t) := by
        simp only [s', next, failed, turn]
        rfl
      have same : s.accessed t s.shared (s.turns t) = s := by
        simp only [Callers.accessed, Function.update_eq_self]
      rw [still, same]
      exact .taken v held inside rest keeps shared effect others

/-- The one caller inside makes its next access, or leaves. -/
theorem related_inside (body : Op → Code σ ρ) (related : Related lock view kept s a) {code : Code σ ρ} (turn : s.turns t = .busy (.inside code)) :
    ∃ shared next, (guarded lock body).access (.inside code) s.shared = .ok (shared, next) ∧
      Related lock view kept (s.accessed t shared (.ofAccess next)) a := by
  cases related with
  | vacant free keeps shared others => exact absurd turn ((others t).not_inside code)
  | @taken code' left reply v held inside rest keeps shared effect others =>
      have same : v = t := by
        by_contra apart
        exact (others t (Ne.symm apart)).not_inside code turn
      subst same
      rw [turn, Turn.busy.injEq, Place.inside.injEq] at inside
      subst inside
      cases code with
      | done answer =>
          obtain ⟨rfl, rfl⟩ : s.shared.1 = left ∧ answer = reply := by
            rw [Code.run, Except.ok.injEq, Prod.mk.injEq] at rest
            exact rest
          refine ⟨_, _, rfl, .vacant (lock.release_held _ held) keeps shared fun u => ?_⟩
          rw [Callers.accessed_turns]
          by_cases same : u = v
          · subst same
            rw [if_pos rfl, effect]
            exact .done answer
          · rw [if_neg same]
            exact others u same
      | trap t => cases rest
      | access act next =>
          cases acted : act s.shared.1 with
          | error trap =>
              rw [Code.run, acted] at rest
              cases rest
          | ok after =>
              rw [Code.run, acted] at rest
              refine ⟨(after, s.shared.2), .inl (.inside (next s.shared.1)), ?_, ?_⟩
              · show ((act s.shared.1) >>= _) = _
                rw [acted]
                rfl
              · refine .taken v held ?_ rest keeps shared effect fun u apart => ?_
                · rw [Callers.accessed_turns, if_pos rfl]
                  rfl
                · rw [Callers.accessed_turns, if_neg apart]
                  exact others u apart

/-- Bodies under a lock are an atomic object. -/
theorem simulates (bodies : Bodies body apply view kept) {start : σ} (keeps : kept start) :
    (guarded lock body).Simulates (ι := ι) apply (start, lock.start) (view start) (Related lock view kept) where
  start := .vacant lock.start_free keeps rfl fun _ => .idle
  invoke := by
    intro s a t op related turn
    have out : ∀ code, s.turns t ≠ .busy (.inside code) := by
      intro code inside
      rw [turn] at inside
      cases inside
    have outside := related.outside out
    rw [turn] at outside
    exact ⟨outside.of_idle, related.move out (.waiting op)⟩
  access := by
    intro s a t place related turn
    cases place with
    | waiting op =>
        refine ⟨_, _, rfl, ?_⟩
        rcases related_attempt bodies related turn with stays | ⟨called, entered⟩
        · exact .inl stays
        · exact .inr ⟨op, called, entered⟩
    | inside code =>
        obtain ⟨shared, next, made, related⟩ := related_inside body related turn
        exact ⟨shared, next, made, .inl related⟩
  respond := by
    intro s a t reply related turn
    have out : ∀ code, s.turns t ≠ .busy (.inside code) := by
      intro code inside
      rw [turn] at inside
      cases inside
    have outside := related.outside out
    rw [turn] at outside
    exact ⟨outside.of_done, related.move out .idle⟩

variable {start : σ} {events : List (Event ι Op ρ)}

/-- What a run of guarded operations comes to. -/
theorem linearizes (bodies : Bodies body apply view kept) (keeps : kept start)
    (run : (guarded lock body).Run (start, lock.start) events s) :
    ∃ log final, Linearizes apply (view start) events log final ∧
      ((∀ t code, s.turns t ≠ .busy (.inside code)) → kept s.shared.1 ∧ final = view s.shared.1) := by
  obtain ⟨log, a, ran, related⟩ := (simulates bodies keeps).run run
  refine ⟨log, a.shared, ran.linearizes, fun nobody => ?_⟩
  cases related with
  | vacant _ keeps shared _ => exact ⟨keeps, shared⟩
  | @taken code _ _ t _ inside _ _ _ _ _ => exact absurd inside (nobody t code)

/-- At most one caller is inside. -/
theorem exclusive (bodies : Bodies body apply view kept) (keeps : kept start)
    (run : (guarded lock body).Run (start, lock.start) events s) {u : ι} {code code' : Code σ ρ}
    (inside : s.turns t = .busy (.inside code)) (inside' : s.turns u = .busy (.inside code')) : t = u := by
  obtain ⟨log, a, -, related⟩ := (simulates bodies keeps).run run
  cases related with
  | vacant _ _ _ others => exact absurd inside ((others t).not_inside code)
  | @taken _ _ _ v _ _ _ _ _ _ others =>
      have first : t = v := by
        by_contra apart
        exact (others t apart).not_inside code inside
      have second : u = v := by
        by_contra apart
        exact (others u apart).not_inside code' inside'
      rw [first, second]

end Guarded

end Plibsys.Support
