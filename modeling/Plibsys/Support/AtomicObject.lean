import Plibsys.Support.Heap
import Mathlib.Data.List.Infix
import Mathlib.Logic.Function.Basic

/-! # Atomic objects

Callers share something and call operations on it.  A history of calls and answers is
linearized by a list of effects when the operations, run one after the other in the order of
the list, give the answers, and every call takes effect between its invocation and its
answer.

An implementation runs each operation in several accesses to what is shared, and the
accesses of different callers interleave in any order.  It is linearizable when its states
simulate those of the atomic object, where an operation takes effect in one step.
-/

namespace Plibsys.Support

/-- What is seen of the calls. -/
inductive Event (ι Op ρ : Type) where
  | invoke (t : ι) (op : Op)
  | respond (t : ι) (reply : ρ)

/-- A call that took effect. -/
structure Effect (ι Op ρ : Type) where
  caller : ι
  op : Op
  reply : ρ

section Histories

variable {ι σ Op ρ : Type} [DecidableEq ι]

def Event.invokedBy (t : ι) : Event ι Op ρ → Option Op
  | .invoke u op => if u = t then some op else none
  | .respond _ _ => none

def Event.answeredTo (t : ι) : Event ι Op ρ → Option ρ
  | .invoke _ _ => none
  | .respond u reply => if u = t then some reply else none

/-- The calls of `t`. -/
def invoked (t : ι) (events : List (Event ι Op ρ)) : List Op := events.filterMap (Event.invokedBy t)

/-- The answers that `t` got. -/
def answered (t : ι) (events : List (Event ι Op ρ)) : List ρ := events.filterMap (Event.answeredTo t)

/-- The operations of `t` that took effect. -/
def opsOf (t : ι) (log : List (Effect ι Op ρ)) : List Op :=
  log.filterMap fun e => if e.caller = t then some e.op else none

def repliesOf (t : ι) (log : List (Effect ι Op ρ)) : List ρ :=
  log.filterMap fun e => if e.caller = t then some e.reply else none

@[simp] theorem invoked_snoc (t : ι) (events : List (Event ι Op ρ)) (e : Event ι Op ρ) :
    invoked t (events ++ [e]) = invoked t events ++ (e.invokedBy t).toList := by
  cases h : e.invokedBy t <;> simp [invoked, List.filterMap_append, h]

@[simp] theorem answered_snoc (t : ι) (events : List (Event ι Op ρ)) (e : Event ι Op ρ) :
    answered t (events ++ [e]) = answered t events ++ (e.answeredTo t).toList := by
  cases h : e.answeredTo t <;> simp [answered, List.filterMap_append, h]

@[simp] theorem opsOf_snoc (t : ι) (log : List (Effect ι Op ρ)) (e : Effect ι Op ρ) :
    opsOf t (log ++ [e]) = opsOf t log ++ if e.caller = t then [e.op] else [] := by
  by_cases h : e.caller = t <;> simp [opsOf, List.filterMap_append, h]

@[simp] theorem repliesOf_snoc (t : ι) (log : List (Effect ι Op ρ)) (e : Effect ι Op ρ) :
    repliesOf t (log ++ [e]) = repliesOf t log ++ if e.caller = t then [e.reply] else [] := by
  by_cases h : e.caller = t <;> simp [repliesOf, List.filterMap_append, h]

/-- The operations of `log`, run one after the other, give the replies that it records. -/
def Replays (apply : Op → σ → σ × ρ) : σ → List (Effect ι Op ρ) → σ → Prop
  | s, [], s' => s' = s
  | s, e :: log, s' => (apply e.op s).2 = e.reply ∧ Replays apply (apply e.op s).1 log s'

omit [DecidableEq ι] in
theorem Replays.snoc {apply : Op → σ → σ × ρ} {s s' : σ} {log : List (Effect ι Op ρ)} (replays : Replays apply s log s')
    (t : ι) (op : Op) : Replays apply s (log ++ [⟨t, op, (apply op s').2⟩]) (apply op s').1 := by
  induction log generalizing s with
  | nil =>
      obtain rfl : s' = s := replays
      exact ⟨rfl, rfl⟩
  | cons e log ih => exact ⟨replays.1, ih replays.2⟩

/-- What was seen fits the effects: an answered call took effect with its answer, and
    nothing took effect that was not called. -/
structure Explains (log : List (Effect ι Op ρ)) (events : List (Event ι Op ρ)) : Prop where
  replies : ∀ t, answered t events <+: repliesOf t log
  calls : ∀ t, opsOf t log <+: invoked t events

/-- At each point of the history, the effects up to some point of the list are those that
    took place.  A call that was answered before another one was made is before it in the
    list. -/
structure Linearizes (apply : Op → σ → σ × ρ) (start : σ) (events : List (Event ι Op ρ))
    (log : List (Effect ι Op ρ)) (final : σ) : Prop where
  replays : Replays apply start log final
  explains : Explains log events
  meanwhile : ∀ seen, seen <+: events → ∃ taken, taken <+: log ∧ Explains taken seen

end Histories

/-- Where a caller is: outside of every call, inside one, or at its end. -/
inductive Turn (α ρ : Type) where
  | idle
  | busy (a : α)
  | done (reply : ρ)
  deriving DecidableEq

/-- What is shared, and the callers. -/
structure Callers (ι σ α ρ : Type) where
  shared : σ
  turns : ι → Turn α ρ

namespace Callers

variable {ι σ Op α ρ : Type}

/-- Nobody has called yet. -/
def new (start : σ) : Callers ι σ α ρ := ⟨start, fun _ => .idle⟩

@[simp] theorem new_shared (start : σ) : (new start : Callers ι σ α ρ).shared = start := rfl

@[simp] theorem new_turns (start : σ) (t : ι) : (new start : Callers ι σ α ρ).turns t = .idle := rfl

variable [DecidableEq ι]

def move (s : Callers ι σ α ρ) (t : ι) (turn : Turn α ρ) : Callers ι σ α ρ :=
  { s with turns := Function.update s.turns t turn }

/-- An access of `t` changed what is shared. -/
def accessed (s : Callers ι σ α ρ) (t : ι) (shared : σ) (turn : Turn α ρ) : Callers ι σ α ρ :=
  ⟨shared, Function.update s.turns t turn⟩

/-- The operation takes effect. -/
def commit (apply : Op → σ → σ × ρ) (s : Callers ι σ Op ρ) (t : ι) (op : Op) : Callers ι σ Op ρ :=
  s.accessed t (apply op s.shared).1 (.done (apply op s.shared).2)

@[simp] theorem move_shared (s : Callers ι σ α ρ) (t : ι) (turn : Turn α ρ) : (s.move t turn).shared = s.shared := rfl

theorem move_turns (s : Callers ι σ α ρ) (t u : ι) (turn : Turn α ρ) :
    (s.move t turn).turns u = if u = t then turn else s.turns u := by
  simp [move, Function.update_apply]

@[simp] theorem accessed_shared (s : Callers ι σ α ρ) (t : ι) (shared : σ) (turn : Turn α ρ) :
    (s.accessed t shared turn).shared = shared := rfl

theorem accessed_turns (s : Callers ι σ α ρ) (t u : ι) (shared : σ) (turn : Turn α ρ) :
    (s.accessed t shared turn).turns u = if u = t then turn else s.turns u := by
  simp [accessed, Function.update_apply]

@[simp] theorem commit_shared (apply : Op → σ → σ × ρ) (s : Callers ι σ Op ρ) (t : ι) (op : Op) :
    (s.commit apply t op).shared = (apply op s.shared).1 := rfl

theorem commit_turns (apply : Op → σ → σ × ρ) (s : Callers ι σ Op ρ) (t u : ι) (op : Op) :
    (s.commit apply t op).turns u = if u = t then .done (apply op s.shared).2 else s.turns u := by
  simp [commit, accessed_turns]

end Callers

/-! ## The atomic object -/

section Atomic

variable {ι σ Op ρ : Type} [DecidableEq ι]

/-- The histories of an object whose operations take effect in one step, with the effects. -/
inductive AtomicRun (apply : Op → σ → σ × ρ) (start : σ) :
    List (Event ι Op ρ) → List (Effect ι Op ρ) → Callers ι σ Op ρ → Prop where
  | start : AtomicRun apply start [] [] (.new start)
  | invoke {events : List (Event ι Op ρ)} {log : List (Effect ι Op ρ)} {s : Callers ι σ Op ρ} {t : ι} {op : Op}
      (run : AtomicRun apply start events log s) (turn : s.turns t = .idle) :
      AtomicRun apply start (events ++ [.invoke t op]) log (s.move t (.busy op))
  | commit {events : List (Event ι Op ρ)} {log : List (Effect ι Op ρ)} {s : Callers ι σ Op ρ} {t : ι} {op : Op}
      (run : AtomicRun apply start events log s) (turn : s.turns t = .busy op) :
      AtomicRun apply start events (log ++ [⟨t, op, (apply op s.shared).2⟩]) (s.commit apply t op)
  | respond {events : List (Event ι Op ρ)} {log : List (Effect ι Op ρ)} {s : Callers ι σ Op ρ} {t : ι} {reply : ρ}
      (run : AtomicRun apply start events log s) (turn : s.turns t = .done reply) :
      AtomicRun apply start (events ++ [.respond t reply]) log (s.move t .idle)

/-- The events and the effects of a caller differ by what its turn tells. -/
def Agrees (events : List (Event ι Op ρ)) (log : List (Effect ι Op ρ)) (t : ι) : Turn Op ρ → Prop
  | .idle => answered t events = repliesOf t log ∧ invoked t events = opsOf t log
  | .busy op => answered t events = repliesOf t log ∧ invoked t events = opsOf t log ++ [op]
  | .done reply => answered t events ++ [reply] = repliesOf t log ∧ invoked t events = opsOf t log

variable {apply : Op → σ → σ × ρ} {start : σ} {events : List (Event ι Op ρ)} {log : List (Effect ι Op ρ)}
  {s : Callers ι σ Op ρ}

/-- Another caller's event or effect changes nothing. -/
theorem Agrees.congr {events' : List (Event ι Op ρ)} {log' : List (Effect ι Op ρ)} {t : ι} {turn : Turn Op ρ}
    (agrees : Agrees events log t turn) (sameAnswers : answered t events' = answered t events)
    (sameCalls : invoked t events' = invoked t events) (sameReplies : repliesOf t log' = repliesOf t log)
    (sameOps : opsOf t log' = opsOf t log) : Agrees events' log' t turn := by
  cases turn <;> simp only [Agrees, sameAnswers, sameCalls, sameReplies, sameOps] at agrees ⊢ <;> exact agrees

theorem AtomicRun.agrees (run : AtomicRun apply start events log s) (u : ι) : Agrees events log u (s.turns u) := by
  induction run with
  | start => exact ⟨rfl, rfl⟩
  | @invoke events log s t op run turn ih =>
      rw [Callers.move_turns]
      by_cases same : u = t
      · subst same
        rw [turn] at ih
        rw [if_pos rfl]
        exact ⟨by simpa [Event.answeredTo] using ih.1, by simpa [Event.invokedBy] using ih.2⟩
      · rw [if_neg same]
        exact ih.congr (by simp [Event.answeredTo]) (by simp [Event.invokedBy, Ne.symm same]) rfl rfl
  | @commit events log s t op run turn ih =>
      rw [Callers.commit_turns]
      by_cases same : u = t
      · subst same
        rw [turn] at ih
        rw [if_pos rfl]
        exact ⟨by simpa using ih.1, by simpa using ih.2⟩
      · rw [if_neg same]
        exact ih.congr rfl rfl (by simp [Ne.symm same]) (by simp [Ne.symm same])
  | @respond events log s t reply run turn ih =>
      rw [Callers.move_turns]
      by_cases same : u = t
      · subst same
        rw [turn] at ih
        rw [if_pos rfl]
        exact ⟨by simpa [Event.answeredTo] using ih.1, by simpa [Event.invokedBy] using ih.2⟩
      · rw [if_neg same]
        exact ih.congr (by simp [Event.answeredTo, Ne.symm same]) (by simp [Event.invokedBy]) rfl rfl

theorem AtomicRun.explains (run : AtomicRun apply start events log s) : Explains log events where
  replies := by
    intro t
    have agrees := run.agrees t
    cases turn : s.turns t with
    | idle | busy op =>
        rw [turn] at agrees
        rw [agrees.1]
    | done reply =>
        rw [turn] at agrees
        exact ⟨[reply], agrees.1⟩
  calls := by
    intro t
    have agrees := run.agrees t
    cases turn : s.turns t with
    | idle | done reply =>
        rw [turn] at agrees
        rw [agrees.2]
    | busy op =>
        rw [turn] at agrees
        exact ⟨[op], agrees.2.symm⟩

theorem AtomicRun.replays (run : AtomicRun apply start events log s) : Replays apply start log s.shared := by
  induction run with
  | start => rfl
  | invoke _ _ ih => exact ih
  | commit _ _ ih => exact ih.snoc _ _
  | respond _ _ ih => exact ih

/-- A history of the atomic object is linearized by its effects. -/
theorem AtomicRun.linearizes (run : AtomicRun apply start events log s) :
    Linearizes apply start events log s.shared := by
  refine ⟨run.replays, run.explains, ?_⟩
  have atEnd : ∃ taken, taken <+: log ∧ Explains taken events := ⟨log, List.prefix_rfl, run.explains⟩
  induction run with
  | start =>
      intro seen before
      rw [List.prefix_nil] at before
      subst before
      exact atEnd
  | invoke run turn ih =>
      intro seen before
      rcases List.prefix_concat_iff.mp before with rfl | earlier
      · exact atEnd
      · exact ih ⟨_, List.prefix_rfl, run.explains⟩ seen earlier
  | commit run turn ih =>
      intro seen before
      obtain ⟨taken, first, explains⟩ := ih ⟨_, List.prefix_rfl, run.explains⟩ seen before
      exact ⟨taken, first.trans (List.prefix_append _ _), explains⟩
  | respond run turn ih =>
      intro seen before
      rcases List.prefix_concat_iff.mp before with rfl | earlier
      · exact atEnd
      · exact ih ⟨_, List.prefix_rfl, run.explains⟩ seen earlier

end Atomic

/-! ## Implementations -/

/-- A program for each operation: an access reads and changes what is shared, and the call
    goes on or has its reply. -/
structure Implementation (σ Op ρ : Type) where
  Local : Type
  enter : Op → Local
  access : Local → σ → Exec (σ × (Local ⊕ ρ))

def Turn.ofAccess {α ρ : Type} : α ⊕ ρ → Turn α ρ
  | .inl a => .busy a
  | .inr reply => .done reply

/-- The same turn, with another account of what the caller does. -/
def Turn.map {α β ρ : Type} (f : α → β) : Turn α ρ → Turn β ρ
  | .idle => .idle
  | .busy a => .busy (f a)
  | .done reply => .done reply

namespace Implementation

variable {ι σ τ Op ρ : Type} [DecidableEq ι] (impl : Implementation σ Op ρ)

/-- The histories of the callers in any interleaving of their accesses. -/
inductive Run (start : σ) : List (Event ι Op ρ) → Callers ι σ impl.Local ρ → Prop where
  | start : Run start [] (.new start)
  | invoke {events : List (Event ι Op ρ)} {s : Callers ι σ impl.Local ρ} (run : Run start events s) (t : ι) (op : Op)
      (turn : s.turns t = .idle) :
      Run start (events ++ [.invoke t op]) (s.move t (.busy (impl.enter op)))
  | access {events : List (Event ι Op ρ)} {s : Callers ι σ impl.Local ρ} {a : impl.Local} {shared : σ}
      {next : impl.Local ⊕ ρ} (run : Run start events s) (t : ι) (turn : s.turns t = .busy a)
      (accessed : impl.access a s.shared = .ok (shared, next)) :
      Run start events (s.accessed t shared (.ofAccess next))
  | respond {events : List (Event ι Op ρ)} {s : Callers ι σ impl.Local ρ} {reply : ρ} (run : Run start events s) (t : ι)
      (turn : s.turns t = .done reply) :
      Run start (events ++ [.respond t reply]) (s.move t .idle)

/-- Every step of a caller is one of the atomic object's, or leaves its state as it is; and
    no access traps. -/
structure Simulates (apply : Op → τ → τ × ρ) (start : σ) (start' : τ)
    (R : Callers ι σ impl.Local ρ → Callers ι τ Op ρ → Prop) : Prop where
  start : R (.new start) (.new start')
  invoke : ∀ {s : Callers ι σ impl.Local ρ} {a : Callers ι τ Op ρ} {t : ι} (op : Op), R s a → s.turns t = .idle →
    a.turns t = .idle ∧ R (s.move t (.busy (impl.enter op))) (a.move t (.busy op))
  access : ∀ {s : Callers ι σ impl.Local ρ} {a : Callers ι τ Op ρ} {t : ι} {l : impl.Local}, R s a →
    s.turns t = .busy l → ∃ shared next, impl.access l s.shared = .ok (shared, next) ∧
      (R (s.accessed t shared (.ofAccess next)) a ∨
        ∃ op, a.turns t = .busy op ∧ R (s.accessed t shared (.ofAccess next)) (a.commit apply t op))
  respond : ∀ {s : Callers ι σ impl.Local ρ} {a : Callers ι τ Op ρ} {t : ι} {reply : ρ}, R s a →
    s.turns t = .done reply → a.turns t = .done reply ∧ R (s.move t .idle) (a.move t .idle)

variable {impl} {apply : Op → τ → τ × ρ} {start : σ} {start' : τ}
  {R : Callers ι σ impl.Local ρ → Callers ι τ Op ρ → Prop} {events : List (Event ι Op ρ)}
  {s : Callers ι σ impl.Local ρ}

/-- A run of the implementation is one of the atomic object. -/
theorem Simulates.run (sim : impl.Simulates apply start start' R) (run : impl.Run start events s) :
    ∃ log a, AtomicRun apply start' events log a ∧ R s a := by
  induction run with
  | start => exact ⟨[], _, .start, sim.start⟩
  | invoke _ t op turn ih =>
      obtain ⟨log, a, ran, related⟩ := ih
      obtain ⟨idle, related⟩ := sim.invoke op related turn
      exact ⟨log, _, ran.invoke idle, related⟩
  | access _ t turn accessed ih =>
      obtain ⟨log, a, ran, related⟩ := ih
      obtain ⟨shared, next, made, effect⟩ := sim.access related turn
      rw [accessed, Except.ok.injEq, Prod.mk.injEq] at made
      obtain ⟨rfl, rfl⟩ := made
      rcases effect with related | ⟨op, called, related⟩
      · exact ⟨log, a, ran, related⟩
      · exact ⟨_, _, ran.commit called, related⟩
  | respond _ t turn ih =>
      obtain ⟨log, a, ran, related⟩ := ih
      obtain ⟨answered, related⟩ := sim.respond related turn
      exact ⟨log, _, ran.respond answered, related⟩

/-- Whatever the order of the accesses, none of them traps. -/
theorem Simulates.safe (sim : impl.Simulates apply start start' R) (run : impl.Run start events s) {t : ι}
    {l : impl.Local} (turn : s.turns t = .busy l) : ∃ shared next, impl.access l s.shared = .ok (shared, next) := by
  obtain ⟨log, a, -, related⟩ := sim.run run
  obtain ⟨shared, next, made, -⟩ := sim.access related turn
  exact ⟨shared, next, made⟩

/-! ### One access that counts -/

variable {apply : Op → σ → σ × ρ}

/-- An access that changes nothing, or that is the whole operation. -/
def Tries (apply : Op → σ → σ × ρ) (opOf : impl.Local → Op) (l : impl.Local) (s : σ) : Prop :=
  (∃ l', impl.access l s = .ok (s, .inl l') ∧ opOf l' = opOf l) ∨
    impl.access l s = .ok ((apply (opOf l) s).1, .inr (apply (opOf l) s).2)

/-- Operations that try until one access does the whole of them are an atomic object. -/
theorem simulates_of_tries {start : σ} (opOf : impl.Local → Op) (enters : ∀ op, opOf (impl.enter op) = op)
    (tries : ∀ l s, impl.Tries apply opOf l s) :
    impl.Simulates (ι := ι) apply start start
      (fun s a => a.shared = s.shared ∧ ∀ u, a.turns u = (s.turns u).map opOf) where
  start := ⟨rfl, fun _ => rfl⟩
  invoke := by
    rintro s a t op ⟨shared, turns⟩ turn
    refine ⟨by rw [turns, turn]; rfl, shared, fun u => ?_⟩
    rw [Callers.move_turns, Callers.move_turns]
    by_cases same : u = t
    · rw [if_pos same, if_pos same, Turn.map, enters]
    · rw [if_neg same, if_neg same, turns]
  access := by
    rintro s a t l ⟨shared, turns⟩ turn
    rcases tries l s.shared with ⟨l', made, kept⟩ | made
    · refine ⟨_, _, made, .inl ⟨shared, fun u => ?_⟩⟩
      rw [Callers.accessed_turns]
      by_cases same : u = t
      · rw [if_pos same, Turn.ofAccess, Turn.map, kept, same, turns, turn, Turn.map]
      · rw [if_neg same, turns]
    · refine ⟨_, _, made, .inr ⟨opOf l, by rw [turns, turn]; rfl, ?_, fun u => ?_⟩⟩
      · rw [Callers.commit_shared, shared, Callers.accessed_shared]
      · rw [Callers.accessed_turns, Callers.commit_turns]
        by_cases same : u = t
        · rw [if_pos same, if_pos same, shared, Turn.ofAccess, Turn.map]
        · rw [if_neg same, if_neg same, turns]
  respond := by
    rintro s a t reply ⟨shared, turns⟩ turn
    refine ⟨by rw [turns, turn]; rfl, shared, fun u => ?_⟩
    rw [Callers.move_turns, Callers.move_turns]
    by_cases same : u = t
    · rw [if_pos same, if_pos same, Turn.map]
    · rw [if_neg same, if_neg same, turns]

theorem linearizes_of_tries {start : σ} (opOf : impl.Local → Op) (enters : ∀ op, opOf (impl.enter op) = op)
    (tries : ∀ l s, impl.Tries apply opOf l s) (run : impl.Run start events s) :
    ∃ log, Linearizes apply start events log s.shared := by
  obtain ⟨log, a, ran, shared, -⟩ := (simulates_of_tries opOf enters tries).run run
  exact ⟨log, shared ▸ ran.linearizes⟩

end Implementation

end Plibsys.Support
