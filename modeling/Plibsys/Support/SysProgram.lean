import Mathlib.Logic.Basic

/-! # Programs that call the system

A program with a state of its own calls the system, which answers as it likes: its replies
are a list that is given beforehand, and the program waits where the list ends.  The calls
are recorded in order.
-/

namespace Plibsys.Support

/-- The state of a program, the replies still to come and the calls so far. -/
structure Session (σ κ ρ : Type) where
  state : σ
  replies : List ρ
  calls : List κ

/-- A program brings a result, or waits for ever. -/
def SysProgram (σ κ ρ α : Type) := Session σ κ ρ → Option α × Session σ κ ρ

namespace SysProgram

variable {σ κ ρ α β : Type}

instance : Monad (SysProgram σ κ ρ) where
  pure a := fun s => (some a, s)
  bind op next := fun s =>
    match op s with
    | (some a, s') => next a s'
    | (none, s') => (none, s')

def get : SysProgram σ κ ρ σ := fun s => (some s.state, s)

def modify (f : σ → σ) : SysProgram σ κ ρ Unit := fun s => (some (), { s with state := f s.state })

/-- The program does not go on. -/
def waits : SysProgram σ κ ρ α := fun s => (none, s)

/-- A call is recorded when it is made, also if no reply comes. -/
def call (c : κ) : SysProgram σ κ ρ ρ := fun s =>
  match s.replies with
  | [] => (none, { s with calls := s.calls ++ [c] })
  | r :: replies => (some r, { s with replies := replies, calls := s.calls ++ [c] })

section Runs

variable {s s' : Session σ κ ρ} {op : SysProgram σ κ ρ α} {next : α → SysProgram σ κ ρ β} {a : α}

@[simp] theorem pure_run (a : α) (s : Session σ κ ρ) : (pure a : SysProgram σ κ ρ α) s = (some a, s) := rfl

@[simp] theorem get_run (s : Session σ κ ρ) : (get : SysProgram σ κ ρ σ) s = (some s.state, s) := rfl

@[simp] theorem modify_run (f : σ → σ) (s : Session σ κ ρ) :
    (modify f : SysProgram σ κ ρ Unit) s = (some (), { s with state := f s.state }) := rfl

theorem bind_run (ran : op s = (some a, s')) : (op >>= next) s = next a s' := by
  change (match op s with
    | (some a, s') => next a s'
    | (none, s') => (none, s')) = _
  rw [ran]

theorem bind_waits (ran : op s = (none, s')) : (op >>= next) s = (none, s') := by
  change (match op s with
    | (some a, s') => next a s'
    | (none, s') => (none, s')) = _
  rw [ran]

@[simp] theorem pure_bind_run (a : α) (next : α → SysProgram σ κ ρ β) (s : Session σ κ ρ) :
    ((pure a : SysProgram σ κ ρ α) >>= next) s = next a s := bind_run rfl

@[simp] theorem modify_bind_run (f : σ → σ) (next : Unit → SysProgram σ κ ρ β) (s : Session σ κ ρ) :
    (modify f >>= next) s = next () { s with state := f s.state } := bind_run rfl

end Runs

/-- Whatever the replies, a program keeps a property of the session. -/
def Keeps (P : Session σ κ ρ → Prop) (op : SysProgram σ κ ρ α) : Prop := ∀ s, P s → P (op s).2

namespace Keeps

variable {P : Session σ κ ρ → Prop} {op : SysProgram σ κ ρ α} {next : α → SysProgram σ κ ρ β}

theorem pure (a : α) : Keeps P (Pure.pure a : SysProgram σ κ ρ α) := fun _ holds => holds

theorem get : Keeps P (SysProgram.get : SysProgram σ κ ρ σ) := fun _ holds => holds

theorem waits : Keeps P (SysProgram.waits : SysProgram σ κ ρ α) := fun _ holds => holds

theorem modify {f : σ → σ} (changes : ∀ s, P s → P { s with state := f s.state }) :
    Keeps P (SysProgram.modify f) := changes

/-- The rest has to keep the property only for the results that the first part can bring. -/
theorem bindOf {Q : α → Prop} (first : Keeps P op) (brings : ∀ s a, P s → (op s).1 = some a → Q a)
    (rest : ∀ a, Q a → Keeps P (next a)) : Keeps P (op >>= next) := by
  intro s holds
  have after := first s holds
  rcases ran : op s with ⟨_ | a, s'⟩
  · rw [ran] at after
    rw [bind_waits ran]
    exact after
  · have possible := brings s a holds (by rw [ran])
    rw [ran] at after
    rw [bind_run ran]
    exact rest a possible s' after

theorem bind (first : Keeps P op) (rest : ∀ a, Keeps P (next a)) : Keeps P (op >>= next) :=
  bindOf (Q := fun _ => True) first (fun _ _ _ _ => trivial) fun a _ => rest a

/-- A property of the state alone is not touched by a call. -/
theorem call {p : σ → Prop} (c : κ) :
    Keeps (fun s => p s.state) (SysProgram.call c : SysProgram σ κ ρ ρ) := by
  intro s holds
  unfold SysProgram.call
  cases s.replies <;> exact holds

end Keeps

/-- Whatever the replies, the results of a program have a property. -/
def Brings (Q : α → Prop) (op : SysProgram σ κ ρ α) : Prop := ∀ s a, (op s).1 = some a → Q a

namespace Brings

variable {Q : α → Prop} {R : β → Prop} {op : SysProgram σ κ ρ α} {next : α → SysProgram σ κ ρ β}

theorem pure {a : α} (holds : Q a) : Brings Q (Pure.pure a : SysProgram σ κ ρ α) := by
  rintro s _ ⟨⟩
  exact holds

theorem bindOf (first : Brings Q op) (rest : ∀ a, Q a → Brings R (next a)) : Brings R (op >>= next) := by
  intro s b brought
  rcases ran : op s with ⟨_ | a, s'⟩
  · rw [bind_waits ran] at brought
    cases brought
  · rw [bind_run ran] at brought
    exact rest a (first s a (by rw [ran])) s' b brought

theorem bind (rest : ∀ a, Brings R (next a)) : Brings R (op >>= next) :=
  bindOf (Q := fun _ => True) (fun _ _ _ => trivial) fun a _ => rest a

end Brings

end SysProgram

end Plibsys.Support
