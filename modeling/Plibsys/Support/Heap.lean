import Mathlib.Logic.Basic
import Mathlib.Tactic.Common

/-! # Heaps with explicit faults

A heap is a finite partial map from addresses to cells.  Address `0` is the null
pointer and is never allocated, so every read or write through it faults.  Code
over a heap returns `Exec`: an invalid access and an exhausted loop bound are two
different outcomes, and a total-correctness statement excludes both.

An `Allocator` is any rule for choosing the address of a new cell.  Its answers
are free, non-null addresses of the heap it is asked about, which is all that a
client of an allocator may rely on.
-/

namespace Plibsys.Support

/-- Why a run stops without a result. -/
inductive Trap where
  /-- An access through an address that is not allocated. -/
  | fault
  /-- The loop bound of the model ran out. -/
  | outOfFuel
  deriving Repr, DecidableEq

abbrev Exec (α : Type) := Except Trap α

namespace Exec

@[simp] theorem ok_bind {α β : Type} (a : α) (f : α → Exec β) :
    ((Except.ok a : Exec α) >>= f) = f a := rfl

@[simp] theorem pure_eq_ok {α : Type} (a : α) : (pure a : Exec α) = .ok a := rfl

@[simp] theorem error_bind {α β : Type} (e : Trap) (f : α → Exec β) :
    ((Except.error e : Exec α) >>= f) = .error e := rfl

end Exec

abbrev Addr := Nat

/-- Cells at finitely many non-null addresses. -/
structure Heap (α : Type) where
  cell : Addr → Option α
  bound : Nat
  null_free : cell 0 = none
  free_above : ∀ a : Nat, bound ≤ a → cell a = none

namespace Heap

variable {α : Type}

@[ext] theorem ext {h h' : Heap α} (cells : h.cell = h'.cell) (bounds : h.bound = h'.bound) :
    h = h' := by
  cases h
  cases h'
  simp_all

/-- The heap without cells. -/
def empty : Heap α where
  cell := fun _ => none
  bound := 0
  null_free := rfl
  free_above := fun _ _ => rfl

@[simp] theorem empty_cell (a : Addr) : (empty : Heap α).cell a = none := rfl

/-- Change the cell at `a` in place.  An unallocated address stays unallocated. -/
def adjust (h : Heap α) (a : Addr) (f : α → α) : Heap α where
  cell := fun b => if b = a then (h.cell a).map f else h.cell b
  bound := h.bound
  null_free := by
    split
    · next same => rw [← same, h.null_free]; rfl
    · exact h.null_free
  free_above := by
    intro b above
    split
    · next same => rw [← same, h.free_above b above]; rfl
    · exact h.free_above b above

theorem cell_adjust (h : Heap α) (a b : Addr) (f : α → α) :
    (h.adjust a f).cell b = if b = a then (h.cell a).map f else h.cell b := rfl

@[simp] theorem cell_adjust_self (h : Heap α) (a : Addr) (f : α → α) :
    (h.adjust a f).cell a = (h.cell a).map f := by simp [cell_adjust]

@[simp] theorem cell_adjust_ne (h : Heap α) {a b : Addr} (different : b ≠ a) (f : α → α) :
    (h.adjust a f).cell b = h.cell b := by simp [cell_adjust, different]

@[simp] theorem adjust_isSome (h : Heap α) (a b : Addr) (f : α → α) :
    ((h.adjust a f).cell b).isSome = (h.cell b).isSome := by
  by_cases same : b = a
  · subst same; simp
  · simp [same]

theorem adjust_eq_self {h : Heap α} {a : Addr} {f : α → α} {x : α} (at_a : h.cell a = some x)
    (fixed : f x = x) : h.adjust a f = h := by
  refine Heap.ext ?_ rfl
  funext b
  by_cases same : b = a
  · subst same
    simp [at_a, fixed]
  · simp [same]

theorem adjust_of_free {h : Heap α} {a : Addr} (free : h.cell a = none) (f : α → α) :
    h.adjust a f = h := by
  refine Heap.ext ?_ rfl
  funext b
  by_cases same : b = a
  · subst same
    simp [free]
  · simp [same]

theorem adjust_adjust (h : Heap α) (a : Addr) (f g : α → α) :
    (h.adjust a f).adjust a g = h.adjust a (g ∘ f) := by
  refine Heap.ext ?_ rfl
  funext b
  by_cases same : b = a
  · subst same
    simp
  · simp [same]

/-- Put a cell at a non-null address. -/
def insert (h : Heap α) (a : Addr) (nonnull : a ≠ 0) (x : α) : Heap α where
  cell := fun b => if b = a then some x else h.cell b
  bound := max h.bound (a + 1)
  null_free := by simp [nonnull.symm, h.null_free]
  free_above := by
    intro b above
    have beyond : h.bound ≤ b := by omega
    have different : b ≠ a := Nat.ne_of_gt (by omega)
    simp [different, h.free_above b beyond]

@[simp] theorem cell_insert (h : Heap α) (a b : Addr) (nonnull : a ≠ 0) (x : α) :
    (h.insert a nonnull x).cell b = if b = a then some x else h.cell b := rfl

theorem adjust_insert (h : Heap α) {a : Addr} (nonnull : a ≠ 0) (x : α) (f : α → α) :
    (h.insert a nonnull x).adjust a f = h.insert a nonnull (f x) := by
  refine Heap.ext ?_ rfl
  funext b
  by_cases same : b = a
  · subst same
    simp
  · simp [same]

/-- Drop the cell at `a`. -/
def erase (h : Heap α) (a : Addr) : Heap α where
  cell := fun b => if b = a then none else h.cell b
  bound := h.bound
  null_free := by simp [h.null_free]
  free_above := by
    intro b above
    simp [h.free_above b above]

@[simp] theorem cell_erase (h : Heap α) (a b : Addr) :
    (h.erase a).cell b = if b = a then none else h.cell b := rfl

/-- Dereference `a`. -/
def load (h : Heap α) (a : Addr) : Exec α :=
  match h.cell a with
  | some x => .ok x
  | none => .error .fault

@[simp] theorem load_of_cell {h : Heap α} {a : Addr} {x : α} (at_a : h.cell a = some x) :
    h.load a = .ok x := by simp [load, at_a]

/-- Write through `a`. -/
def modify (h : Heap α) (a : Addr) (f : α → α) : Exec (Heap α) :=
  match h.cell a with
  | some _ => .ok (h.adjust a f)
  | none => .error .fault

@[simp] theorem modify_of_cell {h : Heap α} {a : Addr} {x : α} (at_a : h.cell a = some x)
    (f : α → α) : h.modify a f = .ok (h.adjust a f) := by simp [modify, at_a]

/-- Release the cell at `a`. -/
def free (h : Heap α) (a : Addr) : Exec (Heap α) :=
  match h.cell a with
  | some _ => .ok (h.erase a)
  | none => .error .fault

@[simp] theorem free_of_cell {h : Heap α} {a : Addr} {x : α} (at_a : h.cell a = some x) :
    h.free a = .ok (h.erase a) := by simp [free, at_a]

end Heap

/-- A choice of address for a new cell, given which addresses are taken and a
    bound above them. -/
structure Allocator where
  pick : (taken : Addr → Bool) → (bound : Nat) → Addr
  pick_nonnull : ∀ (taken : Addr → Bool) (bound : Nat), pick taken bound ≠ 0
  pick_free : ∀ (taken : Addr → Bool) (bound : Nat),
    (∀ a : Nat, bound ≤ a → taken a = false) → taken (pick taken bound) = false

namespace Allocator

/-- The allocator that extends the heap at its end. -/
def bump : Allocator where
  pick := fun _ bound => bound + 1
  pick_nonnull := fun _ bound => Nat.succ_ne_zero bound
  pick_free := by
    intro taken bound above
    exact above (bound + 1) (by omega)

variable {α : Type}

/-- The address of the next cell of `h`. -/
def next (A : Allocator) (h : Heap α) : Addr :=
  A.pick (fun a => (h.cell a).isSome) h.bound

theorem next_nonnull (A : Allocator) (h : Heap α) : A.next h ≠ 0 := A.pick_nonnull _ _

theorem next_free (A : Allocator) (h : Heap α) : h.cell (A.next h) = none := by
  have unused := A.pick_free (fun a => (h.cell a).isSome) h.bound (by
    intro a above
    simp [h.free_above a above])
  simpa [next] using unused

end Allocator

end Plibsys.Support
