import Mathlib.Algebra.Group.Fin.Basic
import Mathlib.Algebra.Ring.Nat
import Mathlib.Tactic.Common

/-! # Registers with rotating names

Code that would move every register one place on in each round can instead leave the values
where they are and change the names.  `view` is what the registers look like under the names
of a round.
-/

namespace Plibsys.Support

variable {α : Type} {n : Nat}

instance neZeroFour : NeZero 4 := ⟨by decide⟩

instance neZeroFive : NeZero 5 := ⟨by decide⟩

instance neZeroEight : NeZero 8 := ⟨by decide⟩

instance neZeroSixteen : NeZero 16 := ⟨by decide⟩

instance neZeroTwentyFive : NeZero 25 := ⟨by decide⟩

instance neZeroEighty : NeZero 80 := ⟨by decide⟩

/-- A register is written. -/
def write (file : Vector α n) (r : Fin n) (x : α) : Vector α n := file.set r x

theorem get_eq_getElem (file : Vector α n) (r : Fin n) : file.get r = file[r.val] := rfl

theorem get_write (file : Vector α n) (r q : Fin n) (x : α) :
    (write file r x).get q = if q = r then x else file.get q := by
  rw [get_eq_getElem, write, Vector.getElem_set]
  simp only [Fin.val_inj, eq_comm, get_eq_getElem]

@[simp] theorem get_ofFn (f : Fin n → α) (r : Fin n) : (Vector.ofFn f).get r = f r :=
  Vector.getElem_ofFn r.isLt

/-- Registers are the same when they have the same values. -/
theorem vector_ext {file other : Vector α n} (same : ∀ r : Fin n, file.get r = other.get r) : file = other := by
  apply Vector.ext
  intro i inside
  exact same ⟨i, inside⟩

/-! ## Assignments in place -/

section InPlace

variable {ι : Type} {items : List ι} {target : ι → Fin n} {value : ι → Vector α n → α}

/-- A register that is not assigned to stays. -/
theorem get_assign_other {k : Fin n} (other : ∀ i ∈ items, target i ≠ k) (file : Vector α n) :
    (items.foldl (fun file i => write file (target i) (value i file)) file).get k = file.get k := by
  induction items generalizing file with
  | nil => rfl
  | cons first items ih =>
      rw [List.foldl_cons, ih (fun i mem => other i (List.mem_cons_of_mem first mem)), get_write,
        if_neg (other first List.mem_cons_self).symm]

/-- Where no assignment touches what a later one reads or writes, every value is the one of the
    registers at the start. -/
theorem get_assign (apart : items.Pairwise fun i j =>
      target i ≠ target j ∧ ∀ file x, value j (write file (target i) x) = value j file)
    {i : ι} (mem : i ∈ items) (file : Vector α n) :
    (items.foldl (fun file i => write file (target i) (value i file)) file).get (target i) = value i file := by
  induction items generalizing file with
  | nil => cases mem
  | cons first items ih =>
      obtain ⟨before, later⟩ := List.pairwise_cons.mp apart
      rw [List.foldl_cons]
      obtain rfl | mem := List.mem_cons.mp mem
      · rw [get_assign_other (fun j mem => (before j mem).1.symm), get_write, if_pos rfl]
      · rw [ih later mem, (before i mem).2]

end InPlace

/-! ## Names that rotate -/

/-- The registers by their names in the given round: register 0 was the last one before. -/
def view (file : Vector α n) (round : Fin n) : Vector α n := Vector.ofFn fun r => file.get (r - round)

@[simp] theorem get_view (file : Vector α n) (round r : Fin n) : (view file round).get r = file.get (r - round) :=
  get_ofFn _ r

variable [NeZero n]

@[simp] theorem view_zero (file : Vector α n) : view file 0 = file := by
  apply vector_ext
  intro r
  rw [get_view, sub_zero]

/-- Writing a register under its name. -/
theorem view_write (file : Vector α n) (round r : Fin n) (x : α) :
    view (write file (r - round) x) round = write (view file round) r x := by
  apply vector_ext
  intro q
  simp only [get_view, get_write, sub_left_inj]

/-- The names of the next round: every value is one place further on. -/
theorem get_view_succ (file : Vector α n) (round r : Fin n) :
    (view file (round + 1)).get r = (view file round).get (r - 1) := by
  rw [get_view, get_view, sub_sub, add_comm]

theorem ofNat_succ (t : Nat) : Fin.ofNat n (t + 1) = Fin.ofNat n t + 1 := by
  apply Fin.ext
  simp [Fin.val_add]

/-- A run of rounds under rotating names is the run that moves the registers. -/
theorem view_foldl {inPlace moving : Nat → Vector α n → Vector α n} (rounds : Nat)
    (step : ∀ t < rounds, ∀ file, view (inPlace t file) (Fin.ofNat n (t + 1)) = moving t (view file (Fin.ofNat n t)))
    (file : Vector α n) :
    view ((List.range rounds).foldl (fun file t => inPlace t file) file) (Fin.ofNat n rounds) =
      (List.range rounds).foldl (fun file t => moving t file) file := by
  induction rounds with
  | zero => exact view_zero file
  | succ rounds ih =>
      rw [List.range_succ, List.foldl_append, List.foldl_append, List.foldl_cons, List.foldl_cons, List.foldl_nil,
        List.foldl_nil, step rounds (Nat.lt_succ_self rounds), ih fun t below => step t (Nat.lt_succ_of_lt below)]

end Plibsys.Support
