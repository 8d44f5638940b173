import Mathlib.Logic.Basic
import Mathlib.Tactic.Common
import Mathlib.Data.List.Basic
import Mathlib.Logic.Function.Basic

/-! # Circular buffers

A circular buffer keeps a queue in `size` slots, from a read position up to a write
position, both taken modulo `size`.  One slot stays free, so that equal positions mean
an empty queue.
-/

namespace Plibsys.Support.Ring

variable {α : Type} {size r w n : Nat} {f g : Nat → α} {data : List α}

/-- How many slots lie between the positions. -/
def used (size r w : Nat) : Nat := if r ≤ w then w - r else size - (r - w)

/-- What `n` slots from position `r` on hold. -/
def contents (f : Nat → α) (size r n : Nat) : List α :=
  (List.range n).map fun i => f ((r + i) % size)

/-- `g` is `f` with `data` stored from position `w` on. -/
structure Stored (f g : Nat → α) (size w : Nat) (data : List α) : Prop where
  stored : ∀ i (inside : i < data.length), g ((w + i) % size) = data.get ⟨i, inside⟩
  kept : ∀ p, (∀ i < data.length, p ≠ (w + i) % size) → g p = f p

theorem mod_eq (small : n < 2 * size) : n % size = if n < size then n else n - size := by
  split
  · exact Nat.mod_eq_of_lt ‹_›
  · rw [Nat.mod_eq_sub_mod (by omega), Nat.mod_eq_of_lt (by omega)]

theorem used_lt (readBelow : r < size) (writeBelow : w < size) : used size r w < size := by
  unfold used
  split <;> omega

theorem write_eq (readBelow : r < size) (writeBelow : w < size) : w = (r + used size r w) % size := by
  rw [mod_eq (by have := used_lt readBelow writeBelow; omega)]
  unfold used
  split <;> split <;> omega

theorem used_push (readBelow : r < size) (writeBelow : w < size) (room : used size r w + n < size) :
    used size r ((w + n) % size) = used size r w + n := by
  rw [mod_eq (by omega)]
  unfold used at room ⊢
  split at room <;> split <;> split <;> omega

theorem used_pop (readBelow : r < size) (writeBelow : w < size) (available : n ≤ used size r w) :
    used size ((r + n) % size) w = used size r w - n := by
  rw [mod_eq (by have := used_lt readBelow writeBelow; omega)]
  unfold used at available ⊢
  split at available <;> split <;> split <;> omega

/-- Slots less than one turn apart are different. -/
theorem slot_ne {i j : Nat} (before : i < j) (turn : j < size) : (r + i) % size ≠ (r + j) % size := by
  have below : r % size < size := Nat.mod_lt _ (by omega)
  rw [← Nat.mod_add_mod, ← Nat.mod_add_mod r size j]
  generalize r % size = s at below ⊢
  rw [mod_eq (show s + i < 2 * size by omega), mod_eq (show s + j < 2 * size by omega)]
  split <;> split <;> omega

@[simp] theorem length_contents : (contents f size r n).length = n := by simp [contents]

theorem contents_append (a b : Nat) :
    contents f size r (a + b) = contents f size r a ++ contents f size ((r + a) % size) b := by
  unfold contents
  rw [List.range_add, List.map_append, List.map_map]
  congr 1
  apply List.map_congr_left
  intro i inside
  rw [Function.comp_apply, Nat.mod_add_mod, Nat.add_assoc]

theorem contents_succ : contents f size r (n + 1) = f (r % size) :: contents f size (r + 1) n := by
  simp [contents, List.range_succ_eq_map, Function.comp_def, Nat.add_assoc, Nat.add_comm 1]

theorem contents_congr (same : ∀ i < n, f ((r + i) % size) = g ((r + i) % size)) :
    contents f size r n = contents g size r n := by
  apply List.map_congr_left
  intro i inside
  exact same i (List.mem_range.mp inside)

theorem Stored.nil : Stored f f size w [] := ⟨fun i inside => absurd inside (by simp), fun _ _ => rfl⟩

/-- Storing in the first slot and then behind it. -/
theorem Stored.cons {a : α} (turn : data.length < size)
    (rest : Stored (Function.update f (w % size) a) g size (w + 1) data) :
    Stored f g size w (a :: data) where
  stored := by
    intro i inside
    cases i with
    | zero =>
        rw [Nat.add_zero, rest.kept (w % size), Function.update_self]
        · rfl
        · intro j below
          have apart : (w + 0) % size ≠ (w + (1 + j)) % size := slot_ne (by omega) (by omega)
          rwa [Nat.add_zero, ← Nat.add_assoc] at apart
    | succ i =>
        rw [List.length_cons] at inside
        have placed := rest.stored i (by omega)
        rwa [Nat.add_assoc, Nat.add_comm 1] at placed
  kept := by
    intro p other
    rw [rest.kept p, Function.update_of_ne]
    · have first := other 0 (by simp)
      rwa [Nat.add_zero] at first
    · intro i below
      have later := other (i + 1) (by simpa using below)
      rwa [Nat.add_comm i, ← Nat.add_assoc] at later

theorem contents_of_stored (stored : Stored f g size w data) :
    contents g size w data.length = data := by
  apply List.ext_getElem
  · simp
  · intro i inside inside'
    simp only [contents, List.getElem_map, List.getElem_range]
    exact stored.stored i inside'

/-- Storing behind the queue appends to it. -/
theorem contents_push (readBelow : r < size) (writeBelow : w < size)
    (room : used size r w + data.length < size) (stored : Stored f g size w data) :
    contents g size r (used size r w + data.length) = contents f size r (used size r w) ++ data := by
  have behind := write_eq readBelow writeBelow
  rw [contents_append, ← behind, contents_of_stored stored]
  congr 1
  apply contents_congr
  intro i queued
  apply stored.kept
  intro j inside
  rw [behind, Nat.mod_add_mod, Nat.add_assoc]
  exact slot_ne (by omega) (by omega)

/-- Moving the read position drops the head of the queue. -/
theorem contents_pop (available : n ≤ used size r w) :
    contents f size r (used size r w) =
      contents f size r n ++ contents f size ((r + n) % size) (used size r w - n) := by
  rw [← contents_append]
  congr 1
  omega

end Plibsys.Support.Ring
