import Plibsys.Support.RotatingNames
import Mathlib.Data.List.GetD

/-! # Sequences by recurrence

A list is extended by one item at a time, each from the items before it.  Items that are there
stay, so an item can be named by its index alone.  A loop that needs only the latest items can
keep them in a ring.
-/

namespace Plibsys.Support

variable {α : Type} {next : List α → α} {first : List α} {d : α}

/-- The list after some steps. -/
def extend (next : List α → α) (first : List α) : Nat → List α
  | 0 => first
  | n + 1 =>
      let items := extend next first n
      items ++ [next items]

@[simp] theorem length_extend (n : Nat) : (extend next first n).length = first.length + n := by
  induction n with
  | zero => rfl
  | succ n ih => rw [extend, List.length_append, ih, List.length_singleton, Nat.add_assoc]

/-- The items that are there stay. -/
theorem take_extend {n total : Nat} (le : n ≤ total) :
    (extend next first total).take (first.length + n) = extend next first n := by
  induction le with
  | refl => exact List.take_of_length_le (Nat.le_of_eq (length_extend n))
  | step le ih =>
      rw [extend, List.take_append_of_le_length, ih]
      rw [length_extend]
      exact Nat.add_le_add_left le _

theorem getD_take {items : List α} {i n : Nat} (inside : i < n) : (items.take n).getD i d = items.getD i d := by
  rw [List.getD_eq_getElem?_getD, List.getElem?_take_of_lt inside, ← List.getD_eq_getElem?_getD]

theorem getD_extend_first {i total : Nat} (inside : i < first.length) :
    (extend next first total).getD i d = first.getD i d := by
  rw [← getD_take inside, show first.length = first.length + 0 from rfl, take_extend (Nat.zero_le total), extend]

/-- A new item is made from those before it. -/
theorem getD_extend {k total : Nat} (later : first.length ≤ k) (below : k < first.length + total) :
    (extend next first total).getD k d = next ((extend next first total).take k) := by
  obtain ⟨n, rfl⟩ := Nat.exists_eq_add_of_le later
  rw [take_extend (by omega), ← getD_take (show first.length + n < first.length + (n + 1) by omega),
    take_extend (by omega), extend,
    List.getD_append_right _ _ _ _ (Nat.le_of_eq (length_extend n)), length_extend, Nat.sub_self]
  rfl

/-! ## The latest items in a ring -/

variable {n : Nat} [NeZero n] {ring : Vector α n} {items : Nat → α} {count : Nat}

/-- Of the first `count` items the ring holds those that have not been overwritten. -/
def Latest (ring : Vector α n) (items : Nat → α) (count : Nat) : Prop :=
  ∀ k < count, count ≤ k + n → ring.get (Fin.ofNat n k) = items k

/-- Items that are close to each other are in different places. -/
theorem ofNat_ne {i k : Nat} (before : i < k) (near : k < i + n) : Fin.ofNat n i ≠ Fin.ofNat n k := by
  intro same
  have apart := Nat.sub_mod_eq_zero_of_mod_eq (Fin.val_eq_of_eq same).symm
  rw [Nat.mod_eq_of_lt (by omega)] at apart
  omega

theorem Latest.write (latest : Latest ring items count) :
    Latest (write ring (Fin.ofNat n count) (items count)) items (count + 1) := by
  intro k below near
  rw [get_write]
  split
  · next same =>
      obtain rfl | before : k = count ∨ k < count := by omega
      · rfl
      · exact absurd same (ofNat_ne before (by omega))
  · next other =>
      have old : k ≠ count := fun same => other (by rw [same])
      exact latest k (by omega) (by omega)

/-- What holds at the start of a loop and is kept by each round holds at its end. -/
theorem foldl_range_invariant {σ : Type} {step : σ → Nat → σ} {invariant : Nat → σ → Prop} {s : σ} {first : Nat}
    (rounds : Nat) (start : invariant first s)
    (keeps : ∀ t s, first ≤ t → t < first + rounds → invariant t s → invariant (t + 1) (step s t)) :
    invariant (first + rounds) ((List.range' first rounds).foldl step s) := by
  induction rounds with
  | zero => exact start
  | succ rounds ih =>
      have before := ih fun t s later below => keeps t s later (by omega)
      rw [List.range'_concat, List.foldl_append, List.foldl_cons, List.foldl_nil, Nat.one_mul]
      exact keeps (first + rounds) _ (by omega) (by omega) before

end Plibsys.Support
