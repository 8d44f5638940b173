import Mathlib.Algebra.BigOperators.Group.Finset.Piecewise
import Mathlib.Algebra.Order.BigOperators.Group.Finset
import Mathlib.Data.Fintype.Card
import Mathlib.Tactic.Common

/-! # Counting threads

How many threads of a finite family are in a state with some property, and how the number
changes when one thread moves on.
-/

namespace Plibsys.Support

variable {ι α : Type} [Fintype ι]

/-- The number of threads whose state has a property. -/
def count (p : α → Bool) (f : ι → α) : Nat := (Finset.univ.filter fun t => p (f t) = true).card

variable {p : α → Bool} {f g : ι → α} {t u : ι}

theorem count_le (p : α → Bool) (f : ι → α) : count p f ≤ Fintype.card ι := Finset.card_le_univ _

theorem count_eq_zero : count p f = 0 ↔ ∀ t, p (f t) = false := by
  simp [count, Finset.filter_eq_empty_iff]

theorem count_pos : 0 < count p f ↔ ∃ t, p (f t) = true := by
  simp [count, Finset.card_pos, Finset.filter_nonempty_iff]

theorem count_congr (same : ∀ t, p (f t) = p (g t)) : count p f = count p g := by
  unfold count
  congr 1
  exact Finset.filter_congr fun t _ => by rw [same]

/-- A thread without the property is one that the number leaves out. -/
theorem count_add_not_le (p : α → Bool) (f : ι → α) (t : ι) : count p f + (!p (f t)).toNat ≤ Fintype.card ι := by
  cases at_t : p (f t) with
  | true => exact count_le p f
  | false => exact Finset.card_lt_univ_of_notMem (x := t) (by simp [at_t])

theorem toNat_le_count (p : α → Bool) (f : ι → α) (t : ι) : (p (f t)).toNat ≤ count p f := by
  cases at_t : p (f t) with
  | true => exact count_pos.mpr ⟨t, at_t⟩
  | false => exact Nat.zero_le _

/-- One thread changes its state. -/
theorem count_update [DecidableEq ι] (p : α → Bool) (f : ι → α) (t : ι) (x : α) :
    count p (Function.update f t x) + (p (f t)).toNat = count p f + (p x).toNat := by
  have split : ∀ h : ι → α, count p h =
      (p (h t)).toNat + ∑ u ∈ Finset.univ.erase t, (p (h u)).toNat := by
    intro h
    rw [Finset.add_sum_erase Finset.univ (fun u => (p (h u)).toNat) (Finset.mem_univ t), count,
      Finset.card_filter]
    apply Finset.sum_congr rfl
    intro u _
    cases p (h u) <;> rfl
  have others : ∑ u ∈ Finset.univ.erase t, (p (Function.update f t x u)).toNat =
      ∑ u ∈ Finset.univ.erase t, (p (f u)).toNat := by
    apply Finset.sum_congr rfl
    intro u inside
    rw [Function.update_of_ne (Finset.ne_of_mem_erase inside)]
  rw [split (Function.update f t x), split f, others, Function.update_self]
  omega

/-! ## Adding up what the threads hold -/

/-- The sum of what the states of the threads are worth. -/
def total (w : α → Nat) (f : ι → α) : Nat := ∑ t, w (f t)

section Total

variable {w v : α → Nat}

theorem le_total (w : α → Nat) (f : ι → α) (t : ι) : w (f t) ≤ total w f := by
  have single : ∀ g : ι → Nat, g t ≤ ∑ u, g u := fun g =>
    Finset.single_le_sum (fun u _ => Nat.zero_le (g u)) (Finset.mem_univ t)
  exact single fun u => w (f u)

theorem total_eq_zero : total w f = 0 ↔ ∀ t, w (f t) = 0 := by
  simp [total, Finset.sum_eq_zero_iff]

theorem total_pos (positive : 0 < w (f t)) : 0 < total w f := Nat.lt_of_lt_of_le positive (le_total w f t)

theorem exists_of_total_pos (positive : 0 < total w f) : ∃ t, 0 < w (f t) := by
  by_contra none
  push Not at none
  have zero := total_eq_zero.mpr fun t => Nat.le_zero.mp (none t)
  omega

theorem total_le {k : Nat} (below : ∀ t, w (f t) ≤ k) : total w f ≤ Fintype.card ι * k :=
  Finset.sum_le_card_nsmul Finset.univ (fun t => w (f t)) k fun t _ => below t

theorem total_mono (below : ∀ t, w (f t) ≤ v (f t)) : total w f ≤ total v f := Finset.sum_le_sum fun t _ => below t

theorem add_le_total [DecidableEq ι] (w : α → Nat) (f : ι → α) (apart : t ≠ u) : w (f t) + w (f u) ≤ total w f := by
  have both : ∑ x ∈ {t, u}, w (f x) = w (f t) + w (f u) := Finset.sum_pair apart
  rw [← both]
  exact Finset.sum_le_sum_of_subset (Finset.subset_univ _)

/-- One thread changes its state. -/
theorem total_update [DecidableEq ι] (w : α → Nat) (f : ι → α) (t : ι) (x : α) :
    total w (Function.update f t x) + w (f t) = total w f + w x := by
  have split : ∀ h : ι → α, total w h = w (h t) + ∑ u ∈ Finset.univ.erase t, w (h u) := fun h =>
    (Finset.add_sum_erase Finset.univ (fun u => w (h u)) (Finset.mem_univ t)).symm
  have others : ∑ u ∈ Finset.univ.erase t, w (Function.update f t x u) = ∑ u ∈ Finset.univ.erase t, w (f u) := by
    apply Finset.sum_congr rfl
    intro u inside
    rw [Function.update_of_ne (Finset.ne_of_mem_erase inside)]
  rw [split (Function.update f t x), split f, others, Function.update_self]
  omega

end Total

end Plibsys.Support
