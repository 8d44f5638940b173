import Plibsys.Support.Heap
import Mathlib.Algebra.Group.Nat.Defs
import Mathlib.Algebra.Ring.Nat

/-! # Loops over a counter of fixed width

`for (i = 0; i < bound; ++i)` where the counter has fewer bits than the bound may need.  The
loop ends exactly when its counter can reach the bound; until then its body has run once for
each number below it.
-/

namespace Plibsys.Support

variable {α : Type} {w : Nat}

/-- `for (; i < bound; ++i)` with a bound on the number of tests. -/
def countedLoop (body : Nat → α → Exec α) (bound : Nat) : Nat → BitVec w → α → Exec α
  | 0, _, _ => .error .outOfFuel
  | fuel + 1, i, a =>
      if i.toNat < bound then do
        let a ← body i.toNat a
        countedLoop body bound fuel (i + 1) a
      else
        pure a

variable {body : Nat → α → Exec α} {bound : Nat} {Inv : α → Prop} {effect : Nat → α → α}

/-- Below the width of the counter the loop ends, and its body has run for every number. -/
theorem countedLoop_ends (narrow : bound < 2 ^ w)
    (runs : ∀ i a, i < bound → Inv a → body i a = .ok (effect i a) ∧ Inv (effect i a))
    {fuel left : Nat} {i : BitVec w} {a : α} (steps : i.toNat + left = bound) (enough : left < fuel) (inv : Inv a) :
    countedLoop body bound fuel i a = .ok ((List.range' i.toNat left).foldl (fun a j => effect j a) a) := by
  induction left generalizing fuel i a with
  | zero =>
      obtain ⟨fuel, rfl⟩ := Nat.exists_eq_succ_of_ne_zero (Nat.ne_of_gt enough)
      rw [countedLoop, if_neg (by omega)]
      rfl
  | succ left ih =>
      obtain ⟨fuel, rfl⟩ := Nat.exists_eq_succ_of_ne_zero (Nat.ne_of_gt (Nat.zero_lt_of_lt enough))
      have next : (i + 1).toNat = i.toNat + 1 := by
        have one : (1 : BitVec w).toNat = 1 := Nat.mod_eq_of_lt (show 1 < 2 ^ w by omega)
        rw [BitVec.toNat_add, one, Nat.mod_eq_of_lt (by omega)]
      obtain ⟨ran, kept⟩ := runs i.toNat a (by omega) inv
      rw [countedLoop, if_pos (by omega), ran, Exec.ok_bind, ih (by omega) (by omega) kept, next,
        List.range'_succ, List.foldl_cons]

theorem countedLoop_start (narrow : bound < 2 ^ w)
    (runs : ∀ i a, i < bound → Inv a → body i a = .ok (effect i a) ∧ Inv (effect i a))
    {fuel : Nat} {a : α} (enough : bound < fuel) (inv : Inv a) :
    countedLoop body bound fuel (0 : BitVec w) a = .ok ((List.range bound).foldl (fun a j => effect j a) a) := by
  have zero : (0 : BitVec w).toNat = 0 := Nat.zero_mod _
  have ended : countedLoop body bound fuel (0 : BitVec w) a =
      .ok ((List.range' (0 : BitVec w).toNat bound).foldl (fun a j => effect j a) a) :=
    countedLoop_ends narrow runs (by omega) enough inv
  rwa [zero, ← List.range_eq_range'] at ended

/-- From the width of the counter on, the counter wraps before it reaches the bound. -/
theorem countedLoop_stuck (wide : 2 ^ w ≤ bound)
    (runs : ∀ i a, i < bound → Inv a → body i a = .ok (effect i a) ∧ Inv (effect i a))
    (fuel : Nat) (i : BitVec w) {a : α} (inv : Inv a) :
    countedLoop body bound fuel i a = .error .outOfFuel := by
  induction fuel generalizing i a with
  | zero => rfl
  | succ fuel ih =>
      have below := i.isLt
      obtain ⟨ran, kept⟩ := runs i.toNat a (by omega) inv
      rw [countedLoop, if_pos (by omega), ran, Exec.ok_bind]
      exact ih (i + 1) kept

end Plibsys.Support
