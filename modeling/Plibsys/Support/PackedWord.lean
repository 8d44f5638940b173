import Mathlib.Tactic.IntervalCases
import Mathlib.Tactic.Common

/-! # Two counters in a word

A 32-bit word with a counter in its low 15 bits, a counter in the next 15 bits and two more
bits.  Masks and shifts of a word that is given by its fields are computed field by field.
-/

namespace Plibsys.Support

/-- The word with the given fields, each cut to its width. -/
def packed (high mid low : Nat) : BitVec 32 := (BitVec.ofNat 2 high ++ BitVec.ofNat 15 mid) ++ BitVec.ofNat 15 low

/-- A small number as a word. -/
def field (n : Nat) : BitVec 32 := (BitVec.ofNat 15 n).setWidth 32

variable {high mid low n : Nat}

theorem field_eq (small : n < 2 ^ 15) : field n = BitVec.ofNat 32 n := by
  apply BitVec.eq_of_toNat_eq
  rw [field, BitVec.toNat_setWidth, BitVec.toNat_ofNat, BitVec.toNat_ofNat]
  omega

theorem toNat_field (small : n < 2 ^ 15) : (field n).toNat = n := by
  rw [field_eq small, BitVec.toNat_ofNat]
  exact Nat.mod_eq_of_lt (small.trans (by decide))

theorem getLsbD_packed (i : Nat) :
    (packed high mid low).getLsbD i =
      if i < 15 then low.testBit i else if i < 30 then mid.testBit (i - 15)
      else decide (i < 32) && high.testBit (i - 30) := by
  unfold packed
  rw [BitVec.getLsbD_append, BitVec.getLsbD_append]
  split
  · next first => rw [BitVec.getLsbD_ofNat, decide_eq_true first, Bool.true_and]
  · next first =>
      split
      · next second =>
          rw [if_pos (by omega)]
          simp [BitVec.getLsbD_ofNat]
          omega
      · next second =>
          rw [if_neg (by omega)]
          simp only [BitVec.getLsbD_ofNat]
          congr 1
          exact decide_eq_decide.mpr (by omega)

theorem getLsbD_field (i : Nat) : (field n).getLsbD i = (decide (i < 15) && n.testBit i) := by
  unfold field
  rw [BitVec.getLsbD_setWidth, BitVec.getLsbD_ofNat]
  by_cases inside : i < 15
  · simp [inside]
    omega
  · simp [inside]

/-- The low counter. -/
@[simp] theorem packed_low : packed high mid low &&& 0x00007FFF#32 = field low := by
  apply BitVec.eq_of_getLsbD_eq
  intro i inside
  rw [BitVec.getLsbD_and, getLsbD_packed, getLsbD_field]
  interval_cases i <;> simp

@[simp] theorem packed_set_low : (packed high mid low &&& ~~~0x00007FFF#32) ||| field n = packed high mid n := by
  apply BitVec.eq_of_getLsbD_eq
  intro i inside
  rw [BitVec.getLsbD_or, BitVec.getLsbD_and, getLsbD_packed, getLsbD_packed, getLsbD_field]
  interval_cases i <;> simp

/-- The counter above it. -/
@[simp] theorem packed_mid : (packed high mid low &&& 0x3FFF8000#32) >>> 15 = field mid := by
  apply BitVec.eq_of_getLsbD_eq
  intro i inside
  rw [BitVec.getLsbD_ushiftRight, BitVec.getLsbD_and, getLsbD_packed, getLsbD_field]
  interval_cases i <;> simp

@[simp] theorem packed_set_mid :
    (packed high mid low &&& ~~~0x3FFF8000#32) ||| (field n <<< 15) = packed high n low := by
  apply BitVec.eq_of_getLsbD_eq
  intro i inside
  rw [BitVec.getLsbD_or, BitVec.getLsbD_and, getLsbD_packed, getLsbD_packed, BitVec.getLsbD_shiftLeft, getLsbD_field]
  interval_cases i <;> simp

theorem testBit_one_one : Nat.testBit 1 1 = false := rfl

/-- The first of the two bits above the counters. -/
theorem packed_bit (bit : high < 2) : packed high mid low &&& 0x40000000#32 = packed high 0 0 := by
  apply BitVec.eq_of_getLsbD_eq
  intro i inside
  rw [BitVec.getLsbD_and, getLsbD_packed, getLsbD_packed]
  interval_cases high <;> interval_cases i <;> simp [testBit_one_one]

theorem packed_bit_low (bit : high < 2) : packed high mid low &&& 0x40007FFF#32 = packed high 0 low := by
  apply BitVec.eq_of_getLsbD_eq
  intro i inside
  rw [BitVec.getLsbD_and, getLsbD_packed, getLsbD_packed]
  interval_cases high <;> interval_cases i <;> simp [testBit_one_one]

@[simp] theorem packed_set_bit : packed 0 mid low ||| 0x40000000#32 = packed 1 mid low := by
  apply BitVec.eq_of_getLsbD_eq
  intro i inside
  rw [BitVec.getLsbD_or, getLsbD_packed, getLsbD_packed]
  interval_cases i <;> simp [testBit_one_one]

@[simp] theorem packed_clear_bit : packed 1 mid low &&& ~~~0x40000000#32 = packed 0 mid low := by
  apply BitVec.eq_of_getLsbD_eq
  intro i inside
  rw [BitVec.getLsbD_and, getLsbD_packed, getLsbD_packed]
  interval_cases i <;> simp [testBit_one_one]

/-- The number that a word stands for. -/
theorem toNat_packed (highSmall : high < 2 ^ 2) (midSmall : mid < 2 ^ 15) (lowSmall : low < 2 ^ 15) :
    (packed high mid low).toNat = high * 2 ^ 30 + mid * 2 ^ 15 + low := by
  unfold packed
  rw [BitVec.toNat_append, BitVec.toNat_append, BitVec.toNat_ofNat, BitVec.toNat_ofNat, BitVec.toNat_ofNat,
    Nat.mod_eq_of_lt highSmall, Nat.mod_eq_of_lt midSmall, Nat.mod_eq_of_lt lowSmall,
    ← Nat.shiftLeft_add_eq_or_of_lt midSmall, ← Nat.shiftLeft_add_eq_or_of_lt lowSmall, Nat.shiftLeft_eq,
    Nat.shiftLeft_eq]
  omega

/-- Small fields can be told apart. -/
theorem packed_inj {high' mid' low' : Nat} (small : high < 2 ^ 2 ∧ mid < 2 ^ 15 ∧ low < 2 ^ 15)
    (small' : high' < 2 ^ 2 ∧ mid' < 2 ^ 15 ∧ low' < 2 ^ 15) (same : packed high mid low = packed high' mid' low') :
    high = high' ∧ mid = mid' ∧ low = low' := by
  have numbers := congrArg BitVec.toNat same
  rw [toNat_packed small.1 small.2.1 small.2.2, toNat_packed small'.1 small'.2.1 small'.2.2] at numbers
  omega

theorem field_add_one (small : n + 1 < 2 ^ 15) : field n + 1 = field (n + 1) := by
  rw [field_eq small, field_eq (by omega), BitVec.ofNat_add]
  rfl

theorem field_sub_one (small : n < 2 ^ 15) (positive : 0 < n) : field n - 1 = field (n - 1) := by
  rw [field_eq small, field_eq (by omega)]
  bv_omega

theorem field_eq_zero (small : n < 2 ^ 15) : field n = 0 ↔ n = 0 := by
  rw [← BitVec.toNat_inj, toNat_field small]
  rfl

end Plibsys.Support
