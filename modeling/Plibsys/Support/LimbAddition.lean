import Plibsys.Support.WideWords

/-! # Addition limb by limb

The sum of two wide values, word by word with a carry.  Code that cannot see the carry may
infer it from the sum being less than a summand.  That fails for one kind of word only: both
summands are all ones and a carry comes in.
-/

namespace Plibsys.Support

variable {n w k : Nat}

/-! ## The true carries -/

theorem toNat_word (x : BitVec n) (i : Nat) : (word w x i).toNat = x.toNat / 2 ^ (i * w) % 2 ^ w := by
  rw [word, BitVec.extractLsb'_toNat, Nat.shiftRight_eq_div_pow]

/-- The words of a number do not depend on the width. -/
theorem mod_div_mod (x : Nat) {i : Nat} (inside : (i + 1) * w ≤ n) :
    x % 2 ^ n / 2 ^ (i * w) % 2 ^ w = x / 2 ^ (i * w) % 2 ^ w := by
  have divides : 2 ^ (i * w) * 2 ^ w ∣ 2 ^ n := by
    rw [← Nat.pow_add, ← Nat.succ_mul]
    exact Nat.pow_dvd_pow 2 inside
  rw [← Nat.mod_mul_right_div_self, ← Nat.mod_mul_right_div_self, Nat.mod_mod_of_dvd _ divides]

theorem word_ofNat (x : Nat) {i : Nat} (inside : (i + 1) * w ≤ n) :
    word w (BitVec.ofNat n x) i = BitVec.ofNat w (x / 2 ^ (i * w)) := by
  apply BitVec.eq_of_toNat_eq
  rw [toNat_word, BitVec.toNat_ofNat, BitVec.toNat_ofNat, mod_div_mod x inside]

theorem add_div_digits {B s t : Nat} (low : s < B) (other : t < B) (a b : Nat) :
    (B * a + s + (B * b + t)) / B = a + b + (decide (B ≤ s + t)).toNat := by
  have positive : 0 < B := by omega
  rw [show B * a + s + (B * b + t) = s + t + B * (a + b) by ring, Nat.add_mul_div_left _ _ positive]
  by_cases carries : B ≤ s + t
  · have one : (s + t) / B = 1 := Nat.div_eq_of_lt_le (by omega) (by omega)
    rw [one, decide_eq_true carries, Bool.toNat_true, Nat.add_comm]
  · rw [Nat.div_eq_of_lt (by omega), decide_eq_false carries, Bool.toNat_false, Nat.zero_add, Nat.add_zero]

/-- A word of a sum. -/
theorem word_add (x y : BitVec n) {i : Nat} (inside : (i + 1) * w ≤ n) :
    word w (x + y) i = word w x i + word w y i + BitVec.ofNat w (BitVec.carry (i * w) x y false).toNat := by
  have split := add_div_digits (Nat.mod_lt x.toNat (Nat.two_pow_pos (i * w)))
    (Nat.mod_lt y.toNat (Nat.two_pow_pos (i * w))) (x.toNat / 2 ^ (i * w)) (y.toNat / 2 ^ (i * w))
  rw [Nat.div_add_mod, Nat.div_add_mod] at split
  apply BitVec.eq_of_toNat_eq
  rw [toNat_word, BitVec.toNat_add, mod_div_mod _ inside, split, BitVec.toNat_add, BitVec.toNat_add, toNat_word,
    toNat_word, BitVec.toNat_ofNat]
  simp only [Nat.add_mod, Nat.mod_mod]
  rfl

/-- The carry out of a word. -/
theorem carry_succ_word (x y : BitVec n) (i : Nat) :
    BitVec.carry ((i + 1) * w) x y false =
      decide (2 ^ w ≤ (word w x i).toNat + (word w y i).toNat + (BitVec.carry (i * w) x y false).toNat) := by
  have split := add_div_digits (Nat.mod_lt x.toNat (Nat.two_pow_pos (i * w)))
    (Nat.mod_lt y.toNat (Nat.two_pow_pos (i * w))) (x.toNat / 2 ^ (i * w) % 2 ^ w) (y.toNat / 2 ^ (i * w) % 2 ^ w)
  have carried : (BitVec.carry (i * w) x y false).toNat =
      (decide (2 ^ (i * w) ≤ x.toNat % 2 ^ (i * w) + y.toNat % 2 ^ (i * w))).toNat := rfl
  rw [toNat_word, toNat_word, carried, ← split, BitVec.carry, Nat.succ_mul, Nat.pow_add, Nat.mod_mul, Nat.mod_mul]
  apply decide_eq_decide.mpr
  rw [Nat.le_div_iff_mul_le (Nat.two_pow_pos _), Nat.mul_comm (2 ^ w)]
  simp only [Bool.toNat_false, Nat.add_zero, ge_iff_le, Nat.add_comm (2 ^ (i * w) * _)]

/-! ## Inferred carries -/

/-- The carry into a word, inferred from the sum before it. -/
def inferred (w : Nat) (x y : BitVec n) : Nat → Bool
  | 0 => false
  | i + 1 =>
      let sum := word w x i + word w y i + BitVec.ofNat w (inferred w x y i).toNat
      decide (sum < word w x i ∨ sum < word w y i)

/-- The sum of two words does not show that it has absorbed a carry. -/
def Absorbs (w : Nat) (x y : BitVec n) (i : Nat) : Prop :=
  word w x i = BitVec.allOnes w ∧ word w y i = BitVec.allOnes w ∧ BitVec.carry (i * w) x y false = true

instance (x y : BitVec n) (i : Nat) : Decidable (Absorbs w x y i) :=
  inferInstanceAs (Decidable (_ ∧ _ ∧ _))

theorem toNat_add_bit (a b : BitVec w) (c : Bool) :
    (a + b + BitVec.ofNat w c.toNat).toNat = (a.toNat + b.toNat + c.toNat) % 2 ^ w := by
  rw [BitVec.toNat_add, BitVec.toNat_add, BitVec.toNat_ofNat, ← Nat.add_mod]

/-- What the comparisons with the summands say. -/
theorem less_iff (positive : 0 < w) (a b : BitVec w) (c : Bool) :
    (a + b + BitVec.ofNat w c.toNat < a ∨ a + b + BitVec.ofNat w c.toNat < b) ↔
      2 ^ w ≤ a.toNat + b.toNat + c.toNat ∧ ¬(a = BitVec.allOnes w ∧ b = BitVec.allOnes w ∧ c = true) := by
  have small := a.isLt
  have other := b.isLt
  have large : 2 ≤ 2 ^ w := Nat.le_self_pow (Nat.ne_of_gt positive) 2
  have bit : c.toNat ≤ 1 := Bool.toNat_le c
  have one : c = true ↔ c.toNat = 1 := by cases c <;> decide
  have reduced : (a.toNat + b.toNat + c.toNat) % 2 ^ w =
      if a.toNat + b.toNat + c.toNat < 2 ^ w then a.toNat + b.toNat + c.toNat
      else a.toNat + b.toNat + c.toNat - 2 ^ w := by
    split
    · next fits => exact Nat.mod_eq_of_lt fits
    · next wraps => rw [Nat.mod_eq_sub_mod (by omega), Nat.mod_eq_of_lt (by omega)]
  simp only [BitVec.lt_def, toNat_add_bit, reduced, BitVec.toNat_eq, BitVec.toNat_allOnes, one]
  split <;> omega

variable (positive : 0 < w)

include positive

theorem inferred_succ {x y : BitVec n} {i : Nat} (same : inferred w x y i = BitVec.carry (i * w) x y false) :
    inferred w x y (i + 1) = (BitVec.carry ((i + 1) * w) x y false && !decide (Absorbs w x y i)) := by
  rw [inferred, same, carry_succ_word, ← decide_not, ← Bool.decide_and]
  exact decide_eq_decide.mpr (less_iff positive _ _ _)

/-- As long as no carry is absorbed, the inferred carries are the true ones. -/
theorem inferred_eq_carry {x y : BitVec n} {i : Nat} (none : ∀ j < i, ¬Absorbs w x y j) :
    inferred w x y i = BitVec.carry (i * w) x y false := by
  induction i with
  | zero => rw [inferred, Nat.zero_mul, BitVec.carry_zero]
  | succ i ih =>
      have same := ih fun j below => none j (Nat.lt_succ_of_lt below)
      rw [inferred_succ positive same, decide_eq_false (none i (Nat.lt_succ_self i)), Bool.not_false, Bool.and_true]

/-- An absorbed carry would have to come out of the word. -/
theorem Absorbs.carry {x y : BitVec n} {i : Nat} (absorbs : Absorbs w x y i) :
    BitVec.carry ((i + 1) * w) x y false = true := by
  obtain ⟨first, second, into⟩ := absorbs
  have large : 2 ≤ 2 ^ w := Nat.le_self_pow (Nat.ne_of_gt positive) 2
  rw [carry_succ_word, first, second, into, BitVec.toNat_allOnes, Bool.toNat_true, decide_eq_true]
  omega

omit positive in
/-- A word of the sum with the inferred carry. -/
def limbSum (w : Nat) (x y : BitVec n) (i : Nat) : BitVec w :=
  word w x i + word w y i + BitVec.ofNat w (inferred w x y i).toNat

/-- The words with the inferred carries are those of the sum just when no carry is absorbed
    below the last word. -/
theorem limbSums_iff (x y : BitVec n) (whole : n = k * w) :
    (∀ i < k, limbSum w x y i = word w (x + y) i) ↔ ∀ j, j + 1 < k → ¬Absorbs w x y j := by
  have inside : ∀ i < k, (i + 1) * w ≤ n := fun i below => whole ▸ Nat.mul_le_mul_right w below
  constructor
  · intro same j
    induction j using Nat.strong_induction_on with
    | _ j ih =>
        intro next absorbs
        have before := inferred_eq_carry positive fun i below => ih i below (by omega)
        have lost : inferred w x y (j + 1) = false := by
          rw [inferred_succ positive before, decide_eq_true absorbs, Bool.not_true, Bool.and_false]
        have differ := same (j + 1) next
        rw [limbSum, lost, word_add x y (inside (j + 1) next), absorbs.carry positive] at differ
        have bits := congrArg BitVec.toNat ((BitVec.add_right_inj _).mp differ)
        have large : 1 < 2 ^ w := Nat.one_lt_two_pow (Nat.ne_of_gt positive)
        simp [Nat.mod_eq_of_lt large] at bits
  · intro none i below
    rw [limbSum, inferred_eq_carry positive fun j before => none j (by omega), word_add x y (inside i below)]

/-! ## What the lost carries are worth -/

omit positive in
/-- A carry comes into a word that does not show it. -/
def Loses (w : Nat) (x y : BitVec n) (i : Nat) : Prop :=
  word w x i = BitVec.allOnes w ∧ word w y i = BitVec.allOnes w ∧ inferred w x y i = true

omit positive in
instance (x y : BitVec n) (i : Nat) : Decidable (Loses w x y i) :=
  inferInstanceAs (Decidable (_ ∧ _ ∧ _))

omit positive in
/-- The carries that the first words lose, as a number. -/
def lost (w : Nat) (x y : BitVec n) : Nat → Nat
  | 0 => 0
  | i + 1 => lost w x y i + 2 ^ ((i + 1) * w) * (decide (Loses w x y i)).toNat

omit positive in
/-- The first words with the inferred carries, as a number. -/
def limbTotal (w : Nat) (x y : BitVec n) : Nat → Nat
  | 0 => 0
  | i + 1 => limbTotal w x y i + 2 ^ (i * w) * (limbSum w x y i).toNat

/-- Where the sum of two words goes. -/
theorem limbSum_parts (x y : BitVec n) (i : Nat) :
    (word w x i).toNat + (word w y i).toNat + (inferred w x y i).toNat =
      (limbSum w x y i).toNat + 2 ^ w * (inferred w x y (i + 1)).toNat + 2 ^ w * (decide (Loses w x y i)).toNat := by
  have first := (word w x i).isLt
  have second := (word w y i).isLt
  have bit := Bool.toNat_le (inferred w x y i)
  have carry := less_iff positive (word w x i) (word w y i) (inferred w x y i)
  rw [limbSum, toNat_add_bit]
  by_cases wraps : 2 ^ w ≤ (word w x i).toNat + (word w y i).toNat + (inferred w x y i).toNat
  · rw [Nat.mod_eq_sub_mod wraps, Nat.mod_eq_of_lt (by omega)]
    by_cases loses : Loses w x y i
    · have hidden : inferred w x y (i + 1) = false := decide_eq_false fun less => (carry.mp less).2 loses
      rw [hidden, decide_eq_true loses, Bool.toNat_false, Bool.toNat_true]
      omega
    · have shown : inferred w x y (i + 1) = true := decide_eq_true (carry.mpr ⟨wraps, loses⟩)
      rw [shown, decide_eq_false loses, Bool.toNat_false, Bool.toNat_true]
      omega
  · have none : inferred w x y (i + 1) = false := decide_eq_false fun less => wraps (carry.mp less).1
    have large : 2 ≤ 2 ^ w := Nat.le_self_pow (Nat.ne_of_gt positive) 2
    have keeps : ¬Loses w x y i := by
      rintro ⟨ones, others, into⟩
      rw [ones, others, into, BitVec.toNat_allOnes, Bool.toNat_true] at wraps
      omega
    rw [Nat.mod_eq_of_lt (by omega), none, decide_eq_false keeps, Bool.toNat_false]
    omega

/-- The first words of the summands: the sum, the carry out of it, and what is lost. -/
theorem limbTotal_lost (x y : BitVec n) (i : Nat) :
    x.toNat % 2 ^ (i * w) + y.toNat % 2 ^ (i * w) =
      limbTotal w x y i + 2 ^ (i * w) * (inferred w x y i).toNat + lost w x y i := by
  induction i with
  | zero => simp [limbTotal, inferred, lost, Nat.mod_one]
  | succ i ih =>
      have parts := limbSum_parts positive x y i
      have scaled := congrArg (2 ^ (i * w) * ·) parts
      simp only [toNat_word, Nat.mul_add] at scaled
      rw [Nat.succ_mul, Nat.pow_add, Nat.mod_mul, Nat.mod_mul, limbTotal, lost, Nat.succ_mul, Nat.pow_add, Nat.mul_assoc,
        Nat.mul_assoc]
      omega

omit positive in
/-- The words with the inferred carries determine the number that has them. -/
theorem toNat_limbs {x y z : BitVec n} (words : ∀ i < k, word w z i = limbSum w x y i) :
    z.toNat % 2 ^ (k * w) = limbTotal w x y k := by
  induction k with
  | zero => rw [Nat.zero_mul, Nat.pow_zero, Nat.mod_one, limbTotal]
  | succ k ih =>
      have last := words k (Nat.lt_succ_self k)
      rw [Nat.succ_mul, Nat.pow_add, Nat.mod_mul, ih fun i below => words i (Nat.lt_succ_of_lt below), limbTotal, ← last,
        toNat_word]

/-- The sum with the inferred carries and what is lost below its last word. -/
theorem add_lost {x y z : BitVec n} (whole : n = (k + 1) * w) (words : ∀ i < k + 1, word w z i = limbSum w x y i) :
    z + BitVec.ofNat n (lost w x y k) = x + y := by
  have total := limbTotal_lost positive x y (k + 1)
  rw [← toNat_limbs words, ← whole, Nat.mod_eq_of_lt x.isLt, Nat.mod_eq_of_lt y.isLt, Nat.mod_eq_of_lt z.isLt, lost,
    ← whole] at total
  apply BitVec.eq_of_toNat_eq
  rw [BitVec.toNat_add, BitVec.toNat_add, BitVec.toNat_ofNat, Nat.add_mod_mod, total]
  have wraps : z.toNat + 2 ^ n * (inferred w x y (k + 1)).toNat + (lost w x y k + 2 ^ n * (decide (Loses w x y k)).toNat) =
      z.toNat + lost w x y k + 2 ^ n * ((inferred w x y (k + 1)).toNat + (decide (Loses w x y k)).toNat) := by
    ring
  rw [wraps, Nat.add_mul_mod_self_left]

theorem lost_lt (x y : BitVec n) (i : Nat) : lost w x y i < 2 * 2 ^ (i * w) := by
  induction i with
  | zero => simp [lost]
  | succ i ih =>
      have large : 2 ≤ 2 ^ w := Nat.le_self_pow (Nat.ne_of_gt positive) 2
      have room := Nat.mul_le_mul_left (2 ^ (i * w)) large
      have bit := Nat.mul_le_mul_left (2 ^ ((i + 1) * w)) (Bool.toNat_le (decide (Loses w x y i)))
      rw [lost]
      rw [Nat.succ_mul, Nat.pow_add] at bit ⊢
      omega

end Plibsys.Support
