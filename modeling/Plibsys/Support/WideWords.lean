import Plibsys.Support.ByteWords
import Mathlib.Tactic.Ring

/-! # Words of a wide value

A value of many bits, read as words of `w` bits with the low word first.  Words of words are
words, and a value is known by its words.
-/

namespace Plibsys.Support

variable {n w k : Nat}

/-- The word at an index of a value. -/
def word (w : Nat) (x : BitVec n) (i : Nat) : BitVec w := x.extractLsb' (i * w) w

theorem getLsbD_word (x : BitVec n) (i j : Nat) :
    (word w x i).getLsbD j = (decide (j < w) && x.getLsbD (i * w + j)) :=
  BitVec.getLsbD_extractLsb' _ _ _ _

@[simp] theorem word_xor (x y : BitVec n) (i : Nat) : word w (x ^^^ y) i = word w x i ^^^ word w y i :=
  BitVec.extractLsb'_xor

@[simp] theorem word_and (x y : BitVec n) (i : Nat) : word w (x &&& y) i = word w x i &&& word w y i :=
  BitVec.extractLsb'_and

@[simp] theorem word_or (x y : BitVec n) (i : Nat) : word w (x ||| y) i = word w x i ||| word w y i :=
  BitVec.extractLsb'_or

@[simp] theorem word_zero (i : Nat) : word w 0#n i = 0#w := by
  apply BitVec.eq_of_getLsbD_eq
  intro j inside
  simp [getLsbD_word]

/-- A value is known by its words. -/
theorem eq_of_words {x y : BitVec n} (whole : n = k * w) (same : ∀ i < k, word w x i = word w y i) : x = y := by
  apply BitVec.eq_of_getLsbD_eq
  intro j inside
  have positive : 0 < w := by
    obtain rfl | positive := Nat.eq_zero_or_pos w
    · omega
    · exact positive
  have near : j / w < k := Nat.div_lt_of_lt_mul (by rwa [Nat.mul_comm, ← whole])
  have bit := congrArg (fun z => z.getLsbD (j % w)) (same (j / w) near)
  simp only [getLsbD_word, decide_eq_true (Nat.mod_lt j positive), Bool.true_and, Nat.div_add_mod'] at bit
  exact bit

/-- A word of a word. -/
theorem word_word {m : Nat} (x : BitVec n) (i : Nat) {j : Nat} (inside : j < m) :
    word w (word (m * w) x i) j = word w x (i * m + j) := by
  apply BitVec.eq_of_getLsbD_eq
  intro b below
  have within : j * w + b < m * w := by
    have fits : (j + 1) * w ≤ m * w := Nat.mul_le_mul_right w inside
    rw [Nat.succ_mul] at fits
    omega
  have place : (i * m + j) * w + b = i * (m * w) + (j * w + b) := by ring
  simp only [getLsbD_word, decide_eq_true below, decide_eq_true within, Bool.true_and, place]

/-- There is nothing behind the end. -/
theorem word_of_ge (x : BitVec n) {i : Nat} (outside : n ≤ i * w) : word w x i = 0#w := by
  apply BitVec.eq_of_getLsbD_eq
  intro j below
  rw [getLsbD_word, BitVec.getLsbD_of_ge _ _ (by omega), Bool.and_false, BitVec.getLsbD_zero]

/-! ## Shifts by whole words -/

theorem word_shiftLeft (x : BitVec n) (s i : Nat) (inside : (i + s + 1) * w ≤ n) :
    word w (x <<< (s * w)) (i + s) = word w x i := by
  apply BitVec.eq_of_getLsbD_eq
  intro j below
  have place : (i + s) * w + j = i * w + j + s * w := by ring
  have within : (i + s + 1) * w = i * w + s * w + w := by ring
  rw [within] at inside
  rw [getLsbD_word, getLsbD_word, BitVec.getLsbD_shiftLeft, place, Nat.add_sub_cancel,
    decide_eq_true (show i * w + j + s * w < n by omega), decide_eq_false (show ¬i * w + j + s * w < s * w by omega)]
  rfl

/-- The words that a shift brings in. -/
theorem word_shiftLeft_of_lt (x : BitVec n) {s i : Nat} (low : i < s) : word w (x <<< (s * w)) i = 0#w := by
  apply BitVec.eq_of_getLsbD_eq
  intro j below
  have within : (i + 1) * w ≤ s * w := Nat.mul_le_mul_right w low
  rw [Nat.succ_mul] at within
  rw [getLsbD_word, BitVec.getLsbD_shiftLeft, decide_eq_true (show i * w + j < s * w by omega)]
  simp

theorem word_ushiftRight (x : BitVec n) (s i : Nat) : word w (x >>> (s * w)) i = word w x (i + s) := by
  apply BitVec.eq_of_getLsbD_eq
  intro j below
  have place : s * w + (i * w + j) = (i + s) * w + j := by ring
  rw [getLsbD_word, getLsbD_word, BitVec.getLsbD_ushiftRight, place]

/-! ## Words side by side -/

theorem word_self (x : BitVec w) : word w x 0 = x := by
  rw [word, Nat.zero_mul, BitVec.extractLsb'_eq_self]

theorem word_append_zero (x : BitVec n) (y : BitVec w) : word w (x ++ y) 0 = y := by
  rw [word, Nat.zero_mul, BitVec.extractLsb'_append_eq_right]

theorem word_append_succ (x : BitVec n) (y : BitVec w) (i : Nat) : word w (x ++ y) (i + 1) = word w x i := by
  rw [word, Nat.succ_mul, BitVec.extractLsb'_append_eq_of_le (Nat.le_add_left _ _), Nat.add_sub_cancel, word]

theorem setWidth_append {m : Nat} (x : BitVec m) (y : BitVec n) :
    (x ++ y).setWidth k = y.setWidth k ||| x.setWidth k <<< n := by
  apply BitVec.eq_of_getLsbD_eq
  intro j below
  rw [BitVec.getLsbD_or, BitVec.getLsbD_shiftLeft, BitVec.getLsbD_setWidth, BitVec.getLsbD_setWidth,
    BitVec.getLsbD_setWidth, BitVec.getLsbD_append]
  by_cases low : j < n
  · simp [low, below]
  · have high : j - n < k := by omega
    rw [BitVec.getLsbD_of_ge y j (by omega)]
    simp [low, below, high]

/-- The low word goes and a new top word comes. -/
theorem word_append_extract (top : BitVec w) (x : BitVec n) {i : Nat} (inside : i ≤ k) :
    word w (top ++ x.extractLsb' w (k * w)) i = if i = k then top else word w x (i + 1) := by
  split
  · next last => exact BitVec.extractLsb'_append_of_eq last
  · next lower =>
      rw [word, BitVec.extractLsb'_append_of_lt (by omega)]
      apply BitVec.eq_of_getLsbD_eq
      intro j below
      have within : i * w + j < k * w := by
        have fits : (i + 1) * w ≤ k * w := Nat.mul_le_mul_right w (by omega)
        rw [Nat.succ_mul] at fits
        omega
      have place : w + (i * w + j) = (i + 1) * w + j := by ring
      simp only [getLsbD_word, BitVec.getLsbD_extractLsb', decide_eq_true below, decide_eq_true within,
        Bool.true_and, place]

/-! ## Words in memory -/

/-- The words of a value are the words of its bytes. -/
theorem word_wordOf (octets : w / 8 * 8 = w) (bytes : List (BitVec 8)) {i : Nat} (inside : (i + 1) * w ≤ n) :
    word w (wordOf n bytes) i = wordAt w bytes i := by
  apply BitVec.eq_of_getLsbD_eq
  intro j below
  rw [Nat.succ_mul] at inside
  have bits : i * w = 8 * (i * (w / 8)) := by rw [Nat.mul_left_comm, Nat.mul_comm 8, octets]
  have within : i * w + j < n := by omega
  rw [getLsbD_word, decide_eq_true below, Bool.true_and, getLsbD_wordOf, decide_eq_true within, Bool.true_and,
    getLsbD_wordAt octets _ _ below, show (i * w + j) / 8 = i * (w / 8) + j / 8 by omega,
    show (i * w + j) % 8 = j % 8 by omega]

theorem byte_wordOf (bytes : List (BitVec 8)) {i : Nat} (inside : (i + 1) * 8 ≤ n) :
    word 8 (wordOf n bytes) i = bytes.getD i 0 := by
  apply BitVec.eq_of_getLsbD_eq
  intro j below
  rw [getLsbD_word, decide_eq_true below, Bool.true_and, getLsbD_wordOf, decide_eq_true (by omega), Bool.true_and,
    show (i * 8 + j) / 8 = i by omega, show (i * 8 + j) % 8 = j by omega]

/-- An array of words as one value. -/
def value (n : Nat) (words : Vector (BitVec w) k) : BitVec n := wordOf n (unparse words)

section Value

variable (octets : w / 8 * 8 = w) (whole : n = k * w)

include octets whole

theorem word_value (words : Vector (BitVec w) k) (i : Fin k) : word w (value n words) i = words.get i := by
  have inside : (i.val + 1) * w ≤ n := whole ▸ Nat.mul_le_mul_right w i.isLt
  rw [value, word_wordOf octets _ inside, wordAt_unparse octets words i.isLt]
  rfl

/-- A value is the one of an array when it has the words of the array. -/
theorem eq_value {x : BitVec n} {words : Vector (BitVec w) k} (same : ∀ i : Fin k, word w x i = words.get i) :
    x = value n words := by
  refine eq_of_words whole fun i inside => ?_
  rw [word_value octets whole words ⟨i, inside⟩]
  exact same ⟨i, inside⟩

/-- The number of an array of words is the one of its bytes. -/
theorem toNat_value (words : Vector (BitVec w) k) : (value n words).toNat = decode (unparse words) := by
  have width : 2 ^ n = 256 ^ (unparse words).length := by
    rw [length_unparse, show (256 : Nat) = 2 ^ 8 from rfl, ← Nat.pow_mul, whole]
    congr 1
    rw [Nat.mul_left_comm, Nat.mul_comm 8, octets]
  rw [value, wordOf, BitVec.toNat_ofNat, width, Nat.mod_eq_of_lt (decode_lt _)]

end Value

end Plibsys.Support
