import Plibsys.Support.Region
import Mathlib.Data.List.OfFn
import Mathlib.Tactic.Common
import Mathlib.Tactic.Positivity

/-! # Words in bytes

An array of words and the bytes of its memory, with the low byte of a word first.  Copying
bytes into the array and reading words of it are two views of one memory.
-/

namespace Plibsys.Support

variable {w m : Nat}

instance neZeroThirtyTwo : NeZero 32 := ⟨by decide⟩

instance neZeroSixtyFour : NeZero 64 := ⟨by decide⟩

/-- The word with the given bytes. -/
def wordOf (w : Nat) (bytes : List (BitVec 8)) : BitVec w := BitVec.ofNat w (decode bytes)

/-- The bytes of a word. -/
def bytesOf (x : BitVec w) : List (BitVec 8) := encode (w / 8) x.toNat

/-- The word at an index of some bytes. -/
def wordAt (w : Nat) (bytes : List (BitVec 8)) (i : Nat) : BitVec w :=
  wordOf w ((bytes.drop (i * (w / 8))).take (w / 8))

/-- The words of some bytes. -/
def parse (w m : Nat) (bytes : List (BitVec 8)) : Vector (BitVec w) m := Vector.ofFn fun i => wordAt w bytes i

/-- The bytes of an array of words. -/
def unparse (words : Vector (BitVec w) m) : List (BitVec 8) := words.toList.flatMap bytesOf

/-- A list with some of its items overwritten. -/
def patched {α : Type} (items : List α) (off : Nat) (data : List α) : List α :=
  items.take off ++ data ++ items.drop (off + data.length)

/-- Bytes are copied into an array of words. -/
def copyBytes (words : Vector (BitVec w) m) (off : Nat) (data : List (BitVec 8)) : Vector (BitVec w) m :=
  parse w m (patched (unparse words) off data)

/-! ## Numbers and bytes -/

theorem decode_lt (bytes : List (BitVec 8)) : decode bytes < 256 ^ bytes.length := by
  induction bytes with
  | nil => exact Nat.one_pos
  | cons b bytes ih =>
      have := b.isLt
      rw [decode, List.length_cons, pow_succ]
      omega

theorem encode_decode (bytes : List (BitVec 8)) : encode bytes.length (decode bytes) = bytes := by
  induction bytes with
  | nil => rfl
  | cons b bytes ih =>
      have small := b.isLt
      rw [List.length_cons, encode, decode, show (b.toNat + 256 * decode bytes) / 256 = decode bytes by omega, ih]
      congr 1
      apply BitVec.eq_of_toNat_eq
      rw [BitVec.toNat_ofNat]
      omega

/-- The bytes of a number, cut in two. -/
theorem encode_add (k n x : Nat) : encode (k + n) x = encode k x ++ encode n (x / 256 ^ k) := by
  induction k generalizing x with
  | zero => simp [encode]
  | succ k ih =>
      rw [Nat.succ_add, encode, encode, ih, Nat.div_div_eq_div_mul, pow_succ', List.cons_append]

theorem encode_mod (k x : Nat) : encode k (x % 256 ^ k) = encode k x := by
  induction k generalizing x with
  | zero => rfl
  | succ k ih =>
      rw [encode, encode, pow_succ', Nat.mod_mul_right_div_self, ih]
      congr 1
      apply BitVec.eq_of_toNat_eq
      rw [BitVec.toNat_ofNat, BitVec.toNat_ofNat]
      exact Nat.mod_mul_right_mod x 256 (256 ^ k)

theorem testBit_decode (bytes : List (BitVec 8)) (i : Nat) :
    (decode bytes).testBit i = (bytes.getD (i / 8) 0).getLsbD (i % 8) := by
  induction bytes generalizing i with
  | nil => simp [decode]
  | cons b bytes ih =>
      rw [decode, Nat.add_comm, show (256 : Nat) = 2 ^ 8 from rfl, Nat.testBit_two_pow_mul_add _ b.isLt]
      split
      · next low => simp [Nat.div_eq_of_lt low, Nat.mod_eq_of_lt low, BitVec.getLsbD]
      · next high =>
          rw [ih, show i / 8 = (i - 8) / 8 + 1 by omega, List.getD_cons_succ, show (i - 8) % 8 = i % 8 by omega]

theorem getLsbD_wordOf (bytes : List (BitVec 8)) (i : Nat) :
    (wordOf w bytes).getLsbD i = (decide (i < w) && (bytes.getD (i / 8) 0).getLsbD (i % 8)) := by
  rw [wordOf, BitVec.getLsbD_ofNat, testBit_decode]

/-! ## Arrays of words -/

section Octets

@[simp] theorem length_bytesOf (x : BitVec w) : (bytesOf x).length = w / 8 := length_encode _ _

variable (octets : w / 8 * 8 = w)

include octets

theorem two_pow_width : 2 ^ w = 256 ^ (w / 8) := by
  rw [show (256 : Nat) = 2 ^ 8 from rfl, ← Nat.pow_mul, Nat.mul_comm, octets]

theorem wordOf_bytesOf (x : BitVec w) : wordOf w (bytesOf x) = x := by
  rw [wordOf, bytesOf, decode_encode _ _ (two_pow_width octets ▸ x.isLt), BitVec.ofNat_toNat, BitVec.setWidth_eq]

theorem bytesOf_wordOf {bytes : List (BitVec 8)} (whole : bytes.length = w / 8) : bytesOf (wordOf w bytes) = bytes := by
  rw [wordOf, bytesOf, BitVec.toNat_ofNat, two_pow_width octets, encode_mod, ← whole, encode_decode]

/-- The bytes of a number make its low word. -/
theorem wordOf_encode (x : Nat) : wordOf w (encode (w / 8) x) = BitVec.ofNat w x := by
  apply BitVec.eq_of_toNat_eq
  rw [wordOf, BitVec.toNat_ofNat, BitVec.toNat_ofNat, two_pow_width octets, ← encode_mod,
    decode_encode _ _ (Nat.mod_lt _ (by positivity)), Nat.mod_mod]

omit octets in
theorem wordAt_zero (bytes : List (BitVec 8)) : wordAt w bytes 0 = wordOf w (bytes.take (w / 8)) := by
  simp [wordAt]

omit octets in
theorem wordAt_succ (bytes : List (BitVec 8)) (i : Nat) : wordAt w bytes (i + 1) = wordAt w (bytes.drop (w / 8)) i := by
  simp only [wordAt, List.drop_drop, Nat.succ_mul, Nat.add_comm]

omit octets in
theorem length_flatMap_bytesOf (words : List (BitVec w)) : (words.flatMap bytesOf).length = words.length * (w / 8) := by
  induction words with
  | nil => simp
  | cons x words ih =>
      rw [List.flatMap_cons, List.length_append, length_bytesOf, ih, List.length_cons, Nat.succ_mul, Nat.add_comm]

omit octets in
@[simp] theorem length_unparse (words : Vector (BitVec w) m) : (unparse words).length = m * (w / 8) := by
  rw [unparse, length_flatMap_bytesOf, Vector.length_toList]

theorem wordAt_flatMap (words : List (BitVec w)) {i : Nat} (inside : i < words.length) :
    wordAt w (words.flatMap bytesOf) i = words[i] := by
  induction words generalizing i with
  | nil => exact absurd inside (Nat.not_lt_zero i)
  | cons x words ih =>
      rw [List.flatMap_cons]
      cases i with
      | zero => rw [wordAt_zero, List.take_left' (length_bytesOf _), wordOf_bytesOf octets, List.getElem_cons_zero]
      | succ i =>
          rw [wordAt_succ, List.drop_left' (length_bytesOf _), ih (Nat.lt_of_succ_lt_succ inside),
            List.getElem_cons_succ]

theorem wordAt_unparse (words : Vector (BitVec w) m) {i : Nat} (inside : i < m) :
    wordAt w (unparse words) i = words[i] := by
  rw [unparse, wordAt_flatMap octets _ (by rw [Vector.length_toList]; exact inside), Vector.getElem_toList]

theorem flatMap_ofFn_wordAt {bytes : List (BitVec 8)} (whole : bytes.length = m * (w / 8)) :
    (List.ofFn fun i : Fin m => wordAt w bytes i).flatMap bytesOf = bytes := by
  induction m generalizing bytes with
  | zero =>
      rw [Nat.zero_mul] at whole
      simp [List.length_eq_zero_iff.mp whole]
  | succ m ih =>
      rw [Nat.succ_mul] at whole
      rw [List.ofFn_succ, List.flatMap_cons, Fin.val_zero, wordAt_zero,
        bytesOf_wordOf octets (by rw [List.length_take]; omega)]
      simp only [Fin.val_succ, wordAt_succ]
      rw [ih (by rw [List.length_drop]; omega), List.take_append_drop]

theorem unparse_parse {bytes : List (BitVec 8)} (whole : bytes.length = m * (w / 8)) :
    unparse (parse w m bytes) = bytes := by
  rw [unparse, parse, Vector.toList_ofFn, flatMap_ofFn_wordAt octets whole]

omit octets in
/-- A word depends on its own bytes only. -/
theorem wordAt_take {bytes : List (BitVec 8)} {n i : Nat} (inside : (i + 1) * (w / 8) ≤ n) :
    wordAt w (bytes.take n) i = wordAt w bytes i := by
  rw [Nat.succ_mul] at inside
  rw [wordAt, wordAt, List.drop_take, List.take_take, Nat.min_eq_left (by omega)]

omit octets in
/-- The first bytes come from the first words. -/
theorem take_unparse_congr {words others : Vector (BitVec w) m} {k : Nat}
    (same : words.toList.take k = others.toList.take k) :
    (unparse words).take (k * (w / 8)) = (unparse others).take (k * (w / 8)) := by
  have front : ∀ items : List (BitVec w), (items.flatMap bytesOf).take (k * (w / 8)) = (items.take k).flatMap bytesOf := by
    intro items
    clear same
    induction items generalizing k with
    | nil => simp
    | cons x items ih =>
        cases k with
        | zero => simp
        | succ k =>
            rw [List.flatMap_cons, List.take_append, length_bytesOf, Nat.succ_mul, Nat.add_sub_cancel, ih,
              List.take_of_length_le (by rw [length_bytesOf]; omega), List.take_succ_cons, List.flatMap_cons]
  rw [unparse, unparse, front, front, same]

omit octets in
theorem length_patched {α : Type} {items data : List α} {off : Nat} (inside : off + data.length ≤ items.length) :
    (patched items off data).length = items.length := by
  simp only [patched, List.length_append, List.length_take, List.length_drop]
  omega

omit octets in
/-- The items up to the end of those that were overwritten. -/
theorem take_patched {α : Type} {items data : List α} {off : Nat} (inside : off ≤ items.length) :
    (patched items off data).take (off + data.length) = items.take off ++ data := by
  rw [patched, List.take_left']
  rw [List.length_append, List.length_take_of_le inside]

theorem getLsbD_wordAt (bytes : List (BitVec 8)) (i : Nat) {j : Nat} (inside : j < w) :
    (wordAt w bytes i).getLsbD j = (bytes.getD (i * (w / 8) + j / 8) 0).getLsbD (j % 8) := by
  have near : j / 8 < w / 8 := by omega
  rw [wordAt, getLsbD_wordOf, decide_eq_true inside, Bool.true_and, List.getD_eq_getElem?_getD,
    List.getElem?_take_of_lt near, List.getElem?_drop, ← List.getD_eq_getElem?_getD]

theorem unparse_copyBytes (words : Vector (BitVec w) m) {off : Nat} {data : List (BitVec 8)}
    (inside : off + data.length ≤ m * (w / 8)) :
    unparse (copyBytes words off data) = patched (unparse words) off data := by
  apply unparse_parse octets
  rw [length_patched (by rw [length_unparse]; exact inside), length_unparse]

/-- The bytes of an array up to the end of a copy. -/
theorem take_copyBytes (words : Vector (BitVec w) m) {off : Nat} {data : List (BitVec 8)}
    (inside : off + data.length ≤ m * (w / 8)) :
    (unparse (copyBytes words off data)).take (off + data.length) = (unparse words).take off ++ data := by
  rw [unparse_copyBytes octets words inside, take_patched (by rw [length_unparse]; omega)]

end Octets

end Plibsys.Support
