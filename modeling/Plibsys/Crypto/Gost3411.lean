import Plibsys.Crypto.PHashGOST3411
import Plibsys.Support.ShiftRegister
import Plibsys.Support.WideWords
import Mathlib.Tactic.FinCases

/-! # GOST R 34.11-94

The step function of the standard on values of 256 bits, and that `process` computes it for
every hash and every block.  The rounds of the LFSR are compared by their masks, the keys by
what the transformation `A` does to words of 32 bits.
-/

namespace Plibsys.Crypto

open Support

namespace GostR3411

open Gost3411

/-- One round of the LFSR on words of 16 bits. -/
def psi (Y : BitVec 256) : BitVec 256 :=
  (word 16 Y 0 ^^^ word 16 Y 1 ^^^ word 16 Y 2 ^^^ word 16 Y 3 ^^^ word 16 Y 12 ^^^ word 16 Y 15) ++
    Y.extractLsb' 16 240

/-- The four parts move one place on, and the two lowest make the new top one. -/
def A (Y : BitVec 256) : BitVec 256 := (word 64 Y 0 ^^^ word 64 Y 1) ++ Y.extractLsb' 64 192

/-- Byte `4 * k + i` is byte `8 * i + k` of the argument. -/
def P (Y : BitVec 256) : BitVec 256 := wordOf 256 ((List.range 32).map fun t => word 8 Y (8 * (t % 4) + t / 4))

def C (i : Nat) : BitVec 256 :=
  if i = 3 then 0xFF00FFFF000000FFFF0000FF00FFFF0000FF00FF00FF00FFFF00FF00FF00FF00 else 0

/-- `U` and `V` after some steps of the recurrence. -/
def schedule (H M : BitVec 256) : Nat → BitVec 256 × BitVec 256
  | 0 => (H, M)
  | i + 1 => (A (schedule H M i).1 ^^^ C (i + 2), A (A (schedule H M i).2))

/-- The keys, which are numbered from one. -/
def key (H M : BitVec 256) (i : Nat) : BitVec 256 := P ((schedule H M (i - 1)).1 ^^^ (schedule H M (i - 1)).2)

def box (row : Nat) (x : BitVec 4) : BitVec 4 := ((kBlock.getD row []).getD x.toNat 0).setWidth 4

def substitute (x : BitVec 32) : BitVec 32 :=
  box 7 (word 4 x 7) ++ box 6 (word 4 x 6) ++ box 5 (word 4 x 5) ++ box 4 (word 4 x 4) ++
    box 3 (word 4 x 3) ++ box 2 (word 4 x 2) ++ box 1 (word 4 x 1) ++ box 0 (word 4 x 0)

def f (x : BitVec 32) : BitVec 32 := (substitute x).rotateLeft 11

def keyOrder : List Nat := List.range 8 ++ List.range 8 ++ List.range 8 ++ (List.range 8).reverse

/-- The encryption of GOST 28147-89.  Every round swaps the two halves but the last one. -/
def E (K : BitVec 256) (part : BitVec 64) : BitVec 64 :=
  let N := keyOrder.foldl (fun N i => (f (N.1 + word 32 K i) ^^^ N.2, N.1)) (word 32 part 0, word 32 part 1)
  N.1 ++ N.2

def S (H M : BitVec 256) : BitVec 256 :=
  E (key H M 4) (word 64 H 3) ++ E (key H M 3) (word 64 H 2) ++ E (key H M 2) (word 64 H 1) ++ E (key H M 1) (word 64 H 0)

/-- The step function. -/
def step (H M : BitVec 256) : BitVec 256 := psi^[61] (H ^^^ psi (M ^^^ psi^[12] (S H M)))

end GostR3411

namespace Gost3411

open GostR3411

/-! ## Arrays of words as values -/

def block (words : Vector (BitVec 32) 8) : BitVec 256 := value 256 words

theorem word_block (words : Vector (BitVec 32) 8) (i : Fin 8) : word 32 (block words) i = words.get i :=
  word_value (by decide) rfl words i

theorem eq_block {x : BitVec 256} {words : Vector (BitVec 32) 8} (same : ∀ i : Fin 8, word 32 x i = words.get i) :
    x = block words :=
  eq_value (by decide) rfl same

theorem half_block (words : Vector (BitVec 32) 8) (i : Fin 8) {b : Nat} (inside : b < 2) :
    word 16 (block words) (i * 2 + b) = word 16 (words.get i) b := by
  rw [← word_block words i]
  exact (word_word (w := 16) (m := 2) (block words) i inside).symm

theorem byte_block (words : Vector (BitVec 32) 8) (i : Fin 8) {b : Nat} (inside : b < 4) :
    word 8 (block words) (i * 4 + b) = word 8 (words.get i) b := by
  rw [← word_block words i]
  exact (word_word (w := 8) (m := 4) (block words) i inside).symm

theorem word_part (Y : BitVec 256) (i : Nat) {b : Nat} (inside : b < 2) :
    word 32 Y (i * 2 + b) = word 32 (word 64 Y i) b :=
  (word_word (w := 32) (m := 2) Y i inside).symm

/-! ## The rounds of the LFSR -/

def taps : List (Fin 16) := [0, 1, 2, 3, 12, 15]

def halves (Y : BitVec 256) : Vector (BitVec 16) 16 := Vector.ofFn fun i => word 16 Y i

/-- A round is a clock of the register of the halves. -/
theorem halves_psi : Function.Semiconj halves psi (clock taps) := by
  intro Y
  apply vector_ext
  intro i
  have shifted := word_append_extract (w := 16) (k := 15)
    (word 16 Y 0 ^^^ word 16 Y 1 ^^^ word 16 Y 2 ^^^ word 16 Y 3 ^^^ word 16 Y 12 ^^^ word 16 Y 15) Y
    (Nat.lt_succ_iff.mp i.isLt)
  rw [halves, get_ofFn, clock, get_ofFn]
  refine shifted.trans ?_
  by_cases last : i.val = 15
  · rw [if_pos last, dif_neg (by omega)]
    simp [taps, halves, BitVec.xor_assoc]
  · rw [if_neg last, dif_pos (by omega), halves, get_ofFn]

/-- The halves after some rounds, by masks. -/
theorem half_iterate (times : Nat) (Y : BitVec 256) (h : Fin 16) :
    word 16 (psi^[times] Y) h = combine (halves Y) (((clock taps)^[times] (units 16)).get h) := by
  have run := halves_psi.iterate_right times Y
  have chosen := congrArg (fun words => words.get h) (run.trans (iterate_clock times (halves Y)))
  rwa [get_map, halves, get_ofFn] at chosen

/-- The halves of words that make one half of an operand. -/
def Operand.mask (b : Nat) : Operand → BitVec 16
  | whole i => BitVec.twoPow 16 (i * 2 + b)
  | low i => if b = 0 then BitVec.twoPow 16 (i * 2) else 0
  | high i => if b = 0 then 0 else BitVec.twoPow 16 (i * 2 + 1)
  | shl i => if b = 0 then 0 else BitVec.twoPow 16 (i * 2)
  | shr i => if b = 0 then BitVec.twoPow 16 (i * 2 + 1) else 0

theorem half_low (x : BitVec 32) :
    word 16 (x &&& 0x0000FFFF) 0 = word 16 x 0 ∧ word 16 (x &&& 0x0000FFFF) 1 = 0#16 := by
  have masks : word 16 (0x0000FFFF : BitVec 32) 0 = BitVec.allOnes 16 ∧ word 16 (0x0000FFFF : BitVec 32) 1 = 0#16 := by
    decide
  rw [word_and, word_and, masks.1, masks.2]
  exact ⟨BitVec.and_allOnes, BitVec.and_zero⟩

theorem half_high (x : BitVec 32) :
    word 16 (x &&& 0xFFFF0000) 0 = 0#16 ∧ word 16 (x &&& 0xFFFF0000) 1 = word 16 x 1 := by
  have masks : word 16 (0xFFFF0000 : BitVec 32) 0 = 0#16 ∧ word 16 (0xFFFF0000 : BitVec 32) 1 = BitVec.allOnes 16 := by
    decide
  rw [word_and, word_and, masks.1, masks.2]
  exact ⟨BitVec.and_zero, BitVec.and_allOnes⟩

theorem half_shl (x : BitVec 32) : word 16 (x <<< 16) 0 = 0#16 ∧ word 16 (x <<< 16) 1 = word 16 x 0 :=
  ⟨word_shiftLeft_of_lt (w := 16) (s := 1) (i := 0) x (by decide), word_shiftLeft (w := 16) x 1 0 (by decide)⟩

theorem half_shr (x : BitVec 32) : word 16 (x >>> 16) 0 = word 16 x 1 ∧ word 16 (x >>> 16) 1 = 0#16 :=
  ⟨word_ushiftRight (w := 16) x 1 0, (word_ushiftRight (w := 16) x 1 1).trans (word_of_ge x (by decide))⟩

theorem combine_half (words : Vector (BitVec 32) 8) (i : Fin 8) {b : Nat} (inside : b < 2) :
    combine (halves (block words)) (BitVec.twoPow 16 (i * 2 + b)) = word 16 (words.get i) b := by
  rw [← half_block words i inside]
  have within : i.val * 2 + b < 16 := by omega
  exact (combine_twoPow (halves (block words)) ⟨i * 2 + b, within⟩).trans (get_ofFn _ _)

/-- What the mask of an operand means. -/
theorem half_eval (words : Vector (BitVec 32) 8) (operand : Operand) {b : Nat} (inside : b < 2) :
    word 16 (operand.eval words) b = combine (halves (block words)) (operand.mask b) := by
  have none : combine (halves (block words)) 0#16 = 0#16 := (keepsXor_combine _).zero
  have first : ∀ i : Fin 8, combine (halves (block words)) (BitVec.twoPow 16 (i * 2)) = word 16 (words.get i) 0 := by
    intro i
    have half := combine_half words i (show 0 < 2 by decide)
    rwa [Nat.add_zero] at half
  have second := fun i => combine_half words i (show 1 < 2 by decide)
  obtain rfl | rfl : b = 0 ∨ b = 1 := by omega
  · cases operand with
    | whole i => exact (combine_half words i (by decide)).symm
    | low i => exact (half_low _).1.trans (first i).symm
    | high i => exact (half_high _).1.trans none.symm
    | shl i => exact (half_shl _).1.trans none.symm
    | shr i => exact (half_shr _).1.trans (second i).symm
  · cases operand with
    | whole i => exact (second i).symm
    | low i => exact (half_low _).2.trans none.symm
    | high i => exact (half_high _).2.trans (second i).symm
    | shl i => exact (half_shl _).2.trans (first i).symm
    | shr i => exact (half_shr _).2.trans none.symm

/-- The masks of eight exclusive ors. -/
def masks (operands : Vector (List Operand) 8) : Vector (BitVec 16) 16 :=
  Vector.ofFn fun h => xorSum (operands.get (Fin.ofNat 8 (h / 2))) (Operand.mask (h % 2))

theorem half_mix (start words : Vector (BitVec 32) 8) (operands : Vector (List Operand) 8) (i : Fin 8) {b : Nat}
    (inside : b < 2) :
    word 16 ((mix start words operands).get i) b =
      word 16 (start.get i) b ^^^ combine (halves (block words)) (xorSum (operands.get i) (Operand.mask b)) := by
  have keeps : KeepsXor fun x : BitVec 32 => word 16 x b := fun x y => word_xor x y b
  have first := keeps.xorSum (operands.get i) (Operand.eval words)
  have second := (keepsXor_combine (halves (block words))).xorSum (operands.get i) (Operand.mask b)
  rw [mix, get_ofFn, foldl_xor, word_xor, first, second, xorSum_congr fun operand _ => half_eval words operand inside]

/-- Assignments with the masks of some rounds compute the rounds. -/
theorem block_mix {operands : Vector (List Operand) 8} {times : Nat}
    (same : masks operands = (clock taps)^[times] (units 16)) (start words : Vector (BitVec 32) 8) :
    block (mix start words operands) = block start ^^^ psi^[times] (block words) := by
  refine eq_of_words (w := 16) (k := 16) rfl fun h below => ?_
  have inside := Nat.mod_lt h (show 0 < 2 by decide)
  have split : (Fin.ofNat 8 (h / 2)).val * 2 + h % 2 = h := by
    rw [Fin.val_ofNat]
    omega
  have mixed := half_mix start words operands (Fin.ofNat 8 (h / 2)) inside
  rw [← half_block _ _ inside, ← half_block _ _ inside, split] at mixed
  have shifted := half_iterate times (block words) ⟨h, below⟩
  rw [← same, masks, get_ofFn] at shifted
  rw [word_xor, mixed, shifted]

theorem masks_rounds12 : masks rounds12 = (clock taps)^[12] (units 16) := by decide +kernel

theorem masks_rounds1 : masks rounds1 = (clock taps)^[1] (units 16) := by decide +kernel

theorem masks_rounds61 : masks rounds61 = (clock taps)^[61] (units 16) := by decide +kernel

/-! ## The transformation `P` -/

theorem byte_p (Y : BitVec 256) {t : Nat} (inside : t < 32) : word 8 (P Y) t = word 8 Y (8 * (t % 4) + t / 4) := by
  rw [P, byte_wordOf _ (by omega), List.getD_eq_getElem _ _ (by simpa using inside), List.getElem_map,
    List.getElem_range]

/-- A word of one byte of each of four words. -/
theorem byte_pack {a b c d : BitVec 32} {g : Nat → BitVec 8} (first : word 8 a 0 = g 0) (second : word 8 b 1 = g 1)
    (third : word 8 c 2 = g 2) (fourth : word 8 d 3 = g 3) {i : Nat} (inside : i < 4) :
    word 8 ((a &&& 0x000000FF) ||| (b &&& 0x0000FF00) ||| (c &&& 0x00FF0000) ||| (d &&& 0xFF000000)) i = g i := by
  have mask0 : ∀ i < 4, word 8 (0x000000FF : BitVec 32) i = if i = 0 then BitVec.allOnes 8 else 0#8 := by decide
  have mask1 : ∀ i < 4, word 8 (0x0000FF00 : BitVec 32) i = if i = 1 then BitVec.allOnes 8 else 0#8 := by decide
  have mask2 : ∀ i < 4, word 8 (0x00FF0000 : BitVec 32) i = if i = 2 then BitVec.allOnes 8 else 0#8 := by decide
  have mask3 : ∀ i < 4, word 8 (0xFF000000 : BitVec 32) i = if i = 3 then BitVec.allOnes 8 else 0#8 := by decide
  have keep : ∀ x : BitVec 8, x &&& 255#8 = x := fun _ => BitVec.and_allOnes
  simp only [word_or, word_and, mask0 i inside, mask1 i inside, mask2 i inside, mask3 i inside]
  obtain rfl | rfl | rfl | rfl : i = 0 ∨ i = 1 ∨ i = 2 ∨ i = 3 := by omega
  · simp [first, keep]
  · simp [second, keep]
  · simp [third, keep]
  · simp [fourth, keep]

/-- The bytes that the code collects. -/
theorem byte_collected (data : Vector (BitVec 32) 8) (k : Fin 8) {i : Nat} (inside : i < 4) :
    word 8 ((p data).get k) i = word 8 (data.get (Fin.ofNat 8 (2 * i + k / 4))) (k % 4) := by
  have shl := fun x : BitVec 32 => word_shiftLeft (w := 8) x
  have shr := fun x : BitVec 32 => word_ushiftRight (w := 8) x
  let source (k i : Nat) := word 8 (data.get (Fin.ofNat 8 (2 * i + k / 4))) (k % 4)
  fin_cases k
  · exact byte_pack (g := source 0) rfl (shl _ 1 0 (by decide)) (shl _ 2 0 (by decide)) (shl _ 3 0 (by decide)) inside
  · exact byte_pack (g := source 1) (shr _ 1 0) rfl (shl _ 1 1 (by decide)) (shl _ 2 1 (by decide)) inside
  · exact byte_pack (g := source 2) (shr _ 2 0) (shr _ 1 1) rfl (shl _ 1 2 (by decide)) inside
  · exact byte_pack (g := source 3) (shr _ 3 0) (shr _ 2 1) (shr _ 1 2) rfl inside
  · exact byte_pack (g := source 4) rfl (shl _ 1 0 (by decide)) (shl _ 2 0 (by decide)) (shl _ 3 0 (by decide)) inside
  · exact byte_pack (g := source 5) (shr _ 1 0) rfl (shl _ 1 1 (by decide)) (shl _ 2 1 (by decide)) inside
  · exact byte_pack (g := source 6) (shr _ 2 0) (shr _ 1 1) rfl (shl _ 1 2 (by decide)) inside
  · exact byte_pack (g := source 7) (shr _ 3 0) (shr _ 2 1) (shr _ 1 2) rfl inside

theorem p_block (words : Vector (BitVec 32) 8) : P (block words) = block (p words) := by
  refine eq_of_words (w := 8) (k := 32) rfl fun t below => ?_
  obtain ⟨k, i, inside, rfl⟩ : ∃ (k : Fin 8) (i : Nat), i < 4 ∧ t = k * 4 + i :=
    ⟨⟨t / 4, by omega⟩, t % 4, Nat.mod_lt t (by decide), (Nat.div_add_mod' t 4).symm⟩
  have source : (Fin.ofNat 8 (2 * i + k / 4)).val = 2 * i + k / 4 := Nat.mod_eq_of_lt (by omega)
  have read := byte_block words (Fin.ofNat 8 (2 * i + k / 4)) (Nat.mod_lt k.val (show 0 < 4 by decide))
  have place : 8 * ((k * 4 + i) % 4) + (k * 4 + i) / 4 = (2 * i + k / 4) * 4 + k % 4 := by omega
  rw [byte_p _ below, byte_block _ _ inside, byte_collected words k inside, ← read, source, place]

/-! ## The keys -/

theorem word_a (Y : BitVec 256) {i : Nat} (inside : i < 4) :
    word 64 (A Y) i = if i = 3 then word 64 Y 0 ^^^ word 64 Y 1 else word 64 Y (i + 1) :=
  word_append_extract (w := 64) (k := 3) (word 64 Y 0 ^^^ word 64 Y 1) Y (Nat.lt_succ_iff.mp inside)

/-- What `A` does to the words. -/
def shiftPart (words : Vector (BitVec 32) 8) : Vector (BitVec 32) 8 :=
  #v[words.get 2, words.get 3, words.get 4, words.get 5, words.get 6, words.get 7, words.get 0 ^^^ words.get 2,
    words.get 1 ^^^ words.get 3]

theorem a_block (words : Vector (BitVec 32) 8) : A (block words) = block (shiftPart words) := by
  have moved : ∀ i < 3, ∀ b < 2, word 32 (A (block words)) (i * 2 + b) = word 32 (block words) ((i + 1) * 2 + b) := by
    intro i below b inside
    rw [word_part _ _ inside, word_part _ _ inside, word_a _ (by omega), if_neg (by omega)]
  have last : ∀ b < 2, word 32 (A (block words)) (3 * 2 + b) =
      word 32 (block words) (0 * 2 + b) ^^^ word 32 (block words) (1 * 2 + b) := by
    intro b inside
    rw [word_part _ _ inside, word_part _ _ inside, word_part _ _ inside, word_a _ (by decide), if_pos rfl, word_xor]
  apply eq_block
  intro i
  fin_cases i
  · exact (moved 0 (by decide) 0 (by decide)).trans (word_block words 2)
  · exact (moved 0 (by decide) 1 (by decide)).trans (word_block words 3)
  · exact (moved 1 (by decide) 0 (by decide)).trans (word_block words 4)
  · exact (moved 1 (by decide) 1 (by decide)).trans (word_block words 5)
  · exact (moved 2 (by decide) 0 (by decide)).trans (word_block words 6)
  · exact (moved 2 (by decide) 1 (by decide)).trans (word_block words 7)
  · exact (last 0 (by decide)).trans (congrArg₂ _ (word_block words 0) (word_block words 2))
  · exact (last 1 (by decide)).trans (congrArg₂ _ (word_block words 1) (word_block words 3))

def xorWords (words others : Vector (BitVec 32) 8) : Vector (BitVec 32) 8 :=
  Vector.ofFn fun i => words.get i ^^^ others.get i

theorem xor_block (words others : Vector (BitVec 32) 8) :
    block words ^^^ block others = block (xorWords words others) := by
  apply eq_block
  intro i
  rw [word_xor, word_block, word_block, xorWords, get_ofFn]

/-- `C3` in words. -/
def constant : Vector (BitVec 32) 8 :=
  #v[0xFF00FF00, 0xFF00FF00, 0x00FF00FF, 0x00FF00FF, 0x00FFFF00, 0xFF0000FF, 0x000000FF, 0xFF00FFFF]

theorem c_three : C 3 = block constant := by
  apply eq_block
  decide +kernel

/-! The code leaves the words of `U` and `V` where they are.  The first two keys have the very
terms of the recurrence, the others some of them in another order. -/

theorem keys_first (hash data : Vector (BitVec 32) 8) : (keys hash data).get 0 = p (xorWords hash data) := rfl

theorem keys_second (hash data : Vector (BitVec 32) 8) :
    (keys hash data).get 1 = p (xorWords (shiftPart hash) (shiftPart (shiftPart data))) := rfl

theorem keys_third (hash data : Vector (BitVec 32) 8) :
    (keys hash data).get 2 = p (xorWords (xorWords (shiftPart (shiftPart hash)) constant)
      (shiftPart (shiftPart (shiftPart (shiftPart data))))) := by
  refine congrArg p (vector_ext fun i => ?_)
  fin_cases i
  · rfl
  · rfl
  · rfl
  · rfl
  · rfl
  · rfl
  · exact congrArg (· ^^^ _) (BitVec.xor_assoc _ _ _).symm
  · exact congrArg (· ^^^ _) (BitVec.xor_assoc _ _ _).symm

theorem keys_fourth (hash data : Vector (BitVec 32) 8) :
    (keys hash data).get 3 = p (xorWords (shiftPart (xorWords (shiftPart (shiftPart hash)) constant))
      (shiftPart (shiftPart (shiftPart (shiftPart (shiftPart (shiftPart data))))))) := by
  refine congrArg p (vector_ext fun i => ?_)
  fin_cases i
  · rfl
  · rfl
  · rfl
  · rfl
  · exact congrArg (· ^^^ _) (BitVec.xor_assoc _ _ _).symm
  · exact congrArg (· ^^^ _) (BitVec.xor_assoc _ _ _).symm
  · rfl
  · rfl

/-- The keys of the code are those of the recurrence. -/
theorem key_block (hash data : Vector (BitVec 32) 8) :
    key (block hash) (block data) 1 = block ((keys hash data).get 0) ∧
      key (block hash) (block data) 2 = block ((keys hash data).get 1) ∧
      key (block hash) (block data) 3 = block ((keys hash data).get 2) ∧
      key (block hash) (block data) 4 = block ((keys hash data).get 3) := by
  have none : ∀ words : Vector (BitVec 32) 8, block words ^^^ (0 : BitVec 256) = block words := fun _ => BitVec.xor_zero
  have second : C 2 = 0 := rfl
  have fourth : C 4 = 0 := rfl
  refine ⟨?_, ?_, ?_, ?_⟩
  · rw [keys_first, ← p_block, ← xor_block]
    rfl
  · show P (A (block hash) ^^^ C 2 ^^^ A (A (block data))) = _
    simp only [second, a_block, none, xor_block, p_block, keys_second]
  · show P (A (A (block hash) ^^^ C 2) ^^^ C 3 ^^^ A (A (A (A (block data))))) = _
    simp only [second, c_three, a_block, none, xor_block, p_block, keys_third]
  · show P (A (A (A (block hash) ^^^ C 2) ^^^ C 3) ^^^ C 4 ^^^ A (A (A (A (A (A (block data))))))) = _
    simp only [second, fourth, c_three, a_block, none, xor_block, p_block, keys_fourth]

/-! ## The encryption -/

theorem lookup_eq (row : Nat) (x : BitVec 32) (shift : Nat) (place : shift = row * 4) (below : row < 8) :
    lookup row ((x >>> shift) &&& 0xF) = (box row (word 4 x row)).setWidth 32 := by
  have same : ((x >>> shift) &&& 0xF).toNat = (word 4 x row).toNat := by
    subst place
    rw [word, BitVec.extractLsb'_toNat, BitVec.toNat_and, BitVec.toNat_ushiftRight]
    exact Nat.and_two_pow_sub_one_eq_mod _ 4
  have small : ∀ row < 8, ∀ v < 16, ((kBlock.getD row []).getD v 0).setWidth 32 =
      (((kBlock.getD row []).getD v 0).setWidth 4).setWidth 32 := by decide
  rw [lookup, box, same, small row below _ (word 4 x row).isLt]

/-- The results of the lookups side by side. -/
theorem substitute_eq (x : BitVec 32) :
    lookup 0 (x &&& 0xF) ||| lookup 1 ((x >>> 4) &&& 0xF) <<< 4 |||
      lookup 2 ((x >>> 8) &&& 0xF) <<< 8 ||| lookup 3 ((x >>> 12) &&& 0xF) <<< 12 |||
      lookup 4 ((x >>> 16) &&& 0xF) <<< 16 ||| lookup 5 ((x >>> 20) &&& 0xF) <<< 20 |||
      lookup 6 ((x >>> 24) &&& 0xF) <<< 24 ||| lookup 7 ((x >>> 28) &&& 0xF) <<< 28 = substitute x := by
  have first := lookup_eq 0 x 0 rfl (by decide)
  rw [BitVec.ushiftRight_zero] at first
  rw [← BitVec.setWidth_eq (substitute x), substitute]
  simp only [setWidth_append, BitVec.shiftLeft_or_distrib, ← BitVec.shiftLeft_add]
  rw [first, lookup_eq 1 x 4 rfl (by decide), lookup_eq 2 x 8 rfl (by decide), lookup_eq 3 x 12 rfl (by decide),
    lookup_eq 4 x 16 rfl (by decide), lookup_eq 5 x 20 rfl (by decide), lookup_eq 6 x 24 rfl (by decide),
    lookup_eq 7 x 28 rfl (by decide)]
  simp only [BitVec.or_assoc]

theorem round_eq (N : BitVec 32 × BitVec 32) (key : BitVec 32) : round N key = (f (N.1 + key) ^^^ N.2, N.1) := by
  have rotated : ∀ x : BitVec 32, (x <<< 11) ||| (x >>> 21) = x.rotateLeft 11 := by
    intro x
    rw [BitVec.rotateLeft_def]
  simp only [round, substitute_eq, rotated, f]

theorem e_block (K : Vector (BitVec 32) 8) (part : BitVec 64) :
    E (block K) part =
      (encrypt (word 32 part 0) (word 32 part 1) K).2 ++ (encrypt (word 32 part 0) (word 32 part 1) K).1 := by
  have order : keyOrder = roundKeys.map Fin.val := by decide
  rw [E, encrypt, order, List.foldl_map]
  simp only [word_block, round_eq]

theorem parts_append (a b c d : BitVec 64) :
    word 64 (a ++ b ++ c ++ d) 0 = d ∧ word 64 (a ++ b ++ c ++ d) 1 = c ∧ word 64 (a ++ b ++ c ++ d) 2 = b ∧
      word 64 (a ++ b ++ c ++ d) 3 = a := by
  refine ⟨word_append_zero _ d, ?_, ?_, ?_⟩
  · rw [word_append_succ, word_append_zero]
  · rw [word_append_succ, word_append_succ, word_append_zero]
  · rw [word_append_succ, word_append_succ, word_append_succ, word_self]

theorem words_of_part {Y : BitVec 256} {j : Nat} {high low : BitVec 32} (part : word 64 Y j = high ++ low) :
    word 32 Y (j * 2 + 0) = low ∧ word 32 Y (j * 2 + 1) = high := by
  rw [word_part Y j (by decide), word_part Y j (by decide), part]
  exact ⟨word_append_zero high low, (word_append_succ high low 0).trans (word_self high)⟩

/-- A block from its four parts. -/
theorem append_block (words : Vector (BitVec 32) 8) :
    (words.get 7 ++ words.get 6) ++ (words.get 5 ++ words.get 4) ++ (words.get 3 ++ words.get 2) ++
      (words.get 1 ++ words.get 0) = block words := by
  obtain ⟨first, second, third, fourth⟩ := parts_append (words.get 7 ++ words.get 6) (words.get 5 ++ words.get 4)
    (words.get 3 ++ words.get 2) (words.get 1 ++ words.get 0)
  apply eq_block
  intro i
  fin_cases i
  · exact (words_of_part first).1
  · exact (words_of_part first).2
  · exact (words_of_part second).1
  · exact (words_of_part second).2
  · exact (words_of_part third).1
  · exact (words_of_part third).2
  · exact (words_of_part fourth).1
  · exact (words_of_part fourth).2

/-- The words of a part. -/
theorem word_part_block (words : Vector (BitVec 32) 8) (i : Fin 8) (j b : Nat) (inside : b < 2) (place : i.val = j * 2 + b) :
    word 32 (word 64 (block words) j) b = words.get i := by
  rw [← word_part _ _ inside, ← place, word_block]

/-- `S` as the code computes it. -/
theorem s_block (hash data : Vector (BitVec 32) 8) :
    S (block hash) (block data) = block
      (let K := keys hash data
      let S01 := encrypt (hash.get 0) (hash.get 1) (K.get 0)
      let S23 := encrypt (hash.get 2) (hash.get 3) (K.get 1)
      let S45 := encrypt (hash.get 4) (hash.get 5) (K.get 2)
      let S67 := encrypt (hash.get 6) (hash.get 7) (K.get 3)
      #v[S01.1, S01.2, S23.1, S23.2, S45.1, S45.2, S67.1, S67.2]) := by
  obtain ⟨first, second, third, fourth⟩ := key_block hash data
  have part := word_part_block hash
  rw [S, first, second, third, fourth]
  simp only [e_block, part 0 0 0 (by decide) rfl, part 1 0 1 (by decide) rfl, part 2 1 0 (by decide) rfl,
    part 3 1 1 (by decide) rfl, part 4 2 0 (by decide) rfl, part 5 2 1 (by decide) rfl, part 6 3 0 (by decide) rfl,
    part 7 3 1 (by decide) rfl]
  exact append_block #v[_, _, _, _, _, _, _, _]

theorem block_zeros : block (Vector.replicate 8 0) = 0#256 := by
  apply Eq.symm
  apply eq_block
  decide +kernel

theorem block_process (hash data : Vector (BitVec 32) 8) :
    block (pzcryptoHashGost3411Process hash data) = step (block hash) (block data) := by
  rw [step, s_block]
  simp only [pzcryptoHashGost3411Process]
  rw [block_mix masks_rounds61, block_mix masks_rounds1, block_mix masks_rounds12, block_zeros, BitVec.zero_xor]
  rfl

end Gost3411

open Gost3411

/-- `process` computes the step function of the standard, for every hash and every block. -/
theorem process_is_step (hash data : Vector (BitVec 32) 8) :
    block (pzcryptoHashGost3411Process hash data) = GostR3411.step (block hash) (block data) :=
  block_process hash data

end Plibsys.Crypto
