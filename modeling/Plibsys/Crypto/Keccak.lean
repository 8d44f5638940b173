import Plibsys.Crypto.PHashSHA3
import Mathlib.Tactic.FinCases

/-! # Keccak

The permutation of FIPS 202 on the bits of a state, and that `pcryptohash-sha3.c` computes it
on lanes, in place.
-/

namespace Plibsys.Crypto

open Support

namespace Fips202

/-- A string of 1600 bits.  The bit `A[x, y, z]` of a state array is at `64 (5 y + x) + z`. -/
abbrev StateArray := Vector Bool 1600

instance neZeroState : NeZero 1600 := ⟨by decide⟩

def bit (A : StateArray) (x y : Fin 5) (z : Fin 64) : Bool := A.get (Fin.ofNat 1600 (64 * (5 * y + x) + z))

def ofBits (f : Fin 5 → Fin 5 → Fin 64 → Bool) : StateArray :=
  Vector.ofFn fun i => f (Fin.ofNat 5 (i / 64 % 5)) (Fin.ofNat 5 (i / 320)) (Fin.ofNat 64 (i % 64))

def parity (A : StateArray) (x : Fin 5) (z : Fin 64) : Bool :=
  bit A x 0 z ^^ bit A x 1 z ^^ bit A x 2 z ^^ bit A x 3 z ^^ bit A x 4 z

def theta (A : StateArray) : StateArray :=
  ofBits fun x y z => bit A x y z ^^ (parity A (x - 1) z ^^ parity A (x + 1) (z - 1))

/-- The lane that rho treats in a step. -/
def rhoLane : Nat → Fin 5 × Fin 5
  | 0 => (1, 0)
  | t + 1 => ((rhoLane t).2, 2 * (rhoLane t).1 + 3 * (rhoLane t).2)

/-- How far rho moves a lane. -/
def rhoOffset (x y : Fin 5) : Nat :=
  ((List.range 24).find? fun t => rhoLane t = (x, y)).elim 0 fun t => (t + 1) * (t + 2) / 2

def rho (A : StateArray) : StateArray := ofBits fun x y z => bit A x y (z - Fin.ofNat 64 (rhoOffset x y))

def pi (A : StateArray) : StateArray := ofBits fun x y z => bit A (x + 3 * y) x z

def chi (A : StateArray) : StateArray :=
  ofBits fun x y z => bit A x y z ^^ (!bit A (x + 1) y z && bit A (x + 2) y z)

/-- One step of the shift register. -/
def rcStep (R : List Bool) : List Bool :=
  let R := false :: R
  let last := R.getD 8 false
  let R := R.set 0 (R.getD 0 false ^^ last)
  let R := R.set 4 (R.getD 4 false ^^ last)
  let R := R.set 5 (R.getD 5 false ^^ last)
  let R := R.set 6 (R.getD 6 false ^^ last)
  R.take 8

def rc (t : Nat) : Bool :=
  ((List.range (t % 255)).foldl (fun R _ => rcStep R) [true, false, false, false, false, false, false, false]).getD 0
    false

/-- The bits of the round constant: bit `2 ^ j - 1` for `j` up to 6. -/
def roundConstant (round : Nat) (z : Fin 64) : Bool :=
  ((List.range 7).find? fun j => z.val = 2 ^ j - 1).elim false fun j => rc (j + 7 * round)

def iota (A : StateArray) (round : Nat) : StateArray :=
  ofBits fun x y z => if x = 0 ∧ y = 0 then bit A x y z ^^ roundConstant round z else bit A x y z

def rnd (A : StateArray) (i : Nat) : StateArray := iota (chi (pi (rho (theta A)))) i

/-- The permutation Keccak-f[1600]. -/
def keccakF (A : StateArray) : StateArray := (List.range 24).foldl rnd A

end Fips202

namespace Keccak

open Fips202 Sha3

/-! ## States as lanes -/

@[simp] theorem bit_ofBits (f : Fin 5 → Fin 5 → Fin 64 → Bool) (x y : Fin 5) (z : Fin 64) :
    bit (ofBits f) x y z = f x y z := by
  rw [bit, ofBits, get_ofFn]
  congr <;> apply Fin.ext <;> simp only [Fin.val_ofNat] <;> omega

theorem state_ext {A B : StateArray} (same : ∀ x y z, bit A x y z = bit B x y z) : A = B := by
  apply vector_ext
  intro i
  have place : Fin.ofNat 1600 (64 * (5 * (Fin.ofNat 5 (i / 320)).val + (Fin.ofNat 5 (i / 64 % 5)).val) +
      (Fin.ofNat 64 (i % 64)).val) = i := by
    apply Fin.ext
    simp only [Fin.val_ofNat]
    omega
  have bits := same (Fin.ofNat 5 (i / 64 % 5)) (Fin.ofNat 5 (i / 320)) (Fin.ofNat 64 (i % 64))
  rwa [bit, bit, place] at bits

/-- The place of a lane in the array of the hash. -/
def lane (x y : Fin 5) : Fin 25 := Fin.ofNat 25 (5 * y + x)

theorem lane_inj : ∀ {x y x' y' : Fin 5}, lane x y = lane x' y' ↔ x = x' ∧ y = y' := by decide

/-- The state that the lanes of the hash make. -/
def stateOf (hash : Vector (BitVec 64) 25) : StateArray := ofBits fun x y z => (hash.get (lane x y)).getLsbD z

@[simp] theorem bit_stateOf (hash : Vector (BitVec 64) 25) (x y : Fin 5) (z : Fin 64) :
    bit (stateOf hash) x y z = (hash.get (lane x y)).getLsbD z := bit_ofBits _ x y z

theorem rotl_eq {shift : Nat} (small : shift < 64) (val : BitVec 64) : rotl val shift = val.rotateLeft shift := by
  rw [rotl, shl, BitVec.rotateLeft_def, Nat.mod_eq_of_lt small]

/-- A bit of a lane that has been turned. -/
theorem getLsbD_rotateLeft (val : BitVec 64) (shift : Nat) (z : Fin 64) :
    (val.rotateLeft shift).getLsbD z = val.getLsbD (z - Fin.ofNat 64 shift).val := by
  have place : (z - Fin.ofNat 64 shift).val = (64 - shift % 64 + z.val) % 64 := by
    rw [Fin.sub_def, Fin.val_ofNat]
  rw [BitVec.getLsbD_rotateLeft, place]
  by_cases wraps : z.val < shift % 64
  · rw [decide_eq_true wraps, cond_true, Nat.mod_eq_of_lt (show 64 - shift % 64 + z.val < 64 by omega)]
  · rw [decide_eq_false wraps, cond_false, decide_eq_true z.isLt, Bool.true_and,
      show 64 - shift % 64 + z.val = z.val - shift % 64 + 64 by omega,
      Nat.add_mod_right, Nat.mod_eq_of_lt (show z.val - shift % 64 < 64 by omega)]

/-! ## The steps -/

/-- The parity of a column. -/
def column (hash : Vector (BitVec 64) 25) (x : Fin 5) : BitVec 64 :=
  hash.get (lane x 0) ^^^ hash.get (lane x 1) ^^^ hash.get (lane x 2) ^^^ hash.get (lane x 3) ^^^ hash.get (lane x 4)

/-- The assignments of the last loop of theta, with the column of each. -/
def thetaItems : List (Nat × Nat) :=
  (List.range 5).flatMap fun i => [i, i + 5, i + 10, i + 15, i + 20].map fun k => (i, k)

theorem thetaItems_apart : thetaItems.Pairwise fun i j => Fin.ofNat 25 i.2 ≠ Fin.ofNat 25 j.2 := by decide

theorem mem_thetaItems : ∀ x y : Fin 5, (x.val, 5 * y.val + x.val) ∈ thetaItems := by decide

theorem get_keccakTheta (hash : Vector (BitVec 64) 25) (x y : Fin 5) :
    (keccakTheta hash).get (lane x y) =
      hash.get (lane x y) ^^^ (rotl (column hash (x + 1)) 1 ^^^ column hash (x - 1)) := by
  let D : Vector (BitVec 64) 5 :=
    #v[rotl (column hash 1) 1 ^^^ column hash 4, rotl (column hash 2) 1 ^^^ column hash 0,
      rotl (column hash 3) 1 ^^^ column hash 1, rotl (column hash 4) 1 ^^^ column hash 2,
      rotl (column hash 0) 1 ^^^ column hash 3]
  let place (item : Nat × Nat) : Fin 25 := Fin.ofNat 25 item.2
  let value (item : Nat × Nat) (hash : Vector (BitVec 64) 25) := hash.get (place item) ^^^ D.get (Fin.ofNat 5 item.1)
  have flat : keccakTheta hash =
      thetaItems.foldl (fun hash item => write hash (place item) (value item hash)) hash := by
    simp only [thetaItems, List.foldl_flatMap, List.foldl_map]
    rfl
  have apart : thetaItems.Pairwise fun i j =>
      place i ≠ place j ∧ ∀ file x, value j (write file (place i) x) = value j file := by
    refine thetaItems_apart.imp ?_
    intro i j apart
    refine ⟨apart, ?_⟩
    intro file x
    simp only [value]
    rw [get_write, if_neg (Ne.symm apart)]
  have effect : D.get (Fin.ofNat 5 x) = rotl (column hash (x + 1)) 1 ^^^ column hash (x - 1) := by
    fin_cases x <;> rfl
  have assigned := get_assign apart (mem_thetaItems x y) hash
  rw [← flat] at assigned
  exact assigned.trans (congrArg (hash.get (lane x y) ^^^ ·) effect)

/-- A move does not read or write what an earlier one has written. -/
theorem moves_apart : moves.Pairwise fun i j => i.target ≠ j.target ∧ i.target ≠ j.source := by decide

theorem get_moves (hash : Vector (BitVec 64) 25) {move : Move} (mem : move ∈ moves) :
    (moves.foldl Move.run hash).get move.target = rotl (hash.get move.source) move.shift := by
  refine get_assign (moves_apart.imp ?_) mem hash
  intro i j apart
  refine ⟨apart.1, ?_⟩
  intro file x
  rw [get_write, if_neg apart.2.symm]

theorem chiRow_lane (hash : Vector (BitVec 64) 25) (x y row : Fin 5) :
    (chiRow hash (5 * row)).get (lane x y) =
      if y = row then hash.get (lane x y) ^^^ (~~~hash.get (lane (x + 1) y) &&& hash.get (lane (x + 2) y))
      else hash.get (lane x y) := by
  have at0 : Fin.ofNat 25 (5 * row.val + 0) = lane 0 row := rfl
  have at1 : Fin.ofNat 25 (5 * row.val + 1) = lane 1 row := rfl
  have at2 : Fin.ofNat 25 (5 * row.val + 2) = lane 2 row := rfl
  have at3 : Fin.ofNat 25 (5 * row.val + 3) = lane 3 row := rfl
  have at4 : Fin.ofNat 25 (5 * row.val + 4) = lane 4 row := rfl
  simp only [chiRow, at0, at1, at2, at3, at4, get_write, lane_inj]
  by_cases same : y = row
  · subst same
    fin_cases x <;> simp
  · simp [same]

theorem get_keccakChi (hash : Vector (BitVec 64) 25) (x y : Fin 5) :
    (keccakChi hash).get (lane x y) =
      hash.get (lane x y) ^^^ (~~~hash.get (lane (x + 1) y) &&& hash.get (lane (x + 2) y)) := by
  have rows : keccakChi hash = List.foldl (fun hash (row : Fin 5) => chiRow hash (5 * row.val)) hash [0, 1, 2, 3, 4] := rfl
  simp only [rows, List.foldl_cons, List.foldl_nil, chiRow_lane]
  fin_cases y <;> simp

/-- The moves follow rho and pi; all lanes but two are moved by them. -/
theorem mem_moves : ∀ x y : Fin 5, lane x y ≠ 10 → lane x y ≠ 0 →
    ⟨lane x y, lane (x + 3 * y) x, rhoOffset (x + 3 * y) x % 64⟩ ∈ moves := by decide +kernel

theorem moves_target : ∀ move ∈ moves, move.target ≠ 0 := by decide

theorem rotateLeft_zero (val : BitVec 64) : val.rotateLeft 0 = val := by
  apply BitVec.eq_of_getLsbD_eq
  intro i inside
  simp [inside]

theorem get_keccakRhoPi (hash : Vector (BitVec 64) 25) (x y : Fin 5) :
    (keccakRhoPi hash).get (lane x y) =
      (hash.get (lane (x + 3 * y) x)).rotateLeft (rhoOffset (x + 3 * y) x) := by
  rw [keccakRhoPi, get_write]
  split
  · next last =>
      obtain ⟨rfl, rfl⟩ := lane_inj.mp (last.trans (show 10 = lane 0 2 from rfl))
      exact rotl_eq (by decide) _
  · next other =>
      by_cases first : lane x y = 0
      · obtain ⟨rfl, rfl⟩ := lane_inj.mp (first.trans (show 0 = lane 0 0 from rfl))
        exact (get_assign_other moves_target hash).trans (rotateLeft_zero (hash.get 0)).symm
      · have moved := get_moves hash (mem_moves x y other first)
        rw [rotl_eq (Nat.mod_lt _ (by decide)), BitVec.rotateLeft_mod_eq_rotateLeft] at moved
        exact moved

/-! ## The permutation -/

theorem stateOf_keccakTheta (hash : Vector (BitVec 64) 25) : stateOf (keccakTheta hash) = theta (stateOf hash) := by
  have parities : ∀ x z, parity (stateOf hash) x z = (column hash x).getLsbD z := by
    intro x z
    simp only [parity, column, bit_stateOf, BitVec.getLsbD_xor]
  apply state_ext
  intro x y z
  rw [bit_stateOf, get_keccakTheta, theta, bit_ofBits, parities, parities, bit_stateOf, BitVec.getLsbD_xor,
    BitVec.getLsbD_xor, rotl_eq (by decide), getLsbD_rotateLeft, Bool.xor_comm (BitVec.getLsbD _ _) (BitVec.getLsbD (column hash (x - 1)) _)]
  rfl

theorem stateOf_keccakRhoPi (hash : Vector (BitVec 64) 25) : stateOf (keccakRhoPi hash) = pi (rho (stateOf hash)) := by
  apply state_ext
  intro x y z
  rw [bit_stateOf, get_keccakRhoPi, pi, bit_ofBits, rho, bit_ofBits, bit_stateOf, getLsbD_rotateLeft]

theorem stateOf_keccakChi (hash : Vector (BitVec 64) 25) : stateOf (keccakChi hash) = chi (stateOf hash) := by
  apply state_ext
  intro x y z
  simp only [chi, bit_ofBits, bit_stateOf, get_keccakChi, BitVec.getLsbD_xor, BitVec.getLsbD_and, BitVec.getLsbD_not,
    z.isLt, decide_true, Bool.true_and]

theorem K_bits : ∀ i < 24, ∀ z : Fin 64, (K.getD i 0).getLsbD z = roundConstant i z := by decide +kernel

theorem stateOf_iota {i : Nat} (below : i < 24) (hash : Vector (BitVec 64) 25) :
    stateOf (write hash 0 (hash.get 0 ^^^ K.getD i 0)) = iota (stateOf hash) i := by
  apply state_ext
  intro x y z
  have origin : lane x y = 0 ↔ x = 0 ∧ y = 0 := by
    rw [show (0 : Fin 25) = lane 0 0 from rfl]
    exact lane_inj
  rw [bit_stateOf, get_write, iota, bit_ofBits]
  simp only [origin]
  split
  · next first =>
      rw [BitVec.getLsbD_xor, K_bits i below, bit_stateOf, origin.mpr first]
  · rw [bit_stateOf]

theorem stateOf_keccakRound {i : Nat} (below : i < 24) (hash : Vector (BitVec 64) 25) :
    stateOf (keccakRound hash i) = rnd (stateOf hash) i := by
  rw [keccakRound, stateOf_iota below, stateOf_keccakChi, stateOf_keccakRhoPi, stateOf_keccakTheta, rnd]

/-- The code permutes the lanes as the standard permutes the bits. -/
theorem stateOf_keccakPermutate (hash : Vector (BitVec 64) 25) :
    stateOf (keccakPermutate hash) = keccakF (stateOf hash) := by
  have rounds : ∀ n ≤ 24, stateOf ((List.range n).foldl keccakRound hash) = (List.range n).foldl rnd (stateOf hash) := by
    intro n within
    induction n with
    | zero => rfl
    | succ n ih =>
        simp only [List.range_succ, List.foldl_append, List.foldl_cons, List.foldl_nil]
        rw [stateOf_keccakRound (by omega), ih (by omega)]
  unfold keccakPermutate keccakF
  exact rounds 24 (Nat.le_refl 24)

end Keccak

end Plibsys.Crypto
