import Plibsys.Crypto.PHashSHA2
import Plibsys.Crypto.Streaming
import Plibsys.Support.Recurrence
import Mathlib.Analysis.SpecialFunctions.Pow.NthRootLemmas
import Mathlib.Tactic.FinCases

/-! # SHA-2

The digests of FIPS 180-4, and that `pcryptohash-sha2-256.c` and `pcryptohash-sha2-512.c`
compute them.  The code leaves the working variables where they are and changes their names
from round to round.
-/

namespace Plibsys.Crypto

open Support

namespace Fips180

/-- What SHA-256 and SHA-512 have of their own. -/
structure Sha2 (w : Nat) where
  rounds : Nat
  bigSigma0 : BitVec w → BitVec w
  bigSigma1 : BitVec w → BitVec w
  smallSigma0 : BitVec w → BitVec w
  smallSigma1 : BitVec w → BitVec w

section Sha2

variable {w : Nat}

def ch (x y z : BitVec w) : BitVec w := (x &&& y) ^^^ (~~~x &&& z)

def maj (x y z : BitVec w) : BitVec w := (x &&& y) ^^^ (x &&& z) ^^^ (y &&& z)

/-- The first eighty primes. -/
def primes : List Nat :=
  [2, 3, 5, 7, 11, 13, 17, 19, 23, 29, 31, 37, 41, 43, 47, 53, 59, 61, 67, 71, 73, 79, 83, 89, 97, 101, 103, 107,
    109, 113, 127, 131, 137, 139, 149, 151, 157, 163, 167, 173, 179, 181, 191, 193, 197, 199, 211, 223, 227,
    229, 233, 239, 241, 251, 257, 263, 269, 271, 277, 281, 283, 293, 307, 311, 313, 317, 331, 337, 347, 349,
    353, 359, 367, 373, 379, 383, 389, 397, 401, 409]

/-- The first bits of the fractional part of the root of a number. -/
def rootFraction (w n x : Nat) : BitVec w := BitVec.ofNat w (Nat.nthRoot n (x * 2 ^ (n * w)))

/-- The constants are taken from the cube roots of the primes. -/
def constants (sha : Sha2 w) : List (BitVec w) := (primes.take sha.rounds).map (rootFraction w 3)

/-- The next word of the schedule. -/
def Sha2.nextWord (sha : Sha2 w) (words : List (BitVec w)) : BitVec w :=
  let t := words.length
  sha.smallSigma1 (words.getD (t - 2) 0) + words.getD (t - 7) 0 + sha.smallSigma0 (words.getD (t - 15) 0) +
    words.getD (t - 16) 0

def Sha2.schedule (sha : Sha2 w) (block : Vector (BitVec w) 16) : List (BitVec w) :=
  extend sha.nextWord block.toList (sha.rounds - 16)

/-- One step on the working variables a to h, with its constant and its word. -/
def Sha2.step (sha : Sha2 w) (constant word : BitVec w) (v : Vector (BitVec w) 8) : Vector (BitVec w) 8 :=
  let a := v.get 0
  let b := v.get 1
  let c := v.get 2
  let d := v.get 3
  let e := v.get 4
  let f := v.get 5
  let g := v.get 6
  let h := v.get 7
  let t1 := h + sha.bigSigma1 e + ch e f g + constant + word
  let t2 := sha.bigSigma0 a + maj a b c
  #v[t1 + t2, a, b, c, d + t1, e, f, g]

def Sha2.compress (sha : Sha2 w) (hash : Vector (BitVec w) 8) (block : Vector (BitVec w) 16) : Vector (BitVec w) 8 :=
  let constants := constants sha
  let words := sha.schedule block
  let v := (List.range sha.rounds).foldl (fun v t => sha.step (constants.getD t 0) (words.getD t 0) v) hash
  Vector.zipWith (· + ·) hash v

/-- Initial values are taken from the square roots of eight primes. -/
def squareRoots (w first : Nat) : Vector (BitVec w) 8 :=
  Vector.ofFn fun i => rootFraction w 2 (primes.getD (first + i) 0)

end Sha2

def sha2_256 : Sha2 32 where
  rounds := 64
  bigSigma0 x := x.rotateRight 2 ^^^ x.rotateRight 13 ^^^ x.rotateRight 22
  bigSigma1 x := x.rotateRight 6 ^^^ x.rotateRight 11 ^^^ x.rotateRight 25
  smallSigma0 x := x.rotateRight 7 ^^^ x.rotateRight 18 ^^^ x >>> 3
  smallSigma1 x := x.rotateRight 17 ^^^ x.rotateRight 19 ^^^ x >>> 10

def sha2_512 : Sha2 64 where
  rounds := 80
  bigSigma0 x := x.rotateRight 28 ^^^ x.rotateRight 34 ^^^ x.rotateRight 39
  bigSigma1 x := x.rotateRight 14 ^^^ x.rotateRight 18 ^^^ x.rotateRight 41
  smallSigma0 x := x.rotateRight 1 ^^^ x.rotateRight 8 ^^^ x >>> 7
  smallSigma1 x := x.rotateRight 19 ^^^ x.rotateRight 61 ^^^ x >>> 6

/-- The hash of a message of whole bytes, in bytes. -/
def Sha2.digest {w : Nat} (sha : Sha2 w) (initial : Vector (BitVec w) 8) (message : List Byte) : List Byte :=
  hashBytes true (merkleDamgard true sha.compress initial message)

def sha256 (message : List Byte) : List Byte := sha2_256.digest (squareRoots 32 0) message

/-- The initial values of SHA-224 are the second 32 bits of the fractions. -/
def sha224 (message : List Byte) : List Byte :=
  (sha2_256.digest ((squareRoots 64 8).map fun x => x.setWidth 32) message).take 28

def sha512 (message : List Byte) : List Byte := sha2_512.digest (squareRoots 64 0) message

def sha384 (message : List Byte) : List Byte := (sha2_512.digest (squareRoots 64 8) message).take 48

end Fips180

namespace Sha2

section Rounds

variable {w : Nat}

theorem f0_eq (x y z : BitVec w) : f0 x y z = Fips180.maj x y z := by
  apply BitVec.eq_of_getLsbD_eq
  intro i inside
  simp only [f0, Fips180.maj, BitVec.getLsbD_xor, BitVec.getLsbD_and, BitVec.getLsbD_or]
  cases x.getLsbD i <;> cases y.getLsbD i <;> cases z.getLsbD i <;> rfl

theorem f1_eq (x y z : BitVec w) : f1 x y z = Fips180.ch x y z := by
  apply BitVec.eq_of_getLsbD_eq
  intro i inside
  simp only [f1, Fips180.ch, BitVec.getLsbD_xor, BitVec.getLsbD_and, BitVec.getLsbD_not, inside, decide_true,
    Bool.true_and]
  cases x.getLsbD i <;> cases y.getLsbD i <;> cases z.getLsbD i <;> rfl

/-- The call of a step: the names are those of the round. -/
def callOf (t : Nat) : Call :=
  ⟨0 - Fin.ofNat 8 t, 1 - Fin.ofNat 8 t, 2 - Fin.ofNat 8 t, 3 - Fin.ofNat 8 t, 4 - Fin.ofNat 8 t, 5 - Fin.ofNat 8 t,
    6 - Fin.ofNat 8 t, 7 - Fin.ofNat 8 t, t⟩

variable {sha : Fips180.Sha2 w}

/-- A call writes the two registers that the step moves to the first and the fifth place. -/
theorem view_p (t : Nat) (word constant : BitVec w) (A : Vector (BitVec w) 8) :
    view ((callOf t).p sha.bigSigma0 sha.bigSigma1 word constant A) (Fin.ofNat 8 (t + 1)) =
      sha.step constant word (view A (Fin.ofNat 8 t)) := by
  simp only [Call.p, f0_eq, f1_eq, callOf, ← get_view]
  rw [ofNat_succ]
  apply vector_ext
  intro r
  rw [get_view_succ, view_write, view_write, get_write, get_write]
  fin_cases r <;> rfl

/-! ## The schedule -/

theorem schedule_next {block : Vector (BitVec w) 16} {t : Nat} (later : 16 ≤ t) (below : t < sha.rounds) :
    let words := sha.schedule block
    words.getD t 0 =
      sha.smallSigma1 (words.getD (t - 2) 0) + words.getD (t - 7) 0 + sha.smallSigma0 (words.getD (t - 15) 0) +
        words.getD (t - 16) 0 := by
  intro words
  have first : block.toList.length = 16 := Vector.length_toList
  have before : (words.take t).length = t := by
    simp only [words, Fips180.Sha2.schedule, List.length_take, length_extend, first]
    omega
  have new : words.getD t 0 = sha.nextWord (words.take t) := getD_extend (by omega) (by omega)
  rw [new, Fips180.Sha2.nextWord, before, getD_take (by omega), getD_take (by omega), getD_take (by omega),
    getD_take (by omega)]

variable {n : Nat} [NeZero n] {W : Vector (BitVec w) n} {block : Vector (BitVec w) 16} {t : Nat}

/-- The array holds the first words of the schedule. -/
abbrev Scheduled (sha : Fips180.Sha2 w) (block : Vector (BitVec w) 16) (t : Nat) (W : Vector (BitVec w) n) : Prop :=
  Latest W (fun k => (sha.schedule block).getD k 0) t

theorem scheduled_copyWords (fits : 16 ≤ n) (block : Vector (BitVec w) 16) :
    Scheduled sha block 16 (copyWords n block) := by
  intro k below _
  have listed : k < block.toList.length := by rwa [Vector.length_toList]
  have inside : (Fin.ofNat n k).val = k := Nat.mod_eq_of_lt (by omega)
  simp only [copyWords, get_ofFn, inside, Fips180.Sha2.schedule, getD_extend_first listed]

theorem scheduled_expand (scheduled : Scheduled sha block t W) (later : 16 ≤ t) (below : t < sha.rounds) (fits : t ≤ n) :
    Scheduled sha block (t + 1) (expand sha.smallSigma0 sha.smallSigma1 W t) := by
  have kept := scheduled.write
  rw [schedule_next later below] at kept
  unfold expand
  rw [scheduled (t - 2) (by omega) (by omega), scheduled (t - 7) (by omega) (by omega),
    scheduled (t - 15) (by omega) (by omega), scheduled (t - 16) (by omega) (by omega)]
  exact kept

end Rounds

/-! ## The tables -/

section Tables

variable {w n x : Nat} {bits : BitVec w}

/-- Bounds for the root with the given bits after the point. -/
def IsRootFraction (n x : Nat) (bits : BitVec w) : Prop :=
  let root := Nat.nthRoot n x * 2 ^ w + bits.toNat
  root ^ n ≤ x * 2 ^ (n * w) ∧ x * 2 ^ (n * w) < (root + 1) ^ n

instance : Decidable (IsRootFraction n x bits) := inferInstanceAs (Decidable (_ ∧ _))

theorem rootFraction_eq (bounds : IsRootFraction n x bits) : Fips180.rootFraction w n x = bits := by
  rw [Fips180.rootFraction, Nat.nthRoot_eq_of_le_of_lt bounds.1 bounds.2]
  apply BitVec.eq_of_toNat_eq
  rw [BitVec.toNat_ofNat, Nat.mul_add_mod_self_right, Nat.mod_eq_of_lt bits.isLt]

theorem map_rootFraction {table : List (BitVec w)} {xs : List Nat}
    (bounds : List.Forall₂ (IsRootFraction n) xs table) : xs.map (Fips180.rootFraction w n) = table := by
  induction bounds with
  | nil => rfl
  | cons bounds _ ih => rw [List.map_cons, rootFraction_eq bounds, ih]

theorem squareRoots_eq (first : Nat) (table : Vector (BitVec w) 8)
    (bounds : ∀ r : Fin 8, IsRootFraction 2 (Fips180.primes.getD (first + r) 0) (table.get r)) :
    Fips180.squareRoots w first = table := by
  apply vector_ext
  intro r
  rw [Fips180.squareRoots, get_ofFn, rootFraction_eq (bounds r)]

end Tables

end Sha2

/-! ## SHA-256 -/

namespace Sha2_256

theorem shr_eq (val : BitVec 32) (shift : Nat) : shr val shift = val >>> shift := by
  rw [shr, show (0xFFFFFFFF : BitVec 32) = BitVec.allOnes 32 from rfl, BitVec.and_allOnes]

theorem rotr_eq {shift : Nat} (small : shift < 32) (val : BitVec 32) : rotr val shift = val.rotateRight shift := by
  rw [rotr, shr_eq, BitVec.rotateRight_def, Nat.mod_eq_of_lt small]

theorem s0_eq : s0 = Fips180.sha2_256.smallSigma0 := by
  funext x
  rw [s0, rotr_eq (by decide), rotr_eq (by decide), shr_eq]
  rfl

theorem s1_eq : s1 = Fips180.sha2_256.smallSigma1 := by
  funext x
  rw [s1, rotr_eq (by decide), rotr_eq (by decide), shr_eq]
  rfl

theorem s2_eq : s2 = Fips180.sha2_256.bigSigma0 := by
  funext x
  rw [s2, rotr_eq (by decide), rotr_eq (by decide), rotr_eq (by decide)]
  rfl

theorem s3_eq : s3 = Fips180.sha2_256.bigSigma1 := by
  funext x
  rw [s3, rotr_eq (by decide), rotr_eq (by decide), rotr_eq (by decide)]
  rfl

theorem constants_eq : Fips180.constants Fips180.sha2_256 = K := Sha2.map_rootFraction (by decide +kernel)

/-- The working variables of the standard after some steps. -/
def working (hash : Vector (BitVec 32) 8) (block : Vector (BitVec 32) 16) (t : Nat) : Vector (BitVec 32) 8 :=
  (List.range t).foldl
    (fun v t => Fips180.sha2_256.step (K.getD t 0) ((Fips180.sha2_256.schedule block).getD t 0) v) hash

theorem working_succ (hash : Vector (BitVec 32) 8) (block : Vector (BitVec 32) 16) (t : Nat) :
    working hash block (t + 1) =
      Fips180.sha2_256.step (K.getD t 0) ((Fips180.sha2_256.schedule block).getD t 0) (working hash block t) := by
  rw [working, List.range_succ, List.foldl_append, List.foldl_cons, List.foldl_nil, working]

/-- The arrays after some steps. -/
structure Stands (hash : Vector (BitVec 32) 8) (block : Vector (BitVec 32) 16) (t : Nat) (state : State) : Prop where
  registers : view state.A (Fin.ofNat 8 t) = working hash block t
  scheduled : Sha2.Scheduled Fips180.sha2_256 block (max 16 t) state.W

variable {hash : Vector (BitVec 32) 8} {block : Vector (BitVec 32) 16} {t : Nat} {state : State}

theorem view_plain (registers : view state.A (Fin.ofNat 8 t) = working hash block t)
    (word : state.W.get (Fin.ofNat 64 t) = (Fips180.sha2_256.schedule block).getD t 0) :
    view (plain state (Sha2.callOf t)).A (Fin.ofNat 8 (t + 1)) = working hash block (t + 1) := by
  rw [working_succ, ← registers, ← word, ← Sha2.view_p, ← s2_eq, ← s3_eq]
  rfl

theorem stands_plain (stands : Stands hash block t state) (early : t < 16) :
    Stands hash block (t + 1) (plain state (Sha2.callOf t)) where
  registers := view_plain stands.registers (stands.scheduled t (by omega) (by omega))
  scheduled := by
    rw [show max 16 (t + 1) = max 16 t by omega]
    exact stands.scheduled

theorem stands_extending (stands : Stands hash block t state) (later : 16 ≤ t) (below : t < 64) :
    Stands hash block (t + 1) (extending state (Sha2.callOf t)) := by
  have now := stands.scheduled
  rw [show max 16 t = t by omega] at now
  have extended := Sha2.scheduled_expand now later below (by omega)
  rw [← s0_eq, ← s1_eq] at extended
  refine ⟨view_plain stands.registers (extended t (by omega) (by omega)), ?_⟩
  rw [show max 16 (t + 1) = t + 1 by omega]
  exact extended

theorem plain_loop : Sha2.loop 0 2 = (List.range' 0 16).map Sha2.callOf := by decide +kernel

theorem extending_loop : Sha2.loop 16 6 = (List.range' 16 48).map Sha2.callOf := by decide +kernel

end Sha2_256

/-- The process function is the compression of the standard. -/
theorem pzcryptoHashSha2_256Process_eq : pzcryptoHashSha2_256Process = Fips180.sha2_256.compress := by
  funext hash data
  have start : Sha2_256.Stands hash data 0 ⟨Sha2.copyWords 64 data, hash⟩ :=
    ⟨view_zero hash, Sha2.scheduled_copyWords (by decide) data⟩
  have early := foldl_range_invariant 16 start fun t state _ below stands =>
    Sha2_256.stands_plain stands (by omega)
  have all := foldl_range_invariant 48 early fun t state later below stands =>
    Sha2_256.stands_extending stands later (by omega)
  have registers := all.registers
  rw [show Fin.ofNat 8 (16 + 48) = 0 from rfl, view_zero] at registers
  simp only [pzcryptoHashSha2_256Process, Fips180.Sha2.compress, Sha2_256.plain_loop, Sha2_256.extending_loop,
    List.foldl_map, Sha2_256.constants_eq]
  exact congrArg (Vector.zipWith (· + ·) hash) registers

theorem sha2_256_in_order (is224 : Bool) : InByteOrder (sha2_256Algorithm is224) true :=
  ⟨fun _ whole => puint32SwapBytes_wordOf whole, fun _ _ => rfl⟩

/-- The updates go to the block of the context. -/
theorem foldl_zcryptoHashSha2_256Update (chunks : List (List Byte)) (ctx : PHashSHA2_256) :
    chunks.foldl zcryptoHashSha2_256Update ctx =
      ⟨chunks.foldl (blockUpdate (sha2_256Algorithm ctx.is224)) ctx.block, ctx.is224⟩ := by
  induction chunks generalizing ctx with
  | nil => rfl
  | cons chunk chunks ih => exact ih (zcryptoHashSha2_256Update ctx chunk)

/-- The words of the hash that `finish` brings into byte order are those of the standard. -/
theorem take_zcryptoHashSha2_256Digest (is224 : Bool) (initial : Vector (BitVec 32) 8) {chunks : List (List Byte)}
    (short : chunks.flatten.length < 2 ^ 61) (fit : ∀ chunk ∈ chunks, chunk.length < 2 ^ 32) :
    (zcryptoHashSha2_256Digest (zcryptoHashSha2_256Finish
        (chunks.foldl zcryptoHashSha2_256Update ⟨blockReset initial, is224⟩))).take
        ((sha2_256Algorithm is224).digestWords * 4) =
      (Fips180.sha2_256.digest initial chunks.flatten).take ((sha2_256Algorithm is224).digestWords * 4) := by
  have digest := take_blockDigest (.inl rfl) (sha2_256_in_order is224) initial fit (by omega)
  rw [show (sha2_256Algorithm is224).process = Fips180.sha2_256.compress from pzcryptoHashSha2_256Process_eq] at digest
  rw [foldl_zcryptoHashSha2_256Update]
  exact digest

theorem zcryptoHashSha2_256New_eq :
    zcryptoHashSha2_256New true = some ⟨blockReset (Fips180.squareRoots 32 0), false⟩ := by
  rw [Sha2.squareRoots_eq 0 (zcryptoHashSha2_256Reset ⟨blockReset (Vector.replicate 8 0), false⟩).block.hash
    (by decide +kernel)]
  rfl

theorem squareRoots_sha384 :
    Fips180.squareRoots 64 8 = (zcryptoHashSha2_512Reset ⟨blockReset (Vector.replicate 8 0), true⟩).block.hash :=
  Sha2.squareRoots_eq 8 _ (by decide +kernel)

theorem zcryptoHashSha2_224New_eq :
    zcryptoHashSha2_224New true =
      some ⟨blockReset ((Fips180.squareRoots 64 8).map fun x => x.setWidth 32), true⟩ := by
  have low : (Fips180.squareRoots 64 8).map (fun x => x.setWidth 32) =
      (zcryptoHashSha2_256Reset ⟨blockReset (Vector.replicate 8 0), true⟩).block.hash := by
    rw [squareRoots_sha384]
    decide +kernel
  rw [low]
  rfl

theorem take_sha256 {chunks : List (List Byte)} (short : chunks.flatten.length < 2 ^ 61)
    (fit : ∀ chunk ∈ chunks, chunk.length < 2 ^ 32) :
    (zcryptoHashSha2_256Digest (zcryptoHashSha2_256Finish
        (chunks.foldl zcryptoHashSha2_256Update ⟨blockReset (Fips180.squareRoots 32 0), false⟩))).take 32 =
      Fips180.sha256 chunks.flatten := by
  refine (take_zcryptoHashSha2_256Digest false _ short fit).trans ?_
  exact List.take_of_length_le (by simp [Fips180.Sha2.digest, sha2_256Algorithm])

theorem take_sha224 {chunks : List (List Byte)} (short : chunks.flatten.length < 2 ^ 61)
    (fit : ∀ chunk ∈ chunks, chunk.length < 2 ^ 32) :
    (zcryptoHashSha2_256Digest (zcryptoHashSha2_256Finish
        (chunks.foldl zcryptoHashSha2_256Update ⟨blockReset ((Fips180.squareRoots 64 8).map fun x => x.setWidth 32), true⟩))).take 28 =
      Fips180.sha224 chunks.flatten :=
  take_zcryptoHashSha2_256Digest true _ short fit

/-- However a message is split into updates, the digests are those of the standard. -/
theorem sha2_256_digest_eq (chunks : List (List Byte)) (short : chunks.flatten.length < 2 ^ 61)
    (fit : ∀ chunk ∈ chunks, chunk.length < 2 ^ 32) :
    (zcryptoHashSha2_256New true).map (fun ctx =>
        (zcryptoHashSha2_256Digest (zcryptoHashSha2_256Finish (chunks.foldl zcryptoHashSha2_256Update ctx))).take 32) =
        some (Fips180.sha256 chunks.flatten) ∧
      (zcryptoHashSha2_224New true).map (fun ctx =>
        (zcryptoHashSha2_256Digest (zcryptoHashSha2_256Finish (chunks.foldl zcryptoHashSha2_256Update ctx))).take 28) =
        some (Fips180.sha224 chunks.flatten) := by
  rw [zcryptoHashSha2_256New_eq, zcryptoHashSha2_224New_eq]
  exact ⟨congrArg some (take_sha256 short fit), congrArg some (take_sha224 short fit)⟩

/-- A message in two updates, for both variants. -/
theorem sha2_256_digest_two_updates :
    (zcryptoHashSha2_256New true).map (fun ctx =>
        (zcryptoHashSha2_256Digest (zcryptoHashSha2_256Finish
          (zcryptoHashSha2_256Update (zcryptoHashSha2_256Update ctx [0x61]) [0x62, 0x63]))).take 32) =
        some (Fips180.sha256 [0x61, 0x62, 0x63]) ∧
      (zcryptoHashSha2_224New true).map (fun ctx =>
        (zcryptoHashSha2_256Digest (zcryptoHashSha2_256Finish
          (zcryptoHashSha2_256Update (zcryptoHashSha2_256Update ctx [0x61]) [0x62, 0x63]))).take 28) =
        some (Fips180.sha224 [0x61, 0x62, 0x63]) :=
  sha2_256_digest_eq [[0x61], [0x62, 0x63]] (by decide) (by decide)

/-! ## SHA-512 -/

namespace Sha2_512

theorem rotr_eq {shift : Nat} (small : shift < 64) (val : BitVec 64) : rotr val shift = val.rotateRight shift := by
  rw [rotr, shr, BitVec.rotateRight_def, Nat.mod_eq_of_lt small]

theorem s0_eq : s0 = Fips180.sha2_512.smallSigma0 := by
  funext x
  rw [s0, rotr_eq (by decide), rotr_eq (by decide)]
  rfl

theorem s1_eq : s1 = Fips180.sha2_512.smallSigma1 := by
  funext x
  rw [s1, rotr_eq (by decide), rotr_eq (by decide)]
  rfl

theorem s2_eq : s2 = Fips180.sha2_512.bigSigma0 := by
  funext x
  rw [s2, rotr_eq (by decide), rotr_eq (by decide), rotr_eq (by decide)]
  rfl

theorem s3_eq : s3 = Fips180.sha2_512.bigSigma1 := by
  funext x
  rw [s3, rotr_eq (by decide), rotr_eq (by decide), rotr_eq (by decide)]
  rfl

theorem constants_eq : Fips180.constants Fips180.sha2_512 = K := Sha2.map_rootFraction (by decide +kernel)

theorem loop_eq : Sha2.loop 0 10 = (List.range 80).map Sha2.callOf := by decide +kernel

/-- The first loop fills the array with the words of the standard. -/
theorem scheduled_expand_all (block : Vector (BitVec 64) 16) :
    Sha2.Scheduled Fips180.sha2_512 block 80 ((List.range' 16 64).foldl (Sha2.expand s0 s1) (Sha2.copyWords 80 block)) := by
  rw [s0_eq, s1_eq]
  exact foldl_range_invariant 64 (Sha2.scheduled_copyWords (by decide) block) fun t W later below scheduled =>
    Sha2.scheduled_expand scheduled later below (by omega)

end Sha2_512

/-- The process function is the compression of the standard. -/
theorem pzcryptoHashSha2_512Process_eq : pzcryptoHashSha2_512Process = Fips180.sha2_512.compress := by
  funext hash data
  have scheduled := Sha2_512.scheduled_expand_all data
  simp only [pzcryptoHashSha2_512Process, Fips180.Sha2.compress, Sha2_512.loop_eq, List.foldl_map, Sha2_512.constants_eq]
  generalize (List.range' 16 64).foldl (Sha2.expand Sha2_512.s0 Sha2_512.s1) (Sha2.copyWords 80 data) = W at scheduled ⊢
  have step : ∀ t < 80, ∀ A, view ((Sha2.callOf t).p Sha2_512.s2 Sha2_512.s3 (W.get (Fin.ofNat 80 t))
      (Sha2_512.K.getD t 0) A) (Fin.ofNat 8 (t + 1)) =
        Fips180.sha2_512.step (Sha2_512.K.getD t 0) ((Fips180.sha2_512.schedule data).getD t 0) (view A (Fin.ofNat 8 t)) := by
    intro t below A
    rw [Sha2_512.s2_eq, Sha2_512.s3_eq, Sha2.view_p, scheduled t below (by omega)]
  have rounds := view_foldl 80 step hash
  rw [show Fin.ofNat 8 80 = 0 from rfl, view_zero] at rounds
  exact congrArg (Vector.zipWith (· + ·) hash) rounds

theorem sha2_512_in_order (is384 : Bool) : InByteOrder (sha2_512Algorithm is384) true :=
  ⟨fun _ whole => puint64SwapBytes_wordOf whole, fun _ _ => rfl⟩

/-- The updates go to the block of the context. -/
theorem foldl_zcryptoHashSha2_512Update (chunks : List (List Byte)) (ctx : PHashSHA2_512) :
    chunks.foldl zcryptoHashSha2_512Update ctx =
      ⟨chunks.foldl (blockUpdate (sha2_512Algorithm ctx.is384)) ctx.block, ctx.is384⟩ := by
  induction chunks generalizing ctx with
  | nil => rfl
  | cons chunk chunks ih => exact ih (zcryptoHashSha2_512Update ctx chunk)

/-- The words of the hash that `finish` brings into byte order are those of the standard. -/
theorem take_zcryptoHashSha2_512Digest (is384 : Bool) (initial : Vector (BitVec 64) 8) {chunks : List (List Byte)}
    (short : chunks.flatten.length < 2 ^ 122) (fit : ∀ chunk ∈ chunks, chunk.length < 2 ^ 64) :
    (zcryptoHashSha2_512Digest (zcryptoHashSha2_512Finish
        (chunks.foldl zcryptoHashSha2_512Update ⟨blockReset initial, is384⟩))).take
        ((sha2_512Algorithm is384).digestWords * 8) =
      (Fips180.sha2_512.digest initial chunks.flatten).take ((sha2_512Algorithm is384).digestWords * 8) := by
  have digest := take_blockDigest (.inr rfl) (sha2_512_in_order is384) initial fit (by omega)
  rw [show (sha2_512Algorithm is384).process = Fips180.sha2_512.compress from pzcryptoHashSha2_512Process_eq] at digest
  rw [foldl_zcryptoHashSha2_512Update]
  exact digest

theorem zcryptoHashSha2_512New_eq :
    zcryptoHashSha2_512New true = some ⟨blockReset (Fips180.squareRoots 64 0), false⟩ := by
  rw [Sha2.squareRoots_eq 0 (zcryptoHashSha2_512Reset ⟨blockReset (Vector.replicate 8 0), false⟩).block.hash
    (by decide +kernel)]
  rfl

theorem zcryptoHashSha2_384New_eq :
    zcryptoHashSha2_384New true = some ⟨blockReset (Fips180.squareRoots 64 8), true⟩ := by
  rw [squareRoots_sha384]
  rfl

theorem take_sha512 {chunks : List (List Byte)} (short : chunks.flatten.length < 2 ^ 122)
    (fit : ∀ chunk ∈ chunks, chunk.length < 2 ^ 64) :
    (zcryptoHashSha2_512Digest (zcryptoHashSha2_512Finish
        (chunks.foldl zcryptoHashSha2_512Update ⟨blockReset (Fips180.squareRoots 64 0), false⟩))).take 64 =
      Fips180.sha512 chunks.flatten := by
  refine (take_zcryptoHashSha2_512Digest false _ short fit).trans ?_
  exact List.take_of_length_le (by simp [Fips180.Sha2.digest, sha2_512Algorithm])

theorem take_sha384 {chunks : List (List Byte)} (short : chunks.flatten.length < 2 ^ 122)
    (fit : ∀ chunk ∈ chunks, chunk.length < 2 ^ 64) :
    (zcryptoHashSha2_512Digest (zcryptoHashSha2_512Finish
        (chunks.foldl zcryptoHashSha2_512Update ⟨blockReset (Fips180.squareRoots 64 8), true⟩))).take 48 =
      Fips180.sha384 chunks.flatten :=
  take_zcryptoHashSha2_512Digest true _ short fit

/-- However a message is split into updates, the digests are those of the standard. -/
theorem sha2_512_digest_eq (chunks : List (List Byte)) (short : chunks.flatten.length < 2 ^ 122)
    (fit : ∀ chunk ∈ chunks, chunk.length < 2 ^ 64) :
    (zcryptoHashSha2_512New true).map (fun ctx =>
        (zcryptoHashSha2_512Digest (zcryptoHashSha2_512Finish (chunks.foldl zcryptoHashSha2_512Update ctx))).take 64) =
        some (Fips180.sha512 chunks.flatten) ∧
      (zcryptoHashSha2_384New true).map (fun ctx =>
        (zcryptoHashSha2_512Digest (zcryptoHashSha2_512Finish (chunks.foldl zcryptoHashSha2_512Update ctx))).take 48) =
        some (Fips180.sha384 chunks.flatten) := by
  rw [zcryptoHashSha2_512New_eq, zcryptoHashSha2_384New_eq]
  exact ⟨congrArg some (take_sha512 short fit), congrArg some (take_sha384 short fit)⟩

/-- A message in two updates, for both variants. -/
theorem sha2_512_digest_two_updates :
    (zcryptoHashSha2_512New true).map (fun ctx =>
        (zcryptoHashSha2_512Digest (zcryptoHashSha2_512Finish
          (zcryptoHashSha2_512Update (zcryptoHashSha2_512Update ctx [0x61]) [0x62, 0x63]))).take 64) =
        some (Fips180.sha512 [0x61, 0x62, 0x63]) ∧
      (zcryptoHashSha2_384New true).map (fun ctx =>
        (zcryptoHashSha2_512Digest (zcryptoHashSha2_512Finish
          (zcryptoHashSha2_512Update (zcryptoHashSha2_512Update ctx [0x61]) [0x62, 0x63]))).take 48) =
        some (Fips180.sha384 [0x61, 0x62, 0x63]) :=
  sha2_512_digest_eq [[0x61], [0x62, 0x63]] (by decide) (by decide)

end Plibsys.Crypto
