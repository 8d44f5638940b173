import Plibsys.Crypto.PHashMD5
import Plibsys.Crypto.Streaming
import Plibsys.Support.RotatingNames
import Mathlib.Tactic.FinCases
import Mathlib.Tactic.IntervalCases

/-! # MD5

The digest of RFC 1321, and that `pcryptohash-md5.c` computes it.
-/

namespace Plibsys.Crypto

open Support

namespace Rfc1321

/-- The auxiliary functions F, G, H and I. -/
def auxiliary (round : Nat) (x y z : BitVec 32) : BitVec 32 :=
  match round with
  | 0 => (x &&& y) ||| (~~~x &&& z)
  | 1 => (x &&& z) ||| (y &&& ~~~z)
  | 2 => x ^^^ y ^^^ z
  | _ => y ^^^ (x ||| ~~~z)

/-- The table of sines: the integer part of 2^32 times the absolute value of the sine of the
    index, from 1 on. -/
def sines : List (BitVec 32) :=
  [0xd76aa478, 0xe8c7b756, 0x242070db, 0xc1bdceee, 0xf57c0faf, 0x4787c62a, 0xa8304613, 0xfd469501,
    0x698098d8, 0x8b44f7af, 0xffff5bb1, 0x895cd7be, 0x6b901122, 0xfd987193, 0xa679438e, 0x49b40821,
    0xf61e2562, 0xc040b340, 0x265e5a51, 0xe9b6c7aa, 0xd62f105d, 0x02441453, 0xd8a1e681, 0xe7d3fbc8,
    0x21e1cde6, 0xc33707d6, 0xf4d50d87, 0x455a14ed, 0xa9e3e905, 0xfcefa3f8, 0x676f02d9, 0x8d2a4c8a,
    0xfffa3942, 0x8771f681, 0x6d9d6122, 0xfde5380c, 0xa4beea44, 0x4bdecfa9, 0xf6bb4b60, 0xbebfbc70,
    0x289b7ec6, 0xeaa127fa, 0xd4ef3085, 0x04881d05, 0xd9d4d039, 0xe6db99e5, 0x1fa27cf8, 0xc4ac5665,
    0xf4292244, 0x432aff97, 0xab9423a7, 0xfc93a039, 0x655b59c3, 0x8f0ccc92, 0xffeff47d, 0x85845dd1,
    0x6fa87e4f, 0xfe2ce6e0, 0xa3014314, 0x4e0811a1, 0xf7537e82, 0xbd3af235, 0x2ad7d2bb, 0xeb86d391]

/-- Which word of the block a step takes. -/
def index (t : Nat) : Nat :=
  match t / 16 with
  | 0 => t % 16
  | 1 => (5 * t + 1) % 16
  | 2 => (3 * t + 5) % 16
  | _ => 7 * t % 16

/-- How far a step rotates. -/
def shift (t : Nat) : Nat :=
  match t / 16 with
  | 0 => [7, 12, 17, 22].getD (t % 4) 0
  | 1 => [5, 9, 14, 20].getD (t % 4) 0
  | 2 => [4, 11, 16, 23].getD (t % 4) 0
  | _ => [6, 10, 15, 21].getD (t % 4) 0

/-- One of the 64 steps on the words a, b, c and d. -/
def step (block : Vector (BitVec 32) 16) (t : Nat) (v : Vector (BitVec 32) 4) : Vector (BitVec 32) 4 :=
  let a := v.get 0
  let b := v.get 1
  let c := v.get 2
  let d := v.get 3
  let sum := a + auxiliary (t / 16) b c d + block.get (Fin.ofNat 16 (index t)) + sines.getD t 0
  #v[d, b + sum.rotateLeft (shift t), b, c]

def compress (hash : Vector (BitVec 32) 4) (block : Vector (BitVec 32) 16) : Vector (BitVec 32) 4 :=
  let v := (List.range 64).foldl (fun v t => step block t v) hash
  Vector.zipWith (· + ·) hash v

def initial : Vector (BitVec 32) 4 := #v[0x67452301#32, 0xefcdab89#32, 0x98badcfe#32, 0x10325476#32]

/-- The digest of a message of whole bytes. -/
def md5 (message : List Byte) : List Byte := hashBytes false (merkleDamgard false compress initial message)

end Rfc1321

namespace Md5

theorem rotl_eq {shift : Nat} (small : shift < 32) (val : BitVec 32) : rotl val shift = val.rotateLeft shift := by
  rw [rotl, BitVec.rotateLeft_def, Nat.mod_eq_of_lt small]

theorem f_eq (x y z : BitVec 32) : f x y z = (x &&& y) ||| (~~~x &&& z) := by
  apply BitVec.eq_of_getLsbD_eq
  intro i inside
  simp only [f, BitVec.getLsbD_xor, BitVec.getLsbD_and, BitVec.getLsbD_or, BitVec.getLsbD_not, inside, decide_true,
    Bool.true_and]
  cases x.getLsbD i <;> cases y.getLsbD i <;> cases z.getLsbD i <;> rfl

theorem g_eq (x y z : BitVec 32) : g x y z = (x &&& z) ||| (y &&& ~~~z) := by
  rw [g, f_eq, BitVec.and_comm z, BitVec.and_comm (~~~z)]

/-- The call of a step: the names are those of the round, the data, the constant and the shift
    those of the standard. -/
def callOf (t : Nat) : Call :=
  ⟨[.round0, .round1, .round2, .round3].getD (t / 16) .round0, 0 - Fin.ofNat 4 t, 1 - Fin.ofNat 4 t, 2 - Fin.ofNat 4 t,
    3 - Fin.ofNat 4 t, Fin.ofNat 16 (Rfc1321.index t), Rfc1321.sines.getD t 0, Rfc1321.shift t⟩

theorem calls_eq : calls = (List.range 64).map callOf := by decide +kernel

theorem shift_lt {t : Nat} (below : t < 64) : Rfc1321.shift t < 32 := by
  revert t
  decide

theorem function_callOf {t : Nat} (below : t < 64) (x y z : BitVec 32) :
    (callOf t).round.function x y z = Rfc1321.auxiliary (t / 16) x y z := by
  have quarter : t / 16 < 4 := by omega
  unfold callOf
  generalize t / 16 = q at quarter ⊢
  interval_cases q
  · exact f_eq x y z
  · exact g_eq x y z
  · rfl
  · rfl

/-- A call writes the register that the step moves to the second place. -/
theorem view_run (data : Vector (BitVec 32) 16) {t : Nat} (below : t < 64) (registers : Vector (BitVec 32) 4) :
    view ((callOf t).run data registers) (Fin.ofNat 4 (t + 1)) = Rfc1321.step data t (view registers (Fin.ofNat 4 t)) := by
  have run : (callOf t).run data registers = write registers (0 - Fin.ofNat 4 t)
      ((Rfc1321.step data t (view registers (Fin.ofNat 4 t))).get 1) := by
    unfold Call.run
    rw [function_callOf below]
    simp only [callOf, ← get_view, rotl_eq (shift_lt below), ← BitVec.add_assoc]
    rw [BitVec.add_comm (BitVec.rotateLeft _ _)]
    rfl
  rw [run, ofNat_succ]
  apply vector_ext
  intro r
  rw [get_view_succ, view_write, get_write]
  fin_cases r <;> rfl

end Md5

/-- The process function is the compression of the standard. -/
theorem pzcryptoHashMd5Process_eq : pzcryptoHashMd5Process = Rfc1321.compress := by
  funext hash data
  have rounds := view_foldl 64 (fun t below file => Md5.view_run data below file) hash
  rw [show Fin.ofNat 4 64 = 0 from rfl, view_zero] at rounds
  rw [pzcryptoHashMd5Process, Rfc1321.compress, Md5.calls_eq, List.foldl_map, rounds]

theorem md5_in_order : InByteOrder md5Algorithm false := ⟨fun _ _ => rfl, fun _ _ => rfl⟩

theorem zcryptoHashMd5Digest_eq {chunks : List (List Byte)} (short : chunks.flatten.length < 2 ^ 61)
    (fit : ∀ chunk ∈ chunks, chunk.length < 2 ^ 32) :
    zcryptoHashMd5Digest (zcryptoHashMd5Finish (chunks.foldl zcryptoHashMd5Update zcryptoHashMd5Reset)) =
      Rfc1321.md5 chunks.flatten := by
  have digest := blockDigest_eq (.inl rfl) md5_in_order Rfc1321.initial rfl fit (by omega)
  rwa [show md5Algorithm.process = Rfc1321.compress from pzcryptoHashMd5Process_eq] at digest

/-- However a message is split into updates, the digest is that of the standard. -/
theorem md5_digest_eq (chunks : List (List Byte)) (short : chunks.flatten.length < 2 ^ 61)
    (fit : ∀ chunk ∈ chunks, chunk.length < 2 ^ 32) :
    (zcryptoHashMd5New true).map (fun ctx =>
        zcryptoHashMd5Digest (zcryptoHashMd5Finish (chunks.foldl zcryptoHashMd5Update ctx))) =
      some (Rfc1321.md5 chunks.flatten) :=
  congrArg some (zcryptoHashMd5Digest_eq short fit)

/-- A message in two updates. -/
theorem md5_digest_two_updates :
    (zcryptoHashMd5New true).map (fun ctx =>
        zcryptoHashMd5Digest (zcryptoHashMd5Finish (zcryptoHashMd5Update (zcryptoHashMd5Update ctx [0x61]) [0x62, 0x63]))) =
      some (Rfc1321.md5 [0x61, 0x62, 0x63]) :=
  md5_digest_eq [[0x61], [0x62, 0x63]] (by decide) (by decide)

end Plibsys.Crypto
