import Plibsys.Crypto.BlockHash
import Plibsys.Support.RotatingNames

/-! # `PHashMD5`

`pcryptohash-md5.c` on a little-endian host.
-/

namespace Plibsys.Crypto

open Support

abbrev PHashMD5 := BlockContext 32 4

namespace Md5

/-- `P_MD5_ROTL` -/
def rotl (val : BitVec 32) (shift : Nat) : BitVec 32 := (val <<< shift) ||| (val >>> (32 - shift))

/-- `P_MD5_F` -/
def f (x y z : BitVec 32) : BitVec 32 := z ^^^ (x &&& (y ^^^ z))

/-- `P_MD5_G` -/
def g (x y z : BitVec 32) : BitVec 32 := f z x y

/-- `P_MD5_H` -/
def h (x y z : BitVec 32) : BitVec 32 := x ^^^ y ^^^ z

/-- `P_MD5_I` -/
def i (x y z : BitVec 32) : BitVec 32 := y ^^^ (x ||| ~~~z)

/-- The macros `P_MD5_ROUND_0` to `P_MD5_ROUND_3`. -/
inductive Round where
  | round0
  | round1
  | round2
  | round3
  deriving Repr, DecidableEq

def Round.function : Round → BitVec 32 → BitVec 32 → BitVec 32 → BitVec 32
  | round0 => f
  | round1 => g
  | round2 => h
  | round3 => i

/-- The arguments of a macro: the names of the registers, the index of the data, the constant
    and the shift. -/
structure Call where
  round : Round
  a : Fin 4
  b : Fin 4
  c : Fin 4
  d : Fin 4
  k : Fin 16
  i : BitVec 32
  s : Nat
  deriving Repr, DecidableEq

/-- One call of a macro on the registers. -/
def Call.run (data : Vector (BitVec 32) 16) (registers : Vector (BitVec 32) 4) (call : Call) : Vector (BitVec 32) 4 :=
  let sum := registers.get call.a +
    (call.round.function (registers.get call.b) (registers.get call.c) (registers.get call.d) + data.get call.k +
      call.i)
  write registers call.a (rotl sum call.s + registers.get call.b)

def A : Fin 4 := 0

def B : Fin 4 := 1

def C : Fin 4 := 2

def D : Fin 4 := 3

/-- The 64 calls of `pzcrypto_hash_md5_process`. -/
def calls : List Call :=
  [⟨.round0, A, B, C, D, 0, 0xD76AA478, 7⟩, ⟨.round0, D, A, B, C, 1, 0xE8C7B756, 12⟩,
    ⟨.round0, C, D, A, B, 2, 0x242070DB, 17⟩, ⟨.round0, B, C, D, A, 3, 0xC1BDCEEE, 22⟩,
    ⟨.round0, A, B, C, D, 4, 0xF57C0FAF, 7⟩, ⟨.round0, D, A, B, C, 5, 0x4787C62A, 12⟩,
    ⟨.round0, C, D, A, B, 6, 0xA8304613, 17⟩, ⟨.round0, B, C, D, A, 7, 0xFD469501, 22⟩,
    ⟨.round0, A, B, C, D, 8, 0x698098D8, 7⟩, ⟨.round0, D, A, B, C, 9, 0x8B44F7AF, 12⟩,
    ⟨.round0, C, D, A, B, 10, 0xFFFF5BB1, 17⟩, ⟨.round0, B, C, D, A, 11, 0x895CD7BE, 22⟩,
    ⟨.round0, A, B, C, D, 12, 0x6B901122, 7⟩, ⟨.round0, D, A, B, C, 13, 0xFD987193, 12⟩,
    ⟨.round0, C, D, A, B, 14, 0xA679438E, 17⟩, ⟨.round0, B, C, D, A, 15, 0x49B40821, 22⟩,
    ⟨.round1, A, B, C, D, 1, 0xF61E2562, 5⟩, ⟨.round1, D, A, B, C, 6, 0xC040B340, 9⟩,
    ⟨.round1, C, D, A, B, 11, 0x265E5A51, 14⟩, ⟨.round1, B, C, D, A, 0, 0xE9B6C7AA, 20⟩,
    ⟨.round1, A, B, C, D, 5, 0xD62F105D, 5⟩, ⟨.round1, D, A, B, C, 10, 0x02441453, 9⟩,
    ⟨.round1, C, D, A, B, 15, 0xD8A1E681, 14⟩, ⟨.round1, B, C, D, A, 4, 0xE7D3FBC8, 20⟩,
    ⟨.round1, A, B, C, D, 9, 0x21E1CDE6, 5⟩, ⟨.round1, D, A, B, C, 14, 0xC33707D6, 9⟩,
    ⟨.round1, C, D, A, B, 3, 0xF4D50D87, 14⟩, ⟨.round1, B, C, D, A, 8, 0x455A14ED, 20⟩,
    ⟨.round1, A, B, C, D, 13, 0xA9E3E905, 5⟩, ⟨.round1, D, A, B, C, 2, 0xFCEFA3F8, 9⟩,
    ⟨.round1, C, D, A, B, 7, 0x676F02D9, 14⟩, ⟨.round1, B, C, D, A, 12, 0x8D2A4C8A, 20⟩,
    ⟨.round2, A, B, C, D, 5, 0xFFFA3942, 4⟩, ⟨.round2, D, A, B, C, 8, 0x8771F681, 11⟩,
    ⟨.round2, C, D, A, B, 11, 0x6D9D6122, 16⟩, ⟨.round2, B, C, D, A, 14, 0xFDE5380C, 23⟩,
    ⟨.round2, A, B, C, D, 1, 0xA4BEEA44, 4⟩, ⟨.round2, D, A, B, C, 4, 0x4BDECFA9, 11⟩,
    ⟨.round2, C, D, A, B, 7, 0xF6BB4B60, 16⟩, ⟨.round2, B, C, D, A, 10, 0xBEBFBC70, 23⟩,
    ⟨.round2, A, B, C, D, 13, 0x289B7EC6, 4⟩, ⟨.round2, D, A, B, C, 0, 0xEAA127FA, 11⟩,
    ⟨.round2, C, D, A, B, 3, 0xD4EF3085, 16⟩, ⟨.round2, B, C, D, A, 6, 0x04881D05, 23⟩,
    ⟨.round2, A, B, C, D, 9, 0xD9D4D039, 4⟩, ⟨.round2, D, A, B, C, 12, 0xE6DB99E5, 11⟩,
    ⟨.round2, C, D, A, B, 15, 0x1FA27CF8, 16⟩, ⟨.round2, B, C, D, A, 2, 0xC4AC5665, 23⟩,
    ⟨.round3, A, B, C, D, 0, 0xF4292244, 6⟩, ⟨.round3, D, A, B, C, 7, 0x432AFF97, 10⟩,
    ⟨.round3, C, D, A, B, 14, 0xAB9423A7, 15⟩, ⟨.round3, B, C, D, A, 5, 0xFC93A039, 21⟩,
    ⟨.round3, A, B, C, D, 12, 0x655B59C3, 6⟩, ⟨.round3, D, A, B, C, 3, 0x8F0CCC92, 10⟩,
    ⟨.round3, C, D, A, B, 10, 0xFFEFF47D, 15⟩, ⟨.round3, B, C, D, A, 1, 0x85845DD1, 21⟩,
    ⟨.round3, A, B, C, D, 8, 0x6FA87E4F, 6⟩, ⟨.round3, D, A, B, C, 15, 0xFE2CE6E0, 10⟩,
    ⟨.round3, C, D, A, B, 6, 0xA3014314, 15⟩, ⟨.round3, B, C, D, A, 13, 0x4E0811A1, 21⟩,
    ⟨.round3, A, B, C, D, 4, 0xF7537E82, 6⟩, ⟨.round3, D, A, B, C, 11, 0xBD3AF235, 10⟩,
    ⟨.round3, C, D, A, B, 2, 0x2AD7D2BB, 15⟩, ⟨.round3, B, C, D, A, 9, 0xEB86D391, 21⟩]

end Md5

/-- `pzcrypto_hash_md5_process` -/
def pzcryptoHashMd5Process (hash : Vector (BitVec 32) 4) (data : Vector (BitVec 32) 16) : Vector (BitVec 32) 4 :=
  let registers := Md5.calls.foldl (Md5.Call.run data) hash
  Vector.zipWith (· + ·) hash registers

/-- `pzcrypto_hash_md5_swazbytes` does nothing on a little-endian host. -/
def md5Algorithm : BlockAlgorithm 32 4 where
  swazbyte := id
  process := pzcryptoHashMd5Process
  lengthWords low high := (low, high)
  digestWords := 4

/-- `zcrypto_hash_md5_reset` -/
def zcryptoHashMd5Reset : PHashMD5 := blockReset #v[0x67452301, 0xEFCDAB89, 0x98BADCFE, 0x10325476]

/-- `zcrypto_hash_md5_new`, with the outcome of its allocation. -/
def zcryptoHashMd5New (malloc : Bool) : Option PHashMD5 := if malloc then some zcryptoHashMd5Reset else none

/-- `zcrypto_hash_md5_update` -/
def zcryptoHashMd5Update (ctx : PHashMD5) (data : List Byte) : PHashMD5 := blockUpdate md5Algorithm ctx data

/-- `zcrypto_hash_md5_finish` -/
def zcryptoHashMd5Finish (ctx : PHashMD5) : PHashMD5 := blockFinish md5Algorithm ctx

/-- `zcrypto_hash_md5_digest` -/
def zcryptoHashMd5Digest (ctx : PHashMD5) : List Byte := blockDigest ctx

end Plibsys.Crypto
