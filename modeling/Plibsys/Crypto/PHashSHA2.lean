import Plibsys.ByteOrder
import Plibsys.Crypto.BlockHash
import Plibsys.Support.RotatingNames

/-! # `PHashSHA2_256` and `PHashSHA2_512`

`pcryptohash-sha2-256.c` and `pcryptohash-sha2-512.c` on a little-endian host.  The two files
have the same text up to the width of a word, the number of rounds, the macros `S0` to `S3`
and the tables.
-/

namespace Plibsys.Crypto

open Support

namespace Sha2

section Macros

variable {w : Nat}

/-- `P_SHA2_256_F0`, `P_SHA2_512_F0` -/
def f0 (x y z : BitVec w) : BitVec w := (x &&& y) ||| (z &&& (x ||| y))

/-- `P_SHA2_256_F1`, `P_SHA2_512_F1` -/
def f1 (x y z : BitVec w) : BitVec w := z ^^^ (x &&& (y ^^^ z))

/-- The elements of `A` that a call of `P` names, and the index of its word and its constant. -/
structure Call where
  a : Fin 8
  b : Fin 8
  c : Fin 8
  d : Fin 8
  e : Fin 8
  f : Fin 8
  g : Fin 8
  h : Fin 8
  t : Nat
  deriving Repr, DecidableEq

/-- `P_SHA2_256_P`, `P_SHA2_512_P` -/
def Call.p (s2 s3 : BitVec w → BitVec w) (call : Call) (x k : BitVec w) (A : Vector (BitVec w) 8) :
    Vector (BitVec w) 8 :=
  let sum1 := A.get call.h + s3 (A.get call.e) + f1 (A.get call.e) (A.get call.f) (A.get call.g) + k + x
  let sum2 := s2 (A.get call.a) + f0 (A.get call.a) (A.get call.b) (A.get call.c)
  let A := write A call.d (A.get call.d + sum1)
  write A call.h (sum1 + sum2)

/-- The eight calls in the body of a loop. -/
def body (i : Nat) : List Call :=
  [⟨0, 1, 2, 3, 4, 5, 6, 7, i + 0⟩, ⟨7, 0, 1, 2, 3, 4, 5, 6, i + 1⟩, ⟨6, 7, 0, 1, 2, 3, 4, 5, i + 2⟩,
    ⟨5, 6, 7, 0, 1, 2, 3, 4, i + 3⟩, ⟨4, 5, 6, 7, 0, 1, 2, 3, i + 4⟩, ⟨3, 4, 5, 6, 7, 0, 1, 2, i + 5⟩,
    ⟨2, 3, 4, 5, 6, 7, 0, 1, i + 6⟩, ⟨1, 2, 3, 4, 5, 6, 7, 0, i + 7⟩]

/-- The calls of a loop that starts at `i` and goes on in steps of eight. -/
def loop (i times : Nat) : List Call := (List.range' i times 8).flatMap body

/-- The words of the data are copied to the front of `W`.  No other element is read before it
    is written. -/
def copyWords (n : Nat) (data : Vector (BitVec w) 16) : Vector (BitVec w) n :=
  Vector.ofFn fun i => data.toList.getD i 0

/-- `P_SHA2_256_R`, and the assignment that the loop of `pzcrypto_hash_sha2_512_process` makes. -/
def expand {n : Nat} [NeZero n] (s0 s1 : BitVec w → BitVec w) (W : Vector (BitVec w) n) (t : Nat) : Vector (BitVec w) n :=
  write W (Fin.ofNat n t)
    (s1 (W.get (Fin.ofNat n (t - 2))) + W.get (Fin.ofNat n (t - 7)) + s0 (W.get (Fin.ofNat n (t - 15))) +
      W.get (Fin.ofNat n (t - 16)))

end Macros

end Sha2

/-! ## `pcryptohash-sha2-256.c` -/

namespace Sha2_256

/-- `P_SHA2_256_SHR` -/
def shr (val : BitVec 32) (shift : Nat) : BitVec 32 := (val &&& 0xFFFFFFFF) >>> shift

/-- `P_SHA2_256_ROTR` -/
def rotr (val : BitVec 32) (shift : Nat) : BitVec 32 := shr val shift ||| (val <<< (32 - shift))

/-- `P_SHA2_256_S0` -/
def s0 (x : BitVec 32) : BitVec 32 := rotr x 7 ^^^ rotr x 18 ^^^ shr x 3

/-- `P_SHA2_256_S1` -/
def s1 (x : BitVec 32) : BitVec 32 := rotr x 17 ^^^ rotr x 19 ^^^ shr x 10

/-- `P_SHA2_256_S2` -/
def s2 (x : BitVec 32) : BitVec 32 := rotr x 2 ^^^ rotr x 13 ^^^ rotr x 22

/-- `P_SHA2_256_S3` -/
def s3 (x : BitVec 32) : BitVec 32 := rotr x 6 ^^^ rotr x 11 ^^^ rotr x 25

/-- `pzcrypto_hash_sha2_256_K` -/
def K : List (BitVec 32) :=
  [0x428A2F98, 0x71374491, 0xB5C0FBCF, 0xE9B5DBA5, 0x3956C25B, 0x59F111F1, 0x923F82A4, 0xAB1C5ED5,
    0xD807AA98, 0x12835B01, 0x243185BE, 0x550C7DC3, 0x72BE5D74, 0x80DEB1FE, 0x9BDC06A7, 0xC19BF174,
    0xE49B69C1, 0xEFBE4786, 0x0FC19DC6, 0x240CA1CC, 0x2DE92C6F, 0x4A7484AA, 0x5CB0A9DC, 0x76F988DA,
    0x983E5152, 0xA831C66D, 0xB00327C8, 0xBF597FC7, 0xC6E00BF3, 0xD5A79147, 0x06CA6351, 0x14292967,
    0x27B70A85, 0x2E1B2138, 0x4D2C6DFC, 0x53380D13, 0x650A7354, 0x766A0ABB, 0x81C2C92E, 0x92722C85,
    0xA2BFE8A1, 0xA81A664B, 0xC24B8B70, 0xC76C51A3, 0xD192E819, 0xD6990624, 0xF40E3585, 0x106AA070,
    0x19A4C116, 0x1E376C08, 0x2748774C, 0x34B0BCB5, 0x391C0CB3, 0x4ED8AA4A, 0x5B9CCA4F, 0x682E6FF3,
    0x748F82EE, 0x78A5636F, 0x84C87814, 0x8CC70208, 0x90BEFFFA, 0xA4506CEB, 0xBEF9A3F7, 0xC67178F2]

/-- The arrays of `pzcrypto_hash_sha2_256_process`. -/
structure State where
  W : Vector (BitVec 32) 64
  A : Vector (BitVec 32) 8

/-- `P_SHA2_256_P` with `W[t]`. -/
def plain (state : State) (call : Sha2.Call) : State :=
  { state with A := call.p s2 s3 (state.W.get (Fin.ofNat 64 call.t)) (K.getD call.t 0) state.A }

/-- `P_SHA2_256_P` with `P_SHA2_256_R (t)`. -/
def extending (state : State) (call : Sha2.Call) : State :=
  plain { state with W := Sha2.expand s0 s1 state.W call.t } call

end Sha2_256

/-- `pzcrypto_hash_sha2_256_process` -/
def pzcryptoHashSha2_256Process (hash : Vector (BitVec 32) 8) (data : Vector (BitVec 32) 16) : Vector (BitVec 32) 8 :=
  let state : Sha2_256.State := ⟨Sha2.copyWords 64 data, hash⟩
  let state := (Sha2.loop 0 2).foldl Sha2_256.plain state
  let state := (Sha2.loop 16 6).foldl Sha2_256.extending state
  Vector.zipWith (· + ·) hash state.A

structure PHashSHA2_256 where
  block : BlockContext 32 8
  is224 : Bool

def sha2_256Algorithm (is224 : Bool) : BlockAlgorithm 32 8 where
  swazbyte := puint32SwapBytes
  process := pzcryptoHashSha2_256Process
  lengthWords low high := (high, low)
  digestWords := if is224 = false then 8 else 7

/-- `zcrypto_hash_sha2_256_reset` -/
def zcryptoHashSha2_256Reset (ctx : PHashSHA2_256) : PHashSHA2_256 where
  block := blockReset
    (if ctx.is224 = false then
      #v[0x6A09E667, 0xBB67AE85, 0x3C6EF372, 0xA54FF53A, 0x510E527F, 0x9B05688C, 0x1F83D9AB, 0x5BE0CD19]
    else
      #v[0xC1059ED8, 0x367CD507, 0x3070DD17, 0xF70E5939, 0xFFC00B31, 0x68581511, 0x64F98FA7, 0xBEFA4FA4])
  is224 := ctx.is224

/-- `pzcrypto_hash_sha2_256_new_internal`, with the outcome of its allocation; the memory is cleared. -/
def pzcryptoHashSha2_256NewInternal (malloc is224 : Bool) : Option PHashSHA2_256 :=
  if malloc then some (zcryptoHashSha2_256Reset ⟨blockReset (Vector.replicate 8 0), is224⟩) else none

/-- `zcrypto_hash_sha2_256_new` -/
def zcryptoHashSha2_256New (malloc : Bool) : Option PHashSHA2_256 := pzcryptoHashSha2_256NewInternal malloc false

/-- `zcrypto_hash_sha2_224_new` -/
def zcryptoHashSha2_224New (malloc : Bool) : Option PHashSHA2_256 := pzcryptoHashSha2_256NewInternal malloc true

/-- `zcrypto_hash_sha2_256_update` -/
def zcryptoHashSha2_256Update (ctx : PHashSHA2_256) (data : List Byte) : PHashSHA2_256 :=
  { ctx with block := blockUpdate (sha2_256Algorithm ctx.is224) ctx.block data }

/-- `zcrypto_hash_sha2_256_finish` -/
def zcryptoHashSha2_256Finish (ctx : PHashSHA2_256) : PHashSHA2_256 :=
  { ctx with block := blockFinish (sha2_256Algorithm ctx.is224) ctx.block }

/-- `zcrypto_hash_sha2_256_digest` -/
def zcryptoHashSha2_256Digest (ctx : PHashSHA2_256) : List Byte := blockDigest ctx.block

/-! ## `pcryptohash-sha2-512.c` -/

namespace Sha2_512

/-- `P_SHA2_512_SHR` -/
def shr (val : BitVec 64) (shift : Nat) : BitVec 64 := val >>> shift

/-- `P_SHA2_512_ROTR` -/
def rotr (val : BitVec 64) (shift : Nat) : BitVec 64 := shr val shift ||| (val <<< (64 - shift))

/-- `P_SHA2_512_S0` -/
def s0 (x : BitVec 64) : BitVec 64 := rotr x 1 ^^^ rotr x 8 ^^^ shr x 7

/-- `P_SHA2_512_S1` -/
def s1 (x : BitVec 64) : BitVec 64 := rotr x 19 ^^^ rotr x 61 ^^^ shr x 6

/-- `P_SHA2_512_S2` -/
def s2 (x : BitVec 64) : BitVec 64 := rotr x 28 ^^^ rotr x 34 ^^^ rotr x 39

/-- `P_SHA2_512_S3` -/
def s3 (x : BitVec 64) : BitVec 64 := rotr x 14 ^^^ rotr x 18 ^^^ rotr x 41

/-- `pzcrypto_hash_sha2_512_K` -/
def K : List (BitVec 64) :=
  [0x428A2F98D728AE22, 0x7137449123EF65CD, 0xB5C0FBCFEC4D3B2F, 0xE9B5DBA58189DBBC,
    0x3956C25BF348B538, 0x59F111F1B605D019, 0x923F82A4AF194F9B, 0xAB1C5ED5DA6D8118,
    0xD807AA98A3030242, 0x12835B0145706FBE, 0x243185BE4EE4B28C, 0x550C7DC3D5FFB4E2,
    0x72BE5D74F27B896F, 0x80DEB1FE3B1696B1, 0x9BDC06A725C71235, 0xC19BF174CF692694,
    0xE49B69C19EF14AD2, 0xEFBE4786384F25E3, 0x0FC19DC68B8CD5B5, 0x240CA1CC77AC9C65,
    0x2DE92C6F592B0275, 0x4A7484AA6EA6E483, 0x5CB0A9DCBD41FBD4, 0x76F988DA831153B5,
    0x983E5152EE66DFAB, 0xA831C66D2DB43210, 0xB00327C898FB213F, 0xBF597FC7BEEF0EE4,
    0xC6E00BF33DA88FC2, 0xD5A79147930AA725, 0x06CA6351E003826F, 0x142929670A0E6E70,
    0x27B70A8546D22FFC, 0x2E1B21385C26C926, 0x4D2C6DFC5AC42AED, 0x53380D139D95B3DF,
    0x650A73548BAF63DE, 0x766A0ABB3C77B2A8, 0x81C2C92E47EDAEE6, 0x92722C851482353B,
    0xA2BFE8A14CF10364, 0xA81A664BBC423001, 0xC24B8B70D0F89791, 0xC76C51A30654BE30,
    0xD192E819D6EF5218, 0xD69906245565A910, 0xF40E35855771202A, 0x106AA07032BBD1B8,
    0x19A4C116B8D2D0C8, 0x1E376C085141AB53, 0x2748774CDF8EEB99, 0x34B0BCB5E19B48A8,
    0x391C0CB3C5C95A63, 0x4ED8AA4AE3418ACB, 0x5B9CCA4F7763E373, 0x682E6FF3D6B2B8A3,
    0x748F82EE5DEFB2FC, 0x78A5636F43172F60, 0x84C87814A1F0AB72, 0x8CC702081A6439EC,
    0x90BEFFFA23631E28, 0xA4506CEBDE82BDE9, 0xBEF9A3F7B2C67915, 0xC67178F2E372532B,
    0xCA273ECEEA26619C, 0xD186B8C721C0C207, 0xEADA7DD6CDE0EB1E, 0xF57D4F7FEE6ED178,
    0x06F067AA72176FBA, 0x0A637DC5A2C898A6, 0x113F9804BEF90DAE, 0x1B710B35131C471B,
    0x28DB77F523047D84, 0x32CAAB7B40C72493, 0x3C9EBE0A15C9BEBC, 0x431D67C49C100D4C,
    0x4CC5D4BECB3E42B6, 0x597F299CFC657E2A, 0x5FCB6FAB3AD6FAEC, 0x6C44198C4A475817]

end Sha2_512

/-- `pzcrypto_hash_sha2_512_process` -/
def pzcryptoHashSha2_512Process (hash : Vector (BitVec 64) 8) (data : Vector (BitVec 64) 16) : Vector (BitVec 64) 8 :=
  let W := (List.range' 16 64).foldl (Sha2.expand Sha2_512.s0 Sha2_512.s1) (Sha2.copyWords 80 data)
  let A := (Sha2.loop 0 10).foldl
    (fun A call => call.p Sha2_512.s2 Sha2_512.s3 (W.get (Fin.ofNat 80 call.t)) (Sha2_512.K.getD call.t 0) A) hash
  Vector.zipWith (· + ·) hash A

structure PHashSHA2_512 where
  block : BlockContext 64 8
  is384 : Bool

def sha2_512Algorithm (is384 : Bool) : BlockAlgorithm 64 8 where
  swazbyte := puint64SwapBytes
  process := pzcryptoHashSha2_512Process
  lengthWords low high := (high, low)
  digestWords := if is384 = false then 8 else 6

/-- `zcrypto_hash_sha2_512_reset` -/
def zcryptoHashSha2_512Reset (ctx : PHashSHA2_512) : PHashSHA2_512 where
  block := blockReset
    (if ctx.is384 = false then
      #v[0x6A09E667F3BCC908, 0xBB67AE8584CAA73B, 0x3C6EF372FE94F82B, 0xA54FF53A5F1D36F1,
        0x510E527FADE682D1, 0x9B05688C2B3E6C1F, 0x1F83D9ABFB41BD6B, 0x5BE0CD19137E2179]
    else
      #v[0xCBBB9D5DC1059ED8, 0x629A292A367CD507, 0x9159015A3070DD17, 0x152FECD8F70E5939,
        0x67332667FFC00B31, 0x8EB44A8768581511, 0xDB0C2E0D64F98FA7, 0x47B5481DBEFA4FA4])
  is384 := ctx.is384

/-- `pzcrypto_hash_sha2_512_new_internal`, with the outcome of its allocation; the memory is cleared. -/
def pzcryptoHashSha2_512NewInternal (malloc is384 : Bool) : Option PHashSHA2_512 :=
  if malloc then some (zcryptoHashSha2_512Reset ⟨blockReset (Vector.replicate 8 0), is384⟩) else none

/-- `zcrypto_hash_sha2_512_new` -/
def zcryptoHashSha2_512New (malloc : Bool) : Option PHashSHA2_512 := pzcryptoHashSha2_512NewInternal malloc false

/-- `zcrypto_hash_sha2_384_new` -/
def zcryptoHashSha2_384New (malloc : Bool) : Option PHashSHA2_512 := pzcryptoHashSha2_512NewInternal malloc true

/-- `zcrypto_hash_sha2_512_update` -/
def zcryptoHashSha2_512Update (ctx : PHashSHA2_512) (data : List Byte) : PHashSHA2_512 :=
  { ctx with block := blockUpdate (sha2_512Algorithm ctx.is384) ctx.block data }

/-- `zcrypto_hash_sha2_512_finish` -/
def zcryptoHashSha2_512Finish (ctx : PHashSHA2_512) : PHashSHA2_512 :=
  { ctx with block := blockFinish (sha2_512Algorithm ctx.is384) ctx.block }

/-- `zcrypto_hash_sha2_512_digest` -/
def zcryptoHashSha2_512Digest (ctx : PHashSHA2_512) : List Byte := blockDigest ctx.block

end Plibsys.Crypto
