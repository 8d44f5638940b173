import Plibsys.Support.ByteWords
import Plibsys.Support.RotatingNames
import Plibsys.Types

/-! # `PHashSHA3`

`pcryptohash-sha3.c` on a little-endian host.
-/

namespace Plibsys.Crypto

open Support

/-- The union of the buffer is an array of words; its bytes are the other view of it. -/
structure PHashSHA3 where
  buf : Vector (BitVec 64) 25
  hash : Vector (BitVec 64) 25
  len : BitVec 32
  blockSize : BitVec 32

namespace Sha3

/-- `pzcrypto_hash_sha3_K` -/
def K : List (BitVec 64) :=
  [0x0000000000000001, 0x0000000000008082, 0x800000000000808A, 0x8000000080008000,
    0x000000000000808B, 0x0000000080000001, 0x8000000080008081, 0x8000000000008009,
    0x000000000000008A, 0x0000000000000088, 0x0000000080008009, 0x000000008000000A,
    0x000000008000808B, 0x800000000000008B, 0x8000000000008089, 0x8000000000008003,
    0x8000000000008002, 0x8000000000000080, 0x000000000000800A, 0x800000008000000A,
    0x8000000080008081, 0x8000000000008080, 0x0000000080000001, 0x8000000080008008]

/-- `P_SHA3_SHL` -/
def shl (val : BitVec 64) (shift : Nat) : BitVec 64 := val <<< shift

/-- `P_SHA3_ROTL` -/
def rotl (val : BitVec 64) (shift : Nat) : BitVec 64 := shl val shift ||| (val >>> (64 - shift))

/-- `pzcrypto_hash_sha3_keccak_theta` -/
def keccakTheta (hash : Vector (BitVec 64) 25) : Vector (BitVec 64) 25 :=
  let C : Vector (BitVec 64) 5 := Vector.ofFn fun i =>
    hash.get (Fin.ofNat 25 i) ^^^ hash.get (Fin.ofNat 25 (i + 5)) ^^^ hash.get (Fin.ofNat 25 (i + 10)) ^^^
      hash.get (Fin.ofNat 25 (i + 15)) ^^^ hash.get (Fin.ofNat 25 (i + 20))
  let D : Vector (BitVec 64) 5 :=
    #v[rotl (C.get 1) 1 ^^^ C.get 4, rotl (C.get 2) 1 ^^^ C.get 0, rotl (C.get 3) 1 ^^^ C.get 1,
      rotl (C.get 4) 1 ^^^ C.get 2, rotl (C.get 0) 1 ^^^ C.get 3]
  (List.range 5).foldl (fun hash i => [i, i + 5, i + 10, i + 15, i + 20].foldl (fun hash k =>
    write hash (Fin.ofNat 25 k) (hash.get (Fin.ofNat 25 k) ^^^ D.get (Fin.ofNat 5 i))) hash) hash

/-- `ctx->hash[target] = P_SHA3_ROTL (ctx->hash[source], shift)` -/
structure Move where
  target : Fin 25
  source : Fin 25
  shift : Nat
  deriving Repr, DecidableEq

def Move.run (hash : Vector (BitVec 64) 25) (move : Move) : Vector (BitVec 64) 25 :=
  write hash move.target (rotl (hash.get move.source) move.shift)

/-- The assignments of `pzcrypto_hash_sha3_keccak_rho_pi`, up to the last one. -/
def moves : List Move :=
  [⟨1, 6, 44⟩, ⟨6, 9, 20⟩, ⟨9, 22, 61⟩, ⟨22, 14, 39⟩, ⟨14, 20, 18⟩, ⟨20, 2, 62⟩, ⟨2, 12, 43⟩, ⟨12, 13, 25⟩,
    ⟨13, 19, 8⟩, ⟨19, 23, 56⟩, ⟨23, 15, 41⟩, ⟨15, 4, 27⟩, ⟨4, 24, 14⟩, ⟨24, 21, 2⟩, ⟨21, 8, 55⟩, ⟨8, 16, 45⟩,
    ⟨16, 5, 36⟩, ⟨5, 3, 28⟩, ⟨3, 18, 21⟩, ⟨18, 17, 15⟩, ⟨17, 11, 10⟩, ⟨11, 7, 6⟩, ⟨7, 10, 3⟩]

/-- `pzcrypto_hash_sha3_keccak_rho_pi` -/
def keccakRhoPi (hash : Vector (BitVec 64) 25) : Vector (BitVec 64) 25 :=
  let tmpA := hash.get 1
  let hash := moves.foldl Move.run hash
  write hash 10 (rotl tmpA 1)

/-- The body of the loop of `pzcrypto_hash_sha3_keccak_chi`. -/
def chiRow (hash : Vector (BitVec 64) 25) (i : Nat) : Vector (BitVec 64) 25 :=
  let at0 := Fin.ofNat 25 (i + 0)
  let at1 := Fin.ofNat 25 (i + 1)
  let at2 := Fin.ofNat 25 (i + 2)
  let at3 := Fin.ofNat 25 (i + 3)
  let at4 := Fin.ofNat 25 (i + 4)
  let tmpA1 := hash.get at0
  let tmpA2 := hash.get at1
  let hash := write hash at0 (hash.get at0 ^^^ (~~~tmpA2 &&& hash.get at2))
  let hash := write hash at1 (hash.get at1 ^^^ (~~~(hash.get at2) &&& hash.get at3))
  let hash := write hash at2 (hash.get at2 ^^^ (~~~(hash.get at3) &&& hash.get at4))
  let hash := write hash at3 (hash.get at3 ^^^ (~~~(hash.get at4) &&& tmpA1))
  write hash at4 (hash.get at4 ^^^ (~~~tmpA1 &&& tmpA2))

/-- `pzcrypto_hash_sha3_keccak_chi` -/
def keccakChi (hash : Vector (BitVec 64) 25) : Vector (BitVec 64) 25 := (List.range' 0 5 5).foldl chiRow hash

/-- The body of the loop of `pzcrypto_hash_sha3_keccak_permutate`. -/
def keccakRound (hash : Vector (BitVec 64) 25) (i : Nat) : Vector (BitVec 64) 25 :=
  let hash := keccakChi (keccakRhoPi (keccakTheta hash))
  write hash 0 (hash.get 0 ^^^ K.getD i 0)

/-- `pzcrypto_hash_sha3_keccak_permutate` -/
@[irreducible] def keccakPermutate (hash : Vector (BitVec 64) 25) : Vector (BitVec 64) 25 := (List.range 24).foldl keccakRound hash

end Sha3

/-- `pzcrypto_hash_sha3_process` on the buffer; `swazbytes` before it does nothing on a
    little-endian host. -/
def pzcryptoHashSha3Process (ctx : PHashSHA3) : PHashSHA3 :=
  let qwords := ctx.blockSize / 8
  let hash := Vector.ofFn fun i => if i.val < qwords.toNat then ctx.hash.get i ^^^ ctx.buf.get i else ctx.hash.get i
  { ctx with hash := Sha3.keccakPermutate hash }

/-- `pzcrypto_hash_sha3_new_internal`, with the outcome of its allocation; the memory is
    cleared. -/
def pzcryptoHashSha3NewInternal (malloc : Bool) (bits : PUInt) : Option PHashSHA3 :=
  if malloc then some ⟨Vector.replicate 25 0, Vector.replicate 25 0, 0, (1600 - bits * 2) / 8⟩ else none

/-- `zcrypto_hash_sha3_reset` -/
def zcryptoHashSha3Reset (ctx : PHashSHA3) : PHashSHA3 :=
  { ctx with buf := Vector.replicate 25 0, hash := Vector.replicate 25 0, len := 0 }

/-- `zcrypto_hash_sha3_224_new` -/
def zcryptoHashSha3_224New (malloc : Bool) : Option PHashSHA3 := pzcryptoHashSha3NewInternal malloc 224

/-- `zcrypto_hash_sha3_256_new` -/
def zcryptoHashSha3_256New (malloc : Bool) : Option PHashSHA3 := pzcryptoHashSha3NewInternal malloc 256

/-- `zcrypto_hash_sha3_384_new` -/
def zcryptoHashSha3_384New (malloc : Bool) : Option PHashSHA3 := pzcryptoHashSha3NewInternal malloc 384

/-- `zcrypto_hash_sha3_512_new` -/
def zcryptoHashSha3_512New (malloc : Bool) : Option PHashSHA3 := pzcryptoHashSha3NewInternal malloc 512

/-- The loop of `zcrypto_hash_sha3_update` over the whole blocks of the data.  It would not end
    for blocks of no bytes, which none of the constructors gives. -/
def sha3UpdateLoop (ctx : PHashSHA3) (data : List Byte) : PHashSHA3 × List Byte :=
  let size := ctx.blockSize.toNat
  if 0 < size ∧ size ≤ data.length then
    sha3UpdateLoop (pzcryptoHashSha3Process { ctx with buf := copyBytes ctx.buf 0 (data.take size) }) (data.drop size)
  else
    (ctx, data)
termination_by data.length
decreasing_by
  rw [List.length_drop]
  omega

/-- The end of `zcrypto_hash_sha3_update`: what is left of the data goes into the buffer. -/
def sha3KeepRest (ctx : PHashSHA3) (left : Nat) (data : List Byte) : PHashSHA3 :=
  if 0 < data.length then { ctx with buf := copyBytes ctx.buf left data } else ctx

/-- `zcrypto_hash_sha3_update` -/
def zcryptoHashSha3Update (ctx : PHashSHA3) (data : List Byte) : PHashSHA3 :=
  let len : PSize := BitVec.ofNat 64 data.length
  let left := ctx.len
  let toFill := ctx.blockSize - left
  let ctx := { ctx with len := ((ctx.len.setWidth 64 + len) % ctx.blockSize.setWidth 64).setWidth 32 }
  if left ≠ 0 ∧ toFill.setWidth 64 ≤ len then
    let ctx := pzcryptoHashSha3Process { ctx with buf := copyBytes ctx.buf left.toNat (data.take toFill.toNat) }
    let rest := sha3UpdateLoop ctx (data.drop toFill.toNat)
    sha3KeepRest rest.1 0 rest.2
  else
    let rest := sha3UpdateLoop ctx data
    sha3KeepRest rest.1 left.toNat rest.2

/-- A byte of the buffer with some bits set. -/
def orByte (buf : Vector (BitVec 64) 25) (off : Nat) (mask : Byte) : Vector (BitVec 64) 25 :=
  copyBytes buf off [(unparse buf).getD off 0 ||| mask]

/-- `zcrypto_hash_sha3_finish`; `swazbytes` on the hash does nothing on a little-endian host. -/
def zcryptoHashSha3Finish (ctx : PHashSHA3) : PHashSHA3 :=
  let buf := copyBytes ctx.buf ctx.len.toNat (List.replicate (ctx.blockSize - ctx.len).toNat 0)
  let buf := orByte buf ctx.len.toNat 0x06
  let buf := orByte buf (ctx.blockSize - 1).toNat 0x80
  pzcryptoHashSha3Process { ctx with buf := buf }

/-- `zcrypto_hash_sha3_digest`: the memory of the hash. -/
def zcryptoHashSha3Digest (ctx : PHashSHA3) : List Byte := unparse ctx.hash

end Plibsys.Crypto
