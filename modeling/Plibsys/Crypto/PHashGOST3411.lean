import Plibsys.Support.ByteWords
import Plibsys.Support.RotatingNames
import Plibsys.Types

/-! # `PHashGOST3411`

`pcryptohash-gost3411.c` on a little-endian host, where `swazbytes` does nothing.
-/

namespace Plibsys.Crypto

open Support

structure PHashGOST3411 where
  buf : Vector (BitVec 32) 8
  hash : Vector (BitVec 32) 8
  len : Vector (BitVec 32) 8
  sum : Vector (BitVec 32) 8

namespace Gost3411

/-- `pzcrypto_hash_gost3411_K_block` -/
def kBlock : List (List Byte) :=
  [[0xA, 0x4, 0x5, 0x6, 0x8, 0x1, 0x3, 0x7, 0xD, 0xC, 0xE, 0x0, 0x9, 0x2, 0xB, 0xF],
    [0x5, 0xF, 0x4, 0x0, 0x2, 0xD, 0xB, 0x9, 0x1, 0x7, 0x6, 0x3, 0xC, 0xE, 0xA, 0x8],
    [0x7, 0xF, 0xC, 0xE, 0x9, 0x4, 0x1, 0x0, 0x3, 0xB, 0x5, 0x2, 0x6, 0xA, 0x8, 0xD],
    [0x4, 0xA, 0x7, 0xC, 0x0, 0xF, 0x2, 0x8, 0xE, 0x1, 0x6, 0x5, 0xD, 0xB, 0x9, 0x3],
    [0x7, 0x6, 0x4, 0xB, 0x9, 0xC, 0x2, 0xA, 0x1, 0x8, 0x0, 0xE, 0xF, 0xD, 0x3, 0x5],
    [0x7, 0x6, 0x2, 0x4, 0xD, 0x9, 0xF, 0x0, 0xA, 0x1, 0x5, 0xB, 0x8, 0xE, 0xC, 0x3],
    [0xD, 0xE, 0x4, 0x1, 0x7, 0x0, 0x5, 0xA, 0x3, 0xC, 0x8, 0xF, 0x6, 0x2, 0x9, 0xB],
    [0x1, 0x3, 0xA, 0x9, 0x5, 0xB, 0x4, 0xF, 0x8, 0x6, 0x7, 0xE, 0xD, 0x0, 0x2, 0xC]]

/-- `(puint32) pzcrypto_hash_gost3411_K_block [row][x]` -/
def lookup (row : Nat) (x : BitVec 32) : BitVec 32 := ((kBlock.getD row []).getD x.toNat 0).setWidth 32

/-- `P_GOST_28147_ROUND` -/
def round (N : BitVec 32 × BitVec 32) (key : BitVec 32) : BitVec 32 × BitVec 32 :=
  let CM1 := N.1 + key
  let CM1 := lookup 0 (CM1 &&& 0xF) ||| lookup 1 ((CM1 >>> 4) &&& 0xF) <<< 4 |||
    lookup 2 ((CM1 >>> 8) &&& 0xF) <<< 8 ||| lookup 3 ((CM1 >>> 12) &&& 0xF) <<< 12 |||
    lookup 4 ((CM1 >>> 16) &&& 0xF) <<< 16 ||| lookup 5 ((CM1 >>> 20) &&& 0xF) <<< 20 |||
    lookup 6 ((CM1 >>> 24) &&& 0xF) <<< 24 ||| lookup 7 ((CM1 >>> 28) &&& 0xF) <<< 28
  let CM1 := ((CM1 <<< 11) ||| (CM1 >>> 21)) ^^^ N.2
  (CM1, N.1)

/-- The words of the key in the rounds of `P_GOST_28147_E`. -/
def roundKeys : List (Fin 8) :=
  [0, 1, 2, 3, 4, 5, 6, 7, 0, 1, 2, 3, 4, 5, 6, 7, 0, 1, 2, 3, 4, 5, 6, 7, 7, 6, 5, 4, 3, 2, 1, 0]

/-- `P_GOST_28147_E` on two words of the data; the two words of `out`. -/
def encrypt (data0 data1 : BitVec 32) (key : Vector (BitVec 32) 8) : BitVec 32 × BitVec 32 :=
  let N := roundKeys.foldl (fun N i => round N (key.get i)) (data0, data1)
  (N.2, N.1)

/-- `P_GOST_3411_P` -/
def p (data : Vector (BitVec 32) 8) : Vector (BitVec 32) 8 :=
  #v[(data.get 0 &&& 0x000000FF) ||| ((data.get 2 <<< 8) &&& 0x0000FF00) |||
      ((data.get 4 <<< 16) &&& 0x00FF0000) ||| ((data.get 6 <<< 24) &&& 0xFF000000),
    ((data.get 0 >>> 8) &&& 0x000000FF) ||| (data.get 2 &&& 0x0000FF00) |||
      ((data.get 4 <<< 8) &&& 0x00FF0000) ||| ((data.get 6 <<< 16) &&& 0xFF000000),
    ((data.get 0 >>> 16) &&& 0x000000FF) ||| ((data.get 2 >>> 8) &&& 0x0000FF00) |||
      (data.get 4 &&& 0x00FF0000) ||| ((data.get 6 <<< 8) &&& 0xFF000000),
    ((data.get 0 >>> 24) &&& 0x000000FF) ||| ((data.get 2 >>> 16) &&& 0x0000FF00) |||
      ((data.get 4 >>> 8) &&& 0x00FF0000) ||| (data.get 6 &&& 0xFF000000),
    (data.get 1 &&& 0x000000FF) ||| ((data.get 3 <<< 8) &&& 0x0000FF00) |||
      ((data.get 5 <<< 16) &&& 0x00FF0000) ||| ((data.get 7 <<< 24) &&& 0xFF000000),
    ((data.get 1 >>> 8) &&& 0x000000FF) ||| (data.get 3 &&& 0x0000FF00) |||
      ((data.get 5 <<< 8) &&& 0x00FF0000) ||| ((data.get 7 <<< 16) &&& 0xFF000000),
    ((data.get 1 >>> 16) &&& 0x000000FF) ||| ((data.get 3 >>> 8) &&& 0x0000FF00) |||
      (data.get 5 &&& 0x00FF0000) ||| ((data.get 7 <<< 8) &&& 0xFF000000),
    ((data.get 1 >>> 24) &&& 0x000000FF) ||| ((data.get 3 >>> 16) &&& 0x0000FF00) |||
      ((data.get 5 >>> 8) &&& 0x00FF0000) ||| (data.get 7 &&& 0xFF000000)]

/-- The keys that `pzcrypto_hash_gost3411_process` generates.  A name that is bound again is an
    element of `U` or `V` that is assigned to. -/
def keys (hash data : Vector (BitVec 32) 8) : Vector (Vector (BitVec 32) 8) 4 :=
  let u0 := hash.get 0
  let u1 := hash.get 1
  let u2 := hash.get 2
  let u3 := hash.get 3
  let u4 := hash.get 4
  let u5 := hash.get 5
  let u6 := hash.get 6
  let u7 := hash.get 7
  let v0 := data.get 0
  let v1 := data.get 1
  let v2 := data.get 2
  let v3 := data.get 3
  let v4 := data.get 4
  let v5 := data.get 5
  let v6 := data.get 6
  let v7 := data.get 7
  let k0 := p #v[u0 ^^^ v0, u1 ^^^ v1, u2 ^^^ v2, u3 ^^^ v3, u4 ^^^ v4, u5 ^^^ v5, u6 ^^^ v6, u7 ^^^ v7]
  -- `P (A (U) xor A^2 (V))`
  let w0 := u2 ^^^ v4
  let w1 := u3 ^^^ v5
  let w2 := u4 ^^^ v6
  let w3 := u5 ^^^ v7
  let v0 := v0 ^^^ v2
  let w4 := u6 ^^^ v0
  let v1 := v1 ^^^ v3
  let w5 := u7 ^^^ v1
  let u0 := u0 ^^^ u2
  let v2 := v2 ^^^ v4
  let w6 := u0 ^^^ v2
  let u1 := u1 ^^^ u3
  let v3 := v3 ^^^ v5
  let w7 := u1 ^^^ v3
  let k1 := p #v[w0, w1, w2, w3, w4, w5, w6, w7]
  -- `P ((A^2 (U) + C3) xor A^4 (V))`
  let u2 := u2 ^^^ (u4 ^^^ 0x000000FF)
  let u3 := u3 ^^^ (u5 ^^^ 0xFF00FFFF)
  let u4 := u4 ^^^ 0xFF00FF00
  let u5 := u5 ^^^ 0xFF00FF00
  let u6 := u6 ^^^ 0x00FF00FF
  let u7 := u7 ^^^ 0x00FF00FF
  let u0 := u0 ^^^ 0x00FFFF00
  let u1 := u1 ^^^ 0xFF0000FF
  let w0 := u4 ^^^ v0
  let w2 := u6 ^^^ v2
  let v4 := v4 ^^^ v6
  let w4 := u0 ^^^ v4
  let v6 := v6 ^^^ v0
  let w6 := u2 ^^^ v6
  let w1 := u5 ^^^ v1
  let w3 := u7 ^^^ v3
  let v5 := v5 ^^^ v7
  let w5 := u1 ^^^ v5
  let v7 := v7 ^^^ v1
  let w7 := u3 ^^^ v7
  let k2 := p #v[w0, w1, w2, w3, w4, w5, w6, w7]
  -- `P (A (A^2 (U) xor C3) xor A^6 (V))`
  let w0 := u6 ^^^ v4
  let w1 := u7 ^^^ v5
  let w2 := u0 ^^^ v6
  let w3 := u1 ^^^ v7
  let v0 := v0 ^^^ v2
  let w4 := u2 ^^^ v0
  let v1 := v1 ^^^ v3
  let w5 := u3 ^^^ v1
  let u4 := u4 ^^^ u6
  let v2 := v2 ^^^ v4
  let w6 := u4 ^^^ v2
  let u5 := u5 ^^^ u7
  let v3 := v3 ^^^ v5
  let w7 := u5 ^^^ v3
  let k3 := p #v[w0, w1, w2, w3, w4, w5, w6, w7]
  #v[k0, k1, k2, k3]

/-- The operands of the exclusive ors that follow: `S[i]`, `S[i] & 0x0000FFFF`,
    `S[i] & 0xFFFF0000`, `S[i] << 16` and `S[i] >> 16`. -/
inductive Operand
  | whole (i : Fin 8)
  | low (i : Fin 8)
  | high (i : Fin 8)
  | shl (i : Fin 8)
  | shr (i : Fin 8)
  deriving Repr, DecidableEq

def Operand.eval (words : Vector (BitVec 32) 8) : Operand → BitVec 32
  | whole i => words.get i
  | low i => words.get i &&& 0x0000FFFF
  | high i => words.get i &&& 0xFFFF0000
  | shl i => words.get i <<< 16
  | shr i => words.get i >>> 16

/-- Eight assignments, each of the exclusive or of a word and some operands. -/
def mix (start words : Vector (BitVec 32) 8) (operands : Vector (List Operand) 8) : Vector (BitVec 32) 8 :=
  Vector.ofFn fun i => (operands.get i).foldl (fun acc operand => acc ^^^ operand.eval words) (start.get i)

/-- The operands of `U` after the word of the data: 12 rounds of the LFSR on `S`. -/
def rounds12 : Vector (List Operand) 8 :=
  #v[[.whole 6],
    [.whole 7],
    [.low 0, .shr 0, .shl 0, .low 1, .shr 1, .shl 2, .high 7, .shl 6, .shr 7, .whole 6],
    [.low 0, .shl 0, .shl 2, .low 1, .shl 1, .shr 1, .low 7, .shr 2, .shl 3, .shl 6, .shr 6, .shl 7, .shr 7, .whole 6],
    [.high 0, .shl 0, .shr 0, .high 1, .shr 1, .shl 2, .low 7, .shl 3, .shr 3, .shl 4, .shl 6, .shr 6, .shr 2, .shl 7,
      .shr 7],
    [.high 0, .shr 0, .shl 0, .low 1, .shr 7, .shr 2, .high 7, .shr 3, .shl 4, .shr 4, .shl 5, .shl 6, .shr 6, .shl 3,
      .shl 7, .whole 2],
    [.shr 4, .shr 1, .shl 2, .shl 7, .shr 3, .shl 4, .shl 5, .shr 5, .shl 6, .shr 6, .whole 6, .whole 0, .whole 3],
    [.high 0, .shl 0, .shl 1, .low 1, .shr 2, .shl 3, .low 7, .shr 4, .shl 5, .shr 5, .shr 6, .shl 7, .shr 7, .whole 4]]

/-- The operands of `V` after the word of the hash: one round on `U`. -/
def rounds1 : Vector (List Operand) 8 :=
  #v[[.shl 1, .shr 0],
    [.shl 2, .shr 1],
    [.shl 3, .shr 2],
    [.shl 4, .shr 3],
    [.shl 5, .shr 4],
    [.shl 6, .shr 5],
    [.shl 7, .shr 6],
    [.shr 7, .shl 0, .high 1, .shl 1, .high 7, .shl 6, .high 0]]

/-- The operands of the new hash: 61 rounds on `V`. -/
def rounds61 : Vector (List Operand) 8 :=
  #v[[.high 0, .shl 0, .shr 0, .high 1, .shr 1, .shl 2, .low 7, .shr 3, .shl 4, .shr 5, .shr 6, .shl 7, .shr 7, .whole 5],
    [.high 0, .shl 0, .shr 0, .low 1, .shr 2, .shl 3, .high 7, .shr 4, .shl 5, .shl 6, .shr 7, .whole 6, .whole 2],
    [.low 0, .shl 0, .shl 1, .low 7, .shr 1, .shl 2, .high 1, .shr 3, .shl 4, .shr 5, .shr 6, .shl 7, .shr 7, .whole 3,
      .whole 6],
    [.high 0, .shl 0, .shr 0, .high 1, .shr 1, .shl 2, .low 7, .shr 2, .shl 3, .shr 4, .shl 5, .shl 6, .shr 7, .whole 2,
      .whole 4],
    [.shr 0, .shl 1, .shr 2, .shl 3, .shr 3, .shl 4, .shr 5, .shl 6, .shr 6, .shl 7, .whole 1, .whole 2, .whole 3,
      .whole 5],
    [.high 0, .shl 0, .shl 1, .high 1, .shr 1, .shl 2, .high 7, .shr 3, .shl 4, .shr 4, .shl 5, .shl 6, .shr 6, .shl 7,
      .shr 7, .whole 2, .whole 3, .whole 4, .whole 6],
    [.shr 2, .shl 3, .shr 4, .shl 5, .shr 5, .shl 6, .shr 6, .shl 7, .whole 7, .whole 0, .whole 2, .whole 3, .whole 4,
      .whole 5, .whole 6],
    [.shr 0, .shl 1, .shr 1, .shl 2, .shr 3, .shl 4, .shr 5, .shl 6, .shr 6, .shl 7, .whole 7, .whole 0, .whole 3,
      .whole 4, .whole 5]]

end Gost3411

open Gost3411

/-- `pzcrypto_hash_gost3411_process`: the new hash. -/
def pzcryptoHashGost3411Process (hash data : Vector (BitVec 32) 8) : Vector (BitVec 32) 8 :=
  let K := keys hash data
  let S01 := encrypt (hash.get 0) (hash.get 1) (K.get 0)
  let S23 := encrypt (hash.get 2) (hash.get 3) (K.get 1)
  let S45 := encrypt (hash.get 4) (hash.get 5) (K.get 2)
  let S67 := encrypt (hash.get 6) (hash.get 7) (K.get 3)
  let S := #v[S01.1, S01.2, S23.1, S23.2, S45.1, S45.2, S67.1, S67.2]
  let U := mix data S rounds12
  let V := mix hash U rounds1
  mix (Vector.replicate 8 0) V rounds61

/-- The body of the loop of `pzcrypto_hash_gost3411_sum_256`, on the array and the carry. -/
def sum256Limb (b : Vector (BitVec 32) 8) (state : Vector (BitVec 32) 8 × Bool) (i : Fin 8) :
    Vector (BitVec 32) 8 × Bool :=
  let old := state.1.get i
  let a := write state.1 i (state.1.get i + b.get i + (if state.2 then 1 else 0))
  (a, decide (a.get i < old ∨ a.get i < b.get i))

/-- `pzcrypto_hash_gost3411_sum_256` -/
def pzcryptoHashGost3411Sum256 (a b : Vector (BitVec 32) 8) : Vector (BitVec 32) 8 :=
  ((List.range 8).foldl (fun state i => sum256Limb b state (Fin.ofNat 8 i)) (a, false)).1

/-- `pzcrypto_hash_gost3411_process` and `pzcrypto_hash_gost3411_sum_256` on the buffer. -/
def gost3411ProcessBuf (ctx : PHashGOST3411) : PHashGOST3411 :=
  { ctx with
    hash := pzcryptoHashGost3411Process ctx.hash ctx.buf
    sum := pzcryptoHashGost3411Sum256 ctx.sum ctx.buf }

/-- `zcrypto_hash_gost3411_reset` -/
def zcryptoHashGost3411Reset (_ctx : PHashGOST3411) : PHashGOST3411 where
  buf := Vector.replicate 8 0
  hash := Vector.replicate 8 0
  len := Vector.replicate 8 0
  sum := Vector.replicate 8 0

/-- `zcrypto_hash_gost3411_new`, with the outcome of its allocation; the memory is cleared. -/
def zcryptoHashGost3411New (malloc : Bool) : Option PHashGOST3411 :=
  if malloc then
    some (zcryptoHashGost3411Reset
      ⟨Vector.replicate 8 0, Vector.replicate 8 0, Vector.replicate 8 0, Vector.replicate 8 0⟩)
  else
    none

/-- The loop of `zcrypto_hash_gost3411_update` over the whole blocks of the data. -/
def gost3411UpdateLoop (ctx : PHashGOST3411) (data : List Byte) : PHashGOST3411 × List Byte :=
  if 32 ≤ data.length then
    gost3411UpdateLoop (gost3411ProcessBuf { ctx with buf := copyBytes ctx.buf 0 (data.take 32) }) (data.drop 32)
  else
    (ctx, data)
termination_by data.length
decreasing_by
  rw [List.length_drop]
  omega

/-- The end of `zcrypto_hash_gost3411_update`: what is left of the data goes into the buffer. -/
def gost3411KeepRest (ctx : PHashGOST3411) (left : Nat) (data : List Byte) : PHashGOST3411 :=
  if 0 < data.length then { ctx with buf := copyBytes ctx.buf left data } else ctx

/-- `zcrypto_hash_gost3411_update` -/
def zcryptoHashGost3411Update (ctx : PHashGOST3411) (data : List Byte) : PHashGOST3411 :=
  let len : PSize := BitVec.ofNat 64 data.length
  let left := (ctx.len.get 0 &&& 0xFF) >>> 3
  let toFill := 32 - left
  let len256 := #v[(len <<< 3).setWidth 32, (len >>> 29).setWidth 32, 0, 0, 0, 0, 0, 0]
  let ctx := { ctx with len := pzcryptoHashGost3411Sum256 ctx.len len256 }
  if left ≠ 0 ∧ toFill ≤ len.setWidth 32 then
    let ctx := gost3411ProcessBuf { ctx with buf := copyBytes ctx.buf left.toNat (data.take toFill.toNat) }
    let rest := gost3411UpdateLoop ctx (data.drop toFill.toNat)
    gost3411KeepRest rest.1 0 rest.2
  else
    let rest := gost3411UpdateLoop ctx data
    gost3411KeepRest rest.1 left.toNat rest.2

/-- The first part of `zcrypto_hash_gost3411_finish`: a block that is not whole is filled with
    zeros. -/
def gost3411FillBlock (ctx : PHashGOST3411) : PHashGOST3411 :=
  let left := ctx.len.get 0 &&& 0xFF
  let begun := left >>> 3
  let last := 32 - begun
  if last % 32 ≠ 0 then
    gost3411ProcessBuf { ctx with buf := copyBytes ctx.buf begun.toNat (List.replicate last.toNat 0) }
  else
    ctx

/-- `zcrypto_hash_gost3411_finish` -/
def zcryptoHashGost3411Finish (ctx : PHashGOST3411) : PHashGOST3411 :=
  let ctx := gost3411FillBlock ctx
  let ctx := { ctx with hash := pzcryptoHashGost3411Process ctx.hash ctx.len }
  { ctx with hash := pzcryptoHashGost3411Process ctx.hash ctx.sum }

/-- `zcrypto_hash_gost3411_digest`: the memory of the hash. -/
def zcryptoHashGost3411Digest (ctx : PHashGOST3411) : List Byte := unparse ctx.hash

end Plibsys.Crypto
