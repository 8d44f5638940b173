import Plibsys.Support.Region
import Plibsys.Types

/-! # `PCryptoHash`

`pcryptohash.c`: a hash object over the functions of its algorithm.  It is open for
updates until a hash is taken from it, and open again after a reset.
-/

namespace Plibsys.Crypto

open Support

inductive PCryptoHashType where
  | md5
  | sha1
  | sha2_224
  | sha2_256
  | sha2_384
  | sha2_512
  | sha3_224
  | sha3_256
  | sha3_384
  | sha3_512
  | gost
  deriving Repr, DecidableEq

/-- The hash length by type. -/
def PCryptoHashType.hashLen : PCryptoHashType → PUInt
  | .md5 => 16
  | .sha1 => 20
  | .sha2_224 => 28
  | .sha2_256 => 32
  | .sha2_384 => 48
  | .sha2_512 => 64
  | .sha3_224 => 28
  | .sha3_256 => 32
  | .sha3_384 => 48
  | .sha3_512 => 64
  | .gost => 32

/-- The functions of an algorithm on its contexts.  `create` is told the outcome of its
    allocation, and `digest` returns the memory it points to. -/
structure HashFuncs (C : Type) where
  create : Bool → Option C
  update : C → List Byte → C
  finish : C → C
  digest : C → Option Region
  reset : C → C

structure PCryptoHash (C : Type) where
  type : PCryptoHashType
  context : C
  hashLen : PUInt
  closed : Bool
  funcs : HashFuncs C

/-- `pzcrypto_hash_hex_str` -/
def pzcryptoHashHexStr : List Byte := "0123456789abcdef".toList.map fun c => BitVec.ofNat 8 c.toNat

def hexChar (nibble : Byte) : Byte := pzcryptoHashHexStr.getD nibble.toNat 0

/-- The loop of `pzcrypto_hash_digest_to_hex`, with the number of passes that are left. -/
def digestToHexLoop (digest : Region) : Nat → Nat → Region → Exec Region
  | 0, _, out => pure out
  | left + 1, i, out => do
      let b ← digest.load i
      let out ← out.store (i <<< 1) (hexChar ((b >>> 4) &&& 0x0F))
      let out ← out.store ((i <<< 1) + 1) (hexChar (b &&& 0x0F))
      digestToHexLoop digest left (i + 1) out

/-- `pzcrypto_hash_digest_to_hex` -/
def pzcryptoHashDigestToHex (digest : Region) (len : PUInt) (out : Region) : Exec Region :=
  digestToHexLoop digest len.toNat 0 out

/-- `zcrypto_hash_new`, with the outcome of both allocations. -/
def zcryptoHashNew {C : PCryptoHashType → Type} (algorithms : (type : PCryptoHashType) → HashFuncs (C type))
    (mallocHash mallocContext : Bool) (type : PCryptoHashType) : Option (PCryptoHash (C type)) :=
  if mallocHash then
    match (algorithms type).create mallocContext with
    | none => none
    | some context => some ⟨type, context, type.hashLen, false, algorithms type⟩
  else
    none

namespace PCryptoHash

variable {C : Type}

/-- `zcrypto_hash_update` -/
def zcryptoHashUpdate (data : List Byte) (hash : PCryptoHash C) : PCryptoHash C :=
  if data.length = 0 then hash
  else if hash.closed then hash
  else { hash with context := hash.funcs.update hash.context data }

/-- `zcrypto_hash_reset` -/
def zcryptoHashReset (hash : PCryptoHash C) : PCryptoHash C :=
  { hash with context := hash.funcs.reset hash.context, closed := false }

/-- The closing of the hash that both getters start with. -/
def close (hash : PCryptoHash C) : PCryptoHash C :=
  if hash.closed then hash
  else { hash with context := hash.funcs.finish hash.context, closed := true }

/-- `zcrypto_hash_get_string`, with the outcome of its allocation; `none` is `NULL`. -/
def zcryptoHashGetString (malloc : Bool) (hash : PCryptoHash C) :
    Exec (Option Region × PCryptoHash C) := do
  let hash := hash.close
  match hash.funcs.digest hash.context with
  | none => pure (none, hash)
  | some digest =>
      if malloc then
        let ret ← pzcryptoHashDigestToHex digest hash.hashLen (Region.zeros (hash.hashLen.toNat * 2 + 1))
        pure (some ret, hash)
      else
        pure (none, hash)

/-- `zcrypto_hash_get_digest`: the buffer, `*len` and the hash after the call. -/
def zcryptoHashGetDigest (buf : Region) (len : PSize) (hash : PCryptoHash C) :
    Exec (Region × PSize × PCryptoHash C) :=
  if hash.hashLen.setWidth 64 > len then
    pure (buf, 0, hash)
  else
    let hash := hash.close
    match hash.funcs.digest hash.context with
    | none => pure (buf, 0, hash)
    | some digest => do
        let buf ← buf.memcpy 0 digest 0 hash.hashLen.toNat
        pure (buf, hash.hashLen.setWidth 64, hash)

end PCryptoHash

end Plibsys.Crypto
