import Plibsys.Crypto.PCryptoHash
import Plibsys.Crypto.Md5
import Plibsys.Crypto.Sha1
import Plibsys.Crypto.Sha2
import Plibsys.Crypto.Sha3
import Plibsys.Crypto.GostUpdates

/-! # The algorithms of `PCryptoHash`

The functions that `zcrypto_hash_new` puts into a hash of each type.  However a message is cut
into updates, they compute one digest of it, and a reset brings their contexts back to the
fresh one.
-/

namespace Plibsys.Crypto

open Support

/-- The contexts by type. -/
def PCryptoHashType.Context : PCryptoHashType → Type
  | .md5 => PHashMD5
  | .sha1 => PHashSHA1
  | .sha2_224 => PHashSHA2_256
  | .sha2_256 => PHashSHA2_256
  | .sha2_384 => PHashSHA2_512
  | .sha2_512 => PHashSHA2_512
  | .sha3_224 => PHashSHA3
  | .sha3_256 => PHashSHA3
  | .sha3_384 => PHashSHA3
  | .sha3_512 => PHashSHA3
  | .gost => PHashGOST3411

/-- `P_HASH_FUNCS`; every `digest` returns the memory of the hash in the context. -/
def hashFuncs {C : Type} (create : Bool → Option C) (update : C → List Byte → C) (finish : C → C)
    (digest : C → List Byte) (reset : C → C) : HashFuncs C where
  create := create
  update := update
  finish := finish
  digest ctx := some (Region.ofList (digest ctx))
  reset := reset

def md5Funcs : HashFuncs PHashMD5 :=
  hashFuncs zcryptoHashMd5New zcryptoHashMd5Update zcryptoHashMd5Finish zcryptoHashMd5Digest fun _ => zcryptoHashMd5Reset

def sha1Funcs : HashFuncs PHashSHA1 :=
  hashFuncs zcryptoHashSha1New zcryptoHashSha1Update zcryptoHashSha1Finish zcryptoHashSha1Digest
    fun _ => zcryptoHashSha1Reset

/-- The variants of SHA-256 share all functions but `new`. -/
def sha2_256Funcs (create : Bool → Option PHashSHA2_256) : HashFuncs PHashSHA2_256 :=
  hashFuncs create zcryptoHashSha2_256Update zcryptoHashSha2_256Finish zcryptoHashSha2_256Digest zcryptoHashSha2_256Reset

def sha2_512Funcs (create : Bool → Option PHashSHA2_512) : HashFuncs PHashSHA2_512 :=
  hashFuncs create zcryptoHashSha2_512Update zcryptoHashSha2_512Finish zcryptoHashSha2_512Digest zcryptoHashSha2_512Reset

def sha3Funcs (create : Bool → Option PHashSHA3) : HashFuncs PHashSHA3 :=
  hashFuncs create zcryptoHashSha3Update zcryptoHashSha3Finish zcryptoHashSha3Digest zcryptoHashSha3Reset

def gost3411Funcs : HashFuncs PHashGOST3411 :=
  hashFuncs zcryptoHashGost3411New zcryptoHashGost3411Update zcryptoHashGost3411Finish zcryptoHashGost3411Digest
    zcryptoHashGost3411Reset

/-- The `switch` of `zcrypto_hash_new`. -/
def algorithms : (type : PCryptoHashType) → HashFuncs type.Context
  | .md5 => md5Funcs
  | .sha1 => sha1Funcs
  | .sha2_224 => sha2_256Funcs zcryptoHashSha2_224New
  | .sha2_256 => sha2_256Funcs zcryptoHashSha2_256New
  | .sha2_384 => sha2_512Funcs zcryptoHashSha2_384New
  | .sha2_512 => sha2_512Funcs zcryptoHashSha2_512New
  | .sha3_224 => sha3Funcs zcryptoHashSha3_224New
  | .sha3_256 => sha3Funcs zcryptoHashSha3_256New
  | .sha3_384 => sha3Funcs zcryptoHashSha3_384New
  | .sha3_512 => sha3Funcs zcryptoHashSha3_512New
  | .gost => gost3411Funcs

/-- Over chunks that `fits` allows, the algorithm computes the digest `D` of `n` bytes of what it
    was fed, and a reset brings its contexts back to the fresh one. -/
structure Streams {C : Type} (funcs : HashFuncs C) (D : List Byte → List Byte) (n : Nat) (fresh : C)
    (fits : List (List Byte) → Prop) : Prop where
  create : funcs.create true = some fresh
  digest : ∀ chunks, fits chunks →
    ∃ d, funcs.digest (funcs.finish (chunks.foldl funcs.update fresh)) = some d ∧ n ≤ d.size ∧
      d.slice 0 n = D chunks.flatten
  reset_open : ∀ chunks, fits chunks → funcs.reset (chunks.foldl funcs.update fresh) = fresh
  reset_closed : ∀ chunks, fits chunks → funcs.reset (funcs.finish (chunks.foldl funcs.update fresh)) = fresh

/-- Every algorithm can count these chunks.  The smallest counters take the length of a chunk
    for a number of 32 bits, and the length of the message in bits for one of 64. -/
structure Counted (chunks : List (List Byte)) : Prop where
  fit : ∀ chunk ∈ chunks, chunk.length < 2 ^ 32
  short : chunks.flatten.length < 2 ^ 61

section Streams

variable {C K : Type} {create : Bool → Option C} {update : C → List Byte → C} {finish : C → C} {memory : C → List Byte}
  {reset : C → C} {D : List Byte → List Byte} {n : Nat} {fresh : C} {fits : List (List Byte) → Prop}

/-- A reset restores the fresh context if it depends on nothing that updates and `finish`
    change. -/
theorem streams_hashFuncs (kind : C → K) (created : create true = some fresh) (long : ∀ ctx, n ≤ (memory ctx).length)
    (digest : ∀ chunks, fits chunks → (memory (finish (chunks.foldl update fresh))).take n = D chunks.flatten)
    (updated : ∀ chunks, fits chunks → kind (chunks.foldl update fresh) = kind fresh)
    (finished : ∀ ctx, kind (finish ctx) = kind ctx) (restored : ∀ ctx, kind ctx = kind fresh → reset ctx = fresh) :
    Streams (hashFuncs create update finish memory reset) D n fresh fits where
  create := created
  digest chunks fed := ⟨_, rfl, long _, (Region.slice_ofList_take (long _)).trans (digest chunks fed)⟩
  reset_open chunks fed := restored _ (updated chunks fed)
  reset_closed chunks fed := restored _ ((finished _).trans (updated chunks fed))

end Streams

/-! ## MD5 and SHA-1 -/

theorem md5_streams : Streams md5Funcs Rfc1321.md5 16 zcryptoHashMd5Reset Counted := by
  refine streams_hashFuncs (fun _ => ()) rfl ?_ ?_ (fun _ _ => rfl) (fun _ => rfl) fun _ _ => rfl
  · intro ctx
    simp [zcryptoHashMd5Digest, blockDigest]
  · intro chunks fed
    rw [zcryptoHashMd5Digest_eq fed.short fed.fit]
    exact List.take_of_length_le (by simp [Rfc1321.md5])

theorem sha1_streams : Streams sha1Funcs Fips180.Sha1.sha1 20 zcryptoHashSha1Reset Counted := by
  refine streams_hashFuncs (fun _ => ()) rfl ?_ ?_ (fun _ _ => rfl) (fun _ => rfl) fun _ _ => rfl
  · intro ctx
    simp [zcryptoHashSha1Digest, blockDigest]
  · intro chunks fed
    rw [zcryptoHashSha1Digest_eq fed.short fed.fit]
    exact List.take_of_length_le (by simp [Fips180.Sha1.sha1])

/-! ## SHA-2 -/

theorem length_sha2_256Digest (ctx : PHashSHA2_256) : (zcryptoHashSha2_256Digest ctx).length = 32 := by
  simp [zcryptoHashSha2_256Digest, blockDigest]

theorem length_sha2_512Digest (ctx : PHashSHA2_512) : (zcryptoHashSha2_512Digest ctx).length = 64 := by
  simp [zcryptoHashSha2_512Digest, blockDigest]

theorem is224_updates (fresh : PHashSHA2_256) (chunks : List (List Byte)) :
    (chunks.foldl zcryptoHashSha2_256Update fresh).is224 = fresh.is224 := by
  rw [foldl_zcryptoHashSha2_256Update]

theorem is384_updates (fresh : PHashSHA2_512) (chunks : List (List Byte)) :
    (chunks.foldl zcryptoHashSha2_512Update fresh).is384 = fresh.is384 := by
  rw [foldl_zcryptoHashSha2_512Update]

theorem sha2_256Funcs_streams {create : Bool → Option PHashSHA2_256} {fresh : PHashSHA2_256}
    {D : List Byte → List Byte} {n : Nat}
    (created : create true = some fresh) (short : n ≤ 32)
    (digest : ∀ chunks, Counted chunks →
      (zcryptoHashSha2_256Digest (zcryptoHashSha2_256Finish (chunks.foldl zcryptoHashSha2_256Update fresh))).take n =
        D chunks.flatten)
    (restored : ∀ ctx : PHashSHA2_256, ctx.is224 = fresh.is224 → zcryptoHashSha2_256Reset ctx = fresh) :
    Streams (sha2_256Funcs create) D n fresh Counted :=
  streams_hashFuncs PHashSHA2_256.is224 created (fun ctx => short.trans (length_sha2_256Digest ctx).ge) digest
    (fun chunks _ => is224_updates fresh chunks) (fun _ => rfl) restored

theorem sha2_512Funcs_streams {create : Bool → Option PHashSHA2_512} {fresh : PHashSHA2_512}
    {D : List Byte → List Byte} {n : Nat}
    (created : create true = some fresh) (short : n ≤ 64)
    (digest : ∀ chunks, Counted chunks →
      (zcryptoHashSha2_512Digest (zcryptoHashSha2_512Finish (chunks.foldl zcryptoHashSha2_512Update fresh))).take n =
        D chunks.flatten)
    (restored : ∀ ctx : PHashSHA2_512, ctx.is384 = fresh.is384 → zcryptoHashSha2_512Reset ctx = fresh) :
    Streams (sha2_512Funcs create) D n fresh Counted :=
  streams_hashFuncs PHashSHA2_512.is384 created (fun ctx => short.trans (length_sha2_512Digest ctx).ge) digest
    (fun chunks _ => is384_updates fresh chunks) (fun _ => rfl) restored

theorem sha2_224_streams :
    Streams (sha2_256Funcs zcryptoHashSha2_224New) Fips180.sha224 28
      ⟨blockReset ((Fips180.squareRoots 64 8).map fun x => x.setWidth 32), true⟩ Counted := by
  refine sha2_256Funcs_streams zcryptoHashSha2_224New_eq (by decide) (fun chunks fed => take_sha224 fed.short fed.fit) ?_
  rintro ⟨block, is224⟩ rfl
  exact Option.some.inj zcryptoHashSha2_224New_eq

theorem sha2_256_streams :
    Streams (sha2_256Funcs zcryptoHashSha2_256New) Fips180.sha256 32 ⟨blockReset (Fips180.squareRoots 32 0), false⟩ Counted := by
  refine sha2_256Funcs_streams zcryptoHashSha2_256New_eq (by decide) (fun chunks fed => take_sha256 fed.short fed.fit) ?_
  rintro ⟨block, is224⟩ rfl
  exact Option.some.inj zcryptoHashSha2_256New_eq

theorem Counted.wide {chunks : List (List Byte)} (fed : Counted chunks) :
    chunks.flatten.length < 2 ^ 122 ∧ ∀ chunk ∈ chunks, chunk.length < 2 ^ 64 :=
  ⟨fed.short.trans (by decide), fun chunk inside => (fed.fit chunk inside).trans (by decide)⟩

theorem sha2_384_streams :
    Streams (sha2_512Funcs zcryptoHashSha2_384New) Fips180.sha384 48 ⟨blockReset (Fips180.squareRoots 64 8), true⟩ Counted := by
  refine sha2_512Funcs_streams zcryptoHashSha2_384New_eq (by decide) (fun chunks fed => take_sha384 fed.wide.1 fed.wide.2) ?_
  rintro ⟨block, is384⟩ rfl
  exact Option.some.inj zcryptoHashSha2_384New_eq

theorem sha2_512_streams :
    Streams (sha2_512Funcs zcryptoHashSha2_512New) Fips180.sha512 64 ⟨blockReset (Fips180.squareRoots 64 0), false⟩ Counted := by
  refine sha2_512Funcs_streams zcryptoHashSha2_512New_eq (by decide) (fun chunks fed => take_sha512 fed.wide.1 fed.wide.2) ?_
  rintro ⟨block, is384⟩ rfl
  exact Option.some.inj zcryptoHashSha2_512New_eq

/-! ## SHA-3 -/

theorem finish_blockSize (ctx : PHashSHA3) : (zcryptoHashSha3Finish ctx).blockSize = ctx.blockSize :=
  Keccak.process_blockSize _

theorem sha3_streams {bits : PUInt} {rate d : Nat} (size : ((1600 - bits * 2) / 8).toNat = rate)
    (good : Keccak.Rate rate) (capacity : 8 * rate = 1600 - 2 * d) (short : d < 8 * rate) (whole : d % 8 = 0) :
    Streams (sha3Funcs fun malloc => pzcryptoHashSha3NewInternal malloc bits) (Fips202.digest d) (d / 8)
      ⟨Vector.replicate 25 0, Vector.replicate 25 0, 0, (1600 - bits * 2) / 8⟩ Counted := by
  have fresh := absorbed_new size
  have fit : ∀ {chunks : List (List Byte)}, Counted chunks → ∀ chunk ∈ chunks, chunk.length < 2 ^ 63 :=
    fun fed chunk inside => (fed.fit chunk inside).trans (by decide)
  refine streams_hashFuncs PHashSHA3.blockSize (if_pos rfl) ?_ ?_ ?_ finish_blockSize ?_
  · intro ctx
    have words := good.fits
    rw [zcryptoHashSha3Digest, length_unparse]
    omega
  · intro chunks fed
    have digest := bitsOf_digest fresh good capacity short whole (fit fed)
    rw [Fips202.digest, ← digest, Keccak.octets_bitsOf]
  · intro chunks fed
    exact BitVec.eq_of_toNat_eq ((fresh.updates good (fit fed)).size.trans fresh.size.symm)
  · intro ctx same
    rw [zcryptoHashSha3Reset, same]

/-! ## GOST R 34.11-94 -/

/-- The digest of a message in one update. -/
def gost3411Digest (message : List Byte) : List Byte :=
  zcryptoHashGost3411Digest (zcryptoHashGost3411Finish
    (zcryptoHashGost3411Update
      ⟨Vector.replicate 8 0, Vector.replicate 8 0, Vector.replicate 8 0, Vector.replicate 8 0⟩ message))

theorem gost_streams :
    Streams gost3411Funcs gost3411Digest 32
      ⟨Vector.replicate 8 0, Vector.replicate 8 0, Vector.replicate 8 0, Vector.replicate 8 0⟩ Counted := by
  have long : ∀ ctx, (zcryptoHashGost3411Digest ctx).length = 32 := fun ctx => length_unparse _
  refine streams_hashFuncs (fun _ => ()) rfl (fun ctx => (long ctx).ge) ?_ (fun _ _ => rfl) (fun _ => rfl) fun _ _ => rfl
  intro chunks fed
  have fresh := Gost3411.absorbed_reset
    ⟨Vector.replicate 8 0, Vector.replicate 8 0, Vector.replicate 8 0, Vector.replicate 8 0⟩
  have pieces := fresh.updates fed.fit
  have room : chunks.flatten.length < 2 ^ 32 ∨ ([] : List Byte).length + chunks.flatten.length < 2 ^ 61 :=
    .inr (by simpa using fed.short)
  have once := fresh.update fed.short room (.inl rfl)
  rw [List.take_of_length_le (long _).le, gost3411Digest]
  exact congrArg unparse (pieces.finish_hash once)

/-- The digest by type: that of the standard, or for GOST what the code makes of the message in
    one update. -/
def digestOf : PCryptoHashType → List Byte → List Byte
  | .md5 => Rfc1321.md5
  | .sha1 => Fips180.Sha1.sha1
  | .sha2_224 => Fips180.sha224
  | .sha2_256 => Fips180.sha256
  | .sha2_384 => Fips180.sha384
  | .sha2_512 => Fips180.sha512
  | .sha3_224 => Fips202.digest 224
  | .sha3_256 => Fips202.digest 256
  | .sha3_384 => Fips202.digest 384
  | .sha3_512 => Fips202.digest 512
  | .gost => gost3411Digest

/-- The algorithm of every type computes a digest in chunks. -/
theorem algorithms_stream (type : PCryptoHashType) :
    ∃ fresh, Streams (algorithms type) (digestOf type) type.hashLen.toNat fresh Counted := by
  cases type with
  | md5 => exact ⟨_, md5_streams⟩
  | sha1 => exact ⟨_, sha1_streams⟩
  | sha2_224 => exact ⟨_, sha2_224_streams⟩
  | sha2_256 => exact ⟨_, sha2_256_streams⟩
  | sha2_384 => exact ⟨_, sha2_384_streams⟩
  | sha2_512 => exact ⟨_, sha2_512_streams⟩
  | sha3_224 => exact ⟨_, sha3_streams (show _ = 144 by decide) ⟨by decide, by decide, by decide⟩ rfl (by decide) rfl⟩
  | sha3_256 => exact ⟨_, sha3_streams (show _ = 136 by decide) ⟨by decide, by decide, by decide⟩ rfl (by decide) rfl⟩
  | sha3_384 => exact ⟨_, sha3_streams (show _ = 104 by decide) ⟨by decide, by decide, by decide⟩ rfl (by decide) rfl⟩
  | sha3_512 => exact ⟨_, sha3_streams (show _ = 72 by decide) ⟨by decide, by decide, by decide⟩ rfl (by decide) rfl⟩
  | gost => exact ⟨_, gost_streams⟩

end Plibsys.Crypto
