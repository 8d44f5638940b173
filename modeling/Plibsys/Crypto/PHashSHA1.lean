import Plibsys.ByteOrder
import Plibsys.Crypto.BlockHash
import Plibsys.Support.RotatingNames

/-! # `PHashSHA1`

`pcryptohash-sha1.c` on a little-endian host.
-/

namespace Plibsys.Crypto

open Support

abbrev PHashSHA1 := BlockContext 32 5

namespace Sha1

/-- `P_SHA1_ROTL` -/
def rotl (val : BitVec 32) (shift : Nat) : BitVec 32 := (val <<< shift) ||| (val >>> (32 - shift))

/-- `P_SHA1_F1` -/
def f1 (x y z : BitVec 32) : BitVec 32 := (x &&& y) ||| (~~~x &&& z)

/-- `P_SHA1_F2` -/
def f2 (x y z : BitVec 32) : BitVec 32 := x ^^^ y ^^^ z

/-- `P_SHA1_F3` -/
def f3 (x y z : BitVec 32) : BitVec 32 := (x &&& y) ||| (x &&& z) ||| (y &&& z)

/-- The element of `W` for an index. -/
def slot (i : Nat) : Fin 16 := Fin.ofNat 16 (i &&& 0x0F)

/-- `P_SHA1_W`: the word, and the array with it. -/
def expand (w : Vector (BitVec 32) 16) (i : Nat) : BitVec 32 × Vector (BitVec 32) 16 :=
  let word := rotl (w.get (slot (i - 3)) ^^^ w.get (slot (i - 8)) ^^^ w.get (slot (i - 14)) ^^^ w.get (slot (i - 16))) 1
  (word, write w (slot i) word)

/-- The macros `P_SHA1_ROUND_0` to `P_SHA1_ROUND_3`. -/
inductive Round where
  | round0
  | round1
  | round2
  | round3
  deriving Repr, DecidableEq

def Round.function : Round → BitVec 32 → BitVec 32 → BitVec 32 → BitVec 32
  | round0 => f1
  | round1 => f2
  | round2 => f3
  | round3 => f2

def Round.constant : Round → BitVec 32
  | round0 => 0x5A827999
  | round1 => 0x6ED9EBA1
  | round2 => 0x8F1BBCDC
  | round3 => 0xCA62C1D6

/-- The last argument of a macro: `W[i]` or `P_SHA1_W (W, i)`. -/
inductive Word where
  | plain (i : Fin 16)
  | next (i : Nat)
  deriving Repr, DecidableEq

def Word.fetch (w : Vector (BitVec 32) 16) : Word → BitVec 32 × Vector (BitVec 32) 16
  | plain i => (w.get i, w)
  | next i => expand w i

/-- The arguments of a macro. -/
structure Call where
  round : Round
  a : Fin 5
  b : Fin 5
  c : Fin 5
  d : Fin 5
  e : Fin 5
  word : Word
  deriving Repr, DecidableEq

/-- The variables of `pzcrypto_hash_sha1_process`. -/
structure State where
  registers : Vector (BitVec 32) 5
  w : Vector (BitVec 32) 16

/-- One call of a macro. -/
def Call.run (state : State) (call : Call) : State :=
  let registers := state.registers
  let (word, w) := call.word.fetch state.w
  let sum := registers.get call.e +
    (rotl (registers.get call.a) 5 +
      call.round.function (registers.get call.b) (registers.get call.c) (registers.get call.d) +
      call.round.constant + word)
  let registers := write registers call.e sum
  ⟨write registers call.b (rotl (registers.get call.b) 30), w⟩

def A : Fin 5 := 0

def B : Fin 5 := 1

def C : Fin 5 := 2

def D : Fin 5 := 3

def E : Fin 5 := 4

/-- The 80 calls of `pzcrypto_hash_sha1_process`. -/
def calls : List Call :=
  [⟨.round0, A, B, C, D, E, .plain 0⟩, ⟨.round0, E, A, B, C, D, .plain 1⟩, ⟨.round0, D, E, A, B, C, .plain 2⟩,
    ⟨.round0, C, D, E, A, B, .plain 3⟩, ⟨.round0, B, C, D, E, A, .plain 4⟩, ⟨.round0, A, B, C, D, E, .plain 5⟩,
    ⟨.round0, E, A, B, C, D, .plain 6⟩, ⟨.round0, D, E, A, B, C, .plain 7⟩, ⟨.round0, C, D, E, A, B, .plain 8⟩,
    ⟨.round0, B, C, D, E, A, .plain 9⟩, ⟨.round0, A, B, C, D, E, .plain 10⟩, ⟨.round0, E, A, B, C, D, .plain 11⟩,
    ⟨.round0, D, E, A, B, C, .plain 12⟩, ⟨.round0, C, D, E, A, B, .plain 13⟩, ⟨.round0, B, C, D, E, A, .plain 14⟩,
    ⟨.round0, A, B, C, D, E, .plain 15⟩, ⟨.round0, E, A, B, C, D, .next 16⟩, ⟨.round0, D, E, A, B, C, .next 17⟩,
    ⟨.round0, C, D, E, A, B, .next 18⟩, ⟨.round0, B, C, D, E, A, .next 19⟩, ⟨.round1, A, B, C, D, E, .next 20⟩,
    ⟨.round1, E, A, B, C, D, .next 21⟩, ⟨.round1, D, E, A, B, C, .next 22⟩, ⟨.round1, C, D, E, A, B, .next 23⟩,
    ⟨.round1, B, C, D, E, A, .next 24⟩, ⟨.round1, A, B, C, D, E, .next 25⟩, ⟨.round1, E, A, B, C, D, .next 26⟩,
    ⟨.round1, D, E, A, B, C, .next 27⟩, ⟨.round1, C, D, E, A, B, .next 28⟩, ⟨.round1, B, C, D, E, A, .next 29⟩,
    ⟨.round1, A, B, C, D, E, .next 30⟩, ⟨.round1, E, A, B, C, D, .next 31⟩, ⟨.round1, D, E, A, B, C, .next 32⟩,
    ⟨.round1, C, D, E, A, B, .next 33⟩, ⟨.round1, B, C, D, E, A, .next 34⟩, ⟨.round1, A, B, C, D, E, .next 35⟩,
    ⟨.round1, E, A, B, C, D, .next 36⟩, ⟨.round1, D, E, A, B, C, .next 37⟩, ⟨.round1, C, D, E, A, B, .next 38⟩,
    ⟨.round1, B, C, D, E, A, .next 39⟩, ⟨.round2, A, B, C, D, E, .next 40⟩, ⟨.round2, E, A, B, C, D, .next 41⟩,
    ⟨.round2, D, E, A, B, C, .next 42⟩, ⟨.round2, C, D, E, A, B, .next 43⟩, ⟨.round2, B, C, D, E, A, .next 44⟩,
    ⟨.round2, A, B, C, D, E, .next 45⟩, ⟨.round2, E, A, B, C, D, .next 46⟩, ⟨.round2, D, E, A, B, C, .next 47⟩,
    ⟨.round2, C, D, E, A, B, .next 48⟩, ⟨.round2, B, C, D, E, A, .next 49⟩, ⟨.round2, A, B, C, D, E, .next 50⟩,
    ⟨.round2, E, A, B, C, D, .next 51⟩, ⟨.round2, D, E, A, B, C, .next 52⟩, ⟨.round2, C, D, E, A, B, .next 53⟩,
    ⟨.round2, B, C, D, E, A, .next 54⟩, ⟨.round2, A, B, C, D, E, .next 55⟩, ⟨.round2, E, A, B, C, D, .next 56⟩,
    ⟨.round2, D, E, A, B, C, .next 57⟩, ⟨.round2, C, D, E, A, B, .next 58⟩, ⟨.round2, B, C, D, E, A, .next 59⟩,
    ⟨.round3, A, B, C, D, E, .next 60⟩, ⟨.round3, E, A, B, C, D, .next 61⟩, ⟨.round3, D, E, A, B, C, .next 62⟩,
    ⟨.round3, C, D, E, A, B, .next 63⟩, ⟨.round3, B, C, D, E, A, .next 64⟩, ⟨.round3, A, B, C, D, E, .next 65⟩,
    ⟨.round3, E, A, B, C, D, .next 66⟩, ⟨.round3, D, E, A, B, C, .next 67⟩, ⟨.round3, C, D, E, A, B, .next 68⟩,
    ⟨.round3, B, C, D, E, A, .next 69⟩, ⟨.round3, A, B, C, D, E, .next 70⟩, ⟨.round3, E, A, B, C, D, .next 71⟩,
    ⟨.round3, D, E, A, B, C, .next 72⟩, ⟨.round3, C, D, E, A, B, .next 73⟩, ⟨.round3, B, C, D, E, A, .next 74⟩,
    ⟨.round3, A, B, C, D, E, .next 75⟩, ⟨.round3, E, A, B, C, D, .next 76⟩, ⟨.round3, D, E, A, B, C, .next 77⟩,
    ⟨.round3, C, D, E, A, B, .next 78⟩, ⟨.round3, B, C, D, E, A, .next 79⟩]

end Sha1

/-- `pzcrypto_hash_sha1_process` -/
def pzcryptoHashSha1Process (hash : Vector (BitVec 32) 5) (data : Vector (BitVec 32) 16) : Vector (BitVec 32) 5 :=
  let state := Sha1.calls.foldl Sha1.Call.run ⟨hash, data⟩
  Vector.zipWith (· + ·) hash state.registers

def sha1Algorithm : BlockAlgorithm 32 5 where
  swazbyte := puint32SwapBytes
  process := pzcryptoHashSha1Process
  lengthWords low high := (high, low)
  digestWords := 5

/-- `zcrypto_hash_sha1_reset` -/
def zcryptoHashSha1Reset : PHashSHA1 :=
  blockReset #v[0x67452301, 0xEFCDAB89, 0x98BADCFE, 0x10325476, 0xC3D2E1F0]

/-- `zcrypto_hash_sha1_new`, with the outcome of its allocation. -/
def zcryptoHashSha1New (malloc : Bool) : Option PHashSHA1 := if malloc then some zcryptoHashSha1Reset else none

/-- `zcrypto_hash_sha1_update` -/
def zcryptoHashSha1Update (ctx : PHashSHA1) (data : List Byte) : PHashSHA1 := blockUpdate sha1Algorithm ctx data

/-- `zcrypto_hash_sha1_finish` -/
def zcryptoHashSha1Finish (ctx : PHashSHA1) : PHashSHA1 := blockFinish sha1Algorithm ctx

/-- `zcrypto_hash_sha1_digest` -/
def zcryptoHashSha1Digest (ctx : PHashSHA1) : List Byte := blockDigest ctx

end Plibsys.Crypto
