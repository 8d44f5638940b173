import Plibsys.Support.ByteWords
import Plibsys.Types

/-! # Hashes over blocks of sixteen words

What `pcryptohash-md5.c`, `pcryptohash-sha1.c`, `pcryptohash-sha2-256.c` and
`pcryptohash-sha2-512.c` have in common, on a little-endian host: the context, and the texts
of the functions `update` and `finish`.  A word has `w` bits, 32 or 64, so a block has `2 * w`
bytes, and the last `w / 4` bytes of the last block are the length of the message.
-/

namespace Plibsys.Crypto

open Support

/-- The union of the buffer is an array of words; its bytes are the other view of it. -/
structure BlockContext (w n : Nat) where
  buf : Vector (BitVec w) 16
  hash : Vector (BitVec w) n
  lenHigh : BitVec w
  lenLow : BitVec w

/-- What one of the algorithms adds. -/
structure BlockAlgorithm (w n : Nat) where
  /-- What `swazbytes` does to one word. -/
  swazbyte : BitVec w → BitVec w
  process : Vector (BitVec w) n → Vector (BitVec w) 16 → Vector (BitVec w) n
  /-- The words at 14 and 15 for the low and the high word of the length. -/
  lengthWords : BitVec w → BitVec w → BitVec w × BitVec w
  /-- How many words of the hash `finish` brings into byte order. -/
  digestWords : Nat

/-- `swazbytes` on the first words of an array. -/
def swazbytes {w m : Nat} (swazbyte : BitVec w → BitVec w) (data : Vector (BitVec w) m) (words : Nat) :
    Vector (BitVec w) m :=
  data.mapIdx fun i word => if i < words then swazbyte word else word

/-- The padding: `0x80` and zeros, as long as a block. -/
def blockPad (w : Nat) : List Byte := 0x80 :: List.replicate (2 * w - 1) 0

/-- `reset`, with the initial values of the hash. -/
def blockReset {w n : Nat} (initial : Vector (BitVec w) n) : BlockContext w n := ⟨Vector.replicate 16 0, initial, 0, 0⟩

variable {w n : Nat} (algorithm : BlockAlgorithm w n)

/-- `swazbytes` and `process` on the buffer. -/
def processBuf (ctx : BlockContext w n) : BlockContext w n :=
  let buf := swazbytes algorithm.swazbyte ctx.buf 16
  { ctx with buf := buf, hash := algorithm.process ctx.hash buf }

/-- The loop of `update` over the whole blocks of the data. -/
def updateLoop [NeZero w] (ctx : BlockContext w n) (data : List Byte) : BlockContext w n × List Byte :=
  if 2 * w ≤ data.length then
    updateLoop (processBuf algorithm { ctx with buf := copyBytes ctx.buf 0 (data.take (2 * w)) }) (data.drop (2 * w))
  else
    (ctx, data)
termination_by data.length
decreasing_by
  have := Nat.pos_of_ne_zero (NeZero.ne w)
  rw [List.length_drop]
  omega

/-- The end of `update`: what is left of the data goes into the buffer. -/
def keepRest (ctx : BlockContext w n) (left : Nat) (data : List Byte) : BlockContext w n :=
  if 0 < data.length then { ctx with buf := copyBytes ctx.buf left data } else ctx

/-- `update`; the length of the data is cut to the width of the counters where the code casts
    it. -/
def blockUpdate [NeZero w] (ctx : BlockContext w n) (data : List Byte) : BlockContext w n :=
  let left := (ctx.lenLow &&& BitVec.ofNat w (2 * w - 1)).toNat
  let toFill := 2 * w - left
  let len := BitVec.ofNat w data.length
  let lenLow := ctx.lenLow + len
  let lenHigh := if lenLow < len then ctx.lenHigh + 1 else ctx.lenHigh
  let ctx := { ctx with lenLow := lenLow, lenHigh := lenHigh }
  if left ≠ 0 ∧ toFill ≤ len.toNat then
    let ctx := processBuf algorithm { ctx with buf := copyBytes ctx.buf left (data.take toFill) }
    let rest := updateLoop algorithm ctx (data.drop toFill)
    keepRest rest.1 0 rest.2
  else
    let rest := updateLoop algorithm ctx data
    keepRest rest.1 left rest.2

/-- `finish` -/
def blockFinish [NeZero w] (ctx : BlockContext w n) : BlockContext w n :=
  let left := (ctx.lenLow &&& BitVec.ofNat w (2 * w - 1)).toNat
  -- 56 and 120 for blocks of 64 bytes, 112 and 240 for blocks of 128 bytes.
  let last := if left < 2 * w - w / 4 then 2 * w - w / 4 - left else 4 * w - w / 4 - left
  let low := ctx.lenLow <<< 3
  let high := ctx.lenHigh <<< 3 ||| ctx.lenLow >>> (w - 3)
  let ctx := if 0 < last then blockUpdate algorithm ctx ((blockPad w).take last) else ctx
  let (at14, at15) := algorithm.lengthWords low high
  let buf := (ctx.buf.set 14 at14).set 15 at15
  let buf := swazbytes algorithm.swazbyte buf 14
  let hash := algorithm.process ctx.hash buf
  { ctx with buf := buf, hash := swazbytes algorithm.swazbyte hash algorithm.digestWords }

/-- `digest`: the memory of the hash. -/
def blockDigest (ctx : BlockContext w n) : List Byte := unparse ctx.hash

end Plibsys.Crypto
