import Plibsys.Support.BlockStream
import Plibsys.Support.ByteWords

/-! # Hashes that chain a compression function

A message is padded to whole blocks of sixteen words: a bit, zeros, and the length of the
message in bits as a number of two words.  The blocks are chained through a compression
function.  Words and the length are stored with the low byte first or with the high byte
first.
-/

namespace Plibsys.Support

/-- The bytes of a number in the order in which they are stored. -/
def inOrder (big : Bool) (bytes : List (BitVec 8)) : List (BitVec 8) := if big then bytes.reverse else bytes

@[simp] theorem length_inOrder (big : Bool) (bytes : List (BitVec 8)) : (inOrder big bytes).length = bytes.length := by
  cases big <;> simp [inOrder]

@[simp] theorem inOrder_inOrder (big : Bool) (bytes : List (BitVec 8)) : inOrder big (inOrder big bytes) = bytes := by
  cases big <;> simp [inOrder]

/-- The sixteen words of a block. -/
def blockWords (big : Bool) (w : Nat) (block : List (BitVec 8)) : Vector (BitVec w) 16 :=
  Vector.ofFn fun i => wordOf w (inOrder big ((block.drop (i * (w / 8))).take (w / 8)))

/-- The number of zeros after the first bit: the fewest that make the blocks whole. -/
def zeroCount (w len : Nat) : Nat := (2 * w - (len + 1 + w / 4) % (2 * w)) % (2 * w)

/-- What follows a message of the given length. -/
def padding (big : Bool) (w len : Nat) : List (BitVec 8) :=
  0x80 :: (List.replicate (zeroCount w len) 0 ++ inOrder big (encode (w / 4) (8 * len)))

/-- The blocks are chained from an initial value. -/
def chain {w n : Nat} (big : Bool) (compress : Vector (BitVec w) n → Vector (BitVec w) 16 → Vector (BitVec w) n)
    (initial : Vector (BitVec w) n) (message : List (BitVec 8)) : Vector (BitVec w) n :=
  (blocks (2 * w) message).foldl (fun hash block => compress hash (blockWords big w block)) initial

section Chain

variable {w n : Nat} {big : Bool} {compress : Vector (BitVec w) n → Vector (BitVec w) 16 → Vector (BitVec w) n}
  {initial : Vector (BitVec w) n} {block message : List (BitVec 8)}

theorem chain_block (positive : 0 < 2 * w) (whole : block.length = 2 * w) :
    chain big compress initial block = compress initial (blockWords big w block) :=
  absorb_block positive whole

theorem chain_append (positive : 0 < 2 * w) (message piece : List (BitVec 8)) :
    chain big compress initial (message ++ piece) =
      chain big compress (chain big compress initial message) (leftover (2 * w) message ++ piece) :=
  absorb_append positive message piece

end Chain

/-- The hash of a message as words. -/
def merkleDamgard {w n : Nat} (big : Bool)
    (compress : Vector (BitVec w) n → Vector (BitVec w) 16 → Vector (BitVec w) n) (initial : Vector (BitVec w) n)
    (message : List (BitVec 8)) : Vector (BitVec w) n :=
  chain big compress initial (message ++ padding big w message.length)

/-- The bytes of the words of a hash. -/
def hashBytes {w n : Nat} (big : Bool) (hash : Vector (BitVec w) n) : List (BitVec 8) :=
  hash.toList.flatMap fun x => inOrder big (bytesOf x)

@[simp] theorem length_hashBytes {w n : Nat} (big : Bool) (hash : Vector (BitVec w) n) :
    (hashBytes big hash).length = n * (w / 8) := by
  simp [hashBytes, List.length_flatMap]

end Plibsys.Support
