import Plibsys.Crypto.BlockHash
import Plibsys.Support.Buffering
import Plibsys.Support.MerkleDamgard

/-! # Updates in pieces

However a message is split into updates, the context has chained the whole blocks of the
message so far, keeps what they leave over in its buffer and has counted all bytes.  The
padding goes through `update` as well, so the last blocks follow from the same statement.
-/

namespace Plibsys.Crypto

open Support

/-- The algorithm reads and writes its words with the low or with the high byte first. -/
structure InByteOrder {w n : Nat} (algorithm : BlockAlgorithm w n) (big : Bool) : Prop where
  swazbyte : ∀ bytes : List Byte, bytes.length = w / 8 → algorithm.swazbyte (wordOf w bytes) = wordOf w (inOrder big bytes)
  lengthWords : ∀ low high, algorithm.lengthWords low high = if big then (high, low) else (low, high)

section Stream

variable {w n : Nat} [NeZero w] {algorithm : BlockAlgorithm w n} {big : Bool} {initial : Vector (BitVec w) n}
  {ctx : BlockContext w n} {message data : List Byte}

/-- What a context knows of the message so far. -/
structure Chained (algorithm : BlockAlgorithm w n) (big : Bool) (initial : Vector (BitVec w) n) (ctx : BlockContext w n)
    (message : List Byte) : Prop where
  counted : ctx.lenHigh.toNat * 2 ^ w + ctx.lenLow.toNat = message.length % (2 ^ w * 2 ^ w)
  hash : ctx.hash = chain big algorithm.process initial message
  buffered : (unparse ctx.buf).take (message.length % (2 * w)) = leftover (2 * w) message

omit [NeZero w] in
theorem chained_reset : Chained algorithm big initial (blockReset initial) [] := by
  refine ⟨?_, ?_, ?_⟩
  · simp [blockReset]
  · simp [blockReset, chain, blocks]
  · simp [leftover]

variable (wide : w = 32 ∨ w = 64)

include wide

omit [NeZero w] in
theorem octets_of_wide : w / 8 * 8 = w := by
  obtain rfl | rfl := wide <;> rfl

omit [NeZero w] in
theorem block_bytes_of_wide : 16 * (w / 8) = 2 * w := by
  obtain rfl | rfl := wide <;> rfl

omit [NeZero w] in
/-- The position in the block, from the low word of the counter. -/
theorem left_eq {lenHigh lenLow : BitVec w} {len : Nat}
    (counted : lenHigh.toNat * 2 ^ w + lenLow.toNat = len % (2 ^ w * 2 ^ w)) :
    (lenLow &&& BitVec.ofNat w (2 * w - 1)).toNat = len % (2 * w) := by
  obtain rfl | rfl := wide
  · rw [BitVec.toNat_and, show (BitVec.ofNat 32 (2 * 32 - 1)).toNat = 2 ^ 6 - 1 from rfl,
      Nat.and_two_pow_sub_one_eq_mod]
    omega
  · rw [BitVec.toNat_and, show (BitVec.ofNat 64 (2 * 64 - 1)).toNat = 2 ^ 7 - 1 from rfl,
      Nat.and_two_pow_sub_one_eq_mod]
    omega

variable (order : InByteOrder algorithm big)

include order

omit [NeZero w] in
/-- Processing the buffer chains the block that it holds. -/
theorem processBuf_hash {block : List Byte} (whole : block.length = 2 * w) (holds : unparse ctx.buf = block) :
    (processBuf algorithm ctx).hash = algorithm.process ctx.hash (blockWords big w block) := by
  have octets := octets_of_wide wide
  show algorithm.process ctx.hash (swazbytes algorithm.swazbyte ctx.buf 16) = _
  congr 1
  apply Vector.ext
  intro i below
  have inside : (i + 1) * (w / 8) ≤ block.length := by
    rw [whole, ← block_bytes_of_wide wide]
    exact Nat.mul_le_mul_right _ below
  rw [Nat.succ_mul] at inside
  rw [swazbytes, Vector.getElem_mapIdx, if_pos below, ← wordAt_unparse octets ctx.buf below, holds, wordAt,
    order.swazbyte _ (by rw [List.length_take, List.length_drop]; omega), blockWords, Vector.getElem_ofFn]

omit wide order [NeZero w] in
@[simp] theorem keepRest_hash (ctx : BlockContext w n) (left : Nat) (data : List Byte) :
    (keepRest ctx left data).hash = ctx.hash := by
  unfold keepRest
  split <;> rfl

omit wide order [NeZero w] in
theorem keepRest_counters (ctx : BlockContext w n) (left : Nat) (data : List Byte) :
    ((keepRest ctx left data).lenHigh, (keepRest ctx left data).lenLow) = (ctx.lenHigh, ctx.lenLow) := by
  unfold keepRest
  split <;> rfl

omit order [NeZero w] in
/-- What is in the buffer up to the end of the data that was kept. -/
theorem take_keepRest (ctx : BlockContext w n) {left : Nat} {data : List Byte} (inside : left + data.length ≤ 2 * w) :
    (unparse (keepRest ctx left data).buf).take (left + data.length) = (unparse ctx.buf).take left ++ data := by
  have room := block_bytes_of_wide wide
  unfold keepRest
  split
  · exact take_copyBytes (octets_of_wide wide) ctx.buf (by omega)
  · next empty =>
      rw [List.length_eq_zero_iff.mp (by omega : data.length = 0), List.length_nil, Nat.add_zero, List.append_nil]

/-! ## The moves of `update` -/

omit wide order in
/-- Blocks are chained in the buffer. -/
def blockMoves (algorithm : BlockAlgorithm w n) (big : Bool) : Buffering (BlockContext w n) Byte (Vector (BitVec w) n) where
  size := 2 * w
  step hash block := algorithm.process hash (blockWords big w block)
  usable _ := True
  state ctx := ctx.hash
  buffer ctx := unparse ctx.buf
  fill ctx left piece := processBuf algorithm { ctx with buf := copyBytes ctx.buf left piece }
  loop := updateLoop algorithm
  keep := keepRest

theorem blockMoves_lawful : (blockMoves algorithm big).Lawful where
  positive := Nat.mul_pos (by decide) (Nat.pos_of_ne_zero (NeZero.ne w))
  usable_fill _ _ _ := trivial
  usable_keep _ _ _ := trivial
  state_fill := by
    intro ctx left piece _ whole
    have octets := octets_of_wide wide
    have room := block_bytes_of_wide wide
    have filled : left + piece.length = 2 * w := whole
    refine processBuf_hash wide order ?_ ?_
    · rw [List.length_append, List.length_take_of_le (by rw [blockMoves, length_unparse]; omega), filled]
    · rw [unparse_copyBytes octets _ (by omega), patched, List.drop_of_length_le (by rw [length_unparse]; omega),
        List.append_nil]
      rfl
  state_keep := keepRest_hash
  buffer_keep _ inside := take_keepRest wide _ inside
  loop_eq := by
    intro ctx data _
    show updateLoop algorithm ctx data = _
    rw [updateLoop]
    rfl

omit wide order [NeZero w] in
/-- A context that has counted some more bytes. -/
def countBytes (ctx : BlockContext w n) (len : BitVec w) : BlockContext w n :=
  { ctx with
    lenLow := ctx.lenLow + len
    lenHigh := if ctx.lenLow + len < len then ctx.lenHigh + 1 else ctx.lenHigh }

omit wide order in
theorem blockUpdate_eq (big : Bool) (ctx : BlockContext w n) (data : List Byte) :
    blockUpdate algorithm ctx data =
      (blockMoves algorithm big).update (countBytes ctx (BitVec.ofNat w data.length))
        (ctx.lenLow &&& BitVec.ofNat w (2 * w - 1)).toNat (BitVec.ofNat w data.length).toNat data :=
  rfl

omit wide order [NeZero w] in
/-- The counters of `update`. -/
theorem counted_update {lenHigh lenLow : BitVec w} {total len : Nat} (fits : len < 2 ^ w) (positive : 0 < w)
    (counted : lenHigh.toNat * 2 ^ w + lenLow.toNat = total % (2 ^ w * 2 ^ w)) :
    (if lenLow + BitVec.ofNat w len < BitVec.ofNat w len then lenHigh + 1 else lenHigh).toNat * 2 ^ w +
      (lenLow + BitVec.ofNat w len).toNat = (total + len) % (2 ^ w * 2 ^ w) := by
  have exact : (BitVec.ofNat w len).toNat = len := by rw [BitVec.toNat_ofNat, Nat.mod_eq_of_lt fits]
  have carried := carry_add lenLow.isLt lenHigh.isLt fits counted
  have one : (1 : BitVec w).toNat = 1 := BitVec.toNat_one positive
  simpa only [apply_ite BitVec.toNat, BitVec.lt_def, BitVec.toNat_add, exact, one] using carried

omit wide order in
/-- An update counts the length as far as the cast keeps it. -/
theorem counters_update (lawful : (blockMoves algorithm big).Lawful) (ctx : BlockContext w n) (data : List Byte) :
    (blockUpdate algorithm ctx data).lenHigh = (countBytes ctx (BitVec.ofNat w data.length)).lenHigh ∧
      (blockUpdate algorithm ctx data).lenLow = (countBytes ctx (BitVec.ofNat w data.length)).lenLow := by
  let counters (ctx : BlockContext w n) := (ctx.lenHigh, ctx.lenLow)
  have fills : ∀ ctx left piece, counters ((blockMoves algorithm big).fill ctx left piece) = counters ctx :=
    fun ctx _ _ => by simp only [blockMoves, processBuf, counters]
  have keeps : ∀ ctx left piece, counters ((blockMoves algorithm big).keep ctx left piece) = counters ctx := keepRest_counters
  have same := lawful.update_frame data fills keeps (c := countBytes ctx (BitVec.ofNat w data.length)) trivial
    (ctx.lenLow &&& BitVec.ofNat w (2 * w - 1)).toNat (BitVec.ofNat w data.length).toNat
  rw [← blockUpdate_eq] at same
  exact Prod.mk.inj same

theorem Chained.update (so : Chained algorithm big initial ctx message) (fits : data.length < 2 ^ w) :
    Chained algorithm big initial (blockUpdate algorithm ctx data) (message ++ data) := by
  have lawful := blockMoves_lawful wide order
  obtain ⟨high, low⟩ := counters_update lawful ctx data
  have counted := counted_update fits (by omega) so.counted
  rw [← List.length_append] at counted
  have exact : (BitVec.ofNat w data.length).toNat = data.length := by rw [BitVec.toNat_ofNat, Nat.mod_eq_of_lt fits]
  have holds : (blockMoves algorithm big).Holds initial (countBytes ctx (BitVec.ofNat w data.length)) message :=
    ⟨trivial, so.hash, so.buffered⟩
  have on : message.length % (2 * w) = 0 ∨ data.length < 2 * w - message.length % (2 * w) ∨
      2 * w - message.length % (2 * w) ≤ (BitVec.ofNat w data.length).toNat := by
    rw [exact]
    omega
  have next := holds.update lawful data (Nat.le_of_eq exact) on
  have moved : blockUpdate algorithm ctx data = (blockMoves algorithm big).update
      (countBytes ctx (BitVec.ofNat w data.length)) (message.length % (2 * w)) (BitVec.ofNat w data.length).toNat data := by
    rw [blockUpdate_eq big, left_eq wide so.counted]
  refine ⟨?_, ?_, ?_⟩
  · rw [high, low]
    exact counted
  · rw [moved]
    exact next.state
  · rw [moved]
    exact next.buffered

omit wide order [NeZero w] in
/-- The high word of a number of two words that is shifted by three bits. -/
theorem toNat_high_shifted (bits : 3 ≤ w) (lenHigh lenLow : BitVec w) :
    (lenHigh <<< 3 ||| lenLow >>> (w - 3)).toNat = lenHigh.toNat * 2 ^ 3 % 2 ^ w + lenLow.toNat / 2 ^ (w - 3) := by
  have parts : 2 ^ w = 2 ^ 3 * 2 ^ (w - 3) := by rw [← Nat.pow_add, Nat.add_sub_cancel' bits]
  have top : lenLow.toNat / 2 ^ (w - 3) < 2 ^ 3 := by
    rw [Nat.div_lt_iff_lt_mul (Nat.two_pow_pos _), ← parts]
    exact lenLow.isLt
  have even : lenHigh.toNat * 2 ^ 3 % 2 ^ w = (lenHigh.toNat % 2 ^ (w - 3)) <<< 3 := by
    rw [parts, Nat.mul_comm, Nat.mul_mod_mul_left, Nat.shiftLeft_eq, Nat.mul_comm]
  rw [BitVec.toNat_or, BitVec.toNat_shiftLeft, BitVec.toNat_ushiftRight, Nat.shiftLeft_eq, Nat.shiftRight_eq_div_pow, even,
    Nat.shiftLeft_add_eq_or_of_lt top]

omit order [NeZero w] in
/-- The length of the message in bits, as two words. -/
theorem length_words {lenHigh lenLow : BitVec w} {len : Nat} (bits : 8 * len < 2 ^ w * 2 ^ w)
    (counted : lenHigh.toNat * 2 ^ w + lenLow.toNat = len % (2 ^ w * 2 ^ w)) :
    lenLow <<< 3 = BitVec.ofNat w (8 * len) ∧
      lenHigh <<< 3 ||| lenLow >>> (w - 3) = BitVec.ofNat w (8 * len / 2 ^ w) := by
  have lowSmall := lenLow.isLt
  rw [Nat.mod_eq_of_lt (by omega)] at counted
  constructor <;> apply BitVec.eq_of_toNat_eq
  · rw [BitVec.toNat_shiftLeft, BitVec.toNat_ofNat, Nat.shiftLeft_eq]
    obtain rfl | rfl := wide <;> omega
  · rw [toNat_high_shifted (by omega), BitVec.toNat_ofNat]
    obtain rfl | rfl := wide <;> omega

omit order [NeZero w] in
/-- The field of the length, as the last two words of a block. -/
theorem length_field (big : Bool) (x : Nat) :
    wordOf w (inOrder big ((inOrder big (encode (w / 4) x)).take (w / 8))) =
        (if big then BitVec.ofNat w (x / 2 ^ w) else BitVec.ofNat w x) ∧
      wordOf w (inOrder big ((inOrder big (encode (w / 4) x)).drop (w / 8))) =
        (if big then BitVec.ofNat w x else BitVec.ofNat w (x / 2 ^ w)) := by
  have octets := octets_of_wide wide
  have halves : encode (w / 4) x = encode (w / 8) x ++ encode (w / 8) (x / 2 ^ w) := by
    rw [two_pow_width octets, ← encode_add]
    congr 1
    omega
  rw [halves]
  cases big with
  | false => simp [inOrder, wordOf_encode octets]
  | true => simp [inOrder, wordOf_encode octets]

omit [NeZero w] in
/-- The last block: what was left over, and the length of the message. -/
theorem last_block {buf : Vector (BitVec w) 16} {rest : List Byte} {low high : BitVec w} {x : Nat}
    (whole : rest.length = 2 * w - w / 4) (holds : (unparse buf).take (2 * w - w / 4) = rest)
    (lowWord : low = BitVec.ofNat w x) (highWord : high = BitVec.ofNat w (x / 2 ^ w)) :
    swazbytes algorithm.swazbyte
        ((buf.set 14 (algorithm.lengthWords low high).1).set 15 (algorithm.lengthWords low high).2) 14 =
      blockWords big w (rest ++ inOrder big (encode (w / 4) x)) := by
  have octets := octets_of_wide wide
  have room := block_bytes_of_wide wide
  have before : rest.length = 14 * (w / 8) := by omega
  obtain ⟨first, second⟩ := length_field wide big x
  apply Vector.ext
  intro i below
  simp only [swazbytes, Vector.getElem_mapIdx, blockWords, Vector.getElem_ofFn]
  by_cases inside : i < 14
  · have fits : (i + 1) * (w / 8) ≤ 14 * (w / 8) := Nat.mul_le_mul_right _ inside
    have word : buf[i] = wordAt w rest i := by
      rw [← wordAt_unparse octets buf below, ← holds, wordAt_take (by omega)]
    rw [Nat.succ_mul] at fits
    rw [if_pos inside, Vector.getElem_set_ne _ _ (by omega), Vector.getElem_set_ne _ _ (by omega), word, wordAt,
      order.swazbyte _ (by rw [List.length_take, List.length_drop]; omega),
      List.drop_append_of_le_length (by rw [before]; omega),
      List.take_append_of_le_length (by rw [List.length_drop]; omega)]
  · rw [if_neg inside, order.lengthWords, lowWord, highWord]
    obtain at14 | at15 : i = 14 ∨ i = 15 := by omega
    · subst at14
      rw [Vector.getElem_set_ne _ _ (by decide), Vector.getElem_set_self]
      simp only [← before, List.drop_left]
      rw [first]
      cases big <;> rfl
    · subst at15
      have field : (inOrder big (encode (w / 4) x)).length = w / 8 + w / 8 := by
        rw [length_inOrder, length_encode]
        omega
      have offset : 15 * (w / 8) = rest.length + w / 8 := by omega
      rw [Vector.getElem_set_self]
      simp only [offset, ← List.drop_drop, List.drop_left]
      rw [List.take_of_length_le (by rw [List.length_drop]; omega), second]
      cases big <;> rfl

omit order [NeZero w] in
/-- The number of bytes that `finish` pads. -/
theorem last_eq (len : Nat) :
    (if len % (2 * w) < 2 * w - w / 4 then 2 * w - w / 4 - len % (2 * w) else 4 * w - w / 4 - len % (2 * w)) =
      zeroCount w len + 1 := by
  unfold zeroCount
  obtain rfl | rfl := wide <;> split <;> omega

omit order [NeZero w] in
theorem padded_length (len : Nat) :
    zeroCount w len + 1 ≤ 2 * w ∧ (len + (zeroCount w len + 1)) % (2 * w) = 2 * w - w / 4 := by
  unfold zeroCount
  obtain rfl | rfl := wide <;> constructor <;> omega

/-- `finish` gives the hash of the whole message. -/
theorem Chained.finish (so : Chained algorithm big initial ctx message)
    (bits : 8 * message.length < 2 ^ w * 2 ^ w) :
    (blockFinish algorithm ctx).hash =
      swazbytes algorithm.swazbyte (merkleDamgard big algorithm.process initial message) algorithm.digestWords := by
  have positive : 0 < 2 * w := by omega
  obtain ⟨short, aligned⟩ := padded_length wide message.length
  let zeros : List Byte := 0x80 :: List.replicate (zeroCount w message.length) 0
  have pads : (blockPad w).take (zeroCount w message.length + 1) = zeros := by
    rw [blockPad, List.take_succ_cons, List.take_replicate, Nat.min_eq_left (by omega)]
  have fits : zeros.length < 2 ^ w := by
    rw [List.length_cons, List.length_replicate]
    obtain rfl | rfl := wide <;> omega
  have padded := so.update wide order fits
  have total : (message ++ zeros).length = message.length + (zeroCount w message.length + 1) := by
    rw [List.length_append, List.length_cons, List.length_replicate]
  have rest : (leftover (2 * w) (message ++ zeros)).length = 2 * w - w / 4 := by
    rw [length_leftover, total, aligned]
  have buffered := padded.buffered
  rw [total, aligned] at buffered
  obtain ⟨low, high⟩ := length_words wide bits so.counted
  have message_eq : message ++ padding big w message.length =
      (message ++ zeros) ++ inOrder big (encode (w / 4) (8 * message.length)) := by
    simp only [padding, zeros, List.append_assoc, List.cons_append]
  have single : (leftover (2 * w) (message ++ zeros) ++
      inOrder big (encode (w / 4) (8 * message.length))).length = 2 * w := by
    rw [List.length_append, rest, length_inOrder, length_encode]
    omega
  unfold blockFinish
  simp only [left_eq wide so.counted, last_eq wide, Nat.succ_pos, if_true, pads]
  rw [last_block wide order rest buffered low high, padded.hash, merkleDamgard, message_eq,
    chain_append positive (message ++ zeros), chain_block positive single]

/-- The updates of a split message. -/
theorem Chained.updates {chunks : List (List Byte)} (so : Chained algorithm big initial ctx message)
    (fit : ∀ chunk ∈ chunks, chunk.length < 2 ^ w) :
    Chained algorithm big initial (chunks.foldl (blockUpdate algorithm) ctx) (message ++ chunks.flatten) :=
  foldl_pieces (fun _ _ chunk inside known => known.update wide order (fit chunk inside)) so

omit [NeZero w] in
/-- The words of the hash in memory. -/
theorem take_swazbytes (hash : Vector (BitVec w) n) (words : Nat) :
    (unparse (swazbytes algorithm.swazbyte hash words)).take (words * (w / 8)) =
      (hashBytes big hash).take (words * (w / 8)) := by
  have octets := octets_of_wide wide
  have swapped : ∀ x : BitVec w, bytesOf (algorithm.swazbyte x) = inOrder big (bytesOf x) := by
    intro x
    have stored := order.swazbyte (bytesOf x) (length_bytesOf x)
    rw [wordOf_bytesOf octets] at stored
    rw [stored, bytesOf_wordOf octets (by rw [length_inOrder, length_bytesOf])]
  have all : unparse (hash.map algorithm.swazbyte) = hashBytes big hash := by
    simp only [unparse, hashBytes, Vector.toList_map, List.flatMap_map, swapped]
  rw [← all]
  apply take_unparse_congr
  apply List.ext_getElem
  · simp
  · intro i inside _
    have below : i < words := by
      rw [List.length_take] at inside
      omega
    simp [swazbytes, below]

/-- Any split of a message into updates gives the digest of the message. -/
theorem take_blockDigest (initial : Vector (BitVec w) n) {chunks : List (List Byte)} (fit : ∀ chunk ∈ chunks, chunk.length < 2 ^ w)
    (bits : 8 * chunks.flatten.length < 2 ^ w * 2 ^ w) :
    (blockDigest (blockFinish algorithm (chunks.foldl (blockUpdate algorithm) (blockReset initial)))).take
        (algorithm.digestWords * (w / 8)) =
      (hashBytes big (merkleDamgard big algorithm.process initial chunks.flatten)).take
        (algorithm.digestWords * (w / 8)) := by
  have reset : Chained algorithm big initial (blockReset initial) [] := chained_reset
  rw [blockDigest, (reset.updates wide order fit).finish wide order bits, take_swazbytes wide order, List.nil_append]

theorem blockDigest_eq (initial : Vector (BitVec w) n) (all : algorithm.digestWords = n) {chunks : List (List Byte)}
    (fit : ∀ chunk ∈ chunks, chunk.length < 2 ^ w) (bits : 8 * chunks.flatten.length < 2 ^ w * 2 ^ w) :
    blockDigest (blockFinish algorithm (chunks.foldl (blockUpdate algorithm) (blockReset initial))) =
      hashBytes big (merkleDamgard big algorithm.process initial chunks.flatten) := by
  have digest := take_blockDigest wide order initial fit bits
  rwa [all, List.take_of_length_le (by rw [blockDigest, length_unparse]), List.take_of_length_le (by simp)] at digest

end Stream

end Plibsys.Crypto
