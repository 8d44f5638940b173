import Plibsys.Crypto.Keccak
import Plibsys.Support.Buffering

/-! # SHA-3

The digests of FIPS 202 as functions on bit strings, and that `pcryptohash-sha3.c` computes
them for messages of bytes.
-/

namespace Plibsys.Crypto

open Support

namespace Fips202

/-- The bits of a string of bytes, with the low bit of a byte first. -/
def bitsOf (bytes : List Byte) : List Bool := bytes.flatMap fun b => (List.range 8).map b.getLsbD

/-- The bytes of a string of bits. -/
def octets : List Bool → List Byte
  | b₀ :: b₁ :: b₂ :: b₃ :: b₄ :: b₅ :: b₆ :: b₇ :: bits =>
      BitVec.ofBoolListLE [b₀, b₁, b₂, b₃, b₄, b₅, b₆, b₇] :: octets bits
  | _ => []

/-- `pad10*1` -/
def pad (x m : Nat) : List Bool := true :: (List.replicate ((x - (m + 2) % x) % x) false ++ [true])

def xorString (S : StateArray) (P : List Bool) : StateArray := Vector.ofFn fun i => S.get i ^^ P.getD i false

/-- The sponge for blocks of `r` bits. -/
def sponge (r : Nat) (N : List Bool) (d : Nat) : List Bool :=
  let P := N ++ pad r N.length
  let S := absorb r (fun S block => keccakF (xorString S (block ++ List.replicate (1600 - r) false)))
    (Vector.replicate 1600 false) P
  ((List.range (d / r + 1)).flatMap fun i => (keccakF^[i] S).toList.take r).take d

/-- The digest of `d` bits. -/
def sha3 (d : Nat) (M : List Bool) : List Bool := sponge (1600 - 2 * d) (M ++ [false, true]) d

/-- The digest of a message of whole bytes, in bytes. -/
def digest (d : Nat) (message : List Byte) : List Byte := octets (sha3 d (bitsOf message))

end Fips202

namespace Keccak

open Fips202 Sha3

/-! ## Bytes as bits -/

@[simp] theorem length_bitsOf (bytes : List Byte) : (bitsOf bytes).length = 8 * bytes.length := by
  simp [bitsOf, List.length_flatMap, Nat.mul_comm]

theorem bitsOf_append (front back : List Byte) : bitsOf (front ++ back) = bitsOf front ++ bitsOf back :=
  List.flatMap_append

theorem octets_bitsOf (bytes : List Byte) : octets (bitsOf bytes) = bytes := by
  induction bytes with
  | nil => rfl
  | cons b bytes ih =>
      have same : (BitVec.ofBoolListLE ((List.range 8).map b.getLsbD) : BitVec 8) = b := by
        apply BitVec.eq_of_getLsbD_eq
        intro i inside
        rw [BitVec.getLsbD_ofBoolListLE, List.getD_eq_getElem _ _ inside, List.getElem_map, List.getElem_range]
        rfl
      rw [bitsOf, List.flatMap_cons, ← bitsOf]
      exact congrArg₂ List.cons same ih

theorem take_bitsOf (bytes : List Byte) (n : Nat) : (bitsOf bytes).take (8 * n) = bitsOf (bytes.take n) := by
  obtain long | short := Nat.le_total n bytes.length
  · have cut : bitsOf bytes = bitsOf (bytes.take n) ++ bitsOf (bytes.drop n) := by
      rw [← bitsOf_append, List.take_append_drop]
    rw [cut, List.take_left' (by rw [length_bitsOf, List.length_take_of_le long])]
  · rw [List.take_of_length_le short, List.take_of_length_le (by rw [length_bitsOf]; omega)]

theorem drop_bitsOf (bytes : List Byte) (n : Nat) : (bitsOf bytes).drop (8 * n) = bitsOf (bytes.drop n) := by
  obtain long | short := Nat.le_total n bytes.length
  · have cut : bitsOf bytes = bitsOf (bytes.take n) ++ bitsOf (bytes.drop n) := by
      rw [← bitsOf_append, List.take_append_drop]
    rw [cut, List.drop_left' (by rw [length_bitsOf, List.length_take_of_le long])]
  · rw [List.drop_of_length_le short, List.drop_of_length_le (by rw [length_bitsOf]; omega)]
    rfl

theorem getD_bitsOf (bytes : List Byte) (i : Nat) :
    (bitsOf bytes).getD i false = (bytes.getD (i / 8) 0).getLsbD (i % 8) := by
  induction bytes generalizing i with
  | nil => simp [bitsOf]
  | cons b bytes ih =>
      rw [bitsOf, List.flatMap_cons, ← bitsOf]
      by_cases low : i < 8
      · rw [List.getD_append _ _ _ _ (by simpa using low), Nat.div_eq_of_lt low, Nat.mod_eq_of_lt low]
        simp [low]
      · rw [List.getD_append_right _ _ _ _ (by simpa using low), List.length_map, List.length_range, ih,
          show i / 8 = (i - 8) / 8 + 1 by omega, List.getD_cons_succ, show (i - 8) % 8 = i % 8 by omega]

theorem blocks_bitsOf (size : Nat) (message : List Byte) :
    blocks (8 * size) (bitsOf message) = (blocks size message).map bitsOf := by
  rw [blocks, blocks, length_bitsOf, Nat.mul_div_mul_left _ _ (by decide), List.map_map]
  apply List.map_congr_left
  intro i _
  rw [Function.comp_apply, show i * (8 * size) = 8 * (i * size) by ring, drop_bitsOf, take_bitsOf]

/-- A message is absorbed byte by byte as it is bit by bit. -/
theorem absorb_bitsOf {σ τ : Type} {size : Nat} (f : σ → τ) (step : σ → List Byte → σ) (bitStep : τ → List Bool → τ)
    (same : ∀ s block, block.length = size → f (step s block) = bitStep (f s) (bitsOf block)) (start : σ)
    (message : List Byte) :
    f (absorb size step start message) = absorb (8 * size) bitStep (f start) (bitsOf message) := by
  rw [absorb, absorb, blocks_bitsOf, List.foldl_map]
  have whole : ∀ block ∈ blocks size message, block.length = size := fun _ => length_of_mem_blocks
  generalize blocks size message = pieces at whole ⊢
  induction pieces generalizing start with
  | nil => rfl
  | cons block pieces ih =>
      rw [List.foldl_cons, List.foldl_cons, ← same start block (whole block List.mem_cons_self)]
      exact ih (step start block) fun later mem => whole later (List.mem_cons_of_mem block mem)

/-! ## Blocks -/

/-- A number of bytes that the code takes as a block. -/
structure Rate (rate : Nat) : Prop where
  positive : 0 < rate
  words : rate % 8 = 0
  fits : rate ≤ 200

/-- What `process` makes of a block. -/
def absorbBlock (rate : Nat) (hash : Vector (BitVec 64) 25) (block : List Byte) : Vector (BitVec 64) 25 :=
  keccakPermutate (Vector.ofFn fun i => if i.val < rate / 8 then hash.get i ^^^ wordAt 64 block i else hash.get i)

theorem val_lane (x y : Fin 5) : (lane x y).val = 5 * y.val + x.val := by
  rw [lane, Fin.val_ofNat, Nat.mod_eq_of_lt (by omega)]

theorem bit_xorString (S : StateArray) (P : List Bool) (x y : Fin 5) (z : Fin 64) :
    bit (xorString S P) x y z = (bit S x y z ^^ P.getD (64 * (5 * y + x) + z) false) := by
  rw [bit, xorString, get_ofFn, bit, Fin.val_ofNat, Nat.mod_eq_of_lt (by omega)]

theorem getD_append_replicate (P : List Bool) (zeros i : Nat) :
    (P ++ List.replicate zeros false).getD i false = P.getD i false := by
  by_cases inside : i < P.length
  · rw [List.getD_append _ _ _ _ inside]
  · rw [List.getD_append_right _ _ _ _ (by omega), List.getD_eq_default P false (by omega)]
    by_cases more : i - P.length < zeros
    · rw [List.getD_eq_getElem _ _ (by simpa using more), List.getElem_replicate]
    · rw [List.getD_eq_default _ _ (by simpa using more)]

/-- The code absorbs a block as the sponge does. -/
theorem stateOf_absorbBlock {rate : Nat} (words : rate % 8 = 0) (zeros : Nat) (hash : Vector (BitVec 64) 25)
    (block : List Byte) (whole : block.length = rate) :
    stateOf (absorbBlock rate hash block) =
      keccakF (xorString (stateOf hash) (bitsOf block ++ List.replicate zeros false)) := by
  rw [absorbBlock, stateOf_keccakPermutate]
  refine congrArg keccakF (state_ext ?_)
  intro x y z
  have place : (64 * (5 * y.val + x.val) + z.val) / 8 = (5 * y.val + x.val) * (64 / 8) + z.val / 8 := by omega
  have offset : (64 * (5 * y.val + x.val) + z.val) % 8 = z.val % 8 := by omega
  rw [bit_stateOf, get_ofFn, bit_xorString, bit_stateOf, getD_append_replicate, getD_bitsOf, val_lane, place, offset]
  split
  · rw [BitVec.getLsbD_xor, getLsbD_wordAt (by decide) _ _ z.isLt]
  · rw [List.getD_eq_default block 0 (by omega)]
    simp

/-! ## Updates in pieces -/

section Stream

variable {rate : Nat} {ctx : PHashSHA3} {message data : List Byte}

/-- What a context knows of the message so far. -/
structure Absorbed (rate : Nat) (ctx : PHashSHA3) (message : List Byte) : Prop where
  size : ctx.blockSize.toNat = rate
  len : ctx.len.toNat = message.length % rate
  hash : ctx.hash = absorb rate (absorbBlock rate) (Vector.replicate 25 0) message
  buffered : (unparse ctx.buf).take (message.length % rate) = leftover rate message

variable (good : Rate rate)

include good

/-- Processing the buffer absorbs the block in front of it. -/
theorem process_hash (ctx : PHashSHA3) (size : ctx.blockSize.toNat = rate) :
    (pzcryptoHashSha3Process ctx).hash = absorbBlock rate ctx.hash ((unparse ctx.buf).take rate) := by
  have qwords : (ctx.blockSize / 8).toNat = rate / 8 := by
    rw [BitVec.toNat_udiv, size]
    rfl
  simp only [pzcryptoHashSha3Process, qwords, absorbBlock]
  refine congrArg keccakPermutate (vector_ext ?_)
  intro i
  rw [get_ofFn, get_ofFn]
  split
  · next inside =>
      have words := good.words
      rw [wordAt_take (by omega), wordAt_unparse (by decide) ctx.buf i.isLt]
      rfl
  · rfl

omit good in
@[simp] theorem process_len (ctx : PHashSHA3) : (pzcryptoHashSha3Process ctx).len = ctx.len := by
  rw [pzcryptoHashSha3Process]

omit good in
@[simp] theorem process_blockSize (ctx : PHashSHA3) : (pzcryptoHashSha3Process ctx).blockSize = ctx.blockSize := by
  rw [pzcryptoHashSha3Process]

omit good in
@[simp] theorem sha3KeepRest_hash (ctx : PHashSHA3) (left : Nat) (data : List Byte) :
    (sha3KeepRest ctx left data).hash = ctx.hash := by
  unfold sha3KeepRest
  split <;> rfl

omit good in
@[simp] theorem sha3KeepRest_len (ctx : PHashSHA3) (left : Nat) (data : List Byte) :
    (sha3KeepRest ctx left data).len = ctx.len := by
  unfold sha3KeepRest
  split <;> rfl

omit good in
@[simp] theorem sha3KeepRest_blockSize (ctx : PHashSHA3) (left : Nat) (data : List Byte) :
    (sha3KeepRest ctx left data).blockSize = ctx.blockSize := by
  unfold sha3KeepRest
  split <;> rfl

theorem take_sha3KeepRest (ctx : PHashSHA3) {left : Nat} {data : List Byte} (inside : left + data.length ≤ rate) :
    (unparse (sha3KeepRest ctx left data).buf).take (left + data.length) = (unparse ctx.buf).take left ++ data := by
  unfold sha3KeepRest
  split
  · exact take_copyBytes (by decide) ctx.buf (inside.trans good.fits)
  · next empty =>
      rw [List.length_eq_zero_iff.mp (by omega : data.length = 0), List.length_nil, Nat.add_zero, List.append_nil]

omit good in
/-- The moves of `update` for blocks of `rate` bytes. -/
def sha3Moves (rate : Nat) : Buffering PHashSHA3 Byte (Vector (BitVec 64) 25) where
  size := rate
  step := absorbBlock rate
  usable ctx := ctx.blockSize.toNat = rate
  state ctx := ctx.hash
  buffer ctx := unparse ctx.buf
  fill ctx left piece := pzcryptoHashSha3Process { ctx with buf := copyBytes ctx.buf left piece }
  loop := sha3UpdateLoop
  keep := sha3KeepRest

theorem sha3Moves_lawful : (sha3Moves rate).Lawful where
  positive := good.positive
  usable_fill _ _ size := (congrArg BitVec.toNat (process_blockSize _)).trans size
  usable_keep _ _ size := (congrArg BitVec.toNat (sha3KeepRest_blockSize _ _ _)).trans size
  state_fill := by
    intro ctx left piece size whole
    have filled : left + piece.length = rate := whole
    have copied := take_copyBytes (by decide) ctx.buf (filled.le.trans good.fits)
    rw [filled] at copied
    have hash := process_hash good { ctx with buf := copyBytes ctx.buf left piece } size
    rw [copied] at hash
    exact hash
  state_keep := sha3KeepRest_hash
  buffer_keep _ inside := take_sha3KeepRest good _ inside
  loop_eq := by
    intro ctx data size
    have bytes : ctx.blockSize.toNat = rate := size
    have positive := good.positive
    show sha3UpdateLoop ctx data = _
    rw [sha3UpdateLoop]
    simp only [bytes, positive, true_and]
    rfl

/-- The position in the block, the room behind it and the next position. -/
theorem positions (so : Absorbed rate ctx message) (fits : data.length < 2 ^ 63) :
    (ctx.blockSize - ctx.len).toNat = rate - message.length % rate ∧
      (BitVec.ofNat 64 data.length).toNat = data.length ∧
      (((ctx.len.setWidth 64 + BitVec.ofNat 64 data.length) % ctx.blockSize.setWidth 64).setWidth 32).toNat =
        (message ++ data).length % rate := by
  have small := good.fits
  have inside := Nat.mod_lt message.length good.positive
  have after := Nat.mod_lt (message.length % rate + data.length) good.positive
  have exact : (BitVec.ofNat 64 data.length).toNat = data.length := by
    rw [BitVec.toNat_ofNat, Nat.mod_eq_of_lt (by omega)]
  refine ⟨?_, exact, ?_⟩
  · rw [BitVec.toNat_sub_of_le (BitVec.le_def.mpr (by rw [so.len, so.size]; omega)), so.len, so.size]
  · rw [BitVec.toNat_setWidth, BitVec.toNat_umod, BitVec.toNat_add, BitVec.toNat_setWidth, BitVec.toNat_setWidth, exact,
      so.len, so.size, Nat.mod_eq_of_lt (show message.length % rate < 2 ^ 64 by omega),
      Nat.mod_eq_of_lt (show rate < 2 ^ 64 by omega),
      Nat.mod_eq_of_lt (show message.length % rate + data.length < 2 ^ 64 by omega),
      Nat.mod_eq_of_lt (show (message.length % rate + data.length) % rate < 2 ^ 32 by omega), Nat.mod_add_mod,
      List.length_append]

omit good in
/-- A context that has counted some more bytes. -/
def countBytes (ctx : PHashSHA3) (n : Nat) : PHashSHA3 :=
  { ctx with len := ((ctx.len.setWidth 64 + BitVec.ofNat 64 n) % ctx.blockSize.setWidth 64).setWidth 32 }

theorem sha3Update_eq (so : Absorbed rate ctx message) (fits : data.length < 2 ^ 63) :
    zcryptoHashSha3Update ctx data =
      (sha3Moves rate).update (countBytes ctx data.length) (message.length % rate) data.length data := by
  have small := good.fits
  obtain ⟨room, exact, -⟩ := positions good so fits
  unfold zcryptoHashSha3Update
  simp only [BitVec.le_def, BitVec.toNat_setWidth, ne_eq, ← BitVec.toNat_inj, room, exact, so.len,
    show (0 : BitVec 32).toNat = 0 from rfl]
  rw [Nat.mod_eq_of_lt (show rate - message.length % rate < 2 ^ 64 by omega)]
  rfl

theorem sha3Update_len (so : Absorbed rate ctx message) (fits : data.length < 2 ^ 63) :
    (zcryptoHashSha3Update ctx data).len = (countBytes ctx data.length).len := by
  have fills : ∀ ctx left piece, ((sha3Moves rate).fill ctx left piece).len = ctx.len := fun _ _ _ => process_len _
  have size : (sha3Moves rate).usable (countBytes ctx data.length) := so.size
  rw [sha3Update_eq good so fits]
  exact (sha3Moves_lawful good).update_frame data fills sha3KeepRest_len size _ _

theorem Absorbed.update (so : Absorbed rate ctx message) (fits : data.length < 2 ^ 63) :
    Absorbed rate (zcryptoHashSha3Update ctx data) (message ++ data) := by
  obtain ⟨-, -, len⟩ := positions good so fits
  have holds : (sha3Moves rate).Holds (Vector.replicate 25 0) (countBytes ctx data.length) message :=
    ⟨so.size, so.hash, so.buffered⟩
  have on : message.length % rate = 0 ∨ data.length < rate - message.length % rate ∨
      rate - message.length % rate ≤ data.length := by
    omega
  have next := holds.update (sha3Moves_lawful good) data (Nat.le_refl data.length) on
  refine ⟨?_, ?_, ?_, ?_⟩
  · rw [sha3Update_eq good so fits]
    exact next.usable
  · rw [sha3Update_len good so fits]
    exact len
  · rw [sha3Update_eq good so fits]
    exact next.state
  · rw [sha3Update_eq good so fits]
    exact next.buffered

/-- The updates of a split message. -/
theorem Absorbed.updates {chunks : List (List Byte)} (so : Absorbed rate ctx message)
    (fit : ∀ chunk ∈ chunks, chunk.length < 2 ^ 63) :
    Absorbed rate (chunks.foldl zcryptoHashSha3Update ctx) (message ++ chunks.flatten) :=
  foldl_pieces (fun _ _ chunk inside known => known.update good (fit chunk inside)) so

/-! ## The last block -/

omit good in
/-- What `finish` puts behind the message. -/
def padBytes (room : Nat) : List Byte :=
  if room = 1 then [0x86] else 0x06 :: (List.replicate (room - 2) 0 ++ [0x80])

omit good in
theorem or_at (front back : List Byte) (x mask : Byte) :
    (front ++ x :: back).set front.length ((front ++ x :: back).getD front.length 0 ||| mask) =
      front ++ (x ||| mask) :: back := by
  rw [List.getD_append_right _ _ _ _ (Nat.le_refl _), List.set_append_right _ _ (Nat.le_refl _), Nat.sub_self]
  rfl

omit good in
/-- The two bytes in which `finish` sets bits, which may be one. -/
theorem set_padBytes (rest : List Byte) {room : Nat} (positive : 0 < room) :
    let zeros := rest ++ List.replicate room 0
    let first := zeros.set rest.length (zeros.getD rest.length 0 ||| 0x06)
    first.set (rest.length + room - 1) (first.getD (rest.length + room - 1) 0 ||| 0x80) = rest ++ padBytes room := by
  obtain ⟨room, rfl⟩ := Nat.exists_eq_succ_of_ne_zero (Nat.ne_of_gt positive)
  intro zeros first
  have first_eq : first = rest ++ 0x06 :: List.replicate room 0 := by
    have set := or_at rest (List.replicate room 0) 0 0x06
    rwa [← List.replicate_succ] at set
  rw [first_eq, show rest.length + room.succ - 1 = rest.length + room from rfl]
  cases room with
  | zero => exact or_at rest [] 0x06 0x80
  | succ room =>
      have split : rest ++ 0x06 :: List.replicate (room + 1) 0 =
          (rest ++ 0x06 :: List.replicate room 0) ++ (0 : Byte) :: [] := by
        rw [List.replicate_succ', List.append_assoc, List.cons_append]
      have last : rest.length + (room + 1) = (rest ++ (0x06 : Byte) :: List.replicate room 0).length := by simp
      rw [split, last, or_at, padBytes, if_neg (by omega)]
      simp

theorem take_orByte (buf : Vector (BitVec 64) 25) {off : Nat} (mask : Byte) (inside : off < rate) :
    (unparse (orByte buf off mask)).take rate =
      ((unparse buf).take rate).set off (((unparse buf).take rate).getD off 0 ||| mask) := by
  have fits := good.fits
  have within : off < (unparse buf).length := by
    rw [length_unparse]
    omega
  have single : ∀ x, patched (unparse buf) off [x] = (unparse buf).set off x := by
    intro x
    rw [List.set_eq_take_append_cons_drop, if_pos within, patched, List.append_assoc]
    rfl
  rw [orByte, unparse_copyBytes (by decide) _ (by rw [List.length_singleton]; omega), single, List.take_set,
    List.getD_eq_getElem?_getD, List.getD_eq_getElem?_getD, List.getElem?_take_of_lt inside]

/-- `finish` absorbs the padded message. -/
theorem Absorbed.finish (so : Absorbed rate ctx message) :
    (zcryptoHashSha3Finish ctx).hash =
      absorb rate (absorbBlock rate) (Vector.replicate 25 0) (message ++ padBytes (rate - message.length % rate)) := by
  have positive := good.positive
  have inside := Nat.mod_lt message.length positive
  have small := good.fits
  have room : (ctx.blockSize - ctx.len).toNat = rate - message.length % rate := by
    rw [BitVec.toNat_sub_of_le (BitVec.le_def.mpr (by rw [so.len, so.size]; omega)), so.len, so.size]
  have last : (ctx.blockSize - 1).toNat = rate - 1 := by
    rw [BitVec.toNat_sub_of_le (BitVec.le_def.mpr (by rw [so.size]; exact positive)), so.size]
    rfl
  have cleared := take_copyBytes (by decide) ctx.buf
    (show message.length % rate + (List.replicate (rate - message.length % rate) (0 : Byte)).length ≤ 25 * (64 / 8) by
      rw [List.length_replicate]
      omega)
  rw [List.length_replicate, so.buffered, Nat.add_sub_cancel' inside.le] at cleared
  have bits := set_padBytes (leftover rate message) (Nat.sub_pos_of_lt inside)
  simp only [length_leftover, Nat.add_sub_cancel' inside.le] at bits
  have padded : (leftover rate message ++ padBytes (rate - message.length % rate)).length = rate := by
    rw [← bits, List.length_set, List.length_set, List.length_append, length_leftover, List.length_replicate]
    omega
  simp only [zcryptoHashSha3Finish, so.len, room, last]
  rw [process_hash good, take_orByte good _ _ (by omega), take_orByte good _ _ inside, cleared, bits, so.hash,
    absorb_append positive, absorb_block positive padded]
  exact so.size

end Stream

/-! ## The padding in bits -/

theorem bitsOf_zeros (n : Nat) : bitsOf (List.replicate n 0) = List.replicate (8 * n) false := by
  induction n with
  | zero => rfl
  | succ n ih =>
      rw [List.replicate_succ, bitsOf, List.flatMap_cons, ← bitsOf, ih, Nat.mul_succ, Nat.add_comm, List.replicate_add]
      rfl

theorem zeros_eq {rate : Nat} (positive : 0 < rate) (len : Nat) :
    (8 * rate - (8 * len + 2 + 2) % (8 * rate)) % (8 * rate) = 8 * (rate - len % rate) - 4 := by
  have inside := Nat.mod_lt len positive
  have position : (8 * len + 2 + 2) % (8 * rate) = 8 * (len % rate) + 4 := by
    have parts : 8 * len + 2 + 2 = 8 * (len % rate) + 4 + 8 * rate * (len / rate) := by
      have cut := Nat.mod_add_div len rate
      calc 8 * len + 2 + 2 = 8 * (len % rate + rate * (len / rate)) + 4 := by rw [cut]
        _ = 8 * (len % rate) + 4 + 8 * rate * (len / rate) := by ring
    rw [parts, Nat.add_mul_mod_self_left, Nat.mod_eq_of_lt (by omega)]
  rw [position, Nat.mod_eq_of_lt (by omega)]
  omega

/-- The bytes that `finish` adds are the suffix and the padding of the standard. -/
theorem bitsOf_padBytes {rate : Nat} (positive : 0 < rate) (len : Nat) :
    bitsOf (padBytes (rate - len % rate)) = [false, true] ++ pad (8 * rate) (8 * len + 2) := by
  have inside := Nat.mod_lt len positive
  rw [pad, zeros_eq positive]
  generalize room_eq : rate - len % rate = room
  obtain one | more : room = 1 ∨ 2 ≤ room := by omega
  · subst one
    decide
  · obtain ⟨n, rfl⟩ := Nat.exists_eq_add_of_le more
    have front : bitsOf [0x06] = [false, true, true] ++ List.replicate 5 false := by decide
    have back : bitsOf [0x80] = List.replicate 7 false ++ [true] := by decide
    have cut : padBytes (2 + n) = [0x06] ++ (List.replicate n 0 ++ [0x80]) := by
      rw [padBytes, if_neg (by omega), Nat.add_sub_cancel_left]
      rfl
    rw [cut, bitsOf_append, bitsOf_append, bitsOf_zeros, front, back,
      show 8 * (2 + n) - 4 = 5 + (8 * n + 7) by omega, List.replicate_add, List.replicate_add]
    simp only [List.append_assoc, List.cons_append, List.nil_append]

/-! ## Digests -/

theorem stateOf_zeros : stateOf (Vector.replicate 25 0) = Vector.replicate 1600 false := by
  apply vector_ext
  intro i
  rw [stateOf, ofBits, get_ofFn]
  simp [Vector.get]

/-- The string of a state is the memory of its lanes. -/
theorem toList_stateOf (hash : Vector (BitVec 64) 25) : (stateOf hash).toList = bitsOf (unparse hash) := by
  apply List.ext_getElem
  · rw [Vector.length_toList, length_bitsOf, length_unparse]
  · intro i inside within
    have below : i < 1600 := by rwa [Vector.length_toList] at inside
    have lane_eq : lane (Fin.ofNat 5 (i / 64 % 5)) (Fin.ofNat 5 (i / 320)) = ⟨i / 64, by omega⟩ := by
      apply Fin.ext
      rw [val_lane, Fin.val_ofNat, Fin.val_ofNat]
      show 5 * (i / 320 % 5) + i / 64 % 5 % 5 = i / 64
      omega
    have word := wordAt_unparse (by decide) hash (show i / 64 < 25 by omega)
    have read := getLsbD_wordAt (w := 64) (by decide) (unparse hash) (i / 64) (show i % 64 < 64 by omega)
    rw [word, show i / 64 * (64 / 8) + i % 64 / 8 = i / 8 by omega, show i % 64 % 8 = i % 8 by omega] at read
    have bit : (stateOf hash).get ⟨i, below⟩ = hash[i / 64].getLsbD (i % 64) := by
      rw [stateOf, ofBits, get_ofFn, lane_eq, Fin.val_ofNat, Nat.mod_mod]
      rfl
    rw [Vector.getElem_toList, ← List.getD_eq_getElem _ false within, getD_bitsOf, ← read]
    exact bit

/-- What is absorbed and squeezed out in bytes is the digest of the standard. -/
theorem sha3_eq {rate d : Nat} (good : Rate rate) (capacity : 8 * rate = 1600 - 2 * d) (short : d < 8 * rate)
    (whole : d % 8 = 0) (message : List Byte) :
    bitsOf ((unparse (absorb rate (absorbBlock rate) (Vector.replicate 25 0)
        (message ++ padBytes (rate - message.length % rate)))).take (d / 8)) =
      sha3 d (bitsOf message) := by
  have absorbed := absorb_bitsOf stateOf (absorbBlock rate)
    (fun S block => keccakF (xorString S (block ++ List.replicate (1600 - 8 * rate) false)))
    (stateOf_absorbBlock good.words (1600 - 8 * rate)) (Vector.replicate 25 0)
    (message ++ padBytes (rate - message.length % rate))
  rw [stateOf_zeros, bitsOf_append, bitsOf_padBytes good.positive] at absorbed
  have one : d / (8 * rate) + 1 = 1 := by rw [Nat.div_eq_of_lt short]
  have string : bitsOf message ++ [false, true] ++ pad (8 * rate) (bitsOf message ++ [false, true]).length =
      bitsOf message ++ ([false, true] ++ pad (8 * rate) (8 * message.length + 2)) := by
    rw [List.append_assoc, List.length_append, length_bitsOf]
    rfl
  rw [sha3, sponge, ← capacity, one, string, ← absorbed]
  simp only [List.range_one, List.flatMap_singleton, Function.iterate_zero, id_eq, toList_stateOf, List.take_take]
  rw [Nat.min_eq_left short.le, ← take_bitsOf, show 8 * (d / 8) = d by omega]

end Keccak

open Keccak

theorem absorbed_new {bits : PUInt} {rate : Nat} (size : ((1600 - bits * 2) / 8).toNat = rate) :
    Absorbed rate ⟨Vector.replicate 25 0, Vector.replicate 25 0, 0, (1600 - bits * 2) / 8⟩ [] := by
  refine ⟨size, ?_, ?_, ?_⟩
  · simp
  · simp [absorb, blocks]
  · simp [leftover]

theorem bitsOf_digest {rate d : Nat} {ctx : PHashSHA3} (fresh : Absorbed rate ctx []) (good : Rate rate)
    (capacity : 8 * rate = 1600 - 2 * d) (short : d < 8 * rate) (whole : d % 8 = 0) {chunks : List (List Byte)}
    (fit : ∀ chunk ∈ chunks, chunk.length < 2 ^ 63) :
    Fips202.bitsOf ((zcryptoHashSha3Digest (zcryptoHashSha3Finish
        (chunks.foldl zcryptoHashSha3Update ctx))).take (d / 8)) =
      Fips202.sha3 d (Fips202.bitsOf chunks.flatten) := by
  have finished := (fresh.updates good fit).finish good
  rw [List.nil_append] at finished
  rw [zcryptoHashSha3Digest, finished, sha3_eq good capacity short whole]

/-- However a message is split into updates, the digest is that of the standard. -/
theorem sha3_digest (bits : PUInt) (rate d : Nat) (size : ((1600 - bits * 2) / 8).toNat = rate) (good : Rate rate)
    (capacity : 8 * rate = 1600 - 2 * d) (short : d < 8 * rate) (whole : d % 8 = 0) {chunks : List (List Byte)}
    (fit : ∀ chunk ∈ chunks, chunk.length < 2 ^ 63) :
    (pzcryptoHashSha3NewInternal true bits).map (fun ctx =>
        Fips202.bitsOf ((zcryptoHashSha3Digest (zcryptoHashSha3Finish
          (chunks.foldl zcryptoHashSha3Update ctx))).take (d / 8))) =
      some (Fips202.sha3 d (Fips202.bitsOf chunks.flatten)) := by
  rw [pzcryptoHashSha3NewInternal, if_pos rfl, Option.map_some,
    bitsOf_digest (absorbed_new size) good capacity short whole fit]

/-- For all four variants the digest is that of the standard, however a message is split into
    updates; and the code's permutation is Keccak-f[1600] for every state. -/
theorem sha3_digest_eq (chunks : List (List Byte)) (fit : ∀ chunk ∈ chunks, chunk.length < 2 ^ 63) :
    (zcryptoHashSha3_224New true).map (fun ctx => Fips202.bitsOf ((zcryptoHashSha3Digest (zcryptoHashSha3Finish
        (chunks.foldl zcryptoHashSha3Update ctx))).take 28)) = some (Fips202.sha3 224 (Fips202.bitsOf chunks.flatten)) ∧
      (zcryptoHashSha3_256New true).map (fun ctx => Fips202.bitsOf ((zcryptoHashSha3Digest (zcryptoHashSha3Finish
        (chunks.foldl zcryptoHashSha3Update ctx))).take 32)) = some (Fips202.sha3 256 (Fips202.bitsOf chunks.flatten)) ∧
      (zcryptoHashSha3_384New true).map (fun ctx => Fips202.bitsOf ((zcryptoHashSha3Digest (zcryptoHashSha3Finish
        (chunks.foldl zcryptoHashSha3Update ctx))).take 48)) = some (Fips202.sha3 384 (Fips202.bitsOf chunks.flatten)) ∧
      (zcryptoHashSha3_512New true).map (fun ctx => Fips202.bitsOf ((zcryptoHashSha3Digest (zcryptoHashSha3Finish
        (chunks.foldl zcryptoHashSha3Update ctx))).take 64)) = some (Fips202.sha3 512 (Fips202.bitsOf chunks.flatten)) ∧
      ∀ hash, stateOf (Sha3.keccakPermutate hash) = Fips202.keccakF (stateOf hash) := by
  refine ⟨?_, ?_, ?_, ?_, stateOf_keccakPermutate⟩
  · exact sha3_digest 224 144 224 (by decide) ⟨by decide, by decide, by decide⟩ rfl (by decide) rfl fit
  · exact sha3_digest 256 136 256 (by decide) ⟨by decide, by decide, by decide⟩ rfl (by decide) rfl fit
  · exact sha3_digest 384 104 384 (by decide) ⟨by decide, by decide, by decide⟩ rfl (by decide) rfl fit
  · exact sha3_digest 512 72 512 (by decide) ⟨by decide, by decide, by decide⟩ rfl (by decide) rfl fit

/-- A message in two updates. -/
theorem sha3_digest_two_updates :
    (zcryptoHashSha3_256New true).map (fun ctx => Fips202.bitsOf ((zcryptoHashSha3Digest (zcryptoHashSha3Finish
        (zcryptoHashSha3Update (zcryptoHashSha3Update ctx [0x61]) [0x62, 0x63]))).take 32)) =
      some (Fips202.sha3 256 (Fips202.bitsOf [0x61, 0x62, 0x63])) :=
  (sha3_digest_eq [[0x61], [0x62, 0x63]] (by decide)).2.1

end Plibsys.Crypto
