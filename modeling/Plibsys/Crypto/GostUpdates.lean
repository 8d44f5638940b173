import Plibsys.Crypto.Gost3411
import Plibsys.Support.Buffering
import Plibsys.Support.LimbAddition
import Plibsys.Support.Recurrence

/-! # Updates of GOST R 34.11-94 in pieces

A context has taken in the whole blocks of a message, keeps what they leave over in its buffer
and has counted all bits.  An update goes on from there unless it leaves out the block that is
begun: the test for that looks at the low 32 bits of the length only.
-/

namespace Plibsys.Crypto

open Support

namespace Gost3411

/-! ## Sums of 256 bits -/

theorem sum256Limb_eq (b : Vector (BitVec 32) 8) (state : Vector (BitVec 32) 8 × Bool) (i : Fin 8) :
    sum256Limb b state i =
      let sum := state.1.get i + b.get i + BitVec.ofNat 32 state.2.toNat
      (write state.1 i sum, decide (sum < state.1.get i ∨ sum < b.get i)) := by
  have carry : ∀ c : Bool, (if c then 1 else 0 : BitVec 32) = BitVec.ofNat 32 c.toNat := by decide
  simp only [sum256Limb, carry, get_write, if_true]

/-- The code adds the limbs with inferred carries. -/
theorem sum256_get (a b : Vector (BitVec 32) 8) (i : Fin 8) :
    (pzcryptoHashGost3411Sum256 a b).get i = limbSum 32 (block a) (block b) i := by
  let invariant (t : Nat) (state : Vector (BitVec 32) 8 × Bool) : Prop :=
    (∀ i : Fin 8, state.1.get i = if i < t then limbSum 32 (block a) (block b) i else a.get i) ∧
      state.2 = inferred 32 (block a) (block b) t
  have start : invariant 0 (a, false) := ⟨fun _ => rfl, rfl⟩
  have run := @foldl_range_invariant _ (fun state i => sum256Limb b state (Fin.ofNat 8 i)) invariant _ 0 8 start ?_
  · rw [pzcryptoHashGost3411Sum256, List.range_eq_range', run.1 i, if_pos (by omega)]
  · intro t state _ below before
    obtain ⟨limbs, carry⟩ := before
    have place : (Fin.ofNat 8 t).val = t := Nat.mod_eq_of_lt (by omega)
    have old : state.1.get (Fin.ofNat 8 t) = word 32 (block a) t := by
      rw [limbs, if_neg (by omega), ← word_block, place]
    have other : b.get (Fin.ofNat 8 t) = word 32 (block b) t := by rw [← word_block, place]
    rw [sum256Limb_eq, old, other, carry]
    refine ⟨?_, rfl⟩
    intro i
    rw [get_write]
    by_cases here : i = Fin.ofNat 8 t
    · rw [if_pos here, if_pos (by omega), here, place]
      rfl
    · have apart : i.val ≠ t := fun same => here (Fin.ext (same.trans place.symm))
      rw [if_neg here, limbs]
      by_cases before : i.val < t
      · rw [if_pos before, if_pos (by omega)]
      · rw [if_neg before, if_neg (by omega)]

/-- The sum is right just when no limb below the last one absorbs a carry. -/
theorem sum256_iff (a b : Vector (BitVec 32) 8) :
    block (pzcryptoHashGost3411Sum256 a b) = block a + block b ↔ ∀ j < 7, ¬Absorbs 32 (block a) (block b) j := by
  have limbs : (∀ j < 7, ¬Absorbs 32 (block a) (block b) j) ↔ ∀ j, j + 1 < 8 → ¬Absorbs 32 (block a) (block b) j :=
    forall_congr' fun j => by rw [Nat.succ_lt_succ_iff]
  have words := limbSums_iff (w := 32) (k := 8) (by decide) (block a) (block b) rfl
  rw [limbs, ← words]
  constructor
  · intro same i below
    rw [← same, word_block _ ⟨i, below⟩, sum256_get]
  · intro same
    refine eq_of_words (w := 32) (k := 8) rfl fun i below => ?_
    rw [word_block _ ⟨i, below⟩, sum256_get, same i below]

/-- What the sum lacks. -/
theorem sum256_lost (a b : Vector (BitVec 32) 8) :
    block (pzcryptoHashGost3411Sum256 a b) + BitVec.ofNat 256 (lost 32 (block a) (block b) 7) = block a + block b := by
  refine add_lost (by decide) rfl fun i below => ?_
  rw [word_block _ ⟨i, below⟩, sum256_get]

/-! ## The counter of bits -/

theorem block_len256 {n : Nat} (fits : n < 2 ^ 61) :
    block #v[(BitVec.ofNat 64 n <<< 3).setWidth 32, (BitVec.ofNat 64 n >>> 29).setWidth 32, 0, 0, 0, 0, 0, 0] =
      BitVec.ofNat 256 (8 * n) := by
  have high : ∀ i, 2 ≤ i → 8 * n / 2 ^ (i * 32) = 0 := by
    intro i later
    have wide : 2 ^ (2 * 32) ≤ 2 ^ (i * 32) := Nat.pow_le_pow_right (by decide) (Nat.mul_le_mul_right 32 later)
    exact Nat.div_eq_of_lt (by omega)
  apply Eq.symm
  apply eq_block
  intro i
  rw [word_ofNat _ (by omega)]
  fin_cases i
  · apply BitVec.eq_of_toNat_eq
    show 8 * n / 2 ^ (0 * 32) % 2 ^ 32 = ((BitVec.ofNat 64 n <<< 3).setWidth 32).toNat
    rw [BitVec.toNat_setWidth, BitVec.toNat_shiftLeft, BitVec.toNat_ofNat, Nat.shiftLeft_eq]
    omega
  · apply BitVec.eq_of_toNat_eq
    show 8 * n / 2 ^ (1 * 32) % 2 ^ 32 = ((BitVec.ofNat 64 n >>> 29).setWidth 32).toNat
    rw [BitVec.toNat_setWidth, BitVec.toNat_ushiftRight, BitVec.toNat_ofNat, Nat.shiftRight_eq_div_pow]
    omega
  · exact congrArg (BitVec.ofNat 32) (high 2 (by decide))
  · exact congrArg (BitVec.ofNat 32) (high 3 (by decide))
  · exact congrArg (BitVec.ofNat 32) (high 4 (by decide))
  · exact congrArg (BitVec.ofNat 32) (high 5 (by decide))
  · exact congrArg (BitVec.ofNat 32) (high 6 (by decide))
  · exact congrArg (BitVec.ofNat 32) (high 7 (by decide))

/-- Adding the bits of an update absorbs no carry. -/
theorem len_exact {total n : Nat} (fits : n < 2 ^ 61) (room : n < 2 ^ 32 ∨ total + n < 2 ^ 61) {j : Nat} (below : j < 7) :
    ¬Absorbs 32 (BitVec.ofNat 256 (8 * total)) (BitVec.ofNat 256 (8 * n)) j := by
  rintro ⟨first, second, -⟩
  rw [word_ofNat _ (by omega)] at first second
  have first := congrArg BitVec.toNat first
  have second := congrArg BitVec.toNat second
  rw [BitVec.toNat_ofNat, BitVec.toNat_allOnes] at first second
  obtain rfl | rfl | later : j = 0 ∨ j = 1 ∨ 2 ≤ j := by omega
  · omega
  · omega
  · have wide : 2 ^ (2 * 32) ≤ 2 ^ (j * 32) := Nat.pow_le_pow_right (by decide) (Nat.mul_le_mul_right 32 later)
    rw [Nat.div_eq_of_lt (by omega)] at second
    omega

/-- The counter after an update. -/
theorem len_update {len : Vector (BitVec 32) 8} {total n : Nat} (counted : block len = BitVec.ofNat 256 (8 * total))
    (fits : n < 2 ^ 61) (room : n < 2 ^ 32 ∨ total + n < 2 ^ 61) :
    block (pzcryptoHashGost3411Sum256 len
        #v[(BitVec.ofNat 64 n <<< 3).setWidth 32, (BitVec.ofNat 64 n >>> 29).setWidth 32, 0, 0, 0, 0, 0, 0]) =
      BitVec.ofNat 256 (8 * (total + n)) := by
  have added := block_len256 fits
  rw [(sum256_iff _ _).mpr, counted, added, Nat.mul_add, BitVec.ofNat_add]
  intro j below
  rw [counted, added]
  exact len_exact fits room below

/-- The position in the block, from the counter. -/
theorem left_toNat {len : Vector (BitVec 32) 8} {total : Nat} (counted : block len = BitVec.ofNat 256 (8 * total)) :
    (len.get 0 &&& 0xFF).toNat = 8 * (total % 32) := by
  have low : len.get 0 = BitVec.ofNat 32 (8 * total / 2 ^ (0 * 32)) := by
    rw [← word_block, counted]
    exact word_ofNat _ (by decide)
  rw [low, BitVec.toNat_and, BitVec.toNat_ofNat, show (0xFF : BitVec 32).toNat = 2 ^ 8 - 1 from rfl,
    Nat.and_two_pow_sub_one_eq_mod]
  omega

/-! ## Taking in blocks -/

/-- What `process` and `sum_256` make of the bytes of a block. -/
def takeBlock (state : Vector (BitVec 32) 8 × Vector (BitVec 32) 8) (bytes : List Byte) :
    Vector (BitVec 32) 8 × Vector (BitVec 32) 8 :=
  (pzcryptoHashGost3411Process state.1 (parse 32 8 bytes), pzcryptoHashGost3411Sum256 state.2 (parse 32 8 bytes))

/-- The hash and the sum of a message in whole blocks. -/
def taken (message : List Byte) : Vector (BitVec 32) 8 × Vector (BitVec 32) 8 :=
  absorb 32 takeBlock (Vector.replicate 8 0, Vector.replicate 8 0) message

/-- What a context knows of the message so far. -/
structure Absorbed (ctx : PHashGOST3411) (message : List Byte) : Prop where
  len : block ctx.len = BitVec.ofNat 256 (8 * message.length)
  taken : (ctx.hash, ctx.sum) = taken message
  buffered : (unparse ctx.buf).take (message.length % 32) = leftover 32 message

theorem absorbed_reset (old : PHashGOST3411) : Absorbed (zcryptoHashGost3411Reset old) [] :=
  ⟨block_zeros, rfl, rfl⟩

variable {ctx : PHashGOST3411} {message data : List Byte}

theorem taken_append (message data : List Byte) :
    taken (message ++ data) = absorb 32 takeBlock (taken message) (leftover 32 message ++ data) :=
  absorb_append (by decide) message data

theorem processBuf_taken (ctx : PHashGOST3411) {bytes : List Byte} (holds : unparse ctx.buf = bytes) :
    ((gost3411ProcessBuf ctx).hash, (gost3411ProcessBuf ctx).sum) = takeBlock (ctx.hash, ctx.sum) bytes := by
  have words : parse 32 8 bytes = ctx.buf := by
    apply Vector.ext
    intro i inside
    rw [parse, Vector.getElem_ofFn, ← holds, wordAt_unparse (by decide) _ inside]
  rw [takeBlock, words]
  rfl

/-- The buffer when a piece fills it to its end. -/
theorem unparse_copy (buf : Vector (BitVec 32) 8) (off : Nat) {data : List Byte} (inside : off + data.length = 32) :
    unparse (copyBytes buf off data) = (unparse buf).take off ++ data := by
  rw [← take_copyBytes (by decide) buf inside.le, List.take_of_length_le (by rw [length_unparse]; omega)]

@[simp] theorem keepRest_hash (ctx : PHashGOST3411) (left : Nat) (data : List Byte) :
    (gost3411KeepRest ctx left data).hash = ctx.hash := by
  unfold gost3411KeepRest
  split <;> rfl

@[simp] theorem keepRest_sum (ctx : PHashGOST3411) (left : Nat) (data : List Byte) :
    (gost3411KeepRest ctx left data).sum = ctx.sum := by
  unfold gost3411KeepRest
  split <;> rfl

@[simp] theorem keepRest_len (ctx : PHashGOST3411) (left : Nat) (data : List Byte) :
    (gost3411KeepRest ctx left data).len = ctx.len := by
  unfold gost3411KeepRest
  split <;> rfl

theorem take_keepRest (ctx : PHashGOST3411) {left : Nat} {data : List Byte} (inside : left + data.length ≤ 32) :
    (unparse (gost3411KeepRest ctx left data).buf).take (left + data.length) = (unparse ctx.buf).take left ++ data := by
  unfold gost3411KeepRest
  split
  · exact take_copyBytes (by decide) ctx.buf inside
  · next empty =>
      rw [List.length_eq_zero_iff.mp (by omega : data.length = 0), List.length_nil, Nat.add_zero, List.append_nil]

/-- The moves of `update`. -/
def gost3411Moves : Buffering PHashGOST3411 Byte (Vector (BitVec 32) 8 × Vector (BitVec 32) 8) where
  size := 32
  step := takeBlock
  usable _ := True
  state ctx := (ctx.hash, ctx.sum)
  buffer ctx := unparse ctx.buf
  fill ctx left piece := gost3411ProcessBuf { ctx with buf := copyBytes ctx.buf left piece }
  loop := gost3411UpdateLoop
  keep := gost3411KeepRest

theorem gost3411Moves_lawful : gost3411Moves.Lawful where
  positive := by decide
  usable_fill _ _ _ := trivial
  usable_keep _ _ _ := trivial
  state_fill := by
    intro ctx left piece _ whole
    exact processBuf_taken { ctx with buf := copyBytes ctx.buf left piece } (unparse_copy ctx.buf left whole)
  state_keep ctx left piece := by simp only [gost3411Moves, keepRest_hash, keepRest_sum]
  buffer_keep _ inside := take_keepRest _ inside
  loop_eq := by
    intro ctx data _
    show gost3411UpdateLoop ctx data = _
    rw [gost3411UpdateLoop]
    rfl

/-- An update of `n` bytes goes on with the block of which `left` bytes are there, if it has
    enough bytes to fill it. -/
def GoesOn (left n : Nat) : Prop := left = 0 ∨ n < 32 - left ∨ 32 - left ≤ n % 2 ^ 32

instance (left n : Nat) : Decidable (GoesOn left n) := inferInstanceAs (Decidable (_ ∨ _ ∨ _))

/-- The numbers that an update computes from the length. -/
theorem positions (counted : block ctx.len = BitVec.ofNat 256 (8 * message.length)) (data : List Byte) :
    ((ctx.len.get 0 &&& 0xFF) >>> 3).toNat = message.length % 32 ∧
      ((32 : BitVec 32) - (ctx.len.get 0 &&& 0xFF) >>> 3).toNat = 32 - message.length % 32 ∧
      ((BitVec.ofNat 64 data.length).setWidth 32).toNat = data.length % 2 ^ 32 := by
  have left : ((ctx.len.get 0 &&& 0xFF) >>> 3).toNat = message.length % 32 := by
    rw [BitVec.toNat_ushiftRight, left_toNat counted, Nat.shiftRight_eq_div_pow]
    omega
  refine ⟨left, ?_, ?_⟩
  · rw [BitVec.toNat_sub_of_le (BitVec.le_def.mpr (by rw [left]; show _ ≤ 32; omega)), left]
    rfl
  · rw [BitVec.toNat_setWidth, BitVec.toNat_ofNat]
    omega

/-- A context that has counted the bits of some more bytes. -/
def countBits (ctx : PHashGOST3411) (n : Nat) : PHashGOST3411 :=
  { ctx with
    len := pzcryptoHashGost3411Sum256 ctx.len
      #v[(BitVec.ofNat 64 n <<< 3).setWidth 32, (BitVec.ofNat 64 n >>> 29).setWidth 32, 0, 0, 0, 0, 0, 0] }

theorem gost3411Update_eq (counted : block ctx.len = BitVec.ofNat 256 (8 * message.length)) (data : List Byte) :
    zcryptoHashGost3411Update ctx data =
      gost3411Moves.update (countBits ctx data.length) (message.length % 32) (data.length % 2 ^ 32) data := by
  obtain ⟨left, toFill, len⟩ := positions counted data
  unfold zcryptoHashGost3411Update
  simp only [BitVec.le_def, ne_eq, ← BitVec.toNat_inj, left, toFill, len, show (0 : BitVec 32).toNat = 0 from rfl]
  rfl

theorem gost3411Update_len (counted : block ctx.len = BitVec.ofNat 256 (8 * message.length)) (data : List Byte) :
    (zcryptoHashGost3411Update ctx data).len = (countBits ctx data.length).len := by
  rw [gost3411Update_eq counted]
  have fills : ∀ ctx left piece, (gost3411Moves.fill ctx left piece).len = ctx.len := fun _ _ _ => rfl
  exact gost3411Moves_lawful.update_frame data fills keepRest_len trivial _ _

theorem Absorbed.update (so : Absorbed ctx message) (fits : data.length < 2 ^ 61)
    (room : data.length < 2 ^ 32 ∨ message.length + data.length < 2 ^ 61)
    (on : GoesOn (message.length % 32) data.length) :
    Absorbed (zcryptoHashGost3411Update ctx data) (message ++ data) := by
  have holds : gost3411Moves.Holds (Vector.replicate 8 0, Vector.replicate 8 0) (countBits ctx data.length) message :=
    ⟨trivial, so.taken, so.buffered⟩
  have next := holds.update gost3411Moves_lawful data (Nat.mod_le data.length (2 ^ 32)) on
  have counted := len_update so.len fits room
  rw [← List.length_append] at counted
  refine ⟨?_, ?_, ?_⟩
  · rw [gost3411Update_len so.len]
    exact counted
  · rw [gost3411Update_eq so.len]
    exact next.state
  · rw [gost3411Update_eq so.len]
    exact next.buffered

/-- An update of fewer than 2^32 bytes goes on with any block. -/
theorem goesOn_of_lt {left n : Nat} (small : n < 2 ^ 32) : GoesOn left n := by
  rw [GoesOn, Nat.mod_eq_of_lt small]
  omega

/-- The updates of a split message. -/
theorem Absorbed.updates {chunks : List (List Byte)} (so : Absorbed ctx message)
    (fit : ∀ chunk ∈ chunks, chunk.length < 2 ^ 32) :
    Absorbed (chunks.foldl zcryptoHashGost3411Update ctx) (message ++ chunks.flatten) := by
  refine foldl_pieces (fun ctx message chunk inside known => ?_) so
  have small := fit chunk inside
  exact known.update (by omega) (.inl small) (goesOn_of_lt small)

/-! ## The last blocks -/

/-- A message with its last block filled with zeros. -/
def zeroFilled (message : List Byte) : List Byte := message ++ List.replicate ((32 - message.length % 32) % 32) 0

theorem Absorbed.fill (so : Absorbed ctx message) :
    ((gost3411FillBlock ctx).hash, (gost3411FillBlock ctx).sum) = Gost3411.taken (zeroFilled message) ∧
      (gost3411FillBlock ctx).len = ctx.len := by
  have inside := Nat.mod_lt message.length (show 0 < 32 by decide)
  obtain ⟨left, last, -⟩ := positions so.len []
  have whole : ((32 : BitVec 32) - (ctx.len.get 0 &&& 0xFF) >>> 3) % 32 = 0 ↔ message.length % 32 = 0 := by
    rw [← BitVec.toNat_inj, BitVec.toNat_umod, last]
    show (32 - message.length % 32) % 32 = 0 ↔ message.length % 32 = 0
    omega
  unfold gost3411FillBlock
  simp only [ne_eq, whole, left, last]
  split
  · next begun =>
      have zeros : (32 - message.length % 32) % 32 = 32 - message.length % 32 := Nat.mod_eq_of_lt (by omega)
      have holds : gost3411Moves.Holds (Vector.replicate 8 0, Vector.replicate 8 0) ctx message :=
        ⟨trivial, so.taken, so.buffered⟩
      have room : message.length % 32 + (List.replicate (32 - message.length % 32) (0 : Byte)).length = 32 := by
        rw [List.length_replicate]
        omega
      rw [zeroFilled, zeros]
      exact ⟨(holds.fill gost3411Moves_lawful _ room).1, rfl⟩
  · next start =>
      have start := not_not.mp start
      refine ⟨?_, rfl⟩
      rw [so.taken, zeroFilled, start]
      simp

/-- `finish` fills the last block, and processes the length and the sum. -/
theorem Absorbed.finish (so : Absorbed ctx message) :
    (zcryptoHashGost3411Finish ctx).len = ctx.len ∧
      (zcryptoHashGost3411Finish ctx).sum = (Gost3411.taken (zeroFilled message)).2 ∧
      (zcryptoHashGost3411Finish ctx).hash =
        pzcryptoHashGost3411Process (pzcryptoHashGost3411Process (Gost3411.taken (zeroFilled message)).1 ctx.len)
          (Gost3411.taken (zeroFilled message)).2 := by
  obtain ⟨state, len⟩ := so.fill
  rw [zcryptoHashGost3411Finish, ← state]
  exact ⟨len, rfl, by rw [← len]⟩

/-- The hash depends on the message alone. -/
theorem Absorbed.finish_hash {ctx' : PHashGOST3411} (so : Absorbed ctx message) (other : Absorbed ctx' message) :
    (zcryptoHashGost3411Finish ctx).hash = (zcryptoHashGost3411Finish ctx').hash := by
  obtain ⟨-, -, hash⟩ := so.finish
  obtain ⟨-, -, hash'⟩ := other.finish
  have len : ctx.len = ctx'.len := by
    apply vector_ext
    intro i
    rw [← word_block ctx.len, so.len, ← other.len, word_block]
  rw [hash, hash', len]

end Gost3411

end Plibsys.Crypto
