import Plibsys.Crypto.GostUpdates

/-! # The length and the checksum of GOST R 34.11-94

The counter of bits is right in every run.  The checksum is the sum of the blocks as long as
no addition meets a limb of ones in both operands with a carry coming in: `sum_256` then loses
the carry, and the checksum lacks what the lost carries are worth.
-/

namespace Plibsys.Crypto

open Support

namespace GostR3411

open Gost3411

/-- A block of the message as a number. -/
def number (bytes : List Byte) : BitVec 256 := BitVec.ofNat 256 (decode bytes)

/-- The sum of some blocks modulo 2^256. -/
def checksum (data : List (List Byte)) : BitVec 256 := BitVec.ofNat 256 (data.map decode).sum

/-- The digest of some blocks with the number of bits and the checksum that are processed last. -/
def digest (data : List (List Byte)) (bits sum : BitVec 256) : BitVec 256 :=
  step (step (data.foldl (fun H bytes => step H (number bytes)) 0) bits) sum

end GostR3411

namespace Gost3411

open GostR3411

/-- A limb below the last one is all ones in both operands, and a carry comes in. -/
def LosesCarry (sum x : BitVec 256) : Prop := ∃ j < 7, Absorbs 32 sum x j

instance (sum x : BitVec 256) : Decidable (LosesCarry sum x) :=
  inferInstanceAs (Decidable (∃ j < 7, Absorbs 32 sum x j))

/-- The sum that the code has after some blocks. -/
def sumOf (data : List (List Byte)) : Vector (BitVec 32) 8 :=
  data.foldl (fun sum bytes => pzcryptoHashGost3411Sum256 sum (parse 32 8 bytes)) (Vector.replicate 8 0)

/-- The hash that the code has after some blocks. -/
def hashOf (data : List (List Byte)) : Vector (BitVec 32) 8 :=
  data.foldl (fun hash bytes => pzcryptoHashGost3411Process hash (parse 32 8 bytes)) (Vector.replicate 8 0)

theorem taken_eq (message : List Byte) :
    Gost3411.taken message = (hashOf (blocks 32 message), sumOf (blocks 32 message)) := by
  rw [Gost3411.taken, absorb, hashOf, sumOf]
  generalize blocks 32 message = data
  induction data using List.reverseRecOn with
  | nil => rfl
  | append_singleton data bytes ih =>
      rw [List.foldl_append, List.foldl_append, List.foldl_append, ih]
      rfl

theorem block_parse {bytes : List Byte} (whole : bytes.length = 32) : block (parse 32 8 bytes) = number bytes := by
  apply BitVec.eq_of_toNat_eq
  have small := decode_lt bytes
  rw [whole] at small
  rw [block, toNat_value (by decide) rfl, unparse_parse (by decide) whole, number, BitVec.toNat_ofNat, Nat.mod_eq_of_lt]
  exact small

theorem checksum_append (data : List (List Byte)) (bytes : List Byte) :
    checksum (data ++ [bytes]) = checksum data + number bytes := by
  rw [checksum, checksum, number, List.map_append, List.sum_append, List.map_singleton, List.sum_singleton,
    BitVec.ofNat_add]

theorem sumOf_append (data : List (List Byte)) (bytes : List Byte) :
    sumOf (data ++ [bytes]) = pzcryptoHashGost3411Sum256 (sumOf data) (parse 32 8 bytes) := by
  rw [sumOf, List.foldl_append, ← sumOf]
  rfl

/-- One addition: the sum stays right just when no carry is lost. -/
theorem sumOf_step {data : List (List Byte)} {bytes : List Byte} (whole : bytes.length = 32)
    (right : block (sumOf data) = checksum data) :
    block (sumOf (data ++ [bytes])) = checksum (data ++ [bytes]) ↔ ¬LosesCarry (checksum data) (number bytes) := by
  have exact := sum256_iff (sumOf data) (parse 32 8 bytes)
  rw [right, block_parse whole, ← checksum_append, ← sumOf_append] at exact
  rw [exact, LosesCarry]
  simp only [not_exists, not_and]

/-- The sum is right after every block just when no addition loses a carry. -/
theorem sums_iff {data : List (List Byte)} (whole : ∀ bytes ∈ data, bytes.length = 32) :
    (∀ i ≤ data.length, block (sumOf (data.take i)) = checksum (data.take i)) ↔
      ∀ i < data.length, ¬LosesCarry (checksum (data.take i)) (number (data.getD i [])) := by
  have grow : ∀ i < data.length, data.take (i + 1) = data.take i ++ [data.getD i []] := by
    intro i below
    rw [List.take_succ_eq_append_getElem below, List.getD_eq_getElem _ _ below]
  have size : ∀ i < data.length, (data.getD i []).length = 32 := by
    intro i below
    rw [List.getD_eq_getElem _ _ below]
    exact whole _ (List.getElem_mem below)
  constructor
  · intro right i below
    have after := right (i + 1) below
    rw [grow i below] at after
    exact (sumOf_step (size i below) (right i below.le)).mp after
  · intro keeps i
    induction i with
    | zero =>
        intro _
        exact block_zeros
    | succ i ih =>
        intro below
        rw [grow i below]
        exact (sumOf_step (size i below) (ih (Nat.le_of_succ_le below))).mpr (keeps i below)

theorem block_hashOf {data : List (List Byte)} (whole : ∀ bytes ∈ data, bytes.length = 32) :
    block (hashOf data) = data.foldl (fun H bytes => step H (number bytes)) 0 := by
  induction data using List.reverseRecOn with
  | nil => exact block_zeros
  | append_singleton data bytes ih =>
      have before := ih fun b mem => whole b (List.mem_append_left _ mem)
      have last := block_parse (whole bytes (List.mem_append_right _ (List.mem_singleton.mpr rfl)))
      rw [List.foldl_append, ← before, hashOf, List.foldl_append, ← hashOf, List.foldl_cons, List.foldl_nil,
        block_process, last]
      rfl

/-- No addition of a block loses a carry. -/
def KeepsCarries (data : List (List Byte)) : Prop :=
  ∀ i < data.length, ¬LosesCarry (checksum (data.take i)) (number (data.getD i []))

instance (data : List (List Byte)) : Decidable (KeepsCarries data) :=
  inferInstanceAs (Decidable (∀ i < data.length, _))

/-- What all carries that were lost are worth. -/
def lostIn (data : List (List Byte)) : Nat :=
  ((List.range data.length).map fun i => lost 32 (block (sumOf (data.take i))) (number (data.getD i [])) 7).sum

theorem lostIn_append (data : List (List Byte)) (bytes : List Byte) :
    lostIn (data ++ [bytes]) = lostIn data + lost 32 (block (sumOf data)) (number bytes) 7 := by
  rw [lostIn, List.length_append, List.length_singleton, List.range_succ, List.map_append, List.sum_append,
    List.map_singleton, List.sum_singleton, List.take_left', List.getD_append_right _ _ _ _ (Nat.le_refl _), Nat.sub_self,
    lostIn]
  · congr 2
    apply List.map_congr_left
    intro i inside
    have below := List.mem_range.mp inside
    rw [List.take_append_of_le_length below.le, List.getD_append _ _ _ _ below]
  · rfl

/-- What the sum lacks. -/
theorem sumOf_lost {data : List (List Byte)} (whole : ∀ bytes ∈ data, bytes.length = 32) :
    block (sumOf data) + BitVec.ofNat 256 (lostIn data) = checksum data := by
  induction data using List.reverseRecOn with
  | nil => exact congrArg (· + 0) block_zeros
  | append_singleton data bytes ih =>
      have before := ih fun b mem => whole b (List.mem_append_left _ mem)
      have last := block_parse (whole bytes (List.mem_append_right _ (List.mem_singleton.mpr rfl)))
      have step := sum256_lost (sumOf data) (parse 32 8 bytes)
      rw [last, ← sumOf_append] at step
      rw [lostIn_append, checksum_append, ← before, BitVec.ofNat_add]
      calc block (sumOf (data ++ [bytes])) +
            (BitVec.ofNat 256 (lostIn data) + BitVec.ofNat 256 (lost 32 (block (sumOf data)) (number bytes) 7))
        _ = block (sumOf (data ++ [bytes])) + BitVec.ofNat 256 (lost 32 (block (sumOf data)) (number bytes) 7) +
            BitVec.ofNat 256 (lostIn data) := by ac_rfl
        _ = block (sumOf data) + number bytes + BitVec.ofNat 256 (lostIn data) := by rw [step]
        _ = block (sumOf data) + BitVec.ofNat 256 (lostIn data) + number bytes := by ac_rfl

theorem eq_iff_dvd {n l : Nat} {x y : BitVec n} (sum : x + BitVec.ofNat n l = y) : x = y ↔ 2 ^ n ∣ l := by
  rw [← sum, BitVec.self_eq_add_right, ← BitVec.toNat_inj, BitVec.toNat_ofNat, BitVec.toNat_ofNat, Nat.zero_mod,
    Nat.dvd_iff_mod_eq_zero]

theorem keepsCarries_append (data : List (List Byte)) (bytes : List Byte) :
    KeepsCarries (data ++ [bytes]) ↔ KeepsCarries data ∧ ¬LosesCarry (checksum data) (number bytes) := by
  rw [KeepsCarries, List.length_append, List.length_singleton, Nat.forall_lt_succ_right]
  refine and_congr (forall₂_congr fun i below => ?_) ?_
  · rw [List.take_append_of_le_length below.le, List.getD_append _ _ _ _ below]
  · rw [List.take_left, List.getD_append_right _ _ _ _ (Nat.le_refl _), Nat.sub_self]
    rfl

/-- No addition loses a carry just when nothing is lost in all. -/
theorem keepsCarries_iff {data : List (List Byte)} (whole : ∀ bytes ∈ data, bytes.length = 32) :
    KeepsCarries data ↔ lostIn data = 0 := by
  induction data using List.reverseRecOn with
  | nil => exact ⟨fun _ => rfl, fun _ i below => absurd below (Nat.not_lt_zero i)⟩
  | append_singleton data bytes ih =>
      have before : ∀ b ∈ data, b.length = 32 := fun b mem => whole b (List.mem_append_left _ mem)
      have size := whole bytes (List.mem_append_right _ (List.mem_singleton.mpr rfl))
      rw [keepsCarries_append, lostIn_append, Nat.add_eq_zero_iff, ih before]
      refine and_congr_right fun nothing => ?_
      have right := sumOf_lost before
      rw [nothing, BitVec.add_zero] at right
      have step := sum256_lost (sumOf data) (parse 32 8 bytes)
      rw [block_parse size, ← sumOf_append] at step
      have small := lost_lt (w := 32) (by decide) (block (sumOf data)) (number bytes) 7
      rw [← sumOf_step size right, checksum_append, ← right, eq_iff_dvd step]
      refine ⟨fun divides => Nat.eq_zero_of_dvd_of_lt divides ?_, fun zero => zero ▸ Nat.dvd_zero _⟩
      omega

theorem lostIn_le (data : List (List Byte)) : lostIn data ≤ data.length * 2 ^ 225 := by
  induction data using List.reverseRecOn with
  | nil => exact Nat.zero_le _
  | append_singleton data bytes ih =>
      have small := lost_lt (w := 32) (by decide) (block (sumOf data)) (number bytes) 7
      rw [lostIn_append, List.length_append, List.length_singleton]
      omega

/-- The whole blocks of a message come first in any longer one. -/
theorem blocks_prefix (front back : List Byte) : blocks 32 front <+: blocks 32 (zeroFilled (front ++ back)) := by
  rw [zeroFilled, List.append_assoc, blocks_append (by decide) front]
  exact List.prefix_append _ _

end Gost3411

open Gost3411 GostR3411

/-- However a message is split into updates of fewer than 2^32 bytes, `finish` processes the number
    of its bits.  The checksum is right in every state of the run just when no addition of a block
    loses a carry, and in the last state just when what is lost is a multiple of 2^256 in all; the
    two are the same below 2^31 blocks.  If no carry is lost, the digest is that of the standard. -/
theorem accumulators_iff (old : PHashGOST3411) (chunks : List (List Byte))
    (fit : ∀ chunk ∈ chunks, chunk.length < 2 ^ 32) :
    let run := fun front => front.foldl zcryptoHashGost3411Update (zcryptoHashGost3411Reset old)
    let done := zcryptoHashGost3411Finish (run chunks)
    let data := blocks 32 (zeroFilled chunks.flatten)
    let bits := BitVec.ofNat 256 (8 * chunks.flatten.length)
    block done.len = bits ∧
      (∀ front, front <+: chunks → blocks 32 front.flatten <+: data ∧ (run front).sum = sumOf (blocks 32 front.flatten)) ∧
      done.sum = sumOf data ∧
      ((∀ i ≤ data.length, block (sumOf (data.take i)) = checksum (data.take i)) ↔ KeepsCarries data) ∧
      (block done.sum = checksum data ↔ 2 ^ 256 ∣ lostIn data) ∧
      (data.length < 2 ^ 31 → (block done.sum = checksum data ↔ KeepsCarries data)) ∧
      (KeepsCarries data → block done.sum = checksum data ∧ block done.hash = GostR3411.digest data bits (checksum data)) := by
  intro run done data bits
  have absorbed : ∀ front, front <+: chunks → Absorbed (run front) front.flatten := by
    intro front first
    have so := (absorbed_reset old).updates fun chunk mem => fit chunk (first.subset mem)
    rwa [List.nil_append] at so
  have whole : ∀ bytes ∈ data, bytes.length = 32 := fun _ => length_of_mem_blocks
  obtain ⟨len, sum, hash⟩ := (absorbed chunks (List.prefix_refl _)).finish
  rw [taken_eq] at sum hash
  have counted : block done.len = bits := (congrArg block len).trans (absorbed chunks (List.prefix_refl _)).len
  have last : block done.sum = checksum data ↔ 2 ^ 256 ∣ lostIn data := by
    rw [show done.sum = sumOf data from sum]
    exact eq_iff_dvd (sumOf_lost whole)
  have kept : KeepsCarries data ↔ lostIn data = 0 := keepsCarries_iff whole
  refine ⟨counted, ?_, sum, sums_iff whole, last, ?_, ?_⟩
  · intro front first
    obtain ⟨back, rfl⟩ := first
    refine ⟨?_, ?_⟩
    · have longer := blocks_prefix front.flatten back.flatten
      rwa [← List.flatten_append] at longer
    · have state := (absorbed front ⟨back, rfl⟩).taken
      rw [taken_eq] at state
      exact congrArg Prod.snd state
  · intro short
    have small := lostIn_le data
    rw [last, kept]
    refine ⟨fun divides => Nat.eq_zero_of_dvd_of_lt divides ?_, fun zero => zero ▸ Nat.dvd_zero _⟩
    omega
  · intro keeps
    have right : block done.sum = checksum data := last.mpr (kept.mp keeps ▸ Nat.dvd_zero _)
    refine ⟨right, ?_⟩
    rw [hash, block_process, block_process, block_hashOf whole, ← right, show done.sum = sumOf data from sum,
      (absorbed chunks (List.prefix_refl _)).len]
    rfl

/-- Two updates of three bytes in all. -/
theorem accumulators_three_bytes :
    let done := zcryptoHashGost3411Finish ([[0x01, 0x02], [0x03]].foldl zcryptoHashGost3411Update
      (zcryptoHashGost3411Reset
        ⟨Vector.replicate 8 0, Vector.replicate 8 0, Vector.replicate 8 0, Vector.replicate 8 0⟩))
    block done.len = 24 ∧ block done.sum = 0x030201 := by
  obtain ⟨len, -, -, -, -, -, sum⟩ := accumulators_iff
    ⟨Vector.replicate 8 0, Vector.replicate 8 0, Vector.replicate 8 0, Vector.replicate 8 0⟩ [[0x01, 0x02], [0x03]] (by decide)
  exact ⟨len, (sum (by decide +kernel)).1.trans (by decide +kernel)⟩

/-- Two blocks of ones: the carry out of the second limb is lost. -/
theorem checksum_loses_carry :
    ¬∀ chunks : List (List Byte), (∀ chunk ∈ chunks, chunk.length < 2 ^ 32) →
      block (zcryptoHashGost3411Finish (chunks.foldl zcryptoHashGost3411Update (zcryptoHashGost3411Reset
        ⟨Vector.replicate 8 0, Vector.replicate 8 0, Vector.replicate 8 0, Vector.replicate 8 0⟩))).sum =
        checksum (blocks 32 (zeroFilled chunks.flatten)) := by
  intro claim
  have ones := claim [List.replicate 64 0xFF] (by decide)
  have small : ∀ chunk ∈ [List.replicate 64 (0xFF : Byte)], chunk.length < 2 ^ 32 := by decide
  have so := (absorbed_reset ⟨Vector.replicate 8 0, Vector.replicate 8 0, Vector.replicate 8 0,
    Vector.replicate 8 0⟩).updates small
  rw [so.finish.2.1, taken_eq] at ones
  revert ones
  decide +kernel

end Plibsys.Crypto
