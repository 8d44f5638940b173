import Plibsys.Support.ByteWords
import Plibsys.Types
import Mathlib.Tactic.IntervalCases

/-! # Byte order

The macros of `ptypes.h` that turn the bytes of a number around.  A hash or an address stores
the high byte of a number first, which is the low one of the swapped number.
-/

namespace Plibsys

open Support

/-- `PUINT16_SWAP_BYTES`, which is `PUINT16_TO_BE` on a little-endian host. -/
def puint16SwapBytes (val : BitVec 16) : BitVec 16 := (val >>> 8) ||| (val <<< 8)

/-- `PUINT32_SWAP_BYTES`, which is `PUINT32_TO_BE` on a little-endian host. -/
def puint32SwapBytes (val : BitVec 32) : BitVec 32 :=
  (val >>> 24) ||| ((val <<< 8) &&& 0x00FF0000#32) ||| ((val >>> 8) &&& 0x0000FF00#32) ||| (val <<< 24)

/-- `PUINT64_SWAP_BYTES`, which is `PUINT64_TO_BE` on a little-endian host. -/
def puint64SwapBytes (val : BitVec 64) : BitVec 64 :=
  (val >>> 56) ||| ((val <<< 40) &&& 0x00FF000000000000#64) ||| ((val <<< 24) &&& 0x0000FF0000000000#64) |||
    ((val <<< 8) &&& 0x000000FF00000000#64) ||| ((val >>> 8) &&& 0x00000000FF000000#64) |||
    ((val >>> 24) &&& 0x0000000000FF0000#64) ||| ((val >>> 40) &&& 0x000000000000FF00#64) ||| (val <<< 56)

theorem puint16SwapBytes_swap (val : BitVec 16) : puint16SwapBytes (puint16SwapBytes val) = val := by
  unfold puint16SwapBytes
  apply BitVec.eq_of_getLsbD_eq
  intro i inside
  have high := BitVec.getLsbD_of_ge val (8 + (8 + i)) (by omega)
  simp only [BitVec.getLsbD_or, BitVec.getLsbD_ushiftRight, BitVec.getLsbD_shiftLeft]
  by_cases low : i < 8
  · simp [low, high, show 8 + i < 16 by omega]
  · have small : 8 + (i - 8) = i := by omega
    simp [low, high, small, inside, show ¬ 8 + i < 16 by omega, show i - 8 < 8 by omega, show i - 8 < 16 by omega]

theorem puint32SwapBytes_wordOf {bytes : List Byte} (four : bytes.length = 4) :
    puint32SwapBytes (wordOf 32 bytes) = wordOf 32 bytes.reverse := by
  obtain ⟨a, b, c, d, rfl⟩ := List.length_eq_four.mp four
  apply BitVec.eq_of_getLsbD_eq
  intro i inside
  simp only [puint32SwapBytes, BitVec.getLsbD_or, BitVec.getLsbD_and, BitVec.getLsbD_ushiftRight,
    BitVec.getLsbD_shiftLeft, getLsbD_wordOf]
  interval_cases i <;> simp

theorem puint64SwapBytes_wordOf {bytes : List Byte} (eight : bytes.length = 8) :
    puint64SwapBytes (wordOf 64 bytes) = wordOf 64 bytes.reverse := by
  match bytes, eight with
  | [a, b, c, d, e, f, g, h], _ =>
      apply BitVec.eq_of_getLsbD_eq
      intro i inside
      simp only [puint64SwapBytes, BitVec.getLsbD_or, BitVec.getLsbD_and, BitVec.getLsbD_ushiftRight,
        BitVec.getLsbD_shiftLeft, getLsbD_wordOf]
      interval_cases i <;> simp

end Plibsys
