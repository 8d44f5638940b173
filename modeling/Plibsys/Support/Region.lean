import Plibsys.Support.Heap
import Mathlib.Algebra.Group.Nat.Defs
import Mathlib.Data.List.GetD

/-! # Byte regions

A region is a block of bytes with a size; an access past its end faults.  Blocks of
bytes are copied in and out by `memcpy`, and numbers are stored in little-endian byte
order.
-/

namespace Plibsys.Support

structure Region where
  size : Nat
  byte : Nat → BitVec 8

/-- The little-endian number of some bytes. -/
def decode : List (BitVec 8) → Nat
  | [] => 0
  | b :: bytes => b.toNat + 256 * decode bytes

/-- The first bytes of the little-endian form of a number. -/
def encode : Nat → Nat → List (BitVec 8)
  | 0, _ => []
  | n + 1, x => BitVec.ofNat 8 x :: encode n (x / 256)

@[simp] theorem length_encode (n x : Nat) : (encode n x).length = n := by
  induction n generalizing x with
  | zero => rfl
  | succ n ih => simp [encode, ih]

theorem decode_encode (n x : Nat) (small : x < 256 ^ n) : decode (encode n x) = x := by
  induction n generalizing x with
  | zero =>
      simp only [pow_zero, Nat.lt_one_iff] at small
      simp [encode, decode, small]
  | succ n ih =>
      rw [pow_succ] at small
      unfold encode decode
      rw [ih (x / 256) (by omega), BitVec.toNat_ofNat]
      omega

namespace Region

/-- A region of zeros. -/
def zeros (size : Nat) : Region := ⟨size, fun _ => 0⟩

/-- The region that holds just these bytes. -/
def ofList (bytes : List (BitVec 8)) : Region := ⟨bytes.length, fun a => bytes.getD a 0⟩

/-- The `n` bytes at `off`. -/
def slice (m : Region) (off n : Nat) : List (BitVec 8) :=
  (List.range n).map fun i => m.byte (off + i)

/-- The region with the bytes at `off` replaced. -/
def patch (m : Region) (off : Nat) (bytes : List (BitVec 8)) : Region :=
  { m with byte := fun a => if off ≤ a then bytes.getD (a - off) (m.byte a) else m.byte a }

/-- The 64-bit number at `off`. -/
@[irreducible]
def word (m : Region) (off : Nat) : BitVec 64 := BitVec.ofNat 64 (decode (m.slice off 8))

/-- `memcpy (dst + dstOff, src + srcOff, n)` -/
def memcpy (dst : Region) (dstOff : Nat) (src : Region) (srcOff n : Nat) : Exec Region :=
  if srcOff + n ≤ src.size ∧ dstOff + n ≤ dst.size then
    .ok (dst.patch dstOff (src.slice srcOff n))
  else
    .error .fault

/-- `m[a]` -/
def load (m : Region) (a : Nat) : Exec (BitVec 8) :=
  if a < m.size then .ok (m.byte a) else .error .fault

/-- `m[a] = value` -/
def store (m : Region) (a : Nat) (value : BitVec 8) : Exec Region :=
  if a < m.size then .ok (m.patch a [value]) else .error .fault

/-- `memset (m, value, n)` -/
def memset (m : Region) (value : BitVec 8) (n : Nat) : Exec Region :=
  if n ≤ m.size then .ok (m.patch 0 (List.replicate n value)) else .error .fault

/-- `memcpy` of the 64-bit number at `off` into a variable. -/
def loadWord (m : Region) (off : Nat) : Exec (BitVec 64) :=
  if off + 8 ≤ m.size then .ok (m.word off) else .error .fault

/-- `memcpy` of a 64-bit variable to `off`. -/
def storeWord (m : Region) (off : Nat) (value : BitVec 64) : Exec Region :=
  if off + 8 ≤ m.size then .ok (m.patch off (encode 8 value.toNat)) else .error .fault

/-- `memcpy` of the bytes at `off` into a variable. -/
def loadBytes (m : Region) (off n : Nat) : Exec (List (BitVec 8)) :=
  if off + n ≤ m.size then .ok (m.slice off n) else .error .fault

/-- `memcpy` of a variable to `off`. -/
def storeBytes (m : Region) (off : Nat) (bytes : List (BitVec 8)) : Exec Region :=
  if off + bytes.length ≤ m.size then .ok (m.patch off bytes) else .error .fault

variable {m m' : Region} {off off' n : Nat} {bytes : List (BitVec 8)}

@[simp] theorem size_patch : (m.patch off bytes).size = m.size := rfl

@[simp] theorem size_zeros (size : Nat) : (zeros size).size = size := rfl

@[simp] theorem length_slice : (m.slice off n).length = n := by simp [slice]

theorem byte_patch_inside {i : Nat} (inside : i < bytes.length) :
    (m.patch off bytes).byte (off + i) = bytes.get ⟨i, inside⟩ := by
  simp [patch, inside]

theorem byte_patch_outside {a : Nat} (outside : a < off ∨ off + bytes.length ≤ a) :
    (m.patch off bytes).byte a = m.byte a := by
  simp only [patch]
  split
  · rw [List.getD_eq_default]
    omega
  · rfl

theorem slice_congr (same : ∀ a, off ≤ a → a < off + n → m.byte a = m'.byte a) :
    m.slice off n = m'.slice off n := by
  apply List.map_congr_left
  intro i inside
  rw [List.mem_range] at inside
  exact same _ (Nat.le_add_right _ _) (by omega)

theorem slice_patch (m : Region) (off : Nat) (bytes : List (BitVec 8)) :
    (m.patch off bytes).slice off bytes.length = bytes := by
  apply List.ext_getElem
  · simp
  · intro i inside inside'
    simp only [slice, List.getElem_map, List.getElem_range]
    exact byte_patch_inside inside'

theorem slice_ofList_take (long : n ≤ bytes.length) : (ofList bytes).slice 0 n = bytes.take n := by
  apply List.ext_getElem
  · simp [long]
  · intro i inside inside'
    have within : i < bytes.length := by
      rw [List.length_take] at inside'
      omega
    simp [slice, ofList, within]

theorem slice_ofList (bytes : List (BitVec 8)) : (ofList bytes).slice 0 bytes.length = bytes := by
  rw [slice_ofList_take (Nat.le_refl _), List.take_length]

theorem slice_succ : m.slice off (n + 1) = m.byte off :: m.slice (off + 1) n := by
  simp [slice, List.range_succ_eq_map, Function.comp_def, Nat.add_assoc, Nat.add_comm 1]

/-- Two slices, one behind the other. -/
theorem slice_append {k : Nat} (next : off' = off + k) : m.slice off k ++ m.slice off' n = m.slice off (k + n) := by
  subst next
  simp [slice, List.range_add, Function.comp_def, Nat.add_assoc]

@[simp] theorem patch_nil : m.patch off [] = m := by
  simp [patch]

theorem patch_append (bytes more : List (BitVec 8)) :
    (m.patch off bytes).patch (off + bytes.length) more = m.patch off (bytes ++ more) := by
  simp only [patch, Region.mk.injEq, true_and]
  funext a
  by_cases above : off ≤ a
  · rw [if_pos above, if_pos above]
    by_cases inside : a - off < bytes.length
    · rw [if_neg (by omega), List.getD_append _ _ _ _ inside]
    · rw [if_pos (by omega), List.getD_append_right _ _ _ _ (by omega), Nat.sub_sub]
      congr 1
      exact List.getD_eq_default _ _ (by omega)
  · rw [if_neg (by omega), if_neg above, if_neg above]

/-- A write just behind an earlier one. -/
theorem patch_behind {more : List (BitVec 8)} (behind : off' = off + bytes.length) :
    (m.patch off bytes).patch off' more = m.patch off (bytes ++ more) := by
  rw [behind, patch_append]

/-- A write over the bytes of an earlier one. -/
theorem patch_patch (bytes more : List (BitVec 8)) (covers : bytes.length ≤ more.length) :
    (m.patch off bytes).patch off more = m.patch off more := by
  simp only [patch, Region.mk.injEq, true_and]
  funext a
  by_cases above : off ≤ a
  · rw [if_pos above, if_pos above, if_pos above]
    by_cases inside : a - off < more.length
    · rw [List.getD_eq_getElem _ _ inside, List.getD_eq_getElem _ _ inside]
    · rw [List.getD_eq_default bytes _ (by omega)]
  · rw [if_neg above, if_neg above, if_neg above]

/-- Writes that do not overlap can change places. -/
theorem patch_comm (bytes more : List (BitVec 8)) (apart : off + bytes.length ≤ off' ∨ off' + more.length ≤ off) :
    (m.patch off bytes).patch off' more = (m.patch off' more).patch off bytes := by
  simp only [patch, Region.mk.injEq, true_and]
  funext a
  by_cases first : off ≤ a <;> by_cases second : off' ≤ a <;> simp only [first, second, if_true, if_false]
  rcases apart with before | behind
  · rw [List.getD_eq_default bytes _ (by omega), List.getD_eq_default bytes _ (by omega)]
  · rw [List.getD_eq_default more _ (by omega), List.getD_eq_default more _ (by omega)]

/-- Some of the bytes that were written. -/
theorem slice_patch_inside (inside : off' + n ≤ bytes.length) :
    (m.patch off bytes).slice (off + off') n = (bytes.drop off').take n := by
  apply List.ext_getElem
  · simp
    omega
  · intro i shorter shorter'
    rw [length_slice] at shorter
    simp only [slice, List.getElem_map, List.getElem_range, Nat.add_assoc]
    rw [byte_patch_inside (show off' + i < bytes.length by omega)]
    simp

theorem loadBytes_ok (fits : off + n ≤ m.size) : m.loadBytes off n = .ok (m.slice off n) := if_pos fits

theorem storeBytes_ok (fits : off + bytes.length ≤ m.size) : m.storeBytes off bytes = .ok (m.patch off bytes) :=
  if_pos fits

theorem storeBytes_bind {β : Type} {rest : Region → Exec β} (fits : off + bytes.length ≤ m.size) :
    (m.storeBytes off bytes >>= rest) = rest (m.patch off bytes) := by
  rw [storeBytes_ok fits]
  rfl

theorem loadBytes_bind {β : Type} {rest : List (BitVec 8) → Exec β} (fits : off + n ≤ m.size) :
    (m.loadBytes off n >>= rest) = rest (m.slice off n) := by
  rw [loadBytes_ok fits]
  rfl

/-- A run that goes on has read the bytes. -/
theorem of_loadBytes_bind {β : Type} {rest : List (BitVec 8) → Exec β} {x : β}
    (result : (m.loadBytes off n >>= rest) = .ok x) : off + n ≤ m.size ∧ rest (m.slice off n) = .ok x := by
  by_cases fits : off + n ≤ m.size
  · exact ⟨fits, by rwa [loadBytes_bind fits] at result⟩
  · rw [loadBytes, if_neg fits] at result
    contradiction

/-- A run that goes on has written the bytes. -/
theorem of_storeBytes_bind {β : Type} {rest : Region → Exec β} {x : β}
    (result : (m.storeBytes off bytes >>= rest) = .ok x) : off + bytes.length ≤ m.size ∧ rest (m.patch off bytes) = .ok x := by
  by_cases fits : off + bytes.length ≤ m.size
  · exact ⟨fits, by rwa [storeBytes_bind fits] at result⟩
  · rw [storeBytes, if_neg fits] at result
    contradiction

theorem word_congr (same : ∀ a, off ≤ a → a < off + 8 → m.byte a = m'.byte a) :
    m.word off = m'.word off := by
  rw [word, word, slice_congr same]

theorem word_patch_word (value : BitVec 64) : (m.patch off (encode 8 value.toNat)).word off = value := by
  have copied := slice_patch m off (encode 8 value.toNat)
  rw [length_encode] at copied
  rw [word, copied, decode_encode 8 _ (show _ < 256 ^ 8 by have := value.isLt; omega)]
  simp

theorem word_patch_outside (outside : off' + 8 ≤ off ∨ off + bytes.length ≤ off') :
    (m.patch off bytes).word off' = m.word off' := by
  apply word_congr
  intro a above below
  exact byte_patch_outside (by omega)

theorem word_zeros (off size : Nat) : (zeros size).word off = 0 := by
  rw [word, show (zeros size).slice off 8 = List.replicate 8 0 from rfl]
  rfl

theorem memcpy_ok {src : Region} {srcOff : Nat} (readable : srcOff + n ≤ src.size)
    (writable : off + n ≤ m.size) :
    m.memcpy off src srcOff n = .ok (m.patch off (src.slice srcOff n)) :=
  if_pos ⟨readable, writable⟩

theorem load_ok {a : Nat} (inside : a < m.size) : m.load a = .ok (m.byte a) := if_pos inside

theorem store_ok {a : Nat} {value : BitVec 8} (inside : a < m.size) :
    m.store a value = .ok (m.patch a [value]) := if_pos inside

theorem memset_ok {value : BitVec 8} (fits : n ≤ m.size) :
    m.memset value n = .ok (m.patch 0 (List.replicate n value)) := if_pos fits

theorem loadWord_ok (fits : off + 8 ≤ m.size) : m.loadWord off = .ok (m.word off) := if_pos fits

theorem storeWord_ok {value : BitVec 64} (fits : off + 8 ≤ m.size) :
    m.storeWord off value = .ok (m.patch off (encode 8 value.toNat)) := if_pos fits

end Region

end Plibsys.Support
