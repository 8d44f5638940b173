import Plibsys.Support.RotatingNames
import Mathlib.Data.List.FinRange
import Mathlib.Logic.Function.Iterate

/-! # Shift registers with linear feedback

A register of words whose last word is the exclusive or of some of the words before.  A clock
is linear, so any number of clocks is a matrix over the bits: the masks say which words of the
start make each word of the result.  Masks can be run in the place of words.
-/

namespace Plibsys.Support

/-! ## Exclusive ors of many words -/

variable {n k l : Nat} {ι : Type}

/-- The exclusive or of some words. -/
def xorSum (items : List ι) (f : ι → BitVec k) : BitVec k := items.foldl (fun acc i => acc ^^^ f i) 0#k

variable {items : List ι} {f g : ι → BitVec k}

theorem foldl_xor (start : BitVec k) :
    items.foldl (fun acc i => acc ^^^ f i) start = start ^^^ xorSum items f := by
  unfold xorSum
  induction items generalizing start with
  | nil => exact BitVec.xor_zero.symm
  | cons i items ih => rw [List.foldl_cons, List.foldl_cons, ih, ih (0#k ^^^ f i), BitVec.zero_xor, BitVec.xor_assoc]

@[simp] theorem xorSum_nil : xorSum [] f = 0#k := rfl

@[simp] theorem xorSum_cons (i : ι) : xorSum (i :: items) f = f i ^^^ xorSum items f := by
  rw [xorSum, List.foldl_cons, foldl_xor, BitVec.zero_xor]

theorem xorSum_congr (same : ∀ i ∈ items, f i = g i) : xorSum items f = xorSum items g := by
  induction items with
  | nil => rfl
  | cons i items ih =>
      rw [xorSum_cons, xorSum_cons, same i List.mem_cons_self,
        ih fun j mem => same j (List.mem_cons_of_mem i mem)]

theorem xorSum_xor : xorSum items (fun i => f i ^^^ g i) = xorSum items f ^^^ xorSum items g := by
  induction items with
  | nil => exact BitVec.xor_zero.symm
  | cons i items ih =>
      rw [xorSum_cons, xorSum_cons, xorSum_cons, ih]
      ac_rfl

/-- Only one of the words is there. -/
theorem xorSum_single [DecidableEq ι] {i : ι} (once : items.Nodup) (mem : i ∈ items) :
    xorSum items (fun j => if i = j then f j else 0#k) = f i := by
  have none : ∀ {others : List ι}, i ∉ others → xorSum others (fun j => if i = j then f j else 0#k) = 0#k := by
    intro others absent
    induction others with
    | nil => rfl
    | cons j others ih =>
        obtain ⟨first, rest⟩ := not_or.mp (fun at_ => absent (List.mem_cons.mpr at_))
        rw [xorSum_cons, if_neg first, ih rest, BitVec.zero_xor]
  induction items with
  | nil => cases mem
  | cons j items ih =>
      obtain ⟨fresh, once⟩ := List.nodup_cons.mp once
      rw [xorSum_cons]
      obtain rfl | mem := List.mem_cons.mp mem
      · rw [if_pos rfl, none fresh, BitVec.xor_zero]
      · have other : i ≠ j := fun same => fresh (same ▸ mem)
        rw [if_neg other, ih once mem, BitVec.zero_xor]

/-- A function that keeps exclusive ors. -/
def KeepsXor (φ : BitVec k → BitVec l) : Prop := ∀ x y, φ (x ^^^ y) = φ x ^^^ φ y

theorem KeepsXor.zero {φ : BitVec k → BitVec l} (keeps : KeepsXor φ) : φ 0#k = 0#l := by
  have same := keeps 0#k 0#k
  rwa [BitVec.xor_self, BitVec.xor_self] at same

theorem KeepsXor.xorSum {φ : BitVec k → BitVec l} (keeps : KeepsXor φ) (items : List ι) (f : ι → BitVec k) :
    φ (xorSum items f) = xorSum items fun i => φ (f i) := by
  induction items with
  | nil => exact keeps.zero
  | cons i items ih => rw [xorSum_cons, xorSum_cons, keeps, ih]

/-! ## Masks -/

/-- The exclusive or of the words that a mask chooses. -/
def combine (words : Vector (BitVec k) n) (mask : BitVec n) : BitVec k :=
  xorSum (List.finRange n) fun i => if mask.getLsbD i then words.get i else 0#k

theorem keepsXor_combine (words : Vector (BitVec k) n) : KeepsXor (combine words) := by
  intro x y
  rw [combine, combine, combine, ← xorSum_xor]
  apply xorSum_congr
  intro i _
  rw [BitVec.getLsbD_xor]
  cases x.getLsbD i <;> cases y.getLsbD i <;> simp

theorem combine_twoPow (words : Vector (BitVec k) n) (i : Fin n) :
    combine words (BitVec.twoPow n i) = words.get i := by
  rw [combine, ← xorSum_single (f := words.get) (List.nodup_finRange n) (List.mem_finRange i)]
  apply xorSum_congr
  intro j _
  simp [Fin.ext_iff, eq_comm]

/-- Every word by itself. -/
def units (n : Nat) : Vector (BitVec n) n := Vector.ofFn fun i => BitVec.twoPow n i

theorem map_units (words : Vector (BitVec k) n) : (units n).map (combine words) = words := by
  apply Vector.ext
  intro i inside
  rw [Vector.getElem_map, units, Vector.getElem_ofFn]
  exact combine_twoPow words ⟨i, inside⟩

/-! ## The register -/

/-- Every word moves one place on, and the words at the taps make the new last one. -/
def clock (taps : List (Fin n)) (words : Vector (BitVec k) n) : Vector (BitVec k) n :=
  Vector.ofFn fun i => if inside : i.val + 1 < n then words.get ⟨i.val + 1, inside⟩ else xorSum taps words.get

variable {taps : List (Fin n)}

theorem get_map {α β : Type} (φ : α → β) (file : Vector α n) (i : Fin n) : (file.map φ).get i = φ (file.get i) :=
  Vector.getElem_map φ i.isLt

theorem map_clock {φ : BitVec k → BitVec l} (keeps : KeepsXor φ) :
    Function.Semiconj (Vector.map φ) (clock taps) (clock taps) := by
  intro words
  apply vector_ext
  intro i
  rw [get_map, clock, clock, get_ofFn, get_ofFn]
  split
  · rw [get_map]
  · rw [keeps.xorSum]
    exact xorSum_congr fun j _ => (get_map φ words j).symm

/-- The register after some clocks, by the masks after them. -/
theorem iterate_clock (times : Nat) (words : Vector (BitVec k) n) :
    (clock taps)^[times] words = ((clock taps)^[times] (units n)).map (combine words) := by
  have once : Function.Semiconj (fun register => register.map (combine words)) (clock taps) (clock taps) :=
    map_clock (keepsXor_combine words)
  have run := once.iterate_right times (units n)
  rw [run, map_units]

end Plibsys.Support
