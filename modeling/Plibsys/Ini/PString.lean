import Plibsys.Support.Stdio
import Plibsys.Types
import Mathlib.Data.List.GetD

/-! # `zstrchomp`

`pstring.c`: a copy of a string without the blanks at its ends.
-/

namespace Plibsys.Ini

open Support

/-- The first loop of `zstrchomp`. -/
def startLoop (posEnd : Nat) : List Byte → Nat → Nat
  | [], posStart => posStart
  | c :: ptr, posStart =>
      if posStart < posEnd ∧ isspace c then startLoop posEnd ptr (posStart + 1) else posStart

/-- The second loop of `zstrchomp`. -/
def endLoop (str : List Byte) : Nat → Nat
  | 0 => 0
  | posEnd + 1 => if isspace (str.getD (posEnd + 1) 0) then endLoop str posEnd else posEnd + 1

/-- `zstrchomp` -/
def zstrchomp (str : List Byte) : List Byte :=
  -- for the empty string pos_end is -1, below pos_start
  if str = [] then []
  else
    let posStart := startLoop (str.length - 1) str 0
    let posEnd := endLoop str (str.length - 1)
    if posEnd < posStart then []
    else if posEnd = posStart ∧ isspace (str.getD posEnd 0) then []
    else (str.drop posStart).take (posEnd - posStart + 1)

variable {before middle after str : List Byte}

theorem startLoop_spaces {posEnd posStart : Nat} {rest : List Byte} (blank : ∀ c ∈ before, isspace c)
    (below : posStart + before.length ≤ posEnd) :
    startLoop posEnd (before ++ rest) posStart = startLoop posEnd rest (posStart + before.length) := by
  induction before generalizing posStart with
  | nil => rfl
  | cons c before ih =>
      rw [List.length_cons] at below
      rw [List.cons_append, startLoop, if_pos ⟨by omega, blank c List.mem_cons_self⟩,
        ih (fun c inside => blank c (List.mem_cons_of_mem _ inside)) (by omega), List.length_cons]
      congr 1
      omega

theorem startLoop_stop {posEnd posStart : Nat} {c : Byte} {rest : List Byte} (solid : isspace c = false) :
    startLoop posEnd (c :: rest) posStart = posStart := by
  simp [startLoop, solid]

theorem endLoop_spaces {k n : Nat} (blank : ∀ j, k < j → j ≤ k + n → isspace (str.getD j 0)) :
    endLoop str (k + n) = endLoop str k := by
  induction n with
  | zero => rfl
  | succ n ih =>
      rw [← Nat.add_assoc, endLoop, if_pos (blank _ (by omega) (by omega))]
      exact ih fun j above below => blank j above (by omega)

theorem endLoop_stop {k : Nat} (solid : isspace (str.getD k 0) = false) : endLoop str k = k := by
  cases k with
  | zero => rfl
  | succ k => rw [endLoop, solid, if_neg Bool.false_ne_true]

theorem getD_mem {j : Nat} (inside : j < str.length) : str.getD j 0 ∈ str := by
  rw [List.getD_eq_getElem _ _ inside]
  exact List.getElem_mem inside

/-- A string of blanks becomes empty. -/
theorem zstrchomp_blank (blank : ∀ c ∈ str, isspace c) : zstrchomp str = [] := by
  unfold zstrchomp
  by_cases empty : str = []
  · rw [if_pos empty]
  · rw [if_neg empty]
    have positive := List.length_pos_iff.mpr empty
    obtain ⟨n, lengthEq⟩ := Nat.exists_eq_succ_of_ne_zero (Nat.ne_of_gt positive)
    have first : startLoop (str.length - 1) str 0 = n := by
      have split : str = str.dropLast ++ [str.getLast empty] := (List.dropLast_concat_getLast empty).symm
      have front : str.dropLast.length = n := by
        rw [List.length_dropLast, lengthEq]
        rfl
      rw [lengthEq, split, startLoop_spaces (fun c inside => blank c (List.dropLast_subset _ inside))
        (by rw [front]; omega), front]
      simp [startLoop]
    have last : endLoop str (str.length - 1) = 0 := by
      rw [lengthEq, Nat.succ_sub_one, ← Nat.zero_add n]
      exact endLoop_spaces fun j _ below => blank _ (getD_mem (by omega))
    simp only [first, last]
    split
    · rfl
    · rw [if_pos ⟨by omega, blank _ (getD_mem positive)⟩]

/-- The text between blanks stays. -/
theorem zstrchomp_middle (blankBefore : ∀ c ∈ before, isspace c) (blankAfter : ∀ c ∈ after, isspace c)
    (nonempty : middle ≠ []) (solidHead : isspace (middle.head nonempty) = false)
    (solidLast : isspace (middle.getLast nonempty) = false) :
    zstrchomp (before ++ (middle ++ after)) = middle := by
  have positive := List.length_pos_iff.mpr nonempty
  have total : (before ++ (middle ++ after)).length = before.length + middle.length + after.length := by
    simp only [List.length_append]
    omega
  have first : startLoop (before.length + middle.length + after.length - 1) (before ++ (middle ++ after)) 0 =
      before.length := by
    rw [startLoop_spaces blankBefore (by omega), Nat.zero_add, ← List.cons_head_tail nonempty,
      List.cons_append]
    exact startLoop_stop solidHead
  have lastSolid : isspace ((before ++ (middle ++ after)).getD (before.length + (middle.length - 1)) 0) = false := by
    rw [List.getD_append_right _ _ _ _ (by omega), Nat.add_sub_cancel_left,
      List.getD_append _ _ _ _ (by omega), List.getD_eq_getElem _ _ (by omega), ← List.getLast_eq_getElem nonempty]
    exact solidLast
  have last : endLoop (before ++ (middle ++ after)) (before.length + middle.length + after.length - 1) =
      before.length + (middle.length - 1) := by
    rw [show before.length + middle.length + after.length - 1 =
      before.length + (middle.length - 1) + after.length by omega, endLoop_spaces, endLoop_stop lastSolid]
    intro j above below
    rw [List.getD_append_right _ _ _ _ (by omega), List.getD_append_right _ _ _ _ (by omega)]
    exact blankAfter _ (getD_mem (by omega))
  unfold zstrchomp
  rw [if_neg (by simp [nonempty]), total]
  simp only [first, last]
  rw [if_neg (by omega), if_neg]
  · rw [List.drop_left, show before.length + (middle.length - 1) - before.length + 1 = middle.length by omega,
      List.take_left]
  · rw [lastSolid]
    simp

/-- `zstrchomp` drops the blanks at both ends. -/
theorem zstrchomp_eq (str : List Byte) : zstrchomp str = (str.dropWhile isspace).rdropWhile isspace := by
  have split := List.takeWhile_append_dropWhile (p := isspace) (l := str)
  have blankBefore : ∀ c ∈ str.takeWhile isspace, isspace c := fun c inside => List.mem_takeWhile_imp inside
  by_cases allBlank : str.dropWhile isspace = []
  · rw [allBlank, List.append_nil] at split
    rw [allBlank, zstrchomp_blank (split ▸ blankBefore)]
    rfl
  · have solidFirst := List.head_dropWhile_not isspace allBlank
    generalize str.dropWhile isspace = rest at split allBlank solidFirst ⊢
    have parts : rest.rdropWhile isspace ++ rest.rtakeWhile isspace = rest :=
      List.rdropWhile_append_rtakeWhile
    have blankAfter : ∀ c ∈ rest.rtakeWhile isspace, isspace c := fun c inside => List.mem_rtakeWhile_imp inside
    have nonempty : rest.rdropWhile isspace ≠ [] := by
      intro noText
      have blankFirst := List.rdropWhile_eq_nil_iff.mp noText _ (List.head_mem allBlank)
      rw [solidFirst] at blankFirst
      cases blankFirst
    have solidLast : isspace ((rest.rdropWhile isspace).getLast nonempty) = false := by
      simpa using List.rdropWhile_last_not isspace rest nonempty
    generalize rest.rdropWhile isspace = text, rest.rtakeWhile isspace = after at *
    subst parts
    rw [List.head_append_of_ne_nil nonempty] at solidFirst
    rw [← split, zstrchomp_middle blankBefore blankAfter nonempty solidFirst solidLast]

/-- A string without blanks at its ends is left as it is, also when blanks follow. -/
theorem zstrchomp_solid (nonempty : str ≠ []) (solidHead : isspace (str.head nonempty) = false)
    (solidLast : isspace (str.getLast nonempty) = false) (blankAfter : ∀ c ∈ after, isspace c) :
    zstrchomp (str ++ after) = str :=
  zstrchomp_middle (fun _ inside => absurd inside List.not_mem_nil) blankAfter nonempty solidHead solidLast

theorem zstrchomp_eq_self (nonempty : str ≠ []) (solidHead : isspace (str.head nonempty) = false)
    (solidLast : isspace (str.getLast nonempty) = false) : zstrchomp str = str := by
  have alone : zstrchomp (str ++ []) = str :=
    zstrchomp_solid nonempty solidHead solidLast fun _ inside => absurd inside List.not_mem_nil
  rwa [List.append_nil] at alone

/-- Blanks at the end play no role. -/
theorem zstrchomp_append_blank (str : List Byte) (blankAfter : ∀ c ∈ after, isspace c) :
    zstrchomp (str ++ after) = zstrchomp str := by
  have noAfter : after.dropWhile isspace = [] := List.dropWhile_eq_nil_iff.mpr blankAfter
  have blankReverse : ∀ c ∈ after.reverse, isspace c :=
    fun c inside => blankAfter c (List.mem_reverse.mp inside)
  rw [zstrchomp_eq, zstrchomp_eq, List.dropWhile_append]
  cases solid : str.dropWhile isspace with
  | nil => simp [noAfter]
  | cons c rest =>
      rw [List.isEmpty_cons, if_neg Bool.false_ne_true, List.rdropWhile, List.reverse_append,
        List.dropWhile_append_of_pos blankReverse]
      rfl

/-- Blanks at the start play no role. -/
theorem zstrchomp_dropWhile (str : List Byte) : zstrchomp (str.dropWhile isspace) = zstrchomp str := by
  rw [zstrchomp_eq, zstrchomp_eq, List.dropWhile_idempotent]

theorem zstrchomp_rdropWhile (str : List Byte) : zstrchomp (str.rdropWhile isspace) = zstrchomp str := by
  have parts : str.rdropWhile isspace ++ str.rtakeWhile isspace = str :=
    List.rdropWhile_append_rtakeWhile
  have blank : ∀ c ∈ str.rtakeWhile isspace, isspace c := fun c inside => List.mem_rtakeWhile_imp inside
  have trimmed := zstrchomp_append_blank (str.rdropWhile isspace) blank
  rwa [parts, eq_comm] at trimmed

theorem rdropWhile_around {b : Byte} (before after : List Byte) (solid : isspace b = false) :
    (before ++ b :: after).rdropWhile isspace = before ++ b :: after.rdropWhile isspace := by
  rw [List.rdropWhile, List.reverse_append, List.reverse_cons, List.append_assoc, List.dropWhile_append,
    List.rdropWhile]
  cases after.reverse.dropWhile isspace with
  | nil => simp [solid]
  | cons c rest => simp

/-- On both sides of a character that is not blank, only the outer blanks go. -/
theorem zstrchomp_around {b : Byte} (before after : List Byte) (solid : isspace b = false) :
    zstrchomp (before ++ b :: after) = before.dropWhile isspace ++ b :: after.rdropWhile isspace := by
  have start : (before ++ b :: after).dropWhile isspace = before.dropWhile isspace ++ b :: after := by
    rw [List.dropWhile_append]
    cases before.dropWhile isspace with
    | nil => simp [solid]
    | cons c rest => rfl
  rw [zstrchomp_eq, start, rdropWhile_around _ _ solid]

theorem zstrchomp_eq_nil_iff (str : List Byte) : zstrchomp str = [] ↔ str.dropWhile isspace = [] := by
  rw [zstrchomp_eq]
  constructor
  · intro empty
    by_contra solid
    have blank := List.rdropWhile_eq_nil_iff.mp empty _ (List.head_mem solid)
    rw [List.head_dropWhile_not isspace solid] at blank
    cases blank
  · intro empty
    rw [empty]
    rfl

theorem length_zstrchomp_le (str : List Byte) : (zstrchomp str).length ≤ str.length := by
  rw [zstrchomp_eq]
  exact ((List.rdropWhile_prefix isspace _).length_le).trans (List.dropWhile_suffix isspace).length_le

end Plibsys.Ini
