import Plibsys.Strings.PString

/-! # Trimming

`zstrchomp` over memory computes the list function that the INI parser uses, and no read of
it leaves the string.
-/

namespace Plibsys.Strings

open Support

/-- `text` is `s` without the blanks at its ends. -/
structure Trims (s text : List Byte) : Prop where
  parts : ∃ before after, s = before ++ (text ++ after) ∧ (∀ c ∈ before, isspace c) ∧ ∀ c ∈ after, isspace c
  head : ∀ c, text.head? = some c → isspace c = false
  last : ∀ c, text.getLast? = some c → isspace c = false

/-- A string without its longest run of blanks at each end. -/
def trimmed (s : List Byte) : List Byte := (s.dropWhile isspace).rdropWhile isspace

variable {s text : List Byte}

/-- Only one text is the string without the blanks at its ends. -/
theorem Trims.eq_zstrchomp (trims : Trims s text) : Ini.zstrchomp s = text := by
  obtain ⟨before, after, rfl, blankBefore, blankAfter⟩ := trims.parts
  by_cases empty : text = []
  · subst empty
    apply Ini.zstrchomp_blank
    intro c inside
    rw [List.nil_append, List.mem_append] at inside
    exact inside.elim (blankBefore c) (blankAfter c)
  · exact Ini.zstrchomp_middle blankBefore blankAfter empty
      (trims.head _ (List.head?_eq_some_head empty)) (trims.last _ (List.getLast?_eq_some_getLast empty))

theorem trims_trimmed (s : List Byte) : Trims s (trimmed s) where
  parts := by
    refine ⟨s.takeWhile isspace, (s.dropWhile isspace).rtakeWhile isspace, ?_,
      fun c inside => List.mem_takeWhile_imp inside, fun c inside => List.mem_rtakeWhile_imp inside⟩
    rw [trimmed, List.rdropWhile_append_rtakeWhile, List.takeWhile_append_dropWhile]
  head c first := by
    have start := List.rdropWhile_prefix isspace (s.dropWhile isspace)
    obtain ⟨after, whole⟩ := start
    have solid := List.head?_dropWhile_not isspace s
    rw [trimmed] at first
    rw [← whole, List.head?_append, first] at solid
    simpa using solid
  last c final := by
    obtain ⟨nonempty, rfl⟩ := List.mem_getLast?_eq_getLast final
    have solid := List.rdropWhile_last_not isspace _ nonempty
    exact eq_false_of_ne_true solid

/-- Trimmed text has no blanks left to trim. -/
theorem Trims.again (trims : Trims s text) : Trims text text where
  parts := ⟨[], [], by simp, by simp, by simp⟩
  head := trims.head
  last := trims.last

section Scans

theorem startScan_eq (posEnd fuel posStart : Nat) (inside : posEnd < s.length) (ordered : posStart ≤ posEnd)
    (enough : posEnd < posStart + fuel) :
    startScan (cString s) posEnd fuel posStart posStart =
      .ok (Ini.startLoop posEnd (s.drop posStart) posStart : Nat) := by
  induction fuel generalizing posStart with
  | zero =>
      omega
  | succ fuel ih =>
      rw [startScan]
      by_cases below : posStart < posEnd
      · rw [if_pos (by omega), deref_cString (by omega), Exec.ok_bind, List.drop_eq_getElem_cons (by omega),
          Ini.startLoop, List.getD_eq_getElem _ _ (by omega)]
        by_cases blank : isspace s[posStart]
        · rw [if_pos blank, if_pos ⟨below, blank⟩]
          exact ih (posStart + 1) below (by omega)
        · rw [if_neg blank, if_neg (fun both => blank both.2)]
          rfl
      · rw [if_neg (by omega)]
        cases s.drop posStart with
        | nil => rfl
        | cons c ptr =>
            rw [Ini.startLoop, if_neg (fun both => below both.1)]
            rfl

theorem endScan_eq (fuel posEnd : Nat) (inside : posEnd ≤ s.length) (enough : posEnd < fuel) :
    endScan (cString s) fuel posEnd posEnd = .ok (Ini.endLoop s posEnd : Nat) := by
  induction posEnd generalizing fuel with
  | zero =>
      obtain ⟨fuel, rfl⟩ := Nat.exists_eq_succ_of_ne_zero (Nat.ne_of_gt enough)
      rfl
  | succ posEnd ih =>
      obtain ⟨fuel, rfl⟩ := Nat.exists_eq_succ_of_ne_zero (Nat.ne_of_gt (Nat.zero_lt_of_lt enough))
      rw [endScan, if_pos (by omega), deref_cString inside, Exec.ok_bind, Ini.endLoop]
      by_cases blank : isspace (s.getD (posEnd + 1) 0)
      · rw [if_pos blank, if_pos blank, show ((posEnd + 1 : Nat) : Int) - 1 = (posEnd : Nat) by omega]
        exact ih fuel (by omega) (by omega)
      · rw [if_neg blank, if_neg blank]
        rfl

theorem startLoop_le (posEnd : Nat) (ptr : List Byte) (posStart : Nat) (below : posStart ≤ posEnd) :
    Ini.startLoop posEnd ptr posStart ≤ posEnd := by
  induction ptr generalizing posStart with
  | nil => exact below
  | cons c ptr ih =>
      rw [Ini.startLoop]
      split
      · exact ih (posStart + 1) (by omega)
      · exact below

theorem endLoop_le (s : List Byte) (posEnd : Nat) : Ini.endLoop s posEnd ≤ posEnd := by
  induction posEnd with
  | zero => exact Nat.le_refl _
  | succ posEnd ih =>
      rw [Ini.endLoop]
      split
      · omega
      · exact Nat.le_refl _

end Scans

theorem zstrdup_cString (noNul : 0 ∉ s) : zstrdup true (some (cString s)) = .ok (some (cString s)) := by
  have starts := startsWith_cString noNul
  have fits : s.length + 1 ≤ (cString s).size := by rw [size_cString]
  rw [zstrdup, starts.strlen, Exec.ok_bind, if_pos rfl,
    Region.memcpy_ok (by omega) (by rw [Region.size_zeros]; omega), Exec.ok_bind, starts.slice, zeros_patch]
  rfl

/-- The bytes from `posStart` to `posEnd` in a new string. -/
theorem copy_eq (posStart posEnd : Nat) (ordered : posStart ≤ posEnd) (inside : posEnd < s.length) :
    (do
      let ret ← (Region.zeros (posEnd - posStart + 1 + 1)).memcpy 0 (cString s) posStart (posEnd - posStart + 1)
      let ret ← ret.store (posEnd - posStart + 1) 0
      pure (some ret) : Exec (Option Region)) =
      .ok (some (cString ((s.drop posStart).take (posEnd - posStart + 1)))) := by
  have length : ((s.drop posStart).take (posEnd - posStart + 1)).length = posEnd - posStart + 1 := by
    rw [List.length_take, List.length_drop]
    omega
  have slice : (cString s).slice posStart (posEnd - posStart + 1) =
      (s.drop posStart).take (posEnd - posStart + 1) := by
    apply List.ext_getElem
    · simp [length]
    · intro i below below'
      rw [Region.length_slice] at below
      simp only [Region.slice, List.getElem_map, List.getElem_range, List.getElem_take, List.getElem_drop]
      rw [byte_cString (by omega), List.getD_eq_getElem _ _ (by omega)]
  rw [Region.memcpy_ok (by rw [size_cString]; omega) (by rw [Region.size_zeros]; omega), Exec.ok_bind, slice,
    Region.store_ok (by rw [Region.size_patch, Region.size_zeros]; omega), Exec.ok_bind]
  have joined : ((Region.zeros (posEnd - posStart + 1 + 1)).patch 0 _).patch (0 + _) [0] = _ :=
    Region.patch_append ((s.drop posStart).take (posEnd - posStart + 1)) [0]
  rw [length, Nat.zero_add] at joined
  rw [joined]
  have filled := zeros_patch ((s.drop posStart).take (posEnd - posStart + 1))
  rw [length] at filled
  rw [filled]
  rfl

/-- Over memory, `zstrchomp` computes what it computes over lists. -/
theorem zstrchomp_run (noNul : 0 ∉ s) :
    zstrchomp true (some (cString s)) = .ok (some (cString (Ini.zstrchomp s))) := by
  have noText : zstrdup true (some (cString [])) = .ok (some (cString [])) :=
    zstrdup_cString List.not_mem_nil
  rw [zstrchomp, (startsWith_cString noNul).strlen, Exec.ok_bind]
  by_cases empty : s = []
  · subst empty
    exact noText
  · have positive := List.length_pos_iff.mpr empty
    -- the last position of the string, which is not -1
    have lastPos : (s.length : Int) - 1 = (s.length - 1 : Nat) := by omega
    have first := startScan_eq (s := s) (s.length - 1) (s.length + 1) 0 (by omega) (Nat.zero_le _) (by omega)
    have last := endScan_eq (s := s) (s.length + 1) (s.length - 1) (by omega) (by omega)
    rw [List.drop_zero] at first
    rw [lastPos]
    have firstRun : startScan (cString s) (s.length - 1 : Nat) (s.length + 1) 0 0 =
      .ok (Ini.startLoop (s.length - 1) s 0 : Nat) := first
    rw [firstRun, Exec.ok_bind, last, Exec.ok_bind]
    have startBound := startLoop_le (s.length - 1) s 0 (Nat.zero_le _)
    have endBound := endLoop_le s (s.length - 1)
    simp only [Ini.zstrchomp, if_neg empty, if_true]
    generalize Ini.startLoop (s.length - 1) s 0 = posStart at startBound ⊢
    generalize Ini.endLoop s (s.length - 1) = posEnd at endBound ⊢
    by_cases crossed : posEnd < posStart
    · rw [if_pos (by omega), if_pos crossed]
      exact noText
    · rw [if_neg (by omega), if_neg crossed]
      by_cases meeting : posEnd = posStart
      · subst meeting
        rw [meetsAtBlank, if_pos rfl, deref_cString (by omega), Exec.ok_bind, Exec.pure_eq_ok, Exec.ok_bind]
        by_cases blank : isspace (s.getD posEnd 0)
        · rw [if_pos blank, if_pos ⟨rfl, blank⟩]
          exact noText
        · rw [if_neg blank, if_neg (fun both => blank both.2)]
          have copied := copy_eq (s := s) posEnd posEnd (Nat.le_refl _) (by omega)
          simpa using copied
      · rw [meetsAtBlank, if_neg (by omega), Exec.pure_eq_ok, Exec.ok_bind, if_neg Bool.false_ne_true,
          if_neg (fun both => meeting both.1)]
        have copied := copy_eq (s := s) posStart posEnd (by omega) (by omega)
        have size : ((posEnd : Int) - posStart + 2).toNat = posEnd - posStart + 1 + 1 := by omega
        simp only [size, Int.toNat_natCast, Nat.add_sub_cancel]
        exact copied

theorem trimmed_subset : ∀ c ∈ trimmed s, c ∈ s := by
  intro c inside
  obtain ⟨before, after, whole, -, -⟩ := (trims_trimmed s).parts
  rw [whole]
  exact List.mem_append_right _ (List.mem_append_left _ inside)

/-- In a region with nothing but the string and its NUL, `zstrchomp` never faults, and its
    answer is the string without the blanks at its ends, which it leaves as it is. -/
theorem zstrchomp_trims (s : List Byte) (noNul : 0 ∉ s) :
    Trims s (trimmed s) ∧
      zstrchomp true (some (cString s)) = .ok (some (cString (trimmed s))) ∧
      zstrchomp true (some (cString (trimmed s))) = .ok (some (cString (trimmed s))) := by
  have once := trims_trimmed s
  refine ⟨once, ?_, ?_⟩
  · rw [zstrchomp_run noNul, once.eq_zstrchomp]
  · rw [zstrchomp_run (fun inside => noNul (trimmed_subset _ inside)), once.again.eq_zstrchomp]

/-- `" \tI x\n"` -/
theorem zstrchomp_trims_text :
    zstrchomp true (some (cString [0x20, 0x09, 0x49, 0x20, 0x78, 0x0A])) =
      .ok (some (cString [0x49, 0x20, 0x78])) := by
  have trims := (zstrchomp_trims [0x20, 0x09, 0x49, 0x20, 0x78, 0x0A] (by decide)).2.1
  have text : trimmed [0x20, 0x09, 0x49, 0x20, 0x78, 0x0A] = [0x49, 0x20, 0x78] := by decide
  rwa [text] at trims

end Plibsys.Strings
