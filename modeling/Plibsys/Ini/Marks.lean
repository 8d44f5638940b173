import Plibsys.Ini.LineContext

/-! # Byte order marks

Of the mark of UTF-32 LE only the first two bytes are skipped, and the NUL bytes that
follow end the string: the first line is lost.  The other marks leave no trace.
-/

namespace Plibsys.Ini

open Support

inductive Mark where
  | utf8
  | utf16be
  | utf16le
  | utf32be
  | utf32le
  deriving Repr, DecidableEq

def Mark.bytes : Mark → List Byte
  | .utf8 => [0xEF, 0xBB, 0xBF]
  | .utf16be => [0xFE, 0xFF]
  | .utf16le => [0xFF, 0xFE]
  | .utf32be => [0x00, 0x00, 0xFE, 0xFF]
  | .utf32le => [0xFF, 0xFE, 0x00, 0x00]

/-- The first line of a file, without its newline. -/
def firstLine (content : List Byte) : List Byte := content.takeWhile fun c => c ≠ newline

/-- What follows the first line, from its newline on. -/
def afterFirstLine (content : List Byte) : List Byte := content.dropWhile fun c => c ≠ newline

/-- The first line is the header of a section with parameters. -/
def OpensSection (content : List Byte) : Prop :=
  ∃ name, lineEntry (firstLine content) = some (.header name) ∧
    leading (entries (afterFirstLine content).tail) ≠ []

section Lines

variable {line content : List Byte} {mark : Mark}

theorem lineText_unmarked (unmarked : ∀ mark : Mark, ¬ mark.bytes <+: line) : lineText line = cstr line := by
  have noMark : bomShift line = 0 := by
    have utf8 : ¬ [0xEF, 0xBB, 0xBF] <+: line := unmarked .utf8
    have utf16 : ¬ ([0xFE, 0xFF] <+: line ∨ [0xFF, 0xFE] <+: line) :=
      not_or.mpr ⟨unmarked .utf16be, unmarked .utf16le⟩
    have utf32 : ¬ [0x00, 0x00, 0xFE, 0xFF] <+: line := unmarked .utf32be
    rw [bomShift_eq, if_neg utf8, if_neg utf16, if_neg utf32]
  rw [lineText, noMark, List.drop_zero]

theorem lineText_marked (line : List Byte) (mark : Mark) :
    lineText (mark.bytes ++ line) = if mark = .utf32le then [] else cstr line := by
  cases mark <;> simp [lineText, bomShift_eq, Mark.bytes, cstr]

/-- Only the mark of UTF-32 LE changes what a line says. -/
theorem lineEntry_marked (short : line.length ≤ 1000) (unmarked : ∀ mark : Mark, ¬ mark.bytes <+: line)
    (mark : Mark) :
    lineEntry (mark.bytes ++ line) = if mark = .utf32le then none else lineEntry line := by
  have fits : FitsLine line := by
    unfold FitsLine
    omega
  have fitsMarked : FitsLine (mark.bytes ++ line) := by
    unfold FitsLine
    rw [List.length_append]
    cases mark <;> simp only [Mark.bytes, List.length_cons, List.length_nil] <;> omega
  rw [lineEntry_eq fitsMarked, lineEntry_eq fits, lineText_marked, lineText_unmarked unmarked]
  split
  · rfl
  · rfl

theorem newline_notMem_firstLine (content : List Byte) : newline ∉ firstLine content := by
  intro inside
  simpa using List.mem_takeWhile_imp inside

theorem endsHere_afterFirstLine (content : List Byte) : EndsHere (afterFirstLine content) := by
  by_cases whole : afterFirstLine content = []
  · exact .inl whole
  · have stop := List.head_dropWhile_not (fun c => decide (c ≠ newline)) whole
    refine .inr ?_
    rw [List.head?_eq_some_head whole]
    exact congrArg some (of_not_not (of_decide_eq_false stop))

theorem firstLine_append (content : List Byte) : firstLine content ++ afterFirstLine content = content :=
  List.takeWhile_append_dropWhile

/-- What a file says after one of the marks. -/
theorem entries_marked (short : (firstLine content).length ≤ 1000) (mark : Mark) :
    entries (mark.bytes ++ content) =
      (lineEntry (mark.bytes ++ firstLine content)).toList ++ entries (afterFirstLine content).tail := by
  have single : newline ∉ mark.bytes ++ firstLine content := by
    rw [List.mem_append, not_or]
    refine ⟨?_, newline_notMem_firstLine content⟩
    cases mark <;> decide
  have fits : FitsLine (mark.bytes ++ firstLine content) := by
    unfold FitsLine
    rw [List.length_append]
    cases mark <;> simp only [Mark.bytes, List.length_cons, List.length_nil] <;> omega
  have read := @entries_around _ [] _ (.inl rfl) single fits (endsHere_afterFirstLine content)
  rw [List.nil_append, List.append_assoc, firstLine_append] at read
  exact read

end Lines

/-- A block without parameters leaves no trace. -/
theorem sectionsOf_cons_unfilled {b : Block} (unfilled : b.isFilled = false) (bs : List Block) :
    sectionsOf (b :: bs) = sectionsOf bs := by
  cases bs with
  | nil => simp [sectionsOf, candidates, Option.filter_some, unfilled]
  | cons c bs => simp [sectionsOf, candidates, unfilled]

theorem length_sections (path : String) (content : List Byte) :
    (parsedFile path content).ziniFileSections.length =
      ((blocks (entries content)).filter Block.isFilled).length := by
  rw [sections_parsedFile, List.length_reverse, List.length_map]
  exact (candidates_perm _).length_eq

/-- A mark changes no result, unless it is that of UTF-32 LE and stands before the header
    of a section with parameters. -/
theorem marks_transparent_iff (path : String) (mark : Mark) {content : List Byte}
    (short : (firstLine content).length ≤ 1000)
    (unmarked : ∀ other : Mark, ¬ other.bytes <+: firstLine content) :
    SameParse (parsedFile path (mark.bytes ++ content)) (parsedFile path content) ↔
      (mark = .utf32le → ¬ OpensSection content) := by
  have fits : FitsLine (firstLine content) := by
    unfold FitsLine
    omega
  have plain := @entries_around _ [] _ (.inl rfl) (newline_notMem_firstLine content) fits
    (endsHere_afterFirstLine content)
  rw [List.nil_append, firstLine_append] at plain
  have marked := entries_marked short mark
  rw [lineEntry_marked short unmarked] at marked
  by_cases lost : mark = .utf32le
  · rw [if_pos lost] at marked
    subst lost
    simp only [forall_const]
    unfold OpensSection
    -- The first line is gone, so what it said decides.
    rcases said : lineEntry (firstLine content) with _ | ⟨name⟩ | ⟨key, value⟩
    case none =>
      refine ⟨fun _ opens => by simp at opens, fun _ => sameParse_of_sections path ?_⟩
      rw [marked, plain, said]
      rfl
    case some.parameter =>
      refine ⟨fun _ opens => by simp at opens, fun _ => sameParse_of_sections path ?_⟩
      rw [marked, plain, said]
      rfl
    case some.header =>
      have split : blocks (entries content) = ⟨name, leading (entries (afterFirstLine content).tail)⟩ ::
          blocks (entries (Mark.utf32le.bytes ++ content)) := by
        rw [marked, plain, said]
        rfl
      constructor
      · rintro same ⟨-, -, filled⟩
        have count := congrArg List.length same.1
        rw [length_sections, length_sections, split,
          List.filter_cons_of_pos (by simpa [Block.isFilled] using filled), List.length_cons] at count
        omega
      · intro unopened
        have unfilled : leading (entries (afterFirstLine content).tail) = [] := by
          by_contra filled
          exact unopened ⟨name, rfl, filled⟩
        apply sameParse_of_sections
        rw [split, sectionsOf_cons_unfilled (by simp [Block.isFilled, unfilled])]
  · rw [if_neg lost] at marked
    refine ⟨fun _ isLost => absurd isLost lost, fun _ => sameParse_of_sections path ?_⟩
    rw [marked, plain]
    rfl

theorem marks_transparent_utf16le :
    SameParse (parsedFile "test.ini" (Mark.utf16le.bytes ++ asciiString "[a]\nx = 1\n"))
      (parsedFile "test.ini" (asciiString "[a]\nx = 1\n")) := by
  have short : (firstLine (asciiString "[a]\nx = 1\n")).length ≤ 1000 := by decide
  have unmarked : ∀ other : Mark, ¬ other.bytes <+: firstLine (asciiString "[a]\nx = 1\n") := by
    intro other
    cases other <;> decide
  exact (marks_transparent_iff "test.ini" .utf16le short unmarked).mpr fun isLost => by cases isLost

/-- After the mark of UTF-32 LE, a file loses its first section. -/
theorem mark_utf32le_loses_section :
    0 ∉ asciiString "[a]\nx = 1\n" ∧
      (∀ line ∈ readLines (maxLine + 1) (asciiString "[a]\nx = 1\n"),
        line.length ≤ 1000 ∧ ∀ mark : Mark, ¬ mark.bytes <+: line) ∧
      (parsedFile "test.ini" (Mark.utf32le.bytes ++ asciiString "[a]\nx = 1\n")).ziniFileSections = [] ∧
      (parsedFile "test.ini" (asciiString "[a]\nx = 1\n")).ziniFileSections = [asciiString "a"] := by
  refine ⟨by decide, ?_, by decide +kernel⟩
  have short : ∀ line ∈ readLines (maxLine + 1) (asciiString "[a]\nx = 1\n"), line.length ≤ 1000 := by
    decide +kernel
  refine fun line member => ⟨short line member, fun mark => ?_⟩
  revert line
  cases mark <;> decide +kernel

end Plibsys.Ini
