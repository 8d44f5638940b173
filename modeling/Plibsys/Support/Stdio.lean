import Mathlib.Data.List.DropRight
import Mathlib.Tactic.Common

/-! # Text input of the C library

Files and strings are lists of bytes.  `fgets` cuts a file into lines of limited length,
and `sscanf` matches a string against a format of blanks, literal characters and negated
scansets.  Character classes are those of the C locale.
-/

namespace Plibsys.Support

instance lawfulBEqByte : LawfulBEq (BitVec 8) := inferInstance

/-- The code of a character. -/
def ascii (c : Char) : BitVec 8 := BitVec.ofNat 8 c.toNat

def asciiString (s : String) : List (BitVec 8) := s.toList.map ascii

def newline : BitVec 8 := ascii '\n'

/-- `isspace` -/
def isspace (b : BitVec 8) : Bool := b = 0x20 ∨ (0x09 ≤ b ∧ b ≤ 0x0D)

/-- The C string at the start of a buffer. -/
def cstr (buf : List (BitVec 8)) : List (BitVec 8) := buf.takeWhile fun b => b ≠ 0

/-- At most `n` bytes, up to and with the first newline. -/
def takeLine : Nat → List (BitVec 8) → List (BitVec 8) × List (BitVec 8)
  | 0, stream => ([], stream)
  | _ + 1, [] => ([], [])
  | n + 1, b :: stream =>
      if b = newline then ([b], stream) else (b :: (takeLine n stream).1, (takeLine n stream).2)

/-- `fgets` into a buffer of `size` bytes: the bytes read and the rest of the file. -/
def fgets (size : Nat) (stream : List (BitVec 8)) : Option (List (BitVec 8) × List (BitVec 8)) :=
  if stream = [] then none else some (takeLine (size - 1) stream)

/-- The loop over `fgets`; every pass reads at least one byte. -/
def fgetsLoop (size : Nat) : Nat → List (BitVec 8) → List (List (BitVec 8))
  | 0, _ => []
  | fuel + 1, stream =>
      match fgets size stream with
      | none => []
      | some (line, stream) => line :: fgetsLoop size fuel stream

/-- What `fgets` returns until the end of the file. -/
def readLines (size : Nat) (stream : List (BitVec 8)) : List (List (BitVec 8)) :=
  fgetsLoop size stream.length stream

/-- One item of a `scanf` format. -/
inductive Conversion where
  | space
  | literal (b : BitVec 8)
  /-- `%[^...]` -/
  | scanset (excluded : List (BitVec 8))

/-- `sscanf`: the fields assigned before the first mismatch. -/
def sscanf : List Conversion → List (BitVec 8) → List (List (BitVec 8))
  | [], _ => []
  | .space :: format, input => sscanf format (input.dropWhile isspace)
  | .literal _ :: _, [] => []
  | .literal b :: format, c :: input => if c = b then sscanf format input else []
  | .scanset excluded :: format, input =>
      if input.takeWhile (fun c => c ∉ excluded) = [] then []
      else input.takeWhile (fun c => c ∉ excluded) ::
        sscanf format (input.dropWhile fun c => c ∉ excluded)

section Lines

variable {size n : Nat} {line stream rest : List (BitVec 8)}

theorem takeLine_append (n : Nat) (stream : List (BitVec 8)) :
    (takeLine n stream).1 ++ (takeLine n stream).2 = stream := by
  fun_induction takeLine n stream with
  | case1 stream => rfl
  | case2 n => rfl
  | case3 n stream => simp
  | case4 n b stream other ih => simp [ih]

theorem takeLine_shorter (positive : 0 < n) (nonempty : stream ≠ []) :
    (takeLine n stream).2.length < stream.length := by
  cases n with
  | zero => omega
  | succ n =>
      cases stream with
      | nil => contradiction
      | cons b stream =>
          have whole := congrArg List.length (takeLine_append n stream)
          rw [List.length_append] at whole
          unfold takeLine
          split
          · simp
          · simp only [List.length_cons]
            omega

theorem takeLine_line (plain : newline ∉ line) (short : line.length < n) :
    takeLine n (line ++ newline :: rest) = (line ++ [newline], rest) := by
  induction line generalizing n with
  | nil =>
      obtain ⟨n, rfl⟩ := Nat.exists_eq_succ_of_ne_zero (Nat.ne_of_gt short)
      simp [takeLine]
  | cons b line ih =>
      obtain ⟨n, rfl⟩ := Nat.exists_eq_succ_of_ne_zero (Nat.ne_of_gt (Nat.zero_lt_of_lt short))
      rw [List.mem_cons, not_or] at plain
      rw [List.length_cons] at short
      have tail := ih plain.2 (show line.length < n by omega)
      simp [takeLine, tail, Ne.symm plain.1]

/-- A last line without a newline. -/
theorem takeLine_last (plain : newline ∉ line) (short : line.length ≤ n) : takeLine n line = (line, []) := by
  induction line generalizing n with
  | nil => cases n <;> rfl
  | cons b line ih =>
      obtain ⟨n, rfl⟩ := Nat.exists_eq_succ_of_ne_zero (Nat.ne_of_gt (Nat.lt_of_lt_of_le (Nat.succ_pos _) short))
      rw [List.mem_cons, not_or] at plain
      rw [List.length_cons] at short
      have tail := ih plain.2 (show line.length ≤ n by omega)
      simp [takeLine, tail, Ne.symm plain.1]

/-- A line that is longer than the limit is cut there. -/
theorem takeLine_long (plain : newline ∉ line) (long : n ≤ line.length) :
    takeLine n (line ++ rest) = (line.take n, line.drop n ++ rest) := by
  induction line generalizing n with
  | nil =>
      obtain rfl : n = 0 := Nat.le_zero.mp long
      rfl
  | cons b line ih =>
      rw [List.mem_cons, not_or] at plain
      cases n with
      | zero => rfl
      | succ n =>
          have tail := ih plain.2 (Nat.le_of_succ_le_succ long)
          simp [takeLine, tail, Ne.symm plain.1]

/-- A newline in the first part of a text keeps the line inside that part. -/
theorem takeLine_inside (inside : newline ∈ line) :
    takeLine n (line ++ rest) = ((takeLine n line).1, (takeLine n line).2 ++ rest) := by
  induction line generalizing n with
  | nil => cases inside
  | cons b line ih =>
      cases n with
      | zero => rfl
      | succ n =>
          by_cases isNewline : b = newline
          · simp [takeLine, isNewline]
          · have later : newline ∈ line := by
              rcases List.mem_cons.mp inside with same | later
              · exact absurd same.symm isNewline
              · exact later
            simp [takeLine, isNewline, ih later]

@[simp] theorem fgetsLoop_nil (fuel : Nat) : fgetsLoop size fuel [] = [] := by
  cases fuel <;> rfl

theorem fgetsLoop_fuel (large : 2 ≤ size) {fuel fuel' : Nat} (enough : stream.length ≤ fuel)
    (enough' : stream.length ≤ fuel') : fgetsLoop size fuel stream = fgetsLoop size fuel' stream := by
  induction fuel generalizing fuel' stream with
  | zero =>
      have empty : stream = [] := List.eq_nil_of_length_eq_zero (by omega)
      simp [empty]
  | succ fuel ih =>
      by_cases empty : stream = []
      · simp [empty]
      · have positive := List.length_pos_iff.mpr empty
        obtain ⟨fuel', rfl⟩ := Nat.exists_eq_succ_of_ne_zero (show fuel' ≠ 0 by omega)
        have shorter := takeLine_shorter (show 0 < size - 1 by omega) empty
        unfold fgetsLoop fgets
        rw [if_neg empty]
        simp only [List.cons.injEq, true_and]
        exact ih (by omega) (by omega)

theorem readLines_cons (large : 2 ≤ size) (nonempty : stream ≠ []) :
    readLines size stream =
      (takeLine (size - 1) stream).1 :: readLines size (takeLine (size - 1) stream).2 := by
  have positive := List.length_pos_iff.mpr nonempty
  have shorter := takeLine_shorter (show 0 < size - 1 by omega) nonempty
  obtain ⟨k, lengthEq⟩ := Nat.exists_eq_succ_of_ne_zero (Nat.ne_of_gt positive)
  unfold readLines
  rw [lengthEq, fgetsLoop, fgets, if_neg nonempty]
  simp only [List.cons.injEq, true_and]
  exact fgetsLoop_fuel large (by omega) (Nat.le_refl _)

@[simp] theorem readLines_nil : readLines size [] = [] := rfl

theorem readLines_line (large : 2 ≤ size) (plain : newline ∉ line) (short : line.length + 1 < size) :
    readLines size (line ++ newline :: rest) = (line ++ [newline]) :: readLines size rest := by
  rw [readLines_cons large (by simp), takeLine_line plain (by omega)]

theorem readLines_last (large : 2 ≤ size) (nonempty : line ≠ []) (plain : newline ∉ line)
    (short : line.length < size) : readLines size line = [line] := by
  rw [readLines_cons large nonempty, takeLine_last plain (by omega), readLines_nil]

/-- A long line is read in pieces. -/
theorem readLines_long (large : 2 ≤ size) (plain : newline ∉ line) (long : size - 1 ≤ line.length) :
    readLines size (line ++ rest) = line.take (size - 1) :: readLines size (line.drop (size - 1) ++ rest) := by
  have nonempty : line ++ rest ≠ [] := by
    intro empty
    rw [(List.append_eq_nil_iff.mp empty).1, List.length_nil] at long
    omega
  rw [readLines_cons large nonempty, takeLine_long plain long]

/-- A text is empty or ends with a newline. -/
def EndsLine (text : List (BitVec 8)) : Prop := text = [] ∨ text.getLast? = some newline

instance : DecidablePred EndsLine := fun _ => inferInstanceAs (Decidable (_ ∨ _))

/-- What follows complete lines is read on its own. -/
theorem readLines_append (large : 2 ≤ size) (complete : EndsLine stream) :
    readLines size (stream ++ rest) = readLines size stream ++ readLines size rest := by
  induction lengthEq : stream.length using Nat.strong_induction_on generalizing stream with
  | _ length ih =>
      by_cases empty : stream = []
      · simp [empty]
      · have ends : stream.getLast? = some newline := complete.resolve_left empty
        have shorter := takeLine_shorter (show 0 < size - 1 by omega) empty
        have whole := takeLine_append (size - 1) stream
        have completeRest : EndsLine (takeLine (size - 1) stream).2 := by
          by_cases emptyRest : (takeLine (size - 1) stream).2 = []
          · exact Or.inl emptyRest
          · rw [← whole, List.getLast?_append_of_ne_nil _ emptyRest] at ends
            exact Or.inr ends
        rw [readLines_cons large (by simp [empty]), readLines_cons large empty,
          takeLine_inside (List.mem_of_getLast? ends), List.cons_append,
          ih _ (lengthEq ▸ shorter) completeRest rfl]

end Lines

section Scan

variable {format : List Conversion} {input field : List (BitVec 8)} {b c : BitVec 8}

@[simp] theorem sscanf_nil : sscanf [] input = [] := rfl

@[simp] theorem sscanf_space : sscanf (.space :: format) input = sscanf format (input.dropWhile isspace) := rfl

@[simp] theorem sscanf_literal : sscanf (.literal b :: format) (b :: input) = sscanf format input :=
  if_pos rfl

theorem sscanf_mismatch (other : c ≠ b) : sscanf (.literal b :: format) (c :: input) = [] := if_neg other

/-- A scanset takes a field up to an excluded character. -/
theorem sscanf_field {excluded : List (BitVec 8)} (nonempty : field ≠ []) (taken : ∀ c ∈ field, c ∉ excluded)
    (stop : b ∈ excluded) :
    sscanf (.scanset excluded :: format) (field ++ b :: input) = field :: sscanf format (b :: input) := by
  have takes : (field ++ b :: input).takeWhile (fun c => c ∉ excluded) = field := by
    rw [List.takeWhile_append_of_pos (by simpa using taken)]
    simp [stop]
  have drops : (field ++ b :: input).dropWhile (fun c => c ∉ excluded) = b :: input := by
    rw [List.dropWhile_append_of_pos (by simpa using taken)]
    simp [stop]
  rw [sscanf, takes, drops, if_neg nonempty]

/-- A scanset takes the rest of the string. -/
theorem sscanf_rest {excluded : List (BitVec 8)} (nonempty : field ≠ []) (taken : ∀ c ∈ field, c ∉ excluded) :
    sscanf (.scanset excluded :: format) field = field :: sscanf format [] := by
  have takes : field.takeWhile (fun c => c ∉ excluded) = field := by
    rw [List.takeWhile_eq_self_iff]
    simpa using taken
  have drops : field.dropWhile (fun c => c ∉ excluded) = [] := by
    rw [List.dropWhile_eq_nil_iff]
    simpa using taken
  rw [sscanf, takes, drops, if_neg nonempty]

end Scan

end Plibsys.Support
