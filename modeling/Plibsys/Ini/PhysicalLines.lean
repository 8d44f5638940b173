import Plibsys.Ini.Comments

/-! # Physical lines

`zini_file_parse` takes what `fgets` reads for a line.  A physical line that does not fit
into the buffer is read in pieces, and every piece is taken for a line of its own.
-/

namespace Plibsys.Ini

open Support

/-- The longest pieces of a file without a newline. -/
def physicalLines (content : List Byte) : List (List Byte) := content.splitOn newline

/-- What each physical line says by the text at its start. -/
def physicalEntries (content : List Byte) : List Entry :=
  (physicalLines content).filterMap fun line => lineEntry (line.take maxLine)

/-- The file is processed line by line, one directive at most for each physical line.  The
    second part follows from the first one, which is about the directives that are recognised:
    before the first header the outcome can be the same although a piece counts as an
    assignment. -/
def OneDirectivePerLine (content : List Byte) : Prop :=
  entries content = physicalEntries content ∧
    parseContent content = (physicalEntries content).foldl ParseState.step ⟨[], none⟩

/-- The piece of a line that `fgets` reads after `k + 1` others. -/
def laterPiece (line : List Byte) (k : Nat) : List Byte := (line.drop (maxLine * (k + 1))).take maxLine

/-- A header, or a key and a value around the first `=`. -/
def isDirective (text : List Byte) : Bool :=
  isHeader (zstrchomp text) ||
    (ascii '=' ∈ text && zstrchomp (keyPart text) ≠ [] && zstrchomp (valuePart text) ≠ [])

/-- The later pieces of the physical lines have neither the form of a header nor that of an
    assignment. -/
def SilentPieces (content : List Byte) : Prop :=
  ∀ line ∈ physicalLines content, ∀ k, isDirective (lineText (laterPiece line k)) = false

section Directives

variable {text line : List Byte}

/-- What an assignment format reads after the key and the `=` decides whether it matches. -/
theorem scanPair_assignment (format : List Conversion) (str : List Byte) :
    scanPair ([.scanset [ascii '='], .space, .literal (ascii '='), .space] ++ format) str = none ∨
      ∃ key rest, ∀ format, scanPair ([.scanset [ascii '='], .space, .literal (ascii '='), .space] ++ format) str =
        match sscanf format rest with
        | [value] => some (key, value)
        | _ => none := by
  simp only [scanPair, List.cons_append, List.nil_append]
  by_cases noKey : str.takeWhile (fun c => c ∉ [ascii '=']) = []
  · left
    rw [sscanf, if_pos noKey]
  · cases later : (str.dropWhile fun c => c ∉ [ascii '=']).dropWhile isspace with
    | nil =>
        left
        rw [sscanf, if_neg noKey, sscanf_space, later]
        rfl
    | cons c rest =>
        by_cases equals : c = ascii '='
        · right
          subst equals
          refine ⟨str.takeWhile fun c => c ∉ [ascii '='], rest.dropWhile isspace, fun format => ?_⟩
          rw [sscanf, if_neg noKey, sscanf_space, later, sscanf_literal, sscanf_space]
          rcases sscanf format (rest.dropWhile isspace) with _ | ⟨value, _ | ⟨more, others⟩⟩ <;> rfl
        · left
          rw [sscanf, if_neg noKey, sscanf_space, later, sscanf_mismatch equals]

/-- Where a format with quotes matches, the plain one does too. -/
theorem scanPair_quoted_none {quote : Byte} (isQuote : quote = doubleQuote ∨ quote = singleQuote) {str : List Byte}
    (unmatched : scanPair plainFormat str = none) : scanPair (quotedFormat quote) str = none := by
  rcases scanPair_assignment [.literal quote, .scanset [quote], .literal quote] str with none | ⟨key, rest, reads⟩
  · exact none
  · have plain := reads [.scanset [ascii ';', ascii '#']]
    have quoted := reads [.literal quote, .scanset [quote], .literal quote]
    rw [quotedFormat]
    refine quoted.trans ?_
    rw [plainFormat] at unmatched
    have noValue := plain.symm.trans unmatched
    cases rest with
    | nil => rfl
    | cons c rest =>
        by_cases opens : c = quote
        · have solid : c ∉ [ascii ';', ascii '#'] := by
            rw [opens]
            rcases isQuote with rfl | rfl <;> decide
          have taken : (c :: rest).takeWhile (fun c => c ∉ [ascii ';', ascii '#']) =
              c :: rest.takeWhile (fun c => c ∉ [ascii ';', ascii '#']) :=
            List.takeWhile_cons_of_pos (decide_eq_true solid)
          rw [sscanf, taken, if_neg (List.cons_ne_nil _ _), sscanf_nil] at noValue
          cases noValue
        · rw [sscanf_mismatch opens]

/-- A trimmed text says something exactly when it has the form of a directive. -/
theorem textEntry_none_iff (text : List Byte) : textEntry (zstrchomp text) = none ↔ isDirective text = false := by
  rw [textEntry, scanSection_eq, isDirective]
  by_cases header : isHeader (zstrchomp text) = true
  · simp [header]
  · rw [if_neg header]
    have assigned := scanPair_plain_eq text
    rw [plainEntry] at assigned
    cases plain : scanPair plainFormat (zstrchomp text) with
    | none =>
        rw [plain, Option.map_none] at assigned
        have noAssignment : ¬ (ascii '=' ∈ text ∧ zstrchomp (keyPart text) ≠ [] ∧ zstrchomp (valuePart text) ≠ []) := by
          intro assigns
          rw [if_pos assigns] at assigned
          cases assigned
        rw [scanParameter, scanPair_quoted_none (Or.inl rfl) plain, scanPair_quoted_none (Or.inr rfl) plain, plain]
        simpa [header, and_assoc] using noAssignment
    | some pair =>
        rw [plain, Option.map_some] at assigned
        have assigns : ascii '=' ∈ text ∧ zstrchomp (keyPart text) ≠ [] ∧ zstrchomp (valuePart text) ≠ [] := by
          by_contra none
          rw [if_neg none] at assigned
          cases assigned
        have found : ∃ pair, scanParameter (zstrchomp text) = some pair := by
          rw [scanParameter, plain]
          cases scanPair (quotedFormat doubleQuote) (zstrchomp text) with
          | some pair => exact ⟨pair, rfl⟩
          | none => cases scanPair (quotedFormat singleQuote) (zstrchomp text) <;> exact ⟨_, rfl⟩
        obtain ⟨pair, read⟩ := found
        simp [read, assigns]

theorem lineEntry_none_iff (short : line.length ≤ maxLine) :
    lineEntry line = none ↔ isDirective (lineText line) = false := by
  rw [lineEntry_eq_of_le short, textEntry_none_iff]

end Directives

section Pieces

variable {line content rest : List Byte}

theorem not_mem_drop (plain : newline ∉ line) (n : Nat) : newline ∉ line.drop n :=
  fun inside => plain (List.mem_of_mem_drop inside)

/-- A line without a newline says what its first piece and then its other pieces say. -/
theorem entries_split (plain : newline ∉ line) :
    entries line = (lineEntry (line.take maxLine)).toList ++ entries (line.drop maxLine) := by
  by_cases long : maxLine ≤ line.length
  · have pieces : readLines (maxLine + 1) (line ++ []) =
        line.take maxLine :: readLines (maxLine + 1) (line.drop maxLine ++ []) :=
      readLines_long (by decide) plain long
    rw [List.append_nil, List.append_nil] at pieces
    rw [entries, pieces, List.filterMap_cons, entries]
    cases lineEntry (line.take maxLine) <;> rfl
  · rw [List.take_of_length_le (by omega), List.drop_of_length_le (by omega)]
    by_cases empty : line = []
    · subst empty
      rfl
    · rw [entries, readLines_last (by decide) empty plain (by omega), List.filterMap_cons]
      cases lineEntry line <;> rfl

/-- The newline after a line makes no difference to what it says. -/
theorem entries_newline (plain : newline ∉ line) : entries (line ++ [newline]) = entries line := by
  induction lengthEq : line.length using Nat.strong_induction_on generalizing line with
  | _ length ih =>
      by_cases long : maxLine ≤ line.length
      · have pieces : readLines (maxLine + 1) (line ++ [newline]) =
            line.take maxLine :: readLines (maxLine + 1) (line.drop maxLine ++ [newline]) :=
          readLines_long (by decide) plain long
        have shorter : (line.drop maxLine).length < length := by
          rw [List.length_drop]
          unfold maxLine at long ⊢
          omega
        have later := ih _ shorter (not_mem_drop plain maxLine) rfl
        rw [entries_split plain, entries, pieces, List.filterMap_cons, ← later, entries]
        cases lineEntry (line.take maxLine) <;> rfl
      · have short : FitsLine line := by
          unfold FitsLine
          unfold maxLine at long
          omega
        have one : readLines (maxLine + 1) (line ++ [newline]) = [line ++ [newline]] :=
          readLines_line (by decide) plain (by omega)
        have same := lineEntry_newline plain
        rw [entries_split plain, List.take_of_length_le (by omega), List.drop_of_length_le (by omega), entries, one,
          List.filterMap_cons, same]
        cases lineEntry line <;> rfl

theorem physicalLines_cons (plain : newline ∉ line) (rest : List Byte) :
    physicalLines (line ++ newline :: rest) = line :: physicalLines rest := by
  rw [physicalLines, List.splitOn_append_cons_of_beq _ _ (by simp), List.splitOn_eq_singleton plain]
  rfl

/-- A file has only one physical line, or it starts with a line and its newline. -/
theorem first_line (content : List Byte) :
    newline ∉ content ∨ ∃ line rest, newline ∉ line ∧ content = line ++ newline :: rest := by
  by_cases single : newline ∉ content
  · exact Or.inl single
  · obtain ⟨line, rest, split, plain⟩ := List.eq_append_cons_of_mem (not_not.mp single)
    exact Or.inr ⟨line, rest, plain, split⟩

theorem physicalLines_plain : ∀ line ∈ physicalLines content, newline ∉ line := by
  induction lengthEq : content.length using Nat.strong_induction_on generalizing content with
  | _ length ih =>
      rcases first_line content with single | ⟨line, rest, plain, rfl⟩
      · rw [physicalLines, List.splitOn_eq_singleton single]
        simpa using single
      · rw [physicalLines_cons plain]
        intro other inside
        rcases List.mem_cons.mp inside with rfl | later
        · exact plain
        · exact ih rest.length (by simp at lengthEq; omega) rfl other later

/-- A file says what its physical lines say, each in all its pieces. -/
theorem entries_physicalLines (content : List Byte) :
    entries content = (physicalLines content).flatMap fun line =>
      (lineEntry (line.take maxLine)).toList ++ entries (line.drop maxLine) := by
  induction lengthEq : content.length using Nat.strong_induction_on generalizing content with
  | _ length ih =>
      rcases first_line content with single | ⟨line, rest, plain, rfl⟩
      · rw [physicalLines, List.splitOn_eq_singleton single, List.flatMap_singleton]
        exact entries_split single
      · have apart : entries (line ++ newline :: rest) = entries (line ++ [newline]) ++ entries rest := by
          have complete : EndsLine (line ++ [newline]) := Or.inr (by simp)
          rw [List.append_cons, entries, readLines_append (by decide) complete, List.filterMap_append, entries,
            entries]
        rw [apart, entries_newline plain, entries_split plain, physicalLines_cons plain, List.flatMap_cons,
          ih rest.length (by simp at lengthEq; omega) rest rfl]

end Pieces

/-- Lists are kept apart when one of each pair of parts is dropped only if it was empty. -/
theorem flatMap_eq_filterMap_iff {α β : Type} (f : α → Option β) (g : α → List β) (lines : List α) :
    (lines.flatMap fun line => (f line).toList ++ g line) = lines.filterMap f ↔ ∀ line ∈ lines, g line = [] := by
  constructor
  · intro same
    have lengths : ∀ lines : List α, (lines.flatMap fun line => (f line).toList ++ g line).length =
        (lines.filterMap f).length + (lines.map fun line => (g line).length).sum := by
      intro lines
      induction lines with
      | nil => rfl
      | cons line lines ih =>
          rw [List.flatMap_cons, List.length_append, List.length_append, ih, List.filterMap_cons, List.map_cons,
            List.sum_cons]
          cases f line with
          | none => simp; omega
          | some b => simp; omega
    have total := lengths lines
    rw [same] at total
    have zero : (lines.map fun line => (g line).length).sum = 0 := by omega
    intro line inside
    have none := List.sum_eq_zero_iff_forall_eq_nat.mp zero _ (List.mem_map_of_mem inside)
    exact List.eq_nil_of_length_eq_zero none
  · intro silent
    induction lines with
    | nil => rfl
    | cons line lines ih =>
        rw [List.flatMap_cons, silent line List.mem_cons_self, List.append_nil, List.filterMap_cons,
          ih fun other inside => silent other (List.mem_cons_of_mem _ inside)]
        cases f line <;> rfl

section Silence

variable {line : List Byte}

/-- The later pieces of a line say nothing when each of them does not. -/
theorem entries_drop_iff (plain : newline ∉ line) :
    entries (line.drop maxLine) = [] ↔ ∀ k, lineEntry (laterPiece line k) = none := by
  induction lengthEq : line.length using Nat.strong_induction_on generalizing line with
  | _ length ih =>
      by_cases long : maxLine < line.length
      · have shorter : (line.drop maxLine).length < length := by
          rw [List.length_drop]
          unfold maxLine at long ⊢
          omega
        have pieces : ∀ k, laterPiece (line.drop maxLine) k = laterPiece line (k + 1) := by
          intro k
          have offset : maxLine + maxLine * (k + 1) = maxLine * (k + 1 + 1) := by
            rw [Nat.mul_succ maxLine (k + 1), Nat.add_comm]
          rw [laterPiece, laterPiece, List.drop_drop, offset]
        have first : (line.drop maxLine).take maxLine = laterPiece line 0 := by
          rw [laterPiece, Nat.zero_add, Nat.mul_one]
        rw [entries_split (not_mem_drop plain maxLine), List.append_eq_nil_iff,
          ih _ shorter (not_mem_drop plain maxLine) rfl, first]
        constructor
        · rintro ⟨here, later⟩ k
          cases k with
          | zero => simpa using here
          | succ k => exact (congrArg lineEntry (pieces k)).symm.trans (later k)
        · intro silent
          exact ⟨by rw [silent 0]; rfl, fun k => (congrArg lineEntry (pieces k)).trans (silent (k + 1))⟩
      · have none : ∀ k, laterPiece line k = [] := by
          intro k
          rw [laterPiece, List.drop_of_length_le (by unfold maxLine at long ⊢; omega), List.take_nil]
        rw [List.drop_of_length_le (by omega)]
        refine ⟨fun _ k => ?_, fun _ => rfl⟩
        rw [none k]
        rfl

end Silence

theorem physicalEntries_iff (content : List Byte) :
    entries content = physicalEntries content ↔ SilentPieces content := by
  rw [entries_physicalLines, physicalEntries, flatMap_eq_filterMap_iff]
  refine forall₂_congr fun line inside => ?_
  rw [entries_drop_iff (physicalLines_plain line inside)]
  exact forall_congr' fun k => lineEntry_none_iff (List.length_take_le _ _)

/-- For every file: each physical line counts for one directive at most, the one at its
    start, exactly when the later pieces of long lines have not the form of directives. -/
theorem oneDirectivePerLine_iff (content : List Byte) : OneDirectivePerLine content ↔ SilentPieces content := by
  rw [← physicalEntries_iff]
  constructor
  · exact fun one => one.1
  · intro same
    exact ⟨same, by rw [parseContent, same]⟩

/-- A comment of 1024 characters that goes on with `k=v`. -/
def longComment : List Byte := asciiString "[s]" ++ newline :: (List.replicate maxLine (ascii ';') ++ asciiString "k=v")

/-- The end of the comment is read as a parameter. -/
theorem longComment_assigns : ¬ OneDirectivePerLine longComment := by
  intro one
  have silent := (physicalEntries_iff longComment).mp one.1
  have plain : newline ∉ List.replicate maxLine (ascii ';') ++ asciiString "k=v" := by
    rw [List.mem_append, not_or]
    exact ⟨fun inside => absurd (List.eq_of_mem_replicate inside) (by decide), by decide⟩
  have second : List.replicate maxLine (ascii ';') ++ asciiString "k=v" ∈ physicalLines longComment := by
    rw [longComment, physicalLines_cons (by decide), physicalLines, List.splitOn_eq_singleton plain]
    simp
  have piece : laterPiece (List.replicate maxLine (ascii ';') ++ asciiString "k=v") 0 = asciiString "k=v" := by
    rw [laterPiece, Nat.zero_add, Nat.mul_one, List.drop_left' List.length_replicate]
    rfl
  have quiet := silent _ second 0
  rw [piece] at quiet
  exact absurd quiet (by decide +kernel)

end Plibsys.Ini
