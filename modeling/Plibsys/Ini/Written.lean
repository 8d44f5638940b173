import Plibsys.Ini.Blocks

/-! # Written lines

Headers and parameters as they are usually written, `[name]` and `key = value`, and what
the parser reads from such lines.
-/

namespace Plibsys.Ini

open Support

/-- Printable characters without a space at either end. -/
@[mk_iff]
structure Text (s : List Byte) : Prop where
  nonempty : s ≠ []
  printable : ∀ c ∈ s, 0x20 ≤ c ∧ c ≤ 0x7E
  solidHead : s.head? ≠ some (ascii ' ')
  solidLast : s.getLast? ≠ some (ascii ' ')

@[mk_iff]
structure SectionName (s : List Byte) : Prop extends Text s where
  noBracket : ascii ']' ∉ s

@[mk_iff]
structure KeyText (s : List Byte) : Prop extends Text s where
  noEquals : ascii '=' ∉ s
  noBracket : s.head? ≠ some (ascii '[')

@[mk_iff]
structure ValueText (s : List Byte) : Prop extends Text s where
  noComment : ascii ';' ∉ s ∧ ascii '#' ∉ s
  noQuote : s.head? ≠ some doubleQuote ∧ s.head? ≠ some singleQuote

/-- The line of a header. -/
def headerLine (name : List Byte) : List Byte := ascii '[' :: (name ++ [ascii ']'])

/-- The line of a parameter. -/
def parameterLine (param : PIniParameter) : List Byte :=
  param.name ++ asciiString " = " ++ param.value

/-- A line that `fgets` reads in one piece. -/
def FitsLine (line : List Byte) : Prop := line.length ≤ 1023

@[mk_iff]
structure WrittenParameter (param : PIniParameter) : Prop where
  key : KeyText param.name
  value : ValueText param.value
  fits : FitsLine (parameterLine param)

@[mk_iff]
structure WrittenBlock (b : Block) : Prop where
  name : SectionName b.name
  fits : FitsLine (headerLine b.name)
  params : ∀ param ∈ b.params, WrittenParameter param

instance : DecidablePred Text := fun s => decidable_of_iff _ (text_iff s).symm

instance : DecidablePred SectionName := fun s => decidable_of_iff _ (sectionName_iff s).symm

instance : DecidablePred KeyText := fun s => decidable_of_iff _ (keyText_iff s).symm

instance : DecidablePred ValueText := fun s => decidable_of_iff _ (valueText_iff s).symm

instance : DecidablePred FitsLine := fun line => inferInstanceAs (Decidable (line.length ≤ 1023))

instance : DecidablePred WrittenParameter := fun param => decidable_of_iff _ (writtenParameter_iff param).symm

instance : DecidablePred WrittenBlock := fun b => decidable_of_iff _ (writtenBlock_iff b).symm

/-- The text of a block. -/
def writeBlock (b : Block) : List Byte :=
  headerLine b.name ++ newline :: b.params.flatMap fun param => parameterLine param ++ [newline]

section Characters

variable {s line : List Byte} {c : Byte}

theorem isspace_false (printable : 0x20 ≤ c ∧ c ≤ 0x7E) (solid : c ≠ ascii ' ') : isspace c = false := by
  have other : c ≠ 0x20 := solid
  unfold isspace
  simp only [decide_eq_false_iff_not, other, false_or, not_and]
  intro _
  bv_omega

theorem newline_not_printable : ¬ (0x20 ≤ newline ∧ newline ≤ 0x7E) := by decide

theorem Text.head_solid (text : Text s) : isspace (s.head text.nonempty) = false := by
  apply isspace_false (text.printable _ (List.head_mem _))
  intro same
  apply text.solidHead
  rw [List.head?_eq_some_head text.nonempty, same]

theorem Text.last_solid (text : Text s) : isspace (s.getLast text.nonempty) = false := by
  apply isspace_false (text.printable _ (List.getLast_mem _))
  intro same
  apply text.solidLast
  rw [List.getLast?_eq_some_getLast text.nonempty, same]

theorem Text.no_newline (text : Text s) : newline ∉ s :=
  fun inside => newline_not_printable (text.printable _ inside)

/-- A text is left alone by trimming, also when blanks follow. -/
theorem Text.chomp (text : Text s) {after : List Byte} (blank : ∀ c ∈ after, isspace c) :
    zstrchomp (s ++ after) = s :=
  zstrchomp_solid text.nonempty text.head_solid text.last_solid blank

/-- A text that fits the buffers is kept as it is. -/
theorem Text.kept (text : Text s) (short : s.length ≤ maxLine) : cutLine (zstrchomp s) = s := by
  rw [zstrchomp_eq_self text.nonempty text.head_solid text.last_solid, cutLine, List.take_of_length_le short]

/-- The formats read a key with the blank after it; trimming takes the blank away. -/
theorem Text.keptBeforeBlank (text : Text s) (short : s.length ≤ maxLine) :
    cutLine (zstrchomp (s ++ [ascii ' '])) = s := by
  rw [text.chomp (by decide), cutLine, List.take_of_length_le short]

theorem bomShift_printable {rest : List Byte} (printable : 0x20 ≤ c ∧ c ≤ 0x7E) : bomShift (c :: rest) = 0 := by
  have first : (c :: rest).getD 0 0 = c := rfl
  obtain ⟨notEF, notFE, notFF, not00⟩ : c ≠ 0xEF ∧ c ≠ 0xFE ∧ c ≠ 0xFF ∧ c ≠ 0x00 := by
    refine ⟨?_, ?_, ?_, ?_⟩ <;> bv_omega
  simp only [bomShift, first, notEF, notFE, notFF, not00, false_and, or_self, if_false]

theorem cstr_eq_self (nonzero : ∀ c ∈ s, c ≠ 0) : cstr s = s := by
  unfold cstr
  rw [List.takeWhile_eq_self_iff]
  simpa using nonzero

/-- What remains of a line of text after the mark, the newline and blanks are cut off. -/
theorem Text.trimmed (text : Text line) (fits : FitsLine line) :
    cutLine (zstrchomp (cstr ((line ++ [newline]).drop (bomShift (line ++ [newline]))))) = line := by
  have noMark : bomShift (line ++ [newline]) = 0 := by
    rw [← List.cons_head_tail text.nonempty, List.cons_append]
    exact bomShift_printable (text.printable _ (List.head_mem _))
  have nonzero : ∀ c ∈ line ++ [newline], c ≠ 0 := by
    intro c inside
    rcases List.mem_append.mp inside with inLine | isNewline
    · have printable := text.printable c inLine
      bv_omega
    · rw [List.mem_singleton.mp isNewline]
      decide
  have blank : ∀ c ∈ [newline], isspace c := by decide
  rw [noMark, List.drop_zero, cstr_eq_self nonzero, text.chomp blank, cutLine, List.take_of_length_le]
  unfold FitsLine at fits
  unfold maxLine
  omega

end Characters

section Lines

variable {name : List Byte} {param : PIniParameter} {line : List Byte}

theorem headerLine_text (valid : SectionName name) : Text (headerLine name) where
  nonempty := by simp [headerLine]
  printable := by
    intro c inside
    simp only [headerLine, List.mem_cons, List.mem_append, List.not_mem_nil, or_false] at inside
    rcases inside with rfl | inName | rfl
    · decide
    · exact valid.printable c inName
    · decide
  solidHead := by
    rw [headerLine, List.head?_cons]
    decide
  solidLast := by
    rw [headerLine, ← List.cons_append, List.getLast?_concat]
    decide

theorem scanSection_header (valid : SectionName name) : scanSection (headerLine name) = some name := by
  have bracketed : (headerLine name).head? = some (ascii '[') ∧
      (headerLine name).getLast? = some (ascii ']') := by
    refine ⟨rfl, ?_⟩
    rw [headerLine, ← List.cons_append, List.getLast?_concat]
  have field : ∀ c ∈ name, c ∉ [ascii ']'] := by
    intro c inside isBracket
    exact valid.noBracket (List.mem_singleton.mp isBracket ▸ inside)
  have scanned : sscanf sectionFormat (headerLine name) = [name] := by
    unfold sectionFormat headerLine
    rw [sscanf_literal, sscanf_field valid.nonempty field (by simp), sscanf_nil]
  rw [scanSection, if_pos bracketed, scanned]

/-- A written header is read as a header. -/
theorem lineEntry_header (valid : SectionName name) (fits : FitsLine (headerLine name)) :
    lineEntry (headerLine name ++ [newline]) = some (.header name) := by
  have short : name.length ≤ maxLine := by
    unfold FitsLine headerLine at fits
    rw [List.length_cons, List.length_append] at fits
    unfold maxLine
    omega
  unfold lineEntry
  simp only [(headerLine_text valid).trimmed fits, scanSection_header valid, valid.kept short]

theorem parameterLine_text (valid : WrittenParameter param) : Text (parameterLine param) where
  nonempty := by simp [parameterLine, asciiString]
  printable := by
    intro c inside
    simp only [parameterLine, List.mem_append] at inside
    rcases inside with (inKey | between) | inValue
    · exact valid.key.printable c inKey
    · revert c
      decide
    · exact valid.value.printable c inValue
  solidHead := by
    rw [parameterLine, List.append_assoc, List.head?_append_of_ne_nil _ valid.key.nonempty]
    exact valid.key.solidHead
  solidLast := by
    rw [parameterLine, List.getLast?_append_of_ne_nil _ valid.value.nonempty]
    exact valid.value.solidLast

/-- A line that begins with a key is not a header. -/
theorem scanSection_key {key : List Byte} (keyText : KeyText key) (rest : List Byte) :
    scanSection (key ++ rest) = none := by
  rw [scanSection, if_neg]
  rintro ⟨bracket, -⟩
  rw [List.head?_append_of_ne_nil _ keyText.nonempty] at bracket
  exact keyText.noBracket bracket

theorem scanSection_parameter (valid : WrittenParameter param) :
    scanSection (parameterLine param) = none := by
  rw [parameterLine, List.append_assoc]
  exact scanSection_key valid.key _

/-- All three formats read the key first and then come to the value. -/
theorem sscanf_assignment {key value : List Byte} {first : Byte} (valid : KeyText key)
    (solid : isspace first = false) (format : List Conversion) :
    sscanf (.scanset [ascii '='] :: .space :: .literal (ascii '=') :: .space :: format)
        (key ++ asciiString " = " ++ first :: value) =
      (key ++ [ascii ' ']) :: sscanf format (first :: value) := by
  have field : ∀ c ∈ key ++ [ascii ' '], c ∉ [ascii '='] := by
    intro c inside isEquals
    rw [List.mem_singleton.mp isEquals, List.mem_append] at inside
    rcases inside with inKey | isSpace
    · exact valid.noEquals inKey
    · revert isSpace
      decide
  have equalsSolid : isspace (ascii '=') = false := by decide
  have blank : isspace (ascii ' ') = true := by decide
  have reached : (first :: value).dropWhile isspace = first :: value := by
    rw [List.dropWhile_cons, solid]
    rfl
  have split : key ++ asciiString " = " ++ first :: value =
      (key ++ [ascii ' ']) ++ ascii '=' :: ascii ' ' :: first :: value := by
    simp [asciiString]
  rw [split, sscanf_field (by simp) field (by simp), sscanf_space, List.dropWhile_cons,
    equalsSolid, if_neg Bool.false_ne_true, sscanf_literal, sscanf_space, List.dropWhile_cons, blank,
    if_pos rfl, reached]

theorem sscanf_parameter (valid : WrittenParameter param) (format : List Conversion) :
    sscanf (.scanset [ascii '='] :: .space :: .literal (ascii '=') :: .space :: format) (parameterLine param) =
      (param.name ++ [ascii ' ']) :: sscanf format param.value := by
  rw [parameterLine, ← List.cons_head_tail valid.value.nonempty]
  exact sscanf_assignment valid.key valid.value.head_solid format

theorem scanPair_quoted (valid : WrittenParameter param) {quote : Byte}
    (other : param.value.head? ≠ some quote) :
    scanPair (quotedFormat quote) (parameterLine param) = none := by
  have mismatch : sscanf [.literal quote, .scanset [quote], .literal quote] param.value = [] := by
    rw [← List.cons_head_tail valid.value.nonempty]
    apply sscanf_mismatch
    intro same
    exact other (by rw [List.head?_eq_some_head valid.value.nonempty, same])
  rw [scanPair, quotedFormat, sscanf_parameter valid, mismatch]

theorem scanPair_plain (valid : WrittenParameter param) :
    scanPair plainFormat (parameterLine param) = some (param.name ++ [ascii ' '], param.value) := by
  have field : ∀ c ∈ param.value, c ∉ [ascii ';', ascii '#'] := by
    intro c inside isComment
    simp only [List.mem_cons, List.not_mem_nil, or_false] at isComment
    rcases isComment with rfl | rfl
    · exact valid.value.noComment.1 inside
    · exact valid.value.noComment.2 inside
  rw [scanPair, plainFormat, sscanf_parameter valid, sscanf_rest valid.value.nonempty field, sscanf_nil]

theorem scanParameter_line (valid : WrittenParameter param) :
    scanParameter (parameterLine param) = some (param.name ++ [ascii ' '], param.value) := by
  rw [scanParameter, scanPair_quoted valid valid.value.noQuote.1, scanPair_quoted valid valid.value.noQuote.2,
    scanPair_plain valid]
  rfl

/-- A written parameter is read as this parameter. -/
theorem lineEntry_parameter (valid : WrittenParameter param) :
    lineEntry (parameterLine param ++ [newline]) = some (.parameter param.name param.value) := by
  have short : param.name.length ≤ maxLine ∧ param.value.length ≤ maxLine := by
    have fits := valid.fits
    unfold FitsLine parameterLine at fits
    simp only [List.length_append] at fits
    unfold maxLine
    omega
  have unquoted : unquoteEmpty param.value = param.value := by
    unfold unquoteEmpty
    rw [if_neg]
    rintro (double | single)
    · exact valid.value.noQuote.1 (by rw [double]; rfl)
    · exact valid.value.noQuote.2 (by rw [single]; rfl)
  unfold lineEntry
  simp only [(parameterLine_text valid).trimmed valid.fits, scanSection_parameter valid,
    scanParameter_line valid, valid.key.keptBeforeBlank short.1, valid.value.kept short.2, unquoted]

end Lines

section Texts

variable {b : Block} {rest : List Byte}

theorem entries_line {line : List Byte} (single : newline ∉ line) (fits : FitsLine line) (rest : List Byte) :
    entries (line ++ newline :: rest) = (lineEntry (line ++ [newline])).toList ++ entries rest := by
  unfold entries
  rw [readLines_line (by decide) single (by unfold FitsLine maxLine at *; omega), List.filterMap_cons]
  cases lineEntry (line ++ [newline]) <;> rfl

theorem entries_parameters {params : List PIniParameter} (valid : ∀ param ∈ params, WrittenParameter param) :
    entries ((params.flatMap fun param => parameterLine param ++ [newline]) ++ rest) =
      (params.map fun param => .parameter param.name param.value) ++ entries rest := by
  induction params with
  | nil => rfl
  | cons param params ih =>
      have first := valid param List.mem_cons_self
      rw [List.flatMap_cons, List.append_assoc, List.append_assoc, List.singleton_append,
        entries_line (parameterLine_text first).no_newline first.fits, lineEntry_parameter first,
        ih fun other inside => valid other (List.mem_cons_of_mem _ inside)]
      rfl

/-- The text of a block is read as its header and its parameters. -/
theorem entries_block (valid : WrittenBlock b) (rest : List Byte) :
    entries (writeBlock b ++ rest) = blockEntries b ++ entries rest := by
  rw [writeBlock, List.append_assoc, List.cons_append,
    entries_line (headerLine_text valid.name).no_newline valid.fits, lineEntry_header valid.name valid.fits, entries_parameters valid.params]
  rfl

end Texts

end Plibsys.Ini
