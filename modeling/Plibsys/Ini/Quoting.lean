import Plibsys.Ini.LineContext

/-! # Quoted values

A value between quotes is taken as it stands, but the test for an empty value comes after
the quotes are gone: two quotes of the other kind between quotes become the empty value.
-/

namespace Plibsys.Ini

open Support

/-- The line of a parameter with a quoted value. -/
def quotedLine (quote : Byte) (key value : List Byte) : List Byte :=
  key ++ asciiString " = " ++ quote :: (value ++ [quote])

/-- The other kind of quotes. -/
def otherQuote (quote : Byte) : Byte := if quote = doubleQuote then singleQuote else doubleQuote

section Lines

variable {quote : Byte} {key value line : List Byte}

theorem quotedLine_text (isQuote : quote = doubleQuote ∨ quote = singleQuote) (keyText : KeyText key)
    (valueText : Text value) : Text (quotedLine quote key value) where
  nonempty := by simp [quotedLine]
  printable := by
    intro c inside
    have quotePrintable : 0x20 ≤ quote ∧ quote ≤ 0x7E := by
      rcases isQuote with rfl | rfl <;> decide
    simp only [quotedLine, List.mem_append, List.mem_cons, List.not_mem_nil, or_false] at inside
    rcases inside with (inKey | between) | rfl | inValue | rfl
    · exact keyText.printable c inKey
    · revert c
      decide
    · exact quotePrintable
    · exact valueText.printable c inValue
    · exact quotePrintable
  solidHead := by
    rw [quotedLine, List.append_assoc, List.head?_append_of_ne_nil _ keyText.nonempty]
    exact keyText.solidHead
  solidLast := by
    rw [quotedLine, ← List.cons_append, ← List.append_assoc, List.getLast?_concat]
    rcases isQuote with rfl | rfl <;> decide

theorem Text.lineEntry_eq (text : Text line) (fits : FitsLine line) : lineEntry line = textEntry line := by
  have trimmed := text.trimmed fits
  rw [← lineEntry_newline text.no_newline]
  change textEntry _ = textEntry line
  rw [trimmed]

theorem scanSection_quoted (keyText : KeyText key) : scanSection (quotedLine quote key value) = none := by
  rw [quotedLine, List.append_assoc]
  exact scanSection_key keyText _

/-- Each format for quoted values reads the lines with its quotes, and no others. -/
theorem scanPair_quotedLine {quote' : Byte} (isQuote : quote = doubleQuote ∨ quote = singleQuote)
    (keyText : KeyText key) (valueText : Text value) (noQuote : quote ∉ value) :
    scanPair (quotedFormat quote') (quotedLine quote key value) =
      if quote = quote' then some (key ++ [ascii ' '], value) else none := by
  have solid : isspace quote = false := by
    rcases isQuote with rfl | rfl <;> decide
  have field : ∀ c ∈ value, c ∉ [quote] := by
    intro c inside isTheQuote
    exact noQuote (List.mem_singleton.mp isTheQuote ▸ inside)
  rw [scanPair, quotedFormat, quotedLine, sscanf_assignment keyText solid]
  by_cases same : quote = quote'
  · subst same
    rw [if_pos rfl, sscanf_literal, sscanf_field valueText.nonempty field (by simp), sscanf_literal, sscanf_nil]
  · rw [if_neg same, sscanf_mismatch same]

theorem scanParameter_quoted (isQuote : quote = doubleQuote ∨ quote = singleQuote) (keyText : KeyText key)
    (valueText : Text value) (noQuote : quote ∉ value) :
    scanParameter (quotedLine quote key value) = some (key ++ [ascii ' '], value) := by
  rw [scanParameter, scanPair_quotedLine isQuote keyText valueText noQuote,
    scanPair_quotedLine isQuote keyText valueText noQuote]
  rcases isQuote with rfl | rfl
  · rw [if_pos rfl]
    rfl
  · rw [if_neg (by decide), if_pos rfl]
    rfl

/-- The test for an empty value meets two quotes of the other kind only. -/
theorem unquoteEmpty_eq (isQuote : quote = doubleQuote ∨ quote = singleQuote) (noQuote : quote ∉ value) :
    unquoteEmpty value = if value = [otherQuote quote, otherQuote quote] then [] else value := by
  have notSame : value ≠ [quote, quote] := by
    rintro rfl
    exact noQuote List.mem_cons_self
  rcases isQuote with rfl | rfl
  · simp [unquoteEmpty, otherQuote, notSame]
  · have other : otherQuote singleQuote = doubleQuote := by decide
    simp [unquoteEmpty, other, notSame]

/-- What a line with a quoted value says. -/
theorem lineEntry_quoted (isQuote : quote = doubleQuote ∨ quote = singleQuote) (keyText : KeyText key)
    (valueText : Text value) (noQuote : quote ∉ value) (fits : FitsLine (quotedLine quote key value)) :
    lineEntry (quotedLine quote key value) =
      some (.parameter key (if value = [otherQuote quote, otherQuote quote] then [] else value)) := by
  have short : key.length ≤ maxLine ∧ value.length ≤ maxLine := by
    unfold FitsLine quotedLine at fits
    simp only [List.length_append, List.length_cons] at fits
    unfold maxLine
    omega
  rw [(quotedLine_text isQuote keyText valueText).lineEntry_eq fits, textEntry, scanSection_quoted keyText,
    scanParameter_quoted isQuote keyText valueText noQuote]
  simp only [keyText.keptBeforeBlank short.1, valueText.kept short.2, unquoteEmpty_eq isQuote noQuote]

end Lines

/-- In a section whose name is not repeated, the last assignment of a key with a quoted
    value brings this value exactly when the value is not two quotes of the other kind. -/
theorem quoted_value_verbatim_iff (path : String) {quote : Byte}
    (isQuote : quote = doubleQuote ∨ quote = singleQuote) {key value : List Byte} (keyText : KeyText key)
    (valueText : Text value) (noQuote : quote ∉ value) (fits : FitsLine (quotedLine quote key value))
    {before rest : List Byte} (complete : EndsLine before) (ends : EndsHere rest) {front : List Block}
    {b : Block} (inside : blocks (entries before) = front ++ [b])
    (alone : ∀ other ∈ front ++ blocks (entries rest.tail), other.name ≠ b.name)
    (last : key ∉ (leading (entries rest.tail)).map PIniParameter.name) (defaultVal : Option (List Byte)) :
    (parsedFile path (before ++ (quotedLine quote key value ++ rest))).ziniFileParameterString b.name key
        defaultVal = some value ↔
      value ≠ [otherQuote quote, otherQuote quote] := by
  have single : newline ∉ quotedLine quote key value := (quotedLine_text isQuote keyText valueText).no_newline
  have found := find_assigned path single fits (lineEntry_quoted isQuote keyText valueText noQuote fits) complete
    ends inside alone last
  rw [PIniFile.ziniFileParameterString, found, Option.some_inj]
  split
  · next doubled =>
      refine ⟨fun empty => ?_, fun other => absurd doubled other⟩
      exact absurd empty.symm valueText.nonempty
  · next other => exact ⟨fun _ => other, fun _ => rfl⟩

theorem quoted_value_verbatim_sample :
    (parsedFile "test.ini" (asciiString "[s]\n" ++
        (quotedLine singleQuote (asciiString "k") (asciiString "a;b # \"c\" = {[d]}") ++ []))).ziniFileParameterString
      (asciiString "s") (asciiString "k") none = some (asciiString "a;b # \"c\" = {[d]}") := by
  have header : blocks (entries (asciiString "[s]\n")) = [] ++ [⟨asciiString "s", []⟩] := by decide +kernel
  exact (quoted_value_verbatim_iff "test.ini" (.inr rfl) (by decide +kernel) (by decide +kernel)
    (by decide +kernel) (by decide +kernel) (by decide) (.inl rfl) header
    (fun other inside => absurd inside List.not_mem_nil) List.not_mem_nil none).mpr (by decide +kernel)

/-- Two apostrophes between quotes are lost. -/
theorem quoted_apostrophes_lost :
    KeyText (asciiString "k") ∧ Text (asciiString "\x27\x27") ∧ doubleQuote ∉ asciiString "\x27\x27" ∧
      (parsedFile "test.ini" (asciiString "[s]\nk = \"\x27\x27\"\n")).ziniFileParameterString
        (asciiString "s") (asciiString "k") none = some [] := by
  decide +kernel

end Plibsys.Ini
