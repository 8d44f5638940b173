import Plibsys.Ini.Written

/-! # Independence of sections

The section that is open at the end of a file is looked up last, after the sections that
were closed before it, but first once a header follows it.  Text appended to a file can
therefore change what is found in a section whose header is repeated.
-/

namespace Plibsys.Ini

open Support

/-- The latest block of the name that has parameters. -/
def latest (bs : List Block) (name : List Byte) : Option Block :=
  (bs.filter Block.isFilled).reverse.find? fun b => b.name = name

/-- The blocks have the same keys in the same order, with the same last values. -/
def SameAnswers (b c : Block) : Prop :=
  b.params.map PIniParameter.name = c.params.map PIniParameter.name ∧
    ∀ key ∈ b.params.map PIniParameter.name, b.lastValue key = c.lastValue key

/-- The last block of a file has no parameters, or no block before it has its name and
    parameters, or the latest such block gives the same answers. -/
def Harmless (bs : List Block) : Prop :=
  ∀ front last, bs = front ++ [last] → last.params ≠ [] →
    ∀ earlier, latest front last.name = some earlier → SameAnswers earlier last

/-- Both files give the same results for a section. -/
def SameResults (file file' : PIniFile) (name : List Byte) : Prop :=
  (∀ key defaultVal, file.ziniFileParameterString name key defaultVal =
      file'.ziniFileParameterString name key defaultVal) ∧
    file.ziniFileKeys name = file'.ziniFileKeys name ∧
    ∀ key, file.ziniFileIsKeyExists name key = file'.ziniFileIsKeyExists name key

/-- The file that `zini_file_parse` makes of a text. -/
def parsedFile (path : String) (content : List Byte) : PIniFile :=
  (ziniFileParse (.ok content) (ziniFileNew path)).2

variable {bs front : List Block} {b c last : Block} {name : List Byte}

theorem lastValue_eq_none {key : List Byte} (absent : key ∉ b.params.map PIniParameter.name) :
    b.lastValue key = none := by
  unfold Block.lastValue
  rw [Option.map_eq_none_iff, List.find?_eq_none]
  intro param inside same
  apply absent
  rw [List.mem_map]
  exact ⟨param, by simpa using inside, by simpa using same⟩

theorem SameAnswers.lastValue_eq (same : SameAnswers b c) (key : List Byte) :
    b.lastValue key = c.lastValue key := by
  by_cases present : key ∈ b.params.map PIniParameter.name
  · exact same.2 key present
  · rw [lastValue_eq_none present, lastValue_eq_none (same.1 ▸ present)]

/-- What is found in a block that was appended to a file. -/
theorem answering_appended (filled : b.params ≠ []) (other : name ≠ b.name) :
    answering (bs ++ [b]) name = latest bs name := by
  have notAppended : decide (b.name = name) = false := by simpa using other.symm
  unfold answering latest
  rw [candidates_concat, if_pos (by simpa [Block.isFilled] using filled), List.find?_append,
    List.find?_singleton, notAppended]
  simp

theorem answering_concat_filled (filled : last.params ≠ []) :
    answering (front ++ [last]) last.name = (latest front last.name).or (some last) := by
  unfold answering latest
  rw [candidates_concat, if_pos (by simpa [Block.isFilled] using filled), List.find?_append]
  simp

theorem latest_concat_filled (filled : last.params ≠ []) : latest (front ++ [last]) last.name = some last := by
  simp [latest, List.filter_append, Block.isFilled, filled]

/-- Another last block plays no role. -/
theorem answering_concat_other (front : List Block) (other : last.params = [] ∨ last.name ≠ name) :
    answering (front ++ [last]) name = latest front name ∧ latest (front ++ [last]) name = latest front name := by
  unfold answering latest
  rw [candidates_concat, List.filter_append, List.reverse_append]
  rcases other with empty | other
  · simp [Block.isFilled, empty]
  · cases filled : last.isFilled <;> simp [filled, other]

/-- Results depend on the answering block only, and on its answers. -/
theorem sameResults_iff {bs bs' : List Block} {path : String} :
    SameResults ⟨path, sectionsOf bs, true⟩ ⟨path, sectionsOf bs', true⟩ name ↔
      ((answering bs name).elim [] fun b => b.params.map PIniParameter.name) =
        ((answering bs' name).elim [] fun b => b.params.map PIniParameter.name) ∧
      ∀ key, ((answering bs name).bind fun b => b.lastValue key) =
        ((answering bs' name).bind fun b => b.lastValue key) := by
  unfold SameResults
  simp only [parameter_sectionsOf, keys_sectionsOf, exists_sectionsOf]
  constructor
  · rintro ⟨values, keys, -⟩
    refine ⟨keys, fun key => ?_⟩
    simpa using values key none
  · rintro ⟨keys, values⟩
    simp [keys, values]

theorem sameResults_harmless (filled : b.params ≠ []) (fresh : b.name ∉ bs.map Block.name) {path : String} :
    (∀ name, name ≠ b.name →
        SameResults ⟨path, sectionsOf bs, true⟩ ⟨path, sectionsOf (bs ++ [b]), true⟩ name) ↔
      Harmless bs := by
  constructor
  · intro same front last split filledLast earlier found
    subst split
    have other : last.name ≠ b.name := by
      intro equal
      apply fresh
      simp [← equal]
    have results := sameResults_iff.mp (same last.name other)
    rw [answering_appended filled other, answering_concat_filled filledLast, found,
      latest_concat_filled filledLast] at results
    exact ⟨results.1, fun key _ => by simpa using results.2 key⟩
  · intro harmless name other
    rw [sameResults_iff, answering_appended filled other]
    rcases List.eq_nil_or_concat' bs with rfl | ⟨front, last, rfl⟩
    · simp [answering, latest, candidates]
    · by_cases involved : last.params ≠ [] ∧ last.name = name
      · obtain ⟨filledLast, rfl⟩ := involved
        rw [answering_concat_filled filledLast, latest_concat_filled filledLast]
        cases found : latest front last.name with
        | none => simp
        | some earlier =>
            have same := harmless front last rfl filledLast earlier found
            exact ⟨same.1, fun key => by simpa using same.lastValue_eq key⟩
      · have aside : last.params = [] ∨ last.name ≠ name := by
          by_cases empty : last.params = []
          · exact Or.inl empty
          · exact Or.inr fun equal => involved ⟨empty, equal⟩
        obtain ⟨before, after⟩ := answering_concat_other front aside
        rw [before, after]
        simp

/-- The parameter that a line of a file assigns. -/
def lineParameter (line : List Byte) : Option PIniParameter :=
  match lineEntry (line ++ [newline]) with
  | some (.parameter key value) => some ⟨key, value⟩
  | _ => none

/-- A line that is read as a parameter, with or without quotes and comments. -/
@[mk_iff]
structure ParameterLine (line : List Byte) : Prop where
  single : newline ∉ line
  fits : FitsLine line
  assigns : (lineParameter line).isSome

instance : DecidablePred ParameterLine := fun line => decidable_of_iff _ (parameterLine_iff line).symm

/-- A header with lines after it. -/
def sectionText (name : List Byte) (lines : List (List Byte)) : List Byte :=
  headerLine name ++ newline :: lines.flatMap fun line => line ++ [newline]

section Appending

variable {line : List Byte} {lines : List (List Byte)} {content : List Byte}

theorem ParameterLine.lineEntry_eq (valid : ParameterLine line) :
    ∃ param, lineParameter line = some param ∧
      lineEntry (line ++ [newline]) = some (.parameter param.name param.value) := by
  have assigns := valid.assigns
  unfold lineParameter at assigns ⊢
  split at assigns
  · next key value read => exact ⟨⟨key, value⟩, rfl, read⟩
  · cases assigns

example : ParameterLine (asciiString "list = \"a;b\" ; comment") := by decide +kernel

theorem entries_lines (valid : ∀ line ∈ lines, ParameterLine line) :
    entries (lines.flatMap fun line => line ++ [newline]) =
      (lines.filterMap lineParameter).map fun param => .parameter param.name param.value := by
  induction lines with
  | nil => rfl
  | cons line lines ih =>
      have first := valid line List.mem_cons_self
      obtain ⟨param, assigned, read⟩ := first.lineEntry_eq
      rw [List.flatMap_cons, List.append_assoc, List.singleton_append, entries_line first.single first.fits,
        read, List.filterMap_cons, assigned, List.map_cons,
        ih fun other inside => valid other (List.mem_cons_of_mem _ inside)]
      rfl

/-- A text of complete lines and a section after it are read one after the other. -/
theorem blocks_appended (complete : EndsLine content) (named : SectionName name)
    (fits : FitsLine (headerLine name)) (valid : ∀ line ∈ lines, ParameterLine line) :
    blocks (entries (content ++ sectionText name lines)) =
      blocks (entries content) ++ [⟨name, lines.filterMap lineParameter⟩] := by
  have alone : entries (sectionText name lines) =
      blockEntries ⟨name, lines.filterMap lineParameter⟩ ++ [] := by
    rw [sectionText, entries_line (headerLine_text named).no_newline fits, lineEntry_header named fits,
      entries_lines valid, List.append_nil]
    rfl
  have read : entries (content ++ sectionText name lines) = entries content ++ entries (sectionText name lines) := by
    unfold entries
    rw [readLines_append (by decide) complete, List.filterMap_append]
  rw [read, alone, blocks_append_block, List.append_nil, blocks_blockEntries]

theorem parameters_nonempty (valid : ∀ line ∈ lines, ParameterLine line) (nonempty : lines ≠ []) :
    lines.filterMap lineParameter ≠ [] := by
  cases lines with
  | nil => exact absurd rfl nonempty
  | cons line lines =>
      obtain ⟨param, assigned, -⟩ := (valid line List.mem_cons_self).lineEntry_eq
      rw [List.filterMap_cons, assigned]
      exact List.cons_ne_nil _ _

end Appending

/-- Appending a section of a new name to a text of complete lines changes no result for
    other sections exactly when the last section of the text is harmless. -/
theorem appending_keeps_results_iff (content : List Byte) (complete : EndsLine content) (name : List Byte)
    (named : SectionName name) (fits : FitsLine (headerLine name)) (lines : List (List Byte))
    (valid : ∀ line ∈ lines, ParameterLine line) (nonempty : lines ≠ [])
    (fresh : name ∉ (blocks (entries content)).map Block.name) (path : String) :
    (∀ other, other ≠ name →
        SameResults (parsedFile path content) (parsedFile path (content ++ sectionText name lines)) other) ↔
      Harmless (blocks (entries content)) := by
  unfold parsedFile
  rw [parse_sections, parse_sections, blocks_appended complete named fits valid]
  exact sameResults_harmless (b := ⟨name, lines.filterMap lineParameter⟩) (parameters_nonempty valid nonempty) fresh

theorem appending_keeps_results_single_section :
    SameResults (parsedFile "test.ini" (asciiString "[a]\nk = 1\n"))
      (parsedFile "test.ini" (asciiString "[a]\nk = 1\n" ++ sectionText (asciiString "s") [asciiString "x = y"]))
      (asciiString "a") := by
  have single : blocks (entries (asciiString "[a]\nk = 1\n")) =
      [⟨asciiString "a", [⟨asciiString "k", asciiString "1"⟩]⟩] := by decide +kernel
  apply (appending_keeps_results_iff (asciiString "[a]\nk = 1\n") (by decide) (asciiString "s")
    (by decide) (by decide) [asciiString "x = y"] (by decide +kernel) (by decide)
    (by decide +kernel) "test.ini").mpr _ (asciiString "a") (by decide)
  rw [single]
  intro front last split _ earlier found
  have short : front = [] := by
    have lengths := congrArg List.length split
    simpa using lengths
  subst short
  simp [latest] at found

/-- Two sections `[a]` with different values: the value of the first is found until another
    section follows them. -/
theorem appending_changes_repeated_section :
    EndsLine (asciiString "[a]\nk = 1\n[a]\nk = 2\n") ∧ SectionName (asciiString "s") ∧
      ParameterLine (asciiString "x = y") ∧
      asciiString "s" ∉ (blocks (entries (asciiString "[a]\nk = 1\n[a]\nk = 2\n"))).map Block.name ∧
      (parsedFile "test.ini" (asciiString "[a]\nk = 1\n[a]\nk = 2\n")).ziniFileParameterString
        (asciiString "a") (asciiString "k") none = some (asciiString "1") ∧
      (parsedFile "test.ini" (asciiString "[a]\nk = 1\n[a]\nk = 2\n" ++
          sectionText (asciiString "s") [asciiString "x = y"])).ziniFileParameterString
        (asciiString "a") (asciiString "k") none = some (asciiString "2") := by
  decide +kernel

end Plibsys.Ini
