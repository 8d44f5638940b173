import Plibsys.Ini.Independence

/-! # Lines in a file

A line of a file counts only through what it says.  Two lines give the same results in
every file exactly when they say the same.
-/

namespace Plibsys.Ini

open Support

/-- The text of a line: what follows the byte order mark, as a C string. -/
def lineText (line : List Byte) : List Byte := cstr (line.drop (bomShift line))

/-- What a trimmed line says. -/
def textEntry (dstLine : List Byte) : Option Entry :=
  match scanSection dstLine with
  | some key => some (.header (cutLine (zstrchomp key)))
  | none =>
      match scanParameter dstLine with
      | some (key, value) =>
          some (.parameter (cutLine (zstrchomp key)) (unquoteEmpty (cutLine (zstrchomp value))))
      | none => none

/-- All results for two files agree. -/
def SameParse (file file' : PIniFile) : Prop :=
  file.ziniFileSections = file'.ziniFileSections ∧ ∀ name, SameResults file file' name

/-- What follows a line: nothing, or a newline and more text. -/
def EndsHere (rest : List Byte) : Prop := rest = [] ∨ rest.head? = some newline

instance : DecidablePred EndsHere := fun _ => inferInstanceAs (Decidable (_ ∨ _))

/-- The bytes of the byte order marks. -/
def markBytes : List Byte := [0xEF, 0xBB, 0xBF, 0xFE, 0xFF, 0x00]

section Marks

variable {line mark : List Byte} {p : Byte → Bool}

/-- The mark of UTF-32 LE is taken for the one of UTF-16 LE, with which it begins. -/
theorem bomShift_eq (line : List Byte) :
    bomShift line =
      if [0xEF, 0xBB, 0xBF] <+: line then 3
      else if [0xFE, 0xFF] <+: line ∨ [0xFF, 0xFE] <+: line then 2
      else if [0x00, 0x00, 0xFE, 0xFF] <+: line then 4
      else 0 := by
  have pairs : ∀ x y : Byte, y ≠ 0 → (line.getD 0 0 = x ∧ line.getD 1 0 = y ↔ [x, y] <+: line) := by
    intro x y solid
    have different : 0#8 ≠ y := solid.symm
    match line with
    | [] => simp [different]
    | [a] => simp [different]
    | a :: b :: line => simp [eq_comm]
  have utf8 : line.getD 0 0 = 0xEF ∧ line.getD 1 0 = 0xBB ∧ line.getD 2 0 = 0xBF ↔
      [0xEF, 0xBB, 0xBF] <+: line := by
    match line with
    | [] => simp
    | [a] => simp
    | [a, b] => simp
    | a :: b :: c :: line => simp [eq_comm]
  have utf32 : line.getD 0 0 = 0x00 ∧ line.getD 1 0 = 0x00 ∧ line.getD 2 0 = 0xFE ∧ line.getD 3 0 = 0xFF ↔
      [0x00, 0x00, 0xFE, 0xFF] <+: line := by
    match line with
    | [] => simp
    | [a] => simp
    | [a, b] => simp
    | [a, b, c] => simp
    | a :: b :: c :: d :: line =>
        simp only [List.getD_cons_zero, List.getD_cons_succ, List.cons_prefix_cons, List.nil_prefix, and_true]
        constructor
        · rintro ⟨rfl, rfl, rfl, rfl⟩
          exact ⟨rfl, rfl, rfl, rfl⟩
        · rintro ⟨rfl, rfl, rfl, rfl⟩
          exact ⟨rfl, rfl, rfl, rfl⟩
  unfold bomShift
  simp only [utf8, utf32, pairs 0xFE 0xFF (by decide), pairs 0xFF 0xFE (by decide)]
  by_cases utf16 : [0xFE, 0xFF] <+: line ∨ [0xFF, 0xFE] <+: line
  · rw [if_pos utf16, if_pos utf16]
  · have notShadowed : ¬ (line.getD 0 0 = 0xFF ∧ line.getD 1 0 = 0xFE ∧ line.getD 2 0 = 0x00 ∧
        line.getD 3 0 = 0x00) := by
      rintro ⟨first, second, -⟩
      exact utf16 (.inr ((pairs 0xFF 0xFE (by decide)).mp ⟨first, second⟩))
    rw [if_neg utf16, if_neg utf16, if_neg notShadowed]

/-- A line consists of its mark and the bytes after it. -/
theorem exists_mark (line : List Byte) :
    ∃ mark text, line = mark ++ text ∧ bomShift line = mark.length ∧ ∀ c ∈ mark, c ∈ markBytes := by
  have shift := bomShift_eq line
  split at shift
  · next starts =>
      obtain ⟨text, rfl⟩ := starts
      exact ⟨_, text, rfl, shift, by decide⟩
  · split at shift
    · next starts =>
        rcases starts with ⟨text, rfl⟩ | ⟨text, rfl⟩
        · exact ⟨_, text, rfl, shift, by decide⟩
        · exact ⟨_, text, rfl, shift, by decide⟩
    · split at shift
      · next starts =>
          obtain ⟨text, rfl⟩ := starts
          exact ⟨_, text, rfl, shift, by decide⟩
      · exact ⟨[], line, rfl, shift, by simp⟩

theorem prefix_takeWhile (kept : ∀ c ∈ mark, p c) : mark <+: line.takeWhile p ↔ mark <+: line := by
  constructor
  · exact fun starts => starts.trans (List.takeWhile_prefix p)
  · rintro ⟨text, rfl⟩
    rw [List.takeWhile_append_of_pos kept]
    exact List.prefix_append _ _

/-- Cutting a line after its mark leaves the mark. -/
theorem bomShift_takeWhile (kept : ∀ c ∈ markBytes, p c) (line : List Byte) :
    bomShift (line.takeWhile p) = bomShift line := by
  have same : ∀ mark : List Byte, (∀ c ∈ mark, c ∈ markBytes) →
      (mark <+: line.takeWhile p ↔ mark <+: line) :=
    fun mark bytes => prefix_takeWhile fun c inside => kept c (bytes c inside)
  rw [bomShift_eq, bomShift_eq]
  simp only [same [0xEF, 0xBB, 0xBF] (by decide), same [0xFE, 0xFF] (by decide),
    same [0xFF, 0xFE] (by decide), same [0x00, 0x00, 0xFE, 0xFF] (by decide)]

/-- Cutting a line cuts its text. -/
theorem lineText_takeWhile (kept : ∀ c ∈ markBytes, p c) (line : List Byte) :
    lineText (line.takeWhile p) = (lineText line).takeWhile p := by
  obtain ⟨mark, text, split, shift, bytes⟩ := exists_mark line
  rw [lineText, lineText, bomShift_takeWhile kept, shift, split,
    List.takeWhile_append_of_pos fun c inside => kept c (bytes c inside), List.drop_left, List.drop_left,
    cstr, cstr, List.takeWhile_takeWhile, List.takeWhile_takeWhile]
  simp only [and_comm]

end Marks

section Entries

variable {line line' before rest : List Byte}

theorem lineEntry_eq_of_le (short : line.length ≤ maxLine) : lineEntry line = textEntry (zstrchomp (lineText line)) := by
  have kept : (zstrchomp (lineText line)).length ≤ maxLine :=
    (length_zstrchomp_le _).trans (((List.takeWhile_prefix _).length_le.trans (List.drop_suffix _ line).length_le).trans
      short)
  have whole : cutLine (zstrchomp (lineText line)) = zstrchomp (lineText line) := List.take_of_length_le kept
  rw [← whole]
  rfl

theorem lineEntry_eq (fits : FitsLine line) : lineEntry line = textEntry (zstrchomp (lineText line)) :=
  lineEntry_eq_of_le (by unfold FitsLine at fits; unfold maxLine; omega)

/-- The newline at the end of a line says nothing. -/
theorem lineEntry_newline (single : newline ∉ line) : lineEntry (line ++ [newline]) = lineEntry line := by
  have stays : ∀ c ∈ line, decide (c ≠ newline) = true := by
    intro c inside
    rw [decide_eq_true_iff]
    rintro rfl
    exact single inside
  have front : (line ++ [newline]).takeWhile (fun c => c ≠ newline) = line := by
    rw [List.takeWhile_append_of_pos stays]
    simp
  have noMarkByte : ∀ c ∈ markBytes, decide (c ≠ newline) = true := by decide
  have sameShift := bomShift_takeWhile noMarkByte (line ++ [newline])
  rw [front] at sameShift
  obtain ⟨mark, text, split, shift, -⟩ := exists_mark line
  have trimmed : zstrchomp (lineText (line ++ [newline])) = zstrchomp (lineText line) := by
    rw [lineText, lineText, ← sameShift, shift, split, List.append_assoc, List.drop_left, List.drop_left, cstr,
      cstr, List.takeWhile_append]
    split
    · next whole =>
        have noNul : text.takeWhile (fun c => c ≠ 0) = text := (List.takeWhile_prefix _).eq_of_length whole
        rw [noNul]
        exact zstrchomp_append_blank text (by decide)
    · rfl
  change textEntry (cutLine (zstrchomp (lineText (line ++ [newline])))) =
    textEntry (cutLine (zstrchomp (lineText line)))
  rw [trimmed]

/-- A line between complete lines and its end is read on its own. -/
theorem entries_around (complete : EndsLine before) (single : newline ∉ line) (fits : FitsLine line)
    (ends : EndsHere rest) :
    entries (before ++ (line ++ rest)) = entries before ++ ((lineEntry line).toList ++ entries rest.tail) := by
  have apart : entries (before ++ (line ++ rest)) = entries before ++ entries (line ++ rest) := by
    unfold entries
    rw [readLines_append (by decide) complete, List.filterMap_append]
  have alone : entries (line ++ rest) = (lineEntry line).toList ++ entries rest.tail := by
    rcases ends with rfl | starts
    · by_cases empty : line = []
      · subst empty
        rfl
      · have short : line.length < maxLine + 1 := by
          unfold FitsLine at fits
          unfold maxLine
          omega
        rw [List.append_nil, entries, readLines_last (by decide) empty single short, List.filterMap_cons,
          List.filterMap_nil, List.tail_nil]
        cases lineEntry line <;> rfl
    · obtain ⟨rest, rfl⟩ := List.head?_eq_some_iff.mp starts
      rw [entries_line single fits, lineEntry_newline single]
      rfl
  rw [apart, alone]

/-- The value of a key that is assigned last in its block. -/
theorem lastValue_assigned {name : List Byte} {before after : List PIniParameter} {key value : List Byte}
    (last : key ∉ after.map PIniParameter.name) :
    Block.lastValue ⟨name, before ++ ⟨key, value⟩ :: after⟩ key = some value := by
  have notAfter : after.reverse.find? (fun param => param.name = key) = none := by
    rw [List.find?_eq_none]
    intro param inside same
    exact last (List.mem_map.mpr ⟨param, List.mem_reverse.mp inside, by simpa using same⟩)
  unfold Block.lastValue
  rw [List.reverse_append, List.reverse_cons, List.append_assoc, List.find?_append, notAfter]
  simp

/-- In a section whose name is not repeated, a line that assigns a key last decides what is
    found under the key. -/
theorem find_assigned (path : String) {key found : List Byte} (single : newline ∉ line) (fits : FitsLine line)
    (assigns : lineEntry line = some (.parameter key found)) (complete : EndsLine before) (ends : EndsHere rest)
    {front : List Block} {b : Block} (inside : blocks (entries before) = front ++ [b])
    (alone : ∀ other ∈ front ++ blocks (entries rest.tail), other.name ≠ b.name)
    (last : key ∉ (leading (entries rest.tail)).map PIniParameter.name) :
    (parsedFile path (before ++ (line ++ rest))).pziniFileFindParameter b.name key = some found := by
  have read := entries_around complete single fits ends
  rw [assigns] at read
  have split := blocks_append inside ((some (.parameter key found)).toList ++ entries rest.tail)
  have assigned : leading ((some (.parameter key found)).toList ++ entries rest.tail) =
      ⟨key, found⟩ :: leading (entries rest.tail) := rfl
  have later : blocks ((some (.parameter key found)).toList ++ entries rest.tail) = blocks (entries rest.tail) :=
    rfl
  rw [← read, assigned, later] at split
  have answers : answering (blocks (entries (before ++ (line ++ rest)))) b.name =
      some ⟨b.name, b.params ++ ⟨key, found⟩ :: leading (entries rest.tail)⟩ := by
    apply answering_unique (b := ⟨b.name, b.params ++ ⟨key, found⟩ :: leading (entries rest.tail)⟩)
    · simp [split]
    · simp [Block.isFilled]
    · intro c member _ named
      rw [split, List.mem_append, List.mem_cons] at member
      rcases member with inFront | rfl | later
      · exact absurd named (alone c (List.mem_append_left _ inFront))
      · rfl
      · exact absurd named (alone c (List.mem_append_right _ later))
  unfold parsedFile
  rw [parse_sections, find_sectionsOf, answers, Option.bind_some, lastValue_assigned last]

/-- A file counts only through the sections made of its blocks. -/
theorem sameParse_of_sections {content content' : List Byte} (path : String)
    (same : sectionsOf (blocks (entries content)) = sectionsOf (blocks (entries content'))) :
    SameParse (parsedFile path content) (parsedFile path content') := by
  unfold parsedFile
  rw [parse_sections, parse_sections, same]
  exact ⟨rfl, fun name => ⟨fun _ _ => rfl, rfl, fun _ => rfl⟩⟩

/-- The names of the sections of a file. -/
theorem sections_parsedFile (path : String) (content : List Byte) :
    (parsedFile path content).ziniFileSections =
      ((candidates (blocks (entries content))).map Block.name).reverse := by
  unfold parsedFile
  rw [parse_sections]
  simp [PIniFile.ziniFileSections, sectionsOf, Block.toSection]

/-- Before a parameter, a header shows as the name of a section. -/
theorem sections_before_parameter (e : Option Entry) (param : PIniParameter) :
    ((candidates (blocks (e.toList ++ [.parameter param.name param.value]))).map Block.name).reverse =
      match e with
      | some (.header name) => [name]
      | _ => [] := by
  rcases e with _ | ⟨name⟩ | ⟨key, value⟩ <;> rfl

/-- After a header, a parameter makes the section. -/
theorem answering_after_header (e : Option Entry) (name : List Byte) :
    answering (blocks ([.header name] ++ (e.toList ++ entries []))) name =
      match e with
      | some (.parameter key value) => some ⟨name, [⟨key, value⟩]⟩
      | _ => none := by
  rcases e with _ | ⟨other⟩ | ⟨key, value⟩
  · rfl
  · rfl
  · have filled : Block.isFilled ⟨name, [⟨key, value⟩]⟩ = true := rfl
    have single : candidates [⟨name, [⟨key, value⟩]⟩] = [⟨name, [⟨key, value⟩]⟩] := by
      unfold candidates
      rw [List.getLast?_singleton, Option.filter_some, if_pos filled]
      rfl
    have block : blocks ([.header name] ++ ((some (.parameter key value)).toList ++ entries [])) =
        [⟨name, [⟨key, value⟩]⟩] := rfl
    rw [answering, block, single]
    simp

/-- Two lines give the same results in every file exactly when they say the same. -/
theorem same_in_every_file_iff (path : String) (single : newline ∉ line) (fits : FitsLine line)
    (single' : newline ∉ line') (fits' : FitsLine line') :
    (∀ before rest, EndsLine before → EndsHere rest →
        SameParse (parsedFile path (before ++ (line ++ rest))) (parsedFile path (before ++ (line' ++ rest)))) ↔
      lineEntry line = lineEntry line' := by
  constructor
  · intro same
    have complete : EndsLine (asciiString "[s]\n") := by decide
    have header : entries (asciiString "[s]\n") = [.header (asciiString "s")] := by decide +kernel
    have ends : EndsHere (newline :: asciiString "x=1") := by decide
    have param : entries (newline :: asciiString "x=1").tail = [.parameter (asciiString "x") (asciiString "1")] := by
      decide +kernel
    have headers := (same [] (newline :: asciiString "x=1") (by decide) ends).1
    rw [sections_parsedFile, sections_parsedFile, entries_around (by decide) single fits ends,
      entries_around (by decide) single' fits' ends, param] at headers
    have sameHeaders := (sections_before_parameter (lineEntry line) ⟨_, _⟩).symm.trans
      (headers.trans (sections_before_parameter (lineEntry line') ⟨_, _⟩))
    have results := (same (asciiString "[s]\n") [] complete (by decide)).2 (asciiString "s")
    unfold parsedFile at results
    rw [parse_sections, parse_sections, entries_around complete single fits (by decide),
      entries_around complete single' fits' (by decide), header, sameResults_iff, List.tail_nil,
      answering_after_header, answering_after_header] at results
    obtain ⟨keys, values⟩ := results
    -- The sections tell headers apart, the keys and values parameters.
    generalize lineEntry line = e, lineEntry line' = e' at sameHeaders keys values
    rcases e with _ | ⟨name⟩ | ⟨key, value⟩ <;> rcases e' with _ | ⟨name'⟩ | ⟨key', value'⟩
    case none.none => rfl
    case some.header.some.header =>
      have names : name = name' := by simpa using sameHeaders
      rw [names]
    case some.parameter.some.parameter =>
      have sameKey : key = key' := by simpa using keys
      subst sameKey
      have sameValue : value = value' := by simpa [Block.lastValue] using values key
      rw [sameValue]
    all_goals simp at sameHeaders keys
  · intro same before rest complete ends
    apply sameParse_of_sections
    rw [entries_around complete single fits ends, entries_around complete single' fits' ends, same]

end Entries

end Plibsys.Ini
