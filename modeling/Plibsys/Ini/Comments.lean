import Plibsys.Ini.LineContext

/-! # Comments

Nothing takes comments out of a line before it is classified.  The format for plain
parameters ends the value at a comment character but reads the key up to the first `=`,
so an assignment inside a comment is read as a parameter.
-/

namespace Plibsys.Ini

open Support

/-- The characters that begin a comment. -/
def isComment (c : Byte) : Bool := c = ascii ';' ∨ c = ascii '#'

/-- A line or text without its comment. -/
def uncommented (line : List Byte) : List Byte := line.takeWhile fun c => !isComment c

/-- A line that is a section header: brackets at both ends and a name between them. -/
def isHeader (dstLine : List Byte) : Bool :=
  dstLine.head? = some (ascii '[') ∧ dstLine.getLast? = some (ascii ']') ∧
    dstLine[1]? ≠ some (ascii ']')

/-- The text before the first `=`. -/
def keyPart (text : List Byte) : List Byte := text.takeWhile fun c => c ≠ ascii '='

/-- The text between the first `=` and the next comment. -/
def valuePart (text : List Byte) : List Byte :=
  uncommented (text.dropWhile fun c => c ≠ ascii '=').tail

/-- A comment begins before the first `=`, and that `=` has a value. -/
def assignsInComment (text : List Byte) : Bool :=
  (keyPart text).any isComment && zstrchomp (valuePart text) ≠ []

/-- Nothing is assigned inside the comment of the line.  The first condition concerns text
    that begins with a bracket: it is a header with its comment exactly if it is without. -/
def CommentIgnored (line : List Byte) : Prop :=
  isHeader (zstrchomp (lineText line)) = isHeader (zstrchomp (uncommented (lineText line))) ∧
    (isHeader (zstrchomp (lineText line)) = false → assignsInComment (lineText line) = false)

instance : DecidablePred CommentIgnored := fun _ => inferInstanceAs (Decidable (_ ∧ _))

section Scans

variable {str text key value : List Byte} {c quote : Byte}

theorem scanSection_eq (dstLine : List Byte) :
    scanSection dstLine =
      if isHeader dstLine then some (dstLine.tail.takeWhile fun c => c ≠ ascii ']') else none := by
  have scanset : ∀ rest : List Byte, rest.takeWhile (fun c => c ∉ [ascii ']']) =
      rest.takeWhile fun c => c ≠ ascii ']' := by
    intro rest
    simp only [List.mem_singleton, ne_eq]
  rw [scanSection]
  by_cases bracketed : dstLine.head? = some (ascii '[') ∧ dstLine.getLast? = some (ascii ']')
  · obtain ⟨rest, rfl⟩ := List.head?_eq_some_iff.mp bracketed.1
    rw [if_pos bracketed, sectionFormat, sscanf_literal, sscanf, scanset, List.tail_cons]
    cases rest with
    | nil =>
        have noClose := bracketed.2
        revert noClose
        decide
    | cons c rest =>
        by_cases closes : c = ascii ']'
        · simp [closes, isHeader]
        · simp [closes, isHeader, bracketed.2]
  · rw [if_neg bracketed, if_neg]
    intro header
    rw [isHeader, decide_eq_true_iff] at header
    exact bracketed ⟨header.1, header.2.1⟩

/-- Without the quote, a format with quotes does not match. -/
theorem scanPair_unquoted (absent : quote ∉ str) : scanPair (quotedFormat quote) str = none := by
  have noValue : ∀ input : List Byte, quote ∉ input →
      sscanf [.space, .literal (ascii '='), .space, .literal quote, .scanset [quote], .literal quote] input = [] := by
    intro input absent
    have afterBlanks : ∀ text : List Byte, quote ∉ text → quote ∉ text.dropWhile isspace :=
      fun text absent inside => absent ((List.dropWhile_suffix isspace).subset inside)
    have absentHere := afterBlanks input absent
    rw [sscanf_space]
    cases found : input.dropWhile isspace with
    | nil => rfl
    | cons c rest =>
        rw [found, List.mem_cons, not_or] at absentHere
        by_cases equals : c = ascii '='
        · rw [equals, sscanf_literal, sscanf_space]
          have absentLater := afterBlanks rest absentHere.2
          cases later : rest.dropWhile isspace with
          | nil => rfl
          | cons d rest =>
              rw [later, List.mem_cons, not_or] at absentLater
              exact sscanf_mismatch (Ne.symm absentLater.1)
        · exact sscanf_mismatch equals
  rw [scanPair, quotedFormat, sscanf]
  by_cases empty : str.takeWhile (fun c => c ∉ [ascii '=']) = []
  · rw [if_pos empty]
  · rw [if_neg empty, noValue]
    exact fun inside => absent ((List.dropWhile_suffix _).subset inside)

theorem before_equals (noEquals : ascii '=' ∉ key) : ∀ c ∈ key, decide (c ≠ ascii '=') = true := by
  intro c inside
  rw [decide_eq_true_iff]
  rintro rfl
  exact noEquals inside

theorem keyPart_append (noEquals : ascii '=' ∉ key) : keyPart (key ++ ascii '=' :: value) = key := by
  rw [keyPart, List.takeWhile_append_of_pos (before_equals noEquals)]
  simp

theorem valuePart_append (noEquals : ascii '=' ∉ key) :
    valuePart (key ++ ascii '=' :: value) = uncommented value := by
  rw [valuePart, List.dropWhile_append_of_pos (before_equals noEquals)]
  simp

theorem uncommented_append (plain : ∀ c ∈ text, isComment c = false) (comment : isComment c = true)
    (rest : List Byte) : uncommented (text ++ c :: rest) = text := by
  have kept : ∀ c ∈ text, (!isComment c) = true := fun c inside => by rw [plain c inside]; rfl
  rw [uncommented, List.takeWhile_append_of_pos kept, List.takeWhile_cons, comment]
  simp

theorem uncommented_eq_self (plain : ∀ c ∈ text, isComment c = false) : uncommented text = text := by
  rw [uncommented, List.takeWhile_eq_self_iff]
  exact fun c inside => by rw [plain c inside]; rfl

theorem plain_of_mem_uncommented (inside : c ∈ uncommented text) : isComment c = false := by
  simpa using List.mem_takeWhile_imp inside

/-- A text has no comment, or it ends where its comment begins. -/
theorem exists_comment (text : List Byte) :
    uncommented text = text ∨ ∃ c rest, text = uncommented text ++ c :: rest ∧ isComment c = true := by
  have parts : uncommented text ++ text.dropWhile (fun c => !isComment c) = text :=
    List.takeWhile_append_dropWhile
  cases found : text.dropWhile fun c => !isComment c with
  | nil =>
      rw [found, List.append_nil] at parts
      exact .inl parts
  | cons c rest =>
      rw [found] at parts
      have begins := List.head_dropWhile_not (fun c => !isComment c) (l := text) (by rw [found]; simp)
      simp only [found, List.head_cons] at begins
      exact .inr ⟨c, rest, parts.symm, by simpa using begins⟩

theorem comment_solid (comment : isComment c = true) : isspace c = false := by
  rw [isComment, decide_eq_true_iff] at comment
  rcases comment with rfl | rfl <;> decide

/-- Blanks at the end of a line do not reach the text before the comment. -/
theorem zstrchomp_uncommented (text : List Byte) :
    zstrchomp (uncommented (text.rdropWhile isspace)) = zstrchomp (uncommented text) := by
  rcases exists_comment text with whole | ⟨c, rest, split, comment⟩
  · have plain : ∀ c ∈ text.rdropWhile isspace, isComment c = false := by
      intro c inside
      have inText := (List.rdropWhile_prefix isspace text).subset inside
      rw [← whole] at inText
      exact plain_of_mem_uncommented inText
    rw [uncommented_eq_self plain, whole, zstrchomp_rdropWhile]
  · have plain : ∀ c ∈ uncommented text, isComment c = false := fun c => plain_of_mem_uncommented
    generalize uncommented text = before at split plain ⊢
    rw [split, rdropWhile_around _ _ (comment_solid comment), uncommented_append plain comment]

/-- Blanks do not begin a comment. -/
theorem uncommented_dropWhile (text : List Byte) :
    uncommented (text.dropWhile isspace) = (uncommented text).dropWhile isspace := by
  induction text with
  | nil => rfl
  | cons c text ih =>
      by_cases blank : isspace c = true
      · have plain : isComment c = false := by
          by_contra comment
          rw [comment_solid (by simpa using comment)] at blank
          cases blank
        rw [List.dropWhile_cons, if_pos blank, ih, uncommented, uncommented, List.takeWhile_cons, plain]
        simp [blank]
      · rw [List.dropWhile_cons, if_neg blank, uncommented, List.takeWhile_cons]
        split
        · rw [List.dropWhile_cons, if_neg blank]
        · rfl

/-- What a plain parameter line says, in terms of the line before trimming. -/
def plainEntry (text : List Byte) : Option Entry :=
  if ascii '=' ∈ text ∧ zstrchomp (keyPart text) ≠ [] ∧ zstrchomp (valuePart text) ≠ [] then
    some (.parameter (cutLine (zstrchomp (keyPart text)))
      (unquoteEmpty (cutLine (zstrchomp (valuePart text)))))
  else none

theorem scanPair_plain_eq (text : List Byte) :
    ((scanPair plainFormat (zstrchomp text)).map fun pair =>
        Entry.parameter (cutLine (zstrchomp pair.1)) (unquoteEmpty (cutLine (zstrchomp pair.2)))) =
      plainEntry text := by
  have equalsSolid : isspace (ascii '=') = false := by decide
  by_cases assigns : ascii '=' ∈ text
  · obtain ⟨key, value, rfl, noEquals⟩ := List.eq_append_cons_of_mem assigns
    rw [zstrchomp_around _ _ equalsSolid, plainEntry, keyPart_append noEquals, valuePart_append noEquals]
    have noEqualsLeft : ascii '=' ∉ key.dropWhile isspace :=
      fun inside => noEquals ((List.dropWhile_suffix isspace).subset inside)
    have field : ∀ c ∈ key.dropWhile isspace, c ∉ [ascii '='] := by
      intro c inside isEquals
      rw [List.mem_singleton.mp isEquals] at inside
      exact noEqualsLeft inside
    by_cases noKey : key.dropWhile isspace = []
    · have blankKey : zstrchomp key = [] := (zstrchomp_eq_nil_iff key).mpr noKey
      rw [noKey, if_neg fun assigned => assigned.2.1 blankKey]
      rfl
    · have someKey : zstrchomp key ≠ [] := fun blank => noKey ((zstrchomp_eq_nil_iff key).mp blank)
      have scanned : sscanf plainFormat (key.dropWhile isspace ++ ascii '=' :: value.rdropWhile isspace) =
          key.dropWhile isspace ::
            sscanf [.scanset [ascii ';', ascii '#']] ((value.rdropWhile isspace).dropWhile isspace) := by
        rw [plainFormat, sscanf_field noKey field (by simp), sscanf_space, List.dropWhile_cons, equalsSolid,
          if_neg Bool.false_ne_true, sscanf_literal, sscanf_space]
      have taken : ((value.rdropWhile isspace).dropWhile isspace).takeWhile
          (fun c => c ∉ [ascii ';', ascii '#']) = (uncommented (value.rdropWhile isspace)).dropWhile isspace := by
        rw [← uncommented_dropWhile, uncommented]
        congr 1
        funext c
        simp [isComment]
      have found : zstrchomp ((uncommented (value.rdropWhile isspace)).dropWhile isspace) =
          zstrchomp (uncommented value) := by
        rw [zstrchomp_dropWhile, zstrchomp_uncommented]
      rw [scanPair, scanned, sscanf, taken]
      by_cases noValue : (uncommented (value.rdropWhile isspace)).dropWhile isspace = []
      · have blankValue : zstrchomp (uncommented value) = [] := by
          rw [← zstrchomp_uncommented, zstrchomp_eq_nil_iff, noValue]
        rw [if_pos noValue, if_neg fun assigned => assigned.2.2 blankValue]
        rfl
      · have someValue : zstrchomp (uncommented value) ≠ [] := by
          rw [← zstrchomp_uncommented, ne_eq, zstrchomp_eq_nil_iff]
          exact noValue
        rw [if_neg noValue, if_pos ⟨by simp, someKey, someValue⟩, sscanf_nil, Option.map_some,
          zstrchomp_dropWhile, found]
  · have absent : ascii '=' ∉ zstrchomp text := by
      intro inside
      rw [zstrchomp_eq] at inside
      exact assigns ((List.dropWhile_suffix isspace).subset ((List.rdropWhile_prefix isspace _).subset inside))
    have nothingLeft : (zstrchomp text).dropWhile (fun c => c ∉ [ascii '=']) = [] := by
      rw [List.dropWhile_eq_nil_iff]
      intro c inside
      rw [decide_eq_true_iff, List.mem_singleton]
      rintro rfl
      exact absent inside
    have unmatched : scanPair plainFormat (zstrchomp text) = none := by
      rw [scanPair, plainFormat, sscanf, nothingLeft]
      by_cases empty : (zstrchomp text).takeWhile (fun c => c ∉ [ascii '=']) = []
      · rw [if_pos empty]
      · rw [if_neg empty]
        rfl
    rw [unmatched, plainEntry, if_neg fun assigned => assigns assigned.1]
    rfl

theorem textEntry_zstrchomp (noQuote : doubleQuote ∉ text ∧ singleQuote ∉ text) :
    textEntry (zstrchomp text) =
      if isHeader (zstrchomp text) then
        some (.header (cutLine (zstrchomp ((zstrchomp text).tail.takeWhile fun c => c ≠ ascii ']'))))
      else plainEntry text := by
  have trimmed : ∀ quote, quote ∉ text → quote ∉ zstrchomp text := by
    intro quote absent inside
    rw [zstrchomp_eq] at inside
    exact absent ((List.dropWhile_suffix isspace).subset ((List.rdropWhile_prefix isspace _).subset inside))
  rw [textEntry, scanSection_eq]
  by_cases header : isHeader (zstrchomp text) = true
  · rw [if_pos header, if_pos header]
  · rw [if_neg header, if_neg header, scanParameter, scanPair_unquoted (trimmed _ noQuote.1),
      scanPair_unquoted (trimmed _ noQuote.2), ← scanPair_plain_eq]
    cases scanPair plainFormat (zstrchomp text) <;> rfl

/-- A value belongs to an assignment. -/
theorem valuePart_noEquals (absent : ascii '=' ∉ text) : valuePart text = [] := by
  have nothingLeft : text.dropWhile (fun c => c ≠ ascii '=') = [] := by
    rw [List.dropWhile_eq_nil_iff]
    intro c inside
    rw [decide_eq_true_iff]
    rintro rfl
    exact absent inside
  rw [valuePart, nothingLeft]
  rfl

/-- A comment after the first `=` only ends the value. -/
theorem plainEntry_comment_after {rest : List Byte} (noEquals : ascii '=' ∉ key)
    (plain : ∀ c ∈ value, isComment c = false) (comment : isComment c = true) :
    plainEntry (key ++ ascii '=' :: (value ++ c :: rest)) = plainEntry (key ++ ascii '=' :: value) := by
  unfold plainEntry
  rw [keyPart_append noEquals, keyPart_append noEquals, valuePart_append noEquals, valuePart_append noEquals,
    uncommented_append plain comment, uncommented_eq_self plain]
  simp

/-- A comment before the first `=` is read as a part of the key. -/
theorem plainEntry_comment_before (inKey : c ∈ keyPart text) (comment : isComment c = true) :
    plainEntry text = none ↔ zstrchomp (valuePart text) = [] := by
  have someKey : zstrchomp (keyPart text) ≠ [] := by
    rw [ne_eq, zstrchomp_eq_nil_iff, List.dropWhile_eq_nil_iff]
    intro blank
    have blankComment := blank c inKey
    rw [comment_solid comment] at blankComment
    cases blankComment
  unfold plainEntry
  by_cases noValue : zstrchomp (valuePart text) = []
  · simp [noValue]
  · have assigns : ascii '=' ∈ text := by
      by_contra absent
      rw [valuePart_noEquals absent] at noValue
      exact noValue rfl
    simp [assigns, someKey, noValue]

theorem plainEntry_uncommented (text : List Byte) :
    plainEntry text = plainEntry (uncommented text) ↔ assignsInComment text = false := by
  have plain : ∀ c ∈ uncommented text, isComment c = false := fun c => plain_of_mem_uncommented
  rcases exists_comment text with whole | ⟨c, rest, split, comment⟩
  · have noComment : (keyPart text).any isComment = false := by
      rw [List.any_eq_false]
      intro c inside
      have inText : c ∈ uncommented text := whole.symm ▸ (List.takeWhile_prefix _).subset inside
      rw [plain c inText]
      exact Bool.false_ne_true
    rw [whole, assignsInComment, noComment]
    simp
  · generalize uncommented text = before at split plain ⊢
    subst split
    by_cases assigned : ascii '=' ∈ before
    · obtain ⟨key, value, rfl, noEquals⟩ := List.eq_append_cons_of_mem assigned
      have plainValue : ∀ c ∈ value, isComment c = false := fun c inside => plain c (by simp [inside])
      have noComment : key.any isComment = false := by
        rw [List.any_eq_false]
        intro c inside
        rw [plain c (by simp [inside])]
        exact Bool.false_ne_true
      rw [List.append_assoc, List.cons_append, plainEntry_comment_after noEquals plainValue comment,
        assignsInComment, keyPart_append noEquals, noComment]
      simp
    · have inKey : c ∈ keyPart (before ++ c :: rest) := by
        have taken : ∀ b ∈ before, decide (b ≠ ascii '=') = true := by
          intro b inside
          rw [decide_eq_true_iff]
          rintro rfl
          exact assigned inside
        have notEquals : c ≠ ascii '=' := by
          rintro rfl
          revert comment
          decide
        rw [keyPart, List.takeWhile_append_of_pos taken, List.takeWhile_cons]
        simp [notEquals]
      have noneLeft : plainEntry before = none := if_neg fun entry => assigned entry.1
      have hidden : (keyPart (before ++ c :: rest)).any isComment = true :=
        List.any_eq_true.mpr ⟨c, inKey, comment⟩
      rw [noneLeft, plainEntry_comment_before inKey comment, assignsInComment, hidden]
      simp

/-- A header that ends before a comment is the one that is found without the comment. -/
theorem header_uncommented (header : isHeader (zstrchomp (uncommented text)) = true) :
    (zstrchomp text).tail.takeWhile (fun c => c ≠ ascii ']') =
      (zstrchomp (uncommented text)).tail.takeWhile fun c => c ≠ ascii ']' := by
  rcases exists_comment text with whole | ⟨c, rest, split, comment⟩
  · rw [whole]
  · generalize uncommented text = before at split header ⊢
    have start : before.dropWhile isspace =
        zstrchomp before ++ (before.dropWhile isspace).rtakeWhile isspace := by
      rw [zstrchomp_eq]
      exact List.rdropWhile_append_rtakeWhile.symm
    rw [split, zstrchomp_around _ _ (comment_solid comment), start]
    rw [isHeader, decide_eq_true_iff] at header
    obtain ⟨opens, closes, -⟩ := header
    obtain ⟨name, named⟩ := List.head?_eq_some_iff.mp opens
    rw [named] at closes ⊢
    have bracket : ascii ']' ∈ name := by
      cases name with
      | nil =>
          revert closes
          decide
      | cons b name =>
          rw [List.getLast?_cons_cons] at closes
          exact List.mem_of_getLast? closes
    obtain ⟨key, after, rfl, noBracket⟩ := List.eq_append_cons_of_mem bracket
    have taken : ∀ b ∈ key, decide (b ≠ ascii ']') = true := by
      intro b inside
      rw [decide_eq_true_iff]
      rintro rfl
      exact noBracket inside
    simp only [List.cons_append, List.tail_cons, List.append_assoc, List.takeWhile_append_of_pos taken,
      List.takeWhile_cons]
    simp

theorem textEntry_uncommented (noQuote : doubleQuote ∉ text ∧ singleQuote ∉ text) :
    textEntry (zstrchomp text) = textEntry (zstrchomp (uncommented text)) ↔
      isHeader (zstrchomp text) = isHeader (zstrchomp (uncommented text)) ∧
        (isHeader (zstrchomp text) = false → assignsInComment text = false) := by
  have noQuote' : doubleQuote ∉ uncommented text ∧ singleQuote ∉ uncommented text :=
    ⟨fun inside => noQuote.1 ((List.takeWhile_prefix _).subset inside),
      fun inside => noQuote.2 ((List.takeWhile_prefix _).subset inside)⟩
  have noHeader : ∀ (name : List Byte) (other : List Byte), some (Entry.header name) ≠ plainEntry other := by
    intro name other
    unfold plainEntry
    split <;> simp
  rw [textEntry_zstrchomp noQuote, textEntry_zstrchomp noQuote']
  cases before : isHeader (zstrchomp text) with
  | true =>
      cases after : isHeader (zstrchomp (uncommented text)) with
      | true => rw [if_pos rfl, if_pos rfl, header_uncommented after]; simp
      | false => simp [noHeader]
  | false =>
      cases after : isHeader (zstrchomp (uncommented text)) with
      | true => simp [(noHeader _ _).symm]
      | false => simp [plainEntry_uncommented]

end Scans

/-- Deleting the comment of a line changes no result, in any file, exactly when no
    assignment begins inside the comment. -/
theorem comments_ignored_iff (path : String) {line : List Byte} (single : newline ∉ line)
    (fits : FitsLine line)
    (noQuote : doubleQuote ∉ line ∧ singleQuote ∉ line) :
    (∀ before rest, EndsLine before → EndsHere rest →
        SameParse (parsedFile path (before ++ (line ++ rest)))
          (parsedFile path (before ++ (uncommented line ++ rest)))) ↔
      CommentIgnored line := by
  have part : uncommented line <+: line := List.takeWhile_prefix _
  have fits' : FitsLine (uncommented line) := le_trans part.length_le fits
  have text : lineText (uncommented line) = uncommented (lineText line) :=
    lineText_takeWhile (by decide) line
  have inLine : ∀ c ∈ lineText line, c ∈ line :=
    fun c inside => (List.drop_suffix _ line).subset ((List.takeWhile_prefix _).subset inside)
  rw [same_in_every_file_iff path single fits (fun inside => single (part.subset inside)) fits',
    lineEntry_eq fits, lineEntry_eq fits', text, CommentIgnored]
  exact textEntry_uncommented ⟨fun inside => noQuote.1 (inLine _ inside), fun inside => noQuote.2 (inLine _ inside)⟩

theorem comments_ignored_sample :
    SameParse (parsedFile "test.ini" (asciiString "[s]\n" ++ (asciiString "k = v ; x = y" ++ [newline])))
      (parsedFile "test.ini" (asciiString "[s]\n" ++ (uncommented (asciiString "k = v ; x = y") ++ [newline]))) :=
  (comments_ignored_iff "test.ini" (by decide) (by decide) (by decide)).mpr (by decide +kernel) _ _
    (by decide) (by decide)

/-- A line that is a comment as a whole becomes a parameter. -/
theorem comment_read_as_parameter :
    ((asciiString ";a = b").dropWhile isspace).head? = some (ascii ';') ∧
      doubleQuote ∉ asciiString ";a = b" ∧ singleQuote ∉ asciiString ";a = b" ∧
      (parsedFile "test.ini" (asciiString "[s]\n" ++ (asciiString ";a = b" ++ [newline]))).ziniFileKeys
        (asciiString "s") = [asciiString ";a"] ∧
      (parsedFile "test.ini" (asciiString "[s]\n" ++ (uncommented (asciiString ";a = b") ++ [newline]))).ziniFileKeys
        (asciiString "s") = [] := by
  decide +kernel

end Plibsys.Ini
