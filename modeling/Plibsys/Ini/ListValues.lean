import Plibsys.Ini.LineContext
import Plibsys.Support.CString

/-! # List values

`zini_file_parameter_list` collects the words of a value between braces in a buffer on the
stack, one byte at a time.  Blanks separate the words, and the first `}` ends the list.
-/

namespace Plibsys.Ini

open Support

/-- The buffer, the index of its next byte and the words so far. -/
structure ListState where
  buf : Region
  bufCnt : Nat
  ret : List (List Byte)

/-- `zstrdup (buf)` -/
def dupBuffer (buf : Region) : Exec (List Byte) := do
  let len ← buf.strlen
  pure (buf.slice 0 len)

/-- The body of the loop over the value. -/
def listStep (st : ListState) (c : Byte) : Exec ListState :=
  if isspace c then do
    let buf ← st.buf.store st.bufCnt 0
    if st.bufCnt > 0 then
      let word ← dupBuffer buf
      pure ⟨buf, 0, st.ret ++ [word]⟩
    else
      pure ⟨buf, 0, st.ret⟩
  else do
    let buf ← st.buf.store st.bufCnt c
    pure ⟨buf, st.bufCnt + 1, st.ret⟩

/-- `while (*str && *str != '}')` -/
def listLoop : List Byte → ListState → Exec ListState
  | [], st => pure st
  | c :: str, st =>
      if c = 0 ∨ c = ascii '}' then
        pure st
      else do
        let st ← listStep st c
        listLoop str st

/-- The last word, which no blank ends. -/
def listFinish (st : ListState) : Exec (List (List Byte)) :=
  if st.bufCnt > 0 then do
    let buf ← st.buf.store st.bufCnt 0
    let word ← dupBuffer buf
    pure (st.ret ++ [word])
  else
    pure st.ret

/-- The state before the loop; the buffer holds what was on the stack. -/
def listStart (stack : Nat → Byte) : Exec ListState := do
  let buf ← Region.store ⟨maxLine + 1, stack⟩ 0 0
  pure ⟨buf, 0, []⟩

/-- `zini_file_parameter_list` -/
def PIniFile.ziniFileParameterList (stack : Nat → Byte) (file : PIniFile) (sectionName key : List Byte) :
    Exec (List (List Byte)) :=
  match file.pziniFileFindParameter sectionName key with
  | none => pure []
  | some val =>
      if val.length < 3 ∨ val.head? ≠ some (ascii '{') ∨ val.getLast? ≠ some (ascii '}') then
        pure []
      else do
        let st ← listStart stack
        let st ← listLoop val.tail st
        listFinish st

/-- The text of a list up to its end. -/
def listText (str : List Byte) : List Byte := str.takeWhile fun c => c ≠ 0 ∧ c ≠ ascii '}'

/-- The words between the blanks of a text. -/
def wordsOf (text : List Byte) : List (List Byte) := (text.splitOnP isspace).filter fun word => word ≠ []

section Words

variable {word text blanks : List Byte}

@[simp] theorem wordsOf_nil : wordsOf [] = [] := rfl

theorem wordsOf_blank {c : Byte} (blank : isspace c = true) (text : List Byte) :
    wordsOf (c :: text) = wordsOf text := by
  rw [wordsOf, List.splitOnP_cons_eq_if_modifyHead, if_pos blank]
  rfl

theorem wordsOf_solid (solid : ∀ c ∈ word, isspace c = false) :
    wordsOf word = [word].filter fun word => word ≠ [] := by
  rw [wordsOf, List.splitOnP_eq_singleton solid]

/-- A blank ends the word before it. -/
theorem wordsOf_append (solid : ∀ c ∈ word, isspace c = false) {c : Byte} (blank : isspace c = true)
    (text : List Byte) : wordsOf (word ++ c :: text) = wordsOf word ++ wordsOf text := by
  rw [wordsOf_solid solid, wordsOf, List.splitOnP_append_cons_of_forall_mem solid c blank,
    ← List.singleton_append, List.filter_append]
  rfl

theorem wordsOf_blanks (blank : ∀ c ∈ blanks, isspace c) (text : List Byte) :
    wordsOf (blanks ++ text) = wordsOf text := by
  induction blanks with
  | nil => rfl
  | cons c blanks ih =>
      rw [List.cons_append, wordsOf_blank (blank c List.mem_cons_self),
        ih fun c inside => blank c (List.mem_cons_of_mem _ inside)]

end Words

/-- The buffer holds the beginning of a word. -/
structure Holds (st : ListState) (word : List Byte) : Prop where
  size : st.buf.size = maxLine + 1
  counted : st.bufCnt = word.length
  solid : ∀ c ∈ word, isspace c = false
  noNul : 0 ∉ word
  bytes : ∀ a, a < word.length → st.buf.byte a = word.getD a 0

namespace Holds

variable {st : ListState} {word : List Byte} {c : Byte}

/-- With a NUL at the index the word is a string. -/
theorem startsWith (held : Holds st word) (room : word.length ≤ maxLine) :
    StartsWith (st.buf.patch st.bufCnt [0]) word where
  noNul := held.noNul
  fits := by
    rw [Region.size_patch, held.size]
    omega
  bytes a inside := by
    rw [held.counted]
    rcases Nat.lt_or_eq_of_le inside with below | rfl
    · rw [Region.byte_patch_outside (Or.inl below), held.bytes a below]
    · have written : (st.buf.patch word.length [0]).byte (word.length + 0) = 0 :=
        Region.byte_patch_inside (by simp)
      rw [List.getD_eq_default _ _ (Nat.le_refl _)]
      exact written

theorem dupBuffer (held : Holds st word) (room : word.length ≤ maxLine) :
    Ini.dupBuffer (st.buf.patch st.bufCnt [0]) = .ok word := by
  have starts := held.startsWith room
  have copied := starts.slice
  have front : (st.buf.patch st.bufCnt [0]).slice 0 word.length =
      ((st.buf.patch st.bufCnt [0]).slice 0 (word.length + 1)).take word.length := by
    simp [Region.slice, ← List.map_take, List.take_range]
  rw [Ini.dupBuffer, starts.strlen, Exec.ok_bind, front, copied, List.take_left]
  rfl

theorem empty {buf : Region} (size : buf.size = maxLine + 1) (ret : List (List Byte)) : Holds ⟨buf, 0, ret⟩ [] where
  size := size
  counted := rfl
  solid := by simp
  noNul := by simp
  bytes a below := absurd below (Nat.not_lt_zero a)

/-- A character that is not blank is added to the word. -/
theorem step_solid (held : Holds st word) (solid : isspace c = false) (nonzero : c ≠ 0)
    (room : word.length ≤ maxLine) :
    ∃ st', listStep st c = .ok st' ∧ st'.ret = st.ret ∧ Holds st' (word ++ [c]) := by
  refine ⟨⟨st.buf.patch st.bufCnt [c], st.bufCnt + 1, st.ret⟩, ?_, rfl, ?_⟩
  · have inside : st.bufCnt < st.buf.size := by
      rw [held.counted, held.size]
      omega
    rw [listStep, solid, if_neg Bool.false_ne_true, Region.store_ok inside]
    rfl
  · constructor
    case size => exact held.size
    case counted => simp [held.counted]
    case solid =>
      intro d inside
      rcases List.mem_append.mp inside with inWord | isLast
      · exact held.solid d inWord
      · rw [List.mem_singleton.mp isLast, solid]
    case noNul =>
      intro inside
      rcases List.mem_append.mp inside with inWord | isLast
      · exact held.noNul inWord
      · exact nonzero (List.mem_singleton.mp isLast).symm
    case bytes =>
      intro a below
      rw [List.length_append, List.length_singleton] at below
      change (st.buf.patch st.bufCnt [c]).byte a = _
      rw [held.counted]
      rcases Nat.lt_or_eq_of_le (Nat.le_of_lt_succ below) with before | rfl
      · rw [Region.byte_patch_outside (Or.inl before), List.getD_append _ _ _ _ before, held.bytes a before]
      · have written : (st.buf.patch word.length [c]).byte (word.length + 0) = c :=
          Region.byte_patch_inside (by simp)
        rw [List.getD_append_right _ _ _ _ (Nat.le_refl _), Nat.sub_self]
        exact written

/-- A blank moves the word to the list. -/
theorem step_blank (held : Holds st word) (blank : isspace c = true) (room : word.length ≤ maxLine) :
    ∃ st', listStep st c = .ok st' ∧ st'.ret = st.ret ++ wordsOf word ∧ Holds st' [] := by
  have inside : st.bufCnt < st.buf.size := by
    rw [held.counted, held.size]
    omega
  rw [listStep, if_pos blank, Region.store_ok inside, Exec.ok_bind, wordsOf_solid held.solid]
  by_cases noWord : word = []
  · subst noWord
    rw [if_neg (by rw [held.counted]; simp)]
    exact ⟨_, rfl, by simp, empty (by rw [Region.size_patch, held.size]) _⟩
  · rw [if_pos (by rw [held.counted]; exact List.length_pos_iff.mpr noWord), held.dupBuffer room]
    exact ⟨_, rfl, by simp [noWord], empty (by rw [Region.size_patch, held.size]) _⟩

/-- The loop brings the words of the text; the index is at most the length of the text. -/
theorem loop (held : Holds st word) (text : List Byte) (room : word.length + text.length ≤ maxLine) :
    ∃ st' word', listLoop text st = .ok st' ∧ Holds st' word' ∧ word'.length ≤ word.length + text.length ∧
      st'.ret ++ wordsOf word' = st.ret ++ wordsOf (word ++ listText text) := by
  induction text generalizing st word with
  | nil => exact ⟨st, word, rfl, held, Nat.le_refl _, by simp [listText]⟩
  | cons c text ih =>
      rw [List.length_cons] at room
      rw [listLoop]
      by_cases stops : c = 0 ∨ c = ascii '}'
      · rw [if_pos stops]
        refine ⟨st, word, rfl, held, by omega, ?_⟩
        have noText : listText (c :: text) = [] := by
          rw [listText, List.takeWhile_cons, if_neg]
          simpa [← not_or] using stops
        rw [noText, List.append_nil]
      · rw [if_neg stops]
        rw [not_or] at stops
        have goesOn : listText (c :: text) = c :: listText text := by
          rw [listText, List.takeWhile_cons, if_pos (decide_eq_true stops)]
          rfl
        rw [goesOn]
        cases blank : isspace c with
        | false =>
            obtain ⟨st', stepped, sameRet, held'⟩ := held.step_solid blank stops.1 (by omega)
            obtain ⟨st'', word', looped, held'', short, collected⟩ :=
              ih held' (by rw [List.length_append, List.length_singleton]; omega)
            rw [List.length_append, List.length_singleton] at short
            rw [List.append_assoc, List.singleton_append, sameRet] at collected
            rw [stepped]
            exact ⟨st'', word', looped, held'', by rw [List.length_cons]; omega, collected⟩
        | true =>
            obtain ⟨st', stepped, moved, held'⟩ := held.step_blank blank (by omega)
            obtain ⟨st'', word', looped, held'', short, collected⟩ :=
              ih held' (by rw [List.length_nil]; omega)
            rw [List.length_nil] at short
            rw [List.nil_append, moved] at collected
            rw [stepped, wordsOf_append held.solid blank, ← List.append_assoc]
            exact ⟨st'', word', looped, held'', by rw [List.length_cons]; omega, collected⟩

theorem finish (held : Holds st word) (room : word.length ≤ maxLine) :
    listFinish st = .ok (st.ret ++ wordsOf word) := by
  rw [listFinish, wordsOf_solid held.solid]
  by_cases noWord : word = []
  · subst noWord
    rw [if_neg (by rw [held.counted]; simp)]
    simp
  · have inside : st.bufCnt < st.buf.size := by
      rw [held.counted, held.size]
      omega
    rw [if_pos (by rw [held.counted]; exact List.length_pos_iff.mpr noWord), Region.store_ok inside, Exec.ok_bind,
      held.dupBuffer room]
    simp [noWord]

end Holds

section Stored

variable {st : ParseState} {kept : PIniParameter → Prop} {value : List Byte}

/-- Every parameter that was read has a property. -/
def ParseState.Keeps (kept : PIniParameter → Prop) (st : ParseState) : Prop :=
  (∀ sec ∈ st.sections, ∀ param ∈ sec.keys, kept param) ∧
    ∀ sec ∈ st.openSection, ∀ param ∈ sec.keys, kept param

theorem keeps_closed (keeps : st.Keeps kept) : ∀ sec ∈ st.closed, ∀ param ∈ sec.keys, kept param := by
  unfold ParseState.closed
  cases opened : st.openSection with
  | none => exact keeps.1
  | some sec =>
      dsimp only
      split
      · exact keeps.1
      · intro other inside
        rcases List.mem_cons.mp inside with rfl | inside
        · exact keeps.2 other opened
        · exact keeps.1 other inside

theorem keeps_finished (keeps : st.Keeps kept) : ∀ sec ∈ st.finished, ∀ param ∈ sec.keys, kept param := by
  unfold ParseState.finished
  cases opened : st.openSection with
  | none => exact keeps.1
  | some sec =>
      dsimp only
      split
      · exact keeps.1
      · intro other inside
        rcases List.mem_append.mp inside with inside | isLast
        · exact keeps.1 other inside
        · exact keeps.2 other (opened.trans (by rw [List.mem_singleton.mp isLast]))

theorem keeps_step (keeps : st.Keeps kept) {e : Entry} (good : ∀ key value, e = .parameter key value → kept ⟨key, value⟩) :
    (st.step e).Keeps kept := by
  cases e with
  | header name =>
      refine ⟨keeps_closed keeps, ?_⟩
      rintro sec opened param inside
      obtain rfl : ⟨name, []⟩ = sec := Option.some_inj.mp opened
      cases inside
  | parameter key value =>
      unfold ParseState.step
      cases opened : st.openSection with
      | none => exact keeps
      | some sec =>
          refine ⟨keeps.1, ?_⟩
          rintro other isOpen param inside
          obtain rfl := Option.some_inj.mp isOpen
          rcases List.mem_cons.mp inside with rfl | inside
          · exact good key value rfl
          · exact keeps.2 sec opened param inside

theorem keeps_entries {es : List Entry} (keeps : st.Keeps kept)
    (good : ∀ key value, .parameter key value ∈ es → kept ⟨key, value⟩) : (es.foldl ParseState.step st).Keeps kept := by
  induction es generalizing st with
  | nil => exact keeps
  | cons e es ih =>
      apply ih
      · exact keeps_step keeps fun key value isParameter => good key value (isParameter ▸ List.mem_cons_self)
      · exact fun key value inside => good key value (List.mem_cons_of_mem _ inside)

theorem length_unquoteEmpty_le (value : List Byte) : (unquoteEmpty value).length ≤ value.length := by
  unfold unquoteEmpty
  split
  · exact Nat.zero_le _
  · exact Nat.le_refl _

/-- Every line puts its value through a buffer of limited length. -/
theorem lineEntry_short {line key value : List Byte} (read : lineEntry line = some (.parameter key value)) :
    value.length ≤ maxLine := by
  change textEntry _ = _ at read
  unfold textEntry at read
  split at read
  · cases read
  · split at read
    · next scanned _ =>
        have cut : ∀ str : List Byte, (cutLine str).length ≤ maxLine := fun str => List.length_take_le _ _
        cases read
        exact (length_unquoteEmpty_le _).trans (cut _)
    · cases read

/-- A stored value is at most as long as a line. -/
theorem stored_short {path : String} {content sectionName key : List Byte}
    (found : (parsedFile path content).pziniFileFindParameter sectionName key = some value) :
    value.length ≤ maxLine := by
  have good : ∀ key value, .parameter key value ∈ entries content → value.length ≤ maxLine := by
    intro key value inside
    obtain ⟨line, -, read⟩ := List.mem_filterMap.mp inside
    exact lineEntry_short read
  have keeps : (parseContent content).Keeps fun param => param.value.length ≤ maxLine :=
    keeps_entries ⟨by simp, by simp⟩ good
  unfold PIniFile.pziniFileFindParameter at found
  split at found
  · cases found
  · split at found
    · cases found
    · next sec isFound =>
        obtain ⟨param, isParam, rfl⟩ := Option.map_eq_some_iff.mp found
        exact keeps_finished keeps sec (List.mem_of_find?_eq_some isFound) param (List.mem_of_find?_eq_some isParam)

end Stored

/-- Printable characters that are neither blank nor end a list or a value. -/
@[mk_iff]
structure ListWord (word : List Byte) : Prop where
  nonempty : word ≠ []
  printable : ∀ c ∈ word, 0x21 ≤ c ∧ c ≤ 0x7E
  noBrace : ascii '}' ∉ word
  noComment : ascii ';' ∉ word ∧ ascii '#' ∉ word

/-- Spaces and tabs. -/
def BlankRun (s : List Byte) : Prop := ∀ c ∈ s, c = ascii ' ' ∨ c = ascii '\t'

/-- Words, each with the blanks before it, and the blanks after the last word. -/
@[mk_iff]
structure ListItems (items : List (List Byte × List Byte)) (trail : List Byte) : Prop where
  nonempty : items ≠ []
  words : ∀ item ∈ items, ListWord item.2
  blanks : ∀ item ∈ items, BlankRun item.1
  separated : ∀ item ∈ items.tail, item.1 ≠ []
  trailing : BlankRun trail

instance : DecidablePred ListWord := fun word => decidable_of_iff _ (listWord_iff word).symm

instance : DecidablePred BlankRun := fun s => inferInstanceAs (Decidable (∀ c ∈ s, _ ∨ _))

instance : ∀ items trail, Decidable (ListItems items trail) :=
  fun items trail => decidable_of_iff _ (listItems_iff items trail).symm

/-- The text between the braces. -/
def listBody (items : List (List Byte × List Byte)) (trail : List Byte) : List Byte :=
  (items.flatMap fun item => item.1 ++ item.2) ++ trail

def listValue (items : List (List Byte × List Byte)) (trail : List Byte) : List Byte :=
  ascii '{' :: (listBody items trail ++ [ascii '}'])

/-- The line of a parameter with a list. -/
def listLine (key : List Byte) (items : List (List Byte × List Byte)) (trail : List Byte) : List Byte :=
  key ++ asciiString " = " ++ listValue items trail

section Lists

variable {key word s trail : List Byte} {items : List (List Byte × List Byte)} {c : Byte}

theorem ListWord.solid (valid : ListWord word) : ∀ c ∈ word, isspace c = false := by
  intro c inside
  have printable := valid.printable c inside
  apply isspace_false ⟨by bv_omega, printable.2⟩
  rintro rfl
  revert printable
  decide

theorem BlankRun.isspace (blank : BlankRun s) : ∀ c ∈ s, Support.isspace c := by
  intro c inside
  rcases blank c inside with rfl | rfl <;> decide

theorem listBody_cons (item : List Byte × List Byte) (items : List (List Byte × List Byte)) (trail : List Byte) :
    listBody (item :: items) trail = item.1 ++ (item.2 ++ listBody items trail) := by
  simp [listBody]

/-- What follows a word is nothing or begins with a blank. -/
theorem listBody_rest (blanks : ∀ item ∈ items, BlankRun item.1) (separated : ∀ item ∈ items, item.1 ≠ [])
    (trailing : BlankRun trail) :
    listBody items trail = [] ∨ ∃ c rest, isspace c = true ∧ listBody items trail = c :: rest := by
  cases items with
  | nil =>
      cases trail with
      | nil => exact Or.inl rfl
      | cons c rest => exact Or.inr ⟨c, rest, trailing.isspace c List.mem_cons_self, rfl⟩
  | cons item items =>
      right
      have nonempty := separated item List.mem_cons_self
      refine ⟨item.1.head nonempty, item.1.tail ++ (item.2 ++ listBody items trail), ?_, ?_⟩
      · exact (blanks item List.mem_cons_self).isspace _ (List.head_mem nonempty)
      · rw [listBody_cons, ← List.cons_append, List.cons_head_tail]

/-- The words of a list, whatever the blanks. -/
theorem wordsOf_listBody (words : ∀ item ∈ items, ListWord item.2) (blanks : ∀ item ∈ items, BlankRun item.1)
    (separated : ∀ item ∈ items.tail, item.1 ≠ []) (trailing : BlankRun trail) :
    wordsOf (listBody items trail) = items.map Prod.snd := by
  induction items with
  | nil =>
      have blankOnly := wordsOf_blanks trailing.isspace []
      rwa [List.append_nil] at blankOnly
  | cons item items ih =>
      have first := words item List.mem_cons_self
      have blanks' := fun other inside => blanks other (List.mem_cons_of_mem item inside)
      have rest := ih (fun other inside => words other (List.mem_cons_of_mem item inside)) blanks'
        fun other inside => separated other (List.mem_of_mem_tail inside)
      have alone : wordsOf item.2 = [item.2] := by
        rw [wordsOf_solid first.solid]
        simp [first.nonempty]
      rw [listBody_cons, wordsOf_blanks (blanks item List.mem_cons_self).isspace, List.map_cons, ← rest]
      rcases listBody_rest blanks' separated trailing with nothing | ⟨c, later, blank, found⟩
      · rw [nothing, List.append_nil, alone, wordsOf_nil]
      · rw [found, wordsOf_append first.solid blank, wordsOf_blank blank, alone, List.singleton_append]

/-- A character between the braces. -/
def BodyByte (c : Byte) : Prop :=
  c ≠ 0 ∧ c ≠ newline ∧ c ≠ ascii '}' ∧ c ≠ ascii ';' ∧ c ≠ ascii '#'

theorem BlankRun.body (blank : BlankRun s) : ∀ c ∈ s, BodyByte c := by
  intro c inside
  rcases blank c inside with rfl | rfl <;> exact ⟨by decide, by decide, by decide, by decide, by decide⟩

theorem ListWord.body (valid : ListWord word) : ∀ c ∈ word, BodyByte c := by
  intro c inside
  have printable := valid.printable c inside
  refine ⟨by bv_omega, ?_, fun same => valid.noBrace (same ▸ inside), fun same => valid.noComment.1 (same ▸ inside),
    fun same => valid.noComment.2 (same ▸ inside)⟩
  rintro rfl
  revert printable
  decide

theorem ListItems.body (valid : ListItems items trail) : ∀ c ∈ listBody items trail, BodyByte c := by
  intro c inside
  rcases List.mem_append.mp inside with inItems | inTrail
  · obtain ⟨item, member, inside⟩ := List.mem_flatMap.mp inItems
    rcases List.mem_append.mp inside with isBlank | inWord
    · exact (valid.blanks item member).body c isBlank
    · exact (valid.words item member).body c inWord
  · exact valid.trailing.body c inTrail

theorem scanSection_list (keyText : KeyText key) : scanSection (listLine key items trail) = none := by
  rw [listLine, List.append_assoc]
  exact scanSection_key keyText _

theorem scanParameter_list (keyText : KeyText key) (valid : ListItems items trail) :
    scanParameter (listLine key items trail) = some (key ++ [ascii ' '], listValue items trail) := by
  have brace : isspace (ascii '{') = false := by decide
  have unquoted : ∀ quote, ascii '{' ≠ quote → scanPair (quotedFormat quote) (listLine key items trail) = none := by
    intro quote other
    rw [scanPair, quotedFormat, listLine, listValue, sscanf_assignment keyText brace, sscanf_mismatch other]
  have field : ∀ c ∈ listValue items trail, c ∉ [ascii ';', ascii '#'] := by
    intro c inside
    simp only [listValue, List.mem_cons, List.mem_append, List.not_mem_nil, or_false] at inside
    rcases inside with rfl | inBody | rfl
    · decide
    · simp [(valid.body c inBody).2.2.2]
    · decide
  have nonempty : listValue items trail ≠ [] := List.cons_ne_nil _ _
  have plain : scanPair plainFormat (listLine key items trail) = some (key ++ [ascii ' '], listValue items trail) := by
    rw [scanPair, plainFormat, listLine, listValue, sscanf_assignment keyText brace, ← listValue,
      sscanf_rest nonempty field, sscanf_nil]
  rw [scanParameter, unquoted doubleQuote (by decide), unquoted singleQuote (by decide), plain]
  rfl

theorem chomp_listValue (items : List (List Byte × List Byte)) (trail : List Byte) :
    zstrchomp (listValue items trail) = listValue items trail := by
  have nonempty : listValue items trail ≠ [] := List.cons_ne_nil _ _
  have last : (listValue items trail).getLast nonempty = ascii '}' := by simp [listValue]
  have first : (listValue items trail).head nonempty = ascii '{' := rfl
  exact zstrchomp_eq_self nonempty (by rw [first]; decide) (by rw [last]; decide)

theorem lineText_list (keyText : KeyText key) (valid : ListItems items trail) :
    lineText (listLine key items trail) = listLine key items trail := by
  have first := keyText.printable _ (List.head_mem keyText.nonempty)
  have noMark : bomShift (listLine key items trail) = 0 := by
    rw [listLine, ← List.cons_head_tail keyText.nonempty, List.cons_append, List.cons_append]
    exact bomShift_printable first
  rw [lineText, noMark, List.drop_zero, cstr_eq_self]
  intro c inside
  simp only [listLine, listValue, List.mem_append, List.mem_cons, List.not_mem_nil, or_false] at inside
  rcases inside with (inKey | between) | rfl | inBody | rfl
  · have printable := keyText.printable c inKey
    bv_omega
  · revert c
    decide
  · decide
  · exact (valid.body c inBody).1
  · decide

theorem chomp_listLine (keyText : KeyText key) (items : List (List Byte × List Byte)) (trail : List Byte) :
    zstrchomp (listLine key items trail) = listLine key items trail := by
  have nonempty : listLine key items trail ≠ [] := by simp [listLine, keyText.nonempty]
  have head : (listLine key items trail).head nonempty = key.head keyText.nonempty := by
    simp [listLine, List.head_append_of_ne_nil keyText.nonempty]
  have last : (listLine key items trail).getLast nonempty = ascii '}' := by simp [listLine, listValue]
  exact zstrchomp_eq_self nonempty (by rw [head]; exact keyText.head_solid) (by rw [last]; decide)

/-- The line of a list assigns the text with its braces. -/
theorem lineEntry_list (keyText : KeyText key) (valid : ListItems items trail) (fits : FitsLine (listLine key items trail)) :
    lineEntry (listLine key items trail) = some (.parameter key (listValue items trail)) := by
  unfold FitsLine at fits
  have short : key.length ≤ maxLine ∧ (listValue items trail).length ≤ maxLine := by
    simp only [listLine, List.length_append] at fits
    unfold maxLine
    omega
  have lineShort : (listLine key items trail).length ≤ maxLine := fits.trans (by decide)
  have valueKept : unquoteEmpty (cutLine (zstrchomp (listValue items trail))) = listValue items trail := by
    rw [chomp_listValue, cutLine, List.take_of_length_le short.2, unquoteEmpty, if_neg]
    rw [listValue]
    rintro (doubled | doubled)
    · exact absurd (List.cons.inj doubled).1 (by decide)
    · exact absurd (List.cons.inj doubled).1 (by decide)
  rw [lineEntry_eq_of_le lineShort, lineText_list keyText valid, chomp_listLine keyText, textEntry,
    scanSection_list keyText, scanParameter_list keyText valid]
  simp only [keyText.keptBeforeBlank short.1, valueKept]

/-- A list has a word, so that the parser of lists does not give it up. -/
theorem ListItems.accepted (valid : ListItems items trail) :
    ¬ ((listValue items trail).length < 3 ∨ (listValue items trail).head? ≠ some (ascii '{') ∨
      (listValue items trail).getLast? ≠ some (ascii '}')) := by
  have long : 0 < (listBody items trail).length := by
    have wordLong := List.length_pos_iff.mpr (valid.words _ (List.head_mem valid.nonempty)).nonempty
    rw [← List.cons_head_tail valid.nonempty, listBody_cons, List.length_append, List.length_append]
    omega
  have total : (listValue items trail).length = (listBody items trail).length + 2 := by simp [listValue]
  have first : (listValue items trail).head? = some (ascii '{') := rfl
  have last : (listValue items trail).getLast? = some (ascii '}') := by
    rw [listValue, ← List.cons_append, List.getLast?_concat]
  rintro (short | noBrace | noBrace)
  · omega
  · exact noBrace first
  · exact noBrace last

theorem listText_body (valid : ListItems items trail) :
    listText (listBody items trail ++ [ascii '}']) = listBody items trail := by
  have inner : ∀ c ∈ listBody items trail, decide (c ≠ 0 ∧ c ≠ ascii '}') = true := by
    intro c inside
    have body := valid.body c inside
    exact decide_eq_true ⟨body.1, body.2.2.1⟩
  rw [listText, List.takeWhile_append_of_pos inner]
  simp

end Lists

section Results

variable {file : PIniFile} {sectionName key value : List Byte}

theorem listStart_holds (stack : Nat → Byte) : ∃ st, listStart stack = .ok st ∧ st.ret = [] ∧ Holds st [] :=
  ⟨_, rfl, rfl, Holds.empty rfl []⟩

/-- A value that fits the buffer brings its words. -/
theorem parameterList_found (stack : Nat → Byte) (short : value.length ≤ maxLine)
    (found : file.pziniFileFindParameter sectionName key = some value) :
    file.ziniFileParameterList stack sectionName key =
      .ok (if value.length < 3 ∨ value.head? ≠ some (ascii '{') ∨ value.getLast? ≠ some (ascii '}') then []
        else wordsOf (listText value.tail)) := by
  rw [PIniFile.ziniFileParameterList, found]
  dsimp only
  split
  · rfl
  · have tailShort : value.tail.length ≤ maxLine := by
      rw [List.length_tail]
      omega
    obtain ⟨st, started, noWords, held⟩ := listStart_holds stack
    obtain ⟨st', word, looped, held', wordShort, collected⟩ :=
      held.loop value.tail (by rw [List.length_nil]; omega)
    rw [List.length_nil] at wordShort
    rw [noWords, List.nil_append, List.nil_append] at collected
    rw [started, Exec.ok_bind, looped, Exec.ok_bind, held'.finish (by omega), collected]

/-- A list between braces is read as its words, whatever blanks separate them.  For no
    stored value does the loop move the index past the end of the buffer. -/
theorem list_values (path : String) (stack : Nat → Byte) :
    (∀ {key trail before rest : List Byte} {items : List (List Byte × List Byte)} {front : List Block} {b : Block},
      KeyText key → ListItems items trail → FitsLine (listLine key items trail) → EndsLine before → EndsHere rest →
      blocks (entries before) = front ++ [b] →
      (∀ other ∈ front ++ blocks (entries rest.tail), other.name ≠ b.name) →
      key ∉ (leading (entries rest.tail)).map PIniParameter.name →
      (parsedFile path (before ++ (listLine key items trail ++ rest))).ziniFileParameterList stack b.name key =
        .ok (items.map Prod.snd)) ∧
    ∀ content sectionName key value,
      (parsedFile path content).pziniFileFindParameter sectionName key = some value →
      (∃ words, (parsedFile path content).ziniFileParameterList stack sectionName key = .ok words) ∧
        ∀ text, text <+: value.tail →
          ∃ st, (listStart stack >>= listLoop text) = .ok st ∧ st.bufCnt ≤ maxLine := by
  constructor
  · intro key trail before rest items front b keyText valid fits complete ends inside alone last
    have single : newline ∉ listLine key items trail := by
      intro isThere
      simp only [listLine, listValue, List.mem_append, List.mem_cons, List.not_mem_nil, or_false] at isThere
      rcases isThere with (inKey | between) | isBrace | inBody | isBrace
      · exact keyText.no_newline inKey
      · exact absurd between (by decide)
      · exact absurd isBrace (by decide)
      · exact (valid.body _ inBody).2.1 rfl
      · exact absurd isBrace (by decide)
    have found := find_assigned path single fits (lineEntry_list keyText valid fits) complete ends inside alone last
    rw [parameterList_found stack (stored_short found) found, if_neg valid.accepted, listValue, List.tail_cons,
      listText_body valid, wordsOf_listBody valid.words valid.blanks valid.separated valid.trailing]
  · intro content sectionName key value found
    have short := stored_short found
    refine ⟨⟨_, parameterList_found stack short found⟩, ?_⟩
    intro text isPrefix
    have textShort := isPrefix.length_le
    rw [List.length_tail] at textShort
    obtain ⟨st, started, -, held⟩ := listStart_holds stack
    obtain ⟨st', word, looped, held', wordShort, -⟩ := held.loop text (by rw [List.length_nil]; omega)
    refine ⟨st', by rw [started, Exec.ok_bind, looped], ?_⟩
    rw [held'.counted]
    rw [List.length_nil] at wordShort
    omega

theorem list_values_three :
    (parsedFile "test.ini" (asciiString "[s]\n" ++ (listLine (asciiString "k")
        [(asciiString "", asciiString "a=1"), (asciiString " \t", asciiString "\"b\""), (asciiString "\t", asciiString "\x7bc")]
        (asciiString " ") ++ []))).ziniFileParameterList (fun _ => 0xCC) (asciiString "s") (asciiString "k") =
      .ok [asciiString "a=1", asciiString "\"b\"", asciiString "\x7bc"] := by
  have header : blocks (entries (asciiString "[s]\n")) = [] ++ [⟨asciiString "s", []⟩] := by decide +kernel
  exact (list_values "test.ini" fun _ => 0xCC).1 (by decide +kernel) (by decide +kernel) (by decide +kernel)
    (by decide) (.inl rfl) header (fun other inside => absurd inside List.not_mem_nil) List.not_mem_nil

end Results

end Plibsys.Ini
