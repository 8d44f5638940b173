import Plibsys.Ini.PIniFile

/-! # The sections of a file

A file is a sequence of blocks, each a header with the parameters up to the next header.
`zini_file_parse` keeps the blocks that have parameters: in reverse order those that a
later header closes, and at the end of the list the last one.
-/

namespace Plibsys.Ini

open Support

/-- A header and its parameters in file order. -/
structure Block where
  name : List Byte
  params : List PIniParameter
  deriving Repr, DecidableEq

namespace Block

/-- The section made of a block. -/
def toSection (b : Block) : PIniSection := ⟨b.name, b.params.reverse⟩

def isFilled (b : Block) : Bool := b.params ≠ []

/-- The value of the last parameter with the key. -/
def lastValue (b : Block) (key : List Byte) : Option (List Byte) :=
  (b.params.reverse.find? fun param => param.name = key).map PIniParameter.value

end Block

/-- The parameters before the first header. -/
def leading : List Entry → List PIniParameter
  | [] => []
  | .parameter key value :: es => ⟨key, value⟩ :: leading es
  | .header _ :: _ => []

/-- The blocks of a file; parameters before the first header belong to none. -/
def blocks : List Entry → List Block
  | [] => []
  | .parameter _ _ :: es => blocks es
  | .header name :: es => ⟨name, leading es⟩ :: blocks es

/-- What the lines of a block say. -/
def blockEntries (b : Block) : List Entry :=
  .header b.name :: b.params.map fun param => .parameter param.name param.value

/-- The state after reading some blocks. -/
def stateOf (sections : List PIniSection) (bs : List Block) : ParseState :=
  ⟨((bs.dropLast.filter Block.isFilled).map Block.toSection).reverse ++ sections,
    bs.getLast?.map Block.toSection⟩

/-- The blocks that become sections, in the order in which a lookup tries them. -/
def candidates (bs : List Block) : List Block :=
  (bs.dropLast.filter Block.isFilled).reverse ++ (bs.getLast?.filter Block.isFilled).toList

/-- The sections of a file that consists of some blocks. -/
def sectionsOf (bs : List Block) : List PIniSection := (candidates bs).map Block.toSection

/-- The block whose section answers for a name. -/
def answering (bs : List Block) (name : List Byte) : Option Block :=
  (candidates bs).find? fun b => b.name = name

section Parsing

variable {es fs : List Entry} {bs : List Block} {b : Block}

theorem stateOf_cons (sections : List PIniSection) (b c : Block) (bs : List Block) :
    stateOf sections (b :: c :: bs) =
      stateOf (if b.isFilled then b.toSection :: sections else sections) (c :: bs) := by
  unfold stateOf
  rw [List.dropLast_cons_cons, List.filter_cons, List.getLast?_cons_cons]
  split <;> simp

theorem run_open (es : List Entry) (sections : List PIniSection) (sec : PIniSection) :
    es.foldl ParseState.step ⟨sections, some sec⟩ =
      stateOf sections (⟨sec.name, sec.keys.reverse ++ leading es⟩ :: blocks es) := by
  induction es generalizing sections sec with
  | nil => simp [stateOf, blocks, leading, Block.toSection]
  | cons e es ih =>
      cases e with
      | parameter key value =>
          rw [List.foldl_cons, ParseState.step, ih]
          simp [blocks, leading]
      | header name =>
          rw [List.foldl_cons, ParseState.step, ih]
          simp only [blocks, leading, List.reverse_nil, List.nil_append, List.append_nil, stateOf_cons]
          congr 1
          by_cases empty : sec.keys = []
          · simp [ParseState.closed, Block.isFilled, empty]
          · simp [ParseState.closed, Block.isFilled, Block.toSection, empty]

/-- The state of the parser after the lines of a file. -/
theorem run_blocks (es : List Entry) : es.foldl ParseState.step ⟨[], none⟩ = stateOf [] (blocks es) := by
  induction es with
  | nil => rfl
  | cons e es ih =>
      cases e with
      | parameter key value =>
          rw [List.foldl_cons, ParseState.step, blocks]
          exact ih
      | header name =>
          rw [List.foldl_cons, ParseState.step, ParseState.closed, run_open, blocks]
          rfl

theorem finished_stateOf (bs : List Block) : (stateOf [] bs).finished = sectionsOf bs := by
  unfold stateOf ParseState.finished sectionsOf candidates
  cases bs.getLast? with
  | none => simp
  | some b =>
      by_cases empty : b.params = []
      · simp [Option.filter_some, Block.isFilled, Block.toSection, empty]
      · simp [Option.filter_some, Block.isFilled, Block.toSection, empty]

/-- The sections that `zini_file_parse` makes of a file. -/
theorem parse_sections (content : List Byte) (path : String) :
    ziniFileParse (.ok content) (ziniFileNew path) =
      (.ok (), ⟨path, sectionsOf (blocks (entries content)), true⟩) := by
  rw [ziniFileParse, ziniFileNew, if_neg Bool.false_ne_true, parseContent, run_blocks, finished_stateOf]

theorem leading_append_header (es fs : List Entry) (name : List Byte) :
    leading (es ++ .header name :: fs) = leading es := by
  induction es with
  | nil => rfl
  | cons e es ih =>
      cases e with
      | parameter key value => rw [List.cons_append, leading, leading, ih]
      | header other => rfl

/-- A header starts a new block. -/
theorem blocks_append_header (es fs : List Entry) (name : List Byte) :
    blocks (es ++ .header name :: fs) = blocks es ++ blocks (.header name :: fs) := by
  induction es with
  | nil => rfl
  | cons e es ih =>
      cases e with
      | parameter key value => simp only [List.cons_append, blocks, ih]
      | header other => simp only [List.cons_append, blocks, ih, leading_append_header]

theorem leading_append (es fs : List Entry) :
    leading (es ++ fs) = if blocks es = [] then leading es ++ leading fs else leading es := by
  induction es with
  | nil => rfl
  | cons e es ih =>
      cases e with
      | parameter key value =>
          rw [List.cons_append, leading, leading, blocks, ih]
          split <;> rfl
      | header name => simp [leading, blocks]

/-- What is read after a header belongs to its block up to the next header. -/
theorem blocks_append {front : List Block} (read : blocks es = front ++ [b]) (fs : List Entry) :
    blocks (es ++ fs) = front ++ ⟨b.name, b.params ++ leading fs⟩ :: blocks fs := by
  induction es generalizing front with
  | nil => simp [blocks] at read
  | cons e es ih =>
      cases e with
      | parameter key value => exact ih read
      | header name =>
          rw [blocks] at read
          rw [List.cons_append, blocks, leading_append]
          cases front with
          | nil =>
              obtain ⟨rfl, none⟩ : (⟨name, leading es⟩ : Block) = b ∧ blocks es = [] := by simpa using read
              have rest : blocks (es ++ fs) = blocks fs := by
                clear ih read
                induction es with
                | nil => rfl
                | cons e es ih =>
                    cases e with
                    | parameter key value => exact ih none
                    | header other => simp [blocks] at none
              rw [if_pos none, rest]
              rfl
          | cons c front =>
              obtain ⟨rfl, later⟩ : (⟨name, leading es⟩ : Block) = c ∧ blocks es = front ++ [b] := by
                simpa using read
              rw [if_neg (by simp [later]), ih later]
              rfl

theorem blocks_append_block (es fs : List Entry) (b : Block) :
    blocks (es ++ (blockEntries b ++ fs)) = blocks es ++ blocks (blockEntries b ++ fs) :=
  blocks_append_header es _ b.name

theorem blocks_blockEntries (b : Block) : blocks (blockEntries b) = [b] := by
  have parts : ∀ params : List PIniParameter,
      blocks (params.map fun param => .parameter param.name param.value) = [] ∧
        leading (params.map fun param => .parameter param.name param.value) = params := by
    intro params
    induction params with
    | nil => exact ⟨rfl, rfl⟩
    | cons param params ih => simp [blocks, leading, ih.1, ih.2]
  rw [blockEntries, blocks, (parts b.params).1, (parts b.params).2]

/-- Written one after the other, blocks are read as they are. -/
theorem blocks_flatMap (bs : List Block) : blocks (bs.flatMap blockEntries) = bs := by
  induction bs with
  | nil => rfl
  | cons b bs ih =>
      cases bs with
      | nil => rw [List.flatMap_cons, List.flatMap_nil, List.append_nil, blocks_blockEntries]
      | cons c bs =>
          rw [List.flatMap_cons] at ih
          rw [List.flatMap_cons, List.flatMap_cons, blocks_append_block, blocks_blockEntries, ih]
          rfl

end Parsing

section Queries

variable {file : PIniFile} {name key : List Byte}

theorem candidates_concat (bs : List Block) (b : Block) :
    candidates (bs ++ [b]) = (bs.filter Block.isFilled).reverse ++ if b.isFilled then [b] else [] := by
  unfold candidates
  rw [List.dropLast_concat, List.getLast?_concat, Option.filter_some]
  split <;> rfl

theorem candidates_perm (bs : List Block) : (candidates bs).Perm (bs.filter Block.isFilled) := by
  rcases List.eq_nil_or_concat' bs with rfl | ⟨front, last, rfl⟩
  · exact .refl _
  · rw [candidates_concat, List.filter_append]
    apply List.Perm.append (List.reverse_perm _)
    cases filled : last.isFilled <;> simp [filled]

theorem mem_candidates {bs : List Block} {b : Block} : b ∈ candidates bs ↔ b ∈ bs ∧ b.isFilled = true := by
  rw [(candidates_perm bs).mem_iff, List.mem_filter]

/-- A block with parameters answers for its name if no other block with parameters has it. -/
theorem answering_unique {bs : List Block} {b : Block} (member : b ∈ bs) (filled : b.isFilled = true)
    (unique : ∀ c ∈ bs, c.isFilled = true → c.name = b.name → c = b) : answering bs b.name = some b := by
  unfold answering
  cases tried : (candidates bs).find? fun c => c.name = b.name with
  | none =>
      rw [List.find?_eq_none] at tried
      exact absurd (by simp) (tried b (mem_candidates.mpr ⟨member, filled⟩))
  | some c =>
      obtain ⟨inside, filledC⟩ := mem_candidates.mp (List.mem_of_find?_eq_some tried)
      rw [unique c inside filledC (by simpa using List.find?_some tried)]

theorem answering_none {bs : List Block} (absent : ∀ b ∈ bs, b.isFilled = true → b.name ≠ name) :
    answering bs name = none := by
  rw [answering, List.find?_eq_none]
  intro b isCandidate
  obtain ⟨inside, filled⟩ := mem_candidates.mp isCandidate
  simpa using absent b inside filled

theorem findSection_sectionsOf {bs : List Block} {path : String} :
    PIniFile.findSection ⟨path, sectionsOf bs, true⟩ name = (answering bs name).map Block.toSection := by
  unfold PIniFile.findSection sectionsOf answering
  rw [List.find?_map]
  rfl

theorem keys_sectionsOf {bs : List Block} {path : String} :
    PIniFile.ziniFileKeys ⟨path, sectionsOf bs, true⟩ name =
      (answering bs name).elim [] fun b => b.params.map PIniParameter.name := by
  unfold PIniFile.ziniFileKeys
  rw [if_neg (by simp), findSection_sectionsOf]
  cases answering bs name with
  | none => rfl
  | some b => simp [Block.toSection]

theorem find_sectionsOf {bs : List Block} {path : String} :
    PIniFile.pziniFileFindParameter ⟨path, sectionsOf bs, true⟩ name key =
      (answering bs name).bind fun b => b.lastValue key := by
  unfold PIniFile.pziniFileFindParameter
  rw [if_neg (by simp), findSection_sectionsOf]
  cases answering bs name with
  | none => rfl
  | some b => rfl

theorem parameter_sectionsOf {bs : List Block} {path : String} (defaultVal : Option (List Byte)) :
    PIniFile.ziniFileParameterString ⟨path, sectionsOf bs, true⟩ name key defaultVal =
      ((answering bs name).bind fun b => b.lastValue key).or defaultVal := by
  unfold PIniFile.ziniFileParameterString
  rw [find_sectionsOf]
  cases (answering bs name).bind fun b => b.lastValue key <;> rfl

theorem exists_sectionsOf {bs : List Block} {path : String} :
    PIniFile.ziniFileIsKeyExists ⟨path, sectionsOf bs, true⟩ name key =
      ((answering bs name).bind fun b => b.lastValue key).isSome := by
  unfold PIniFile.ziniFileIsKeyExists
  rw [if_neg (by simp), findSection_sectionsOf]
  cases answering bs name with
  | none => rfl
  | some b => simp [Block.lastValue, Block.toSection]

theorem sections_sectionsOf {bs : List Block} {path : String} :
    (PIniFile.ziniFileSections ⟨path, sectionsOf bs, true⟩).Perm
      ((bs.filter Block.isFilled).map Block.name) := by
  have names : PIniFile.ziniFileSections ⟨path, sectionsOf bs, true⟩ =
      ((sectionsOf bs).map PIniSection.name).reverse := by simp [PIniFile.ziniFileSections]
  rw [names]
  rw [sectionsOf, List.map_map]
  exact (List.reverse_perm _).trans ((candidates_perm bs).map Block.name)

end Queries

end Plibsys.Ini
