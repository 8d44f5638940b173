import Plibsys.Ini.Written
import Mathlib.Data.List.Nodup

/-! # Round trip

A document is a list of blocks with different names.  Written to a file and parsed, it is
found again: values, keys in order, and the names of the sections that have parameters.
-/

namespace Plibsys.Ini

open Support

/-- The text of a document. -/
def writeDocument (doc : List Block) : List Byte := doc.flatMap writeBlock

@[mk_iff]
structure WrittenDocument (doc : List Block) : Prop where
  blocks : ∀ b ∈ doc, WrittenBlock b
  distinct : (doc.map Block.name).Nodup

instance : DecidablePred WrittenDocument := fun doc => decidable_of_iff _ (writtenDocument_iff doc).symm

/-- The parameters that a document assigns in a section. -/
def assigned (doc : List Block) (name : List Byte) : List PIniParameter :=
  match doc.find? fun b => b.name = name with
  | some b => b.params
  | none => []

/-- The value of the last assignment of a key. -/
def lastAssigned (doc : List Block) (name key : List Byte) : Option (List Byte) :=
  ((assigned doc name).filter fun param => param.name = key).getLast?.map PIniParameter.value

variable {doc : List Block} {b : Block} {name key : List Byte}

theorem entries_writeDocument (valid : ∀ b ∈ doc, WrittenBlock b) :
    entries (writeDocument doc) = doc.flatMap blockEntries := by
  induction doc with
  | nil => rfl
  | cons b doc ih =>
      rw [writeDocument, List.flatMap_cons, entries_block (valid b List.mem_cons_self), List.flatMap_cons,
        ← writeDocument, ih fun other inside => valid other (List.mem_cons_of_mem b inside)]

/-- In a document with different names the lookup finds the block of the name. -/
theorem answering_eq (distinct : (doc.map Block.name).Nodup) :
    answering doc name = (doc.find? fun b => b.name = name).filter Block.isFilled := by
  have unique : ∀ b ∈ doc, ∀ c ∈ doc, b.name = c.name → b = c :=
    fun b inDoc c inDoc' same => List.inj_on_of_nodup_map distinct inDoc inDoc' same
  cases found : doc.find? fun b => b.name = name with
  | none =>
      rw [List.find?_eq_none] at found
      exact answering_none fun b inDoc _ named => found b inDoc (decide_eq_true named)
  | some b =>
      have inDoc := List.mem_of_find?_eq_some found
      have named : b.name = name := by simpa using List.find?_some found
      subst named
      rw [Option.filter_some]
      split
      · next filled => exact answering_unique inDoc filled fun c inDoc' _ same => unique c inDoc' b inDoc same
      · next empty =>
          refine answering_none fun c inDoc' filled same => empty ?_
          rwa [← unique c inDoc' b inDoc same]

theorem keys_answering (name : List Byte) (distinct : (doc.map Block.name).Nodup) :
    ((answering doc name).elim [] fun b => b.params) = assigned doc name := by
  rw [answering_eq distinct, assigned]
  cases doc.find? fun b => b.name = name with
  | none => rfl
  | some b =>
      rw [Option.filter_some]
      split
      · rfl
      · rename_i empty
        simp only [Block.isFilled, decide_eq_true_eq, not_not] at empty
        exact empty.symm

theorem value_answering (distinct : (doc.map Block.name).Nodup) :
    ((answering doc name).bind fun b => b.lastValue key) = lastAssigned doc name key := by
  have same := keys_answering name distinct
  unfold lastAssigned
  rw [← same]
  cases answering doc name with
  | none => rfl
  | some b => simp [Block.lastValue]

/-- A written document is found again after parsing. -/
theorem ini_round_trip {doc : List Block} (valid : WrittenDocument doc) (path : String) :
    ∃ file, ziniFileParse (.ok (writeDocument doc)) (ziniFileNew path) = (.ok (), file) ∧
      (∀ name key defaultVal,
        file.ziniFileParameterString name key defaultVal = (lastAssigned doc name key).or defaultVal) ∧
      (∀ name, file.ziniFileKeys name = (assigned doc name).map PIniParameter.name) ∧
      (∀ name key, file.ziniFileIsKeyExists name key = true ↔
        key ∈ (assigned doc name).map PIniParameter.name) ∧
      file.ziniFileSections.Perm ((doc.filter fun b => b.params ≠ []).map Block.name) := by
  have parsed := parse_sections (writeDocument doc) path
  rw [entries_writeDocument valid.blocks, blocks_flatMap] at parsed
  refine ⟨_, parsed, ?_, ?_, ?_, sections_sectionsOf⟩
  · intro name key defaultVal
    rw [parameter_sectionsOf, value_answering valid.distinct]
  · intro name
    rw [keys_sectionsOf, ← keys_answering name valid.distinct]
    cases answering doc name <;> rfl
  · intro name key
    rw [exists_sectionsOf, value_answering valid.distinct, lastAssigned, Option.isSome_map,
      List.getLast?_isSome]
    simp [List.filter_eq_nil_iff]

/-- A document with a repeated key and a section without parameters. -/
def sampleDocument : List Block :=
  [⟨asciiString "main", [⟨asciiString "path", asciiString "a=b [c]"⟩,
      ⟨asciiString "my key", asciiString "it's"⟩, ⟨asciiString "path", asciiString "/tmp"⟩]⟩,
    ⟨asciiString "[rest", []⟩]

theorem ini_round_trip_sample :
    ∃ file, ziniFileParse (.ok (writeDocument sampleDocument)) (ziniFileNew "test.ini") = (.ok (), file) ∧
      file.ziniFileParameterString (asciiString "main") (asciiString "path") none = some (asciiString "/tmp") ∧
      file.ziniFileKeys (asciiString "main") =
        [asciiString "path", asciiString "my key", asciiString "path"] ∧
      file.ziniFileSections = [asciiString "main"] := by
  have valid : WrittenDocument sampleDocument := by decide +kernel
  obtain ⟨file, parsed, values, keys, -, sections⟩ := ini_round_trip valid "test.ini"
  refine ⟨file, parsed, ?_, ?_, ?_⟩
  · rw [values]
    decide +kernel
  · rw [keys]
    decide +kernel
  · exact List.perm_singleton.mp sections

end Plibsys.Ini
