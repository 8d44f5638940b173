import Plibsys.Ini.LineContext

/-! # The order of sections

A section that a later header closes goes to the front of the list of sections, the last
one to its end, and `zini_file_sections` reverses the list: the last section comes first.
-/

namespace Plibsys.Ini

open Support

/-- The names of the sections with parameters, in the order of their headers. -/
def headerOrder (content : List Byte) : List (List Byte) :=
  ((blocks (entries content)).filter Block.isFilled).map Block.name

/-- The section that is open at the end of the file has no parameters, or every section
    with parameters has its name. -/
def LastIsAlone (content : List Byte) : Prop :=
  ∀ last, (blocks (entries content)).getLast? = some last → last.isFilled = true →
    ∀ b ∈ blocks (entries content), b.isFilled = true → b.name = last.name

/-- Moving the last of equal elements to the front changes nothing, and only then. -/
theorem cons_eq_concat_iff {α : Type} (a : α) (l : List α) : a :: l = l ++ [a] ↔ ∀ b ∈ l, b = a := by
  induction l with
  | nil => simp
  | cons b l ih =>
      rw [List.cons_append, List.cons.injEq, List.forall_mem_cons, ← ih]
      constructor
      · rintro ⟨rfl, tail⟩
        exact ⟨rfl, tail⟩
      · rintro ⟨rfl, tail⟩
        exact ⟨rfl, tail⟩

/-- After parsing any file, `zini_file_sections` lists the sections in the order of their
    headers exactly when the last section is alone. -/
theorem sections_in_order_iff (path : String) (content : List Byte) :
    (ziniFileParse (.ok content) (ziniFileNew path)).1 = .ok () ∧
      ((ziniFileParse (.ok content) (ziniFileNew path)).2.ziniFileSections = headerOrder content ↔
        LastIsAlone content) := by
  have listed : (ziniFileParse (.ok content) (ziniFileNew path)).2.ziniFileSections = _ :=
    sections_parsedFile path content
  refine ⟨by rw [parse_sections], ?_⟩
  rw [listed, headerOrder, LastIsAlone]
  rcases List.eq_nil_or_concat' (blocks (entries content)) with none | ⟨front, last, split⟩
  · simp [none, candidates]
  · rw [split, candidates_concat, List.filter_append, List.getLast?_concat]
    by_cases filled : last.isFilled = true
    · have moved : ((List.filter Block.isFilled front).reverse ++ [last]).map Block.name =
          (last.name :: (front.filter Block.isFilled).map Block.name).reverse := by simp
      rw [if_pos filled, moved, List.reverse_reverse, List.map_append]
      rw [List.filter_cons_of_pos filled, List.filter_nil, List.map_singleton, cons_eq_concat_iff]
      constructor
      · intro same last' isLast _ b member filledB
        cases isLast
        rcases List.mem_append.mp member with inFront | isLast
        · exact same b.name (List.mem_map_of_mem (List.mem_filter.mpr ⟨inFront, filledB⟩))
        · rw [List.mem_singleton.mp isLast]
      · intro alone name member
        obtain ⟨b, inside, rfl⟩ := List.mem_map.mp member
        obtain ⟨inFront, filledB⟩ := List.mem_filter.mp inside
        exact alone last rfl filled b (List.mem_append_left _ inFront) filledB
    · rw [if_neg filled, List.filter_cons_of_neg filled, List.append_nil, List.filter_nil, List.append_nil,
        List.map_reverse, List.reverse_reverse]
      refine ⟨fun _ last' isLast filledLast => ?_, fun _ => rfl⟩
      cases isLast
      exact absurd filledLast filled

/-- Two sections with one parameter each are listed in the wrong order. -/
theorem sections_out_of_order :
    (parsedFile "test.ini" (asciiString "[a]\nx = 1\n[b]\ny = 2\n")).ziniFileSections =
        [asciiString "b", asciiString "a"] ∧
      headerOrder (asciiString "[a]\nx = 1\n[b]\ny = 2\n") = [asciiString "a", asciiString "b"] := by
  decide +kernel

end Plibsys.Ini
