import Plibsys.Support.Heap
import Mathlib.Data.List.Nodup

/-! # Singly linked lists in a heap

`Segment h last p l` says that the cells of `h` from `p` up to `last`, which is not one of
them, are `l`: their addresses and what they store.  A list is a segment up to the null
address.  Segments are cut and joined like lists, which gives the rules for changing a cell
in place and for splicing one out.
-/

namespace Plibsys.Support

/-- How cells are linked: the address of the next one, and what a cell stores. -/
structure Links (C D : Type) where
  next : C → Addr
  data : C → D

namespace Links

variable {C D : Type}

def Segment (links : Links C D) (h : Heap C) (last : Addr) : Addr → List (Addr × D) → Prop
  | p, [] => p = last
  | p, (a, d) :: l => p = a ∧ ∃ c, h.cell a = some c ∧ links.data c = d ∧ Segment links h last (links.next c) l

variable {links : Links C D} {h h' : Heap C} {p last a : Addr} {d : D} {l m : List (Addr × D)}

theorem segment_append :
    links.Segment h last p (l ++ m) ↔ ∃ q, links.Segment h q p l ∧ links.Segment h last q m := by
  induction l generalizing p with
  | nil => simp [Segment]
  | cons e l ih =>
      obtain ⟨a, d⟩ := e
      simp only [List.cons_append, Segment, ih]
      constructor
      · rintro ⟨start, c, here, stored, q, front, back⟩
        exact ⟨q, ⟨start, c, here, stored, front⟩, back⟩
      · rintro ⟨q, ⟨start, c, here, stored, front⟩, back⟩
        exact ⟨start, c, here, stored, q, front, back⟩

namespace Segment

theorem cell (seg : links.Segment h last p l) (inside : (a, d) ∈ l) :
    ∃ c, h.cell a = some c ∧ links.data c = d := by
  induction l generalizing p with
  | nil => cases inside
  | cons e l ih =>
      obtain ⟨b, e⟩ := e
      obtain ⟨-, c, here, stored, rest⟩ := seg
      rcases List.mem_cons.mp inside with same | behind
      · cases same
        exact ⟨c, here, stored⟩
      · exact ih rest behind

theorem nonnull (seg : links.Segment h last p l) (inside : (a, d) ∈ l) : a ≠ 0 := by
  obtain ⟨c, here, -⟩ := seg.cell inside
  intro null
  rw [null, h.null_free] at here
  cases here

/-- A list is determined by its first address. -/
theorem unique (seg : links.Segment h 0 p l) (other : links.Segment h 0 p m) : l = m := by
  induction l generalizing p m with
  | nil =>
      cases m with
      | nil => rfl
      | cons e m => exact absurd (other.1.symm.trans seg) (other.nonnull List.mem_cons_self)
  | cons e l ih =>
      cases m with
      | nil => exact absurd (seg.1.symm.trans other) (seg.nonnull List.mem_cons_self)
      | cons e' m =>
          obtain ⟨rfl, c, here, stored, rest⟩ := seg
          obtain ⟨start, c', here', stored', rest'⟩ := other
          rw [← start, here, Option.some.injEq] at here'
          subst here'
          rw [ih rest rest', Prod.ext start (stored.symm.trans stored')]

/-- No cell occurs twice: the list would not end. -/
theorem nodup (seg : links.Segment h 0 p l) : (l.map Prod.fst).Nodup := by
  induction l generalizing p with
  | nil => exact List.nodup_nil
  | cons e l ih =>
      have whole := seg
      obtain ⟨rfl, c, -, -, rest⟩ := seg
      rw [List.map_cons, List.nodup_cons]
      refine ⟨fun again => ?_, ih rest⟩
      rw [List.mem_map] at again
      obtain ⟨⟨a, d⟩, inside, same⟩ := again
      obtain ⟨front, back, rfl⟩ := List.append_of_mem inside
      obtain ⟨q, -, loop⟩ := segment_append.mp rest
      obtain ⟨start, -⟩ := id loop
      rw [start, show a = e.1 from same] at loop
      have lengths := congrArg List.length (whole.unique loop)
      simp at lengths
      omega

/-- Only the cells of the segment count. -/
theorem frame (seg : links.Segment h last p l) (same : ∀ e ∈ l, h'.cell e.1 = h.cell e.1) :
    links.Segment h' last p l := by
  induction l generalizing p with
  | nil => exact seg
  | cons e l ih =>
      obtain ⟨start, c, here, stored, rest⟩ := seg
      refine ⟨start, c, ?_, stored, ih rest fun e inside => same e (List.mem_cons_of_mem _ inside)⟩
      rw [same e List.mem_cons_self, here]

end Segment

section Surgery

variable {c : C} {b : Addr} {e : D} {f : C → C}

/-- The addresses before and behind a cell of a list are other addresses. -/
theorem Segment.apart (seg : links.Segment h 0 p (l ++ (a, d) :: m)) :
    (∀ e ∈ l, e.1 ≠ a) ∧ (∀ e ∈ m, e.1 ≠ a) := by
  have distinct := seg.nodup
  rw [List.map_append, List.map_cons, List.nodup_middle, List.nodup_cons, List.mem_append] at distinct
  constructor
  · intro e inside same
    exact distinct.1 (Or.inl (List.mem_map.mpr ⟨e, inside, same⟩))
  · intro e inside same
    exact distinct.1 (Or.inr (List.mem_map.mpr ⟨e, inside, same⟩))

/-- Change what a cell stores. -/
theorem Segment.adjust (seg : links.Segment h 0 p (l ++ (a, d) :: m)) (here : h.cell a = some c)
    (kept : links.next (f c) = links.next c) :
    links.Segment (h.adjust a f) 0 p (l ++ (a, links.data (f c)) :: m) := by
  obtain ⟨before, behind⟩ := seg.apart
  obtain ⟨q, front, start, c', here', -, back⟩ := segment_append.mp seg
  rw [here, Option.some.injEq] at here'
  subst here'
  refine segment_append.mpr ⟨q, front.frame fun e inside => ?_, start, f c, ?_, rfl, ?_⟩
  · exact Heap.cell_adjust_ne h (before e inside) f
  · simp [here]
  · rw [kept]
    exact back.frame fun e inside => Heap.cell_adjust_ne h (behind e inside) f

/-- Take the first cell out. -/
theorem Segment.unlinkHead (seg : links.Segment h 0 p ((a, d) :: m)) (here : h.cell a = some c) :
    links.Segment (h.erase a) 0 (links.next c) m := by
  obtain ⟨-, behind⟩ := Segment.apart (l := []) seg
  obtain ⟨-, c', here', -, back⟩ := seg
  rw [here, Option.some.injEq] at here'
  subst here'
  exact back.frame fun e inside => by simp [behind e inside]

/-- Let the cell before it skip a cell, and take that one out. -/
theorem Segment.unlinkNext (seg : links.Segment h 0 p (l ++ (b, e) :: (a, d) :: m)) (here : h.cell a = some c)
    (skips : ∀ c', links.next (f c') = links.next c) (kept : ∀ c', links.data (f c') = links.data c') :
    links.Segment ((h.adjust b f).erase a) 0 p (l ++ (b, e) :: m) := by
  obtain ⟨beforeB, behindB⟩ := seg.apart
  obtain ⟨beforeA, behindA⟩ := Segment.apart (l := l ++ [(b, e)]) (by simpa using seg)
  have apart : b ≠ a := beforeA (b, e) (by simp)
  have frameOther : ∀ x, x ≠ b → x ≠ a → ((h.adjust b f).erase a).cell x = h.cell x := by
    intro x notB notA
    rw [Heap.cell_erase, if_neg notA, Heap.cell_adjust_ne h notB]
  obtain ⟨q, front, start, cb, atB, stored, -, c', here', -, back⟩ := segment_append.mp seg
  rw [here, Option.some.injEq] at here'
  subst here'
  refine segment_append.mpr ⟨q, front.frame fun x inside => ?_, start, f cb, ?_, ?_, ?_⟩
  · exact frameOther x.1 (beforeB x inside) (beforeA x (by simp [inside]))
  · rw [Heap.cell_erase, if_neg apart, Heap.cell_adjust_self, atB]
    rfl
  · rw [kept, stored]
  · rw [skips]
    exact back.frame fun x inside =>
      frameOther x.1 (behindB x (List.mem_cons_of_mem _ inside)) (behindA x inside)

/-- Let the last cell of a list lead on to somewhere else. -/
theorem Segment.link {q : Addr} (seg : links.Segment h 0 p (l ++ [(b, e)])) (leads : ∀ c', links.next (f c') = q)
    (kept : ∀ c', links.data (f c') = links.data c') : links.Segment (h.adjust b f) q p (l ++ [(b, e)]) := by
  obtain ⟨before, -⟩ := seg.apart
  obtain ⟨m, front, start, cb, atB, stored, -⟩ := segment_append.mp seg
  refine segment_append.mpr ⟨m, front.frame fun x inside => ?_, start, f cb, ?_, ?_, leads cb⟩
  · exact Heap.cell_adjust_ne h (before x inside) f
  · rw [Heap.cell_adjust_self, atB]
    rfl
  · rw [kept, stored]

end Surgery

end Links

end Plibsys.Support
