import Mathlib.Data.List.Basic
import Mathlib.Tactic.Common

/-! # Ordered maps under a three-way comparison

The comparison returns an integer of which only the sign counts.  Distinct keys
may compare equal, so a map holds one entry for each class of equal keys and the
stored key is part of the entry.  Entries are kept in strictly increasing order,
which makes the list of entries canonical.
-/

namespace Plibsys.Support

/-- The sign of `compare` comes from a total preorder. -/
structure SignOrder {K : Type} (compare : K → K → Int) : Prop where
  swap : ∀ a b, compare a b < 0 ↔ 0 < compare b a
  trans : ∀ a b c, compare a b ≤ 0 → compare b c ≤ 0 → compare a c ≤ 0

namespace SignOrder

variable {K : Type} {compare : K → K → Int} (order : SignOrder compare)

include order

theorem eq_zero_comm {a b : K} : compare a b = 0 ↔ compare b a = 0 := by
  have lt := order.swap a b
  have gt := order.swap b a
  omega

theorem lt_trans {a b c : K} (ab : compare a b < 0) (bc : compare b c < 0) : compare a c < 0 := by
  by_contra notLt
  have back : compare c a ≤ 0 := by
    have := order.swap a c
    have := order.swap c a
    omega
  have cb : compare c b ≤ 0 := order.trans c a b back (by omega)
  have := order.swap b c
  omega

theorem lt_of_eq_of_lt {a b c : K} (ab : compare a b = 0) (bc : compare b c < 0) :
    compare a c < 0 := by
  by_contra notLt
  have back : compare c a ≤ 0 := by
    have := order.swap a c
    have := order.swap c a
    omega
  have cb : compare c b ≤ 0 := order.trans c a b back (by omega)
  have := order.swap b c
  omega

theorem lt_of_lt_of_eq {a b c : K} (ab : compare a b < 0) (bc : compare b c = 0) :
    compare a c < 0 := by
  by_contra notLt
  have back : compare c a ≤ 0 := by
    have := order.swap a c
    have := order.swap c a
    omega
  have ba : compare b a ≤ 0 := order.trans b c a (by have := order.eq_zero_comm.mp bc; omega) back
  have := order.swap a b
  omega

/-- Equal keys compare alike with every key. -/
theorem eq_congr {a b c : K} (ab : compare a b = 0) : compare a c = 0 ↔ compare b c = 0 := by
  have ba := order.eq_zero_comm.mp ab
  have forward := order.trans a b c
  have backward := order.trans b a c
  have lower := order.trans c b a
  have upper := order.trans c a b
  have := order.swap a c
  have := order.swap c a
  have := order.swap b c
  have := order.swap c b
  omega

end SignOrder

namespace OrderedMap

variable {K V : Type} (compare : K → K → Int)

/-- Strictly increasing keys. -/
def Sorted (m : List (K × V)) : Prop := m.Pairwise fun e e' => compare e.1 e'.1 < 0

/-- The entry stored for a key equal to `k`. -/
def find (k : K) (m : List (K × V)) : Option (K × V) :=
  m.find? fun e => decide (compare k e.1 = 0)

/-- Add an entry, or replace key and value of the entry for an equal key. -/
def insert (k : K) (v : V) : List (K × V) → List (K × V)
  | [] => [(k, v)]
  | e :: m =>
      if compare k e.1 < 0 then (k, v) :: e :: m
      else if 0 < compare k e.1 then e :: insert k v m
      else (k, v) :: m

/-- Drop the entry for a key equal to `k`. -/
def erase (k : K) (m : List (K × V)) : List (K × V) :=
  m.filter fun e => decide (compare k e.1 ≠ 0)

variable {compare}
variable {k k' : K} {v v' : V} {m pre post : List (K × V)}

/-- `k` lies strictly between the entries of `pre` and those of `post`. -/
structure Between (compare : K → K → Int) (k : K) (pre post : List (K × V)) : Prop where
  above : ∀ e ∈ pre, 0 < compare k e.1
  below : ∀ e ∈ post, compare k e.1 < 0

theorem find_absent (between : Between compare k pre post) : find compare k (pre ++ post) = none := by
  simp only [find, List.find?_eq_none, decide_eq_true_eq, List.mem_append]
  rintro e (member | member)
  · have := between.above e member
    omega
  · have := between.below e member
    omega

theorem find_present (between : Between compare k pre post) (equal : compare k k' = 0) :
    find compare k (pre ++ (k', v') :: post) = some (k', v') := by
  have absent : pre.find? (fun e => decide (compare k e.1 = 0)) = none := by
    simp only [List.find?_eq_none, decide_eq_true_eq]
    intro e member
    have := between.above e member
    omega
  simp [find, absent, equal]

theorem insert_absent (between : Between compare k pre post) :
    insert compare k v (pre ++ post) = pre ++ (k, v) :: post := by
  induction pre with
  | nil =>
      cases post with
      | nil => rfl
      | cons e post => simp [insert, between.below e (by simp)]
  | cons e pre ih =>
      have above := between.above e (by simp)
      have tail := ih ⟨fun e member => between.above e (by simp [member]), between.below⟩
      simp [insert, above, show ¬ compare k e.1 < 0 by omega, tail]

theorem insert_present (between : Between compare k pre post) (equal : compare k k' = 0) :
    insert compare k v (pre ++ (k', v') :: post) = pre ++ (k, v) :: post := by
  induction pre with
  | nil => simp [insert, equal]
  | cons e pre ih =>
      have above := between.above e (by simp)
      have tail := ih ⟨fun e member => between.above e (by simp [member]), between.below⟩
      simp [insert, above, show ¬ compare k e.1 < 0 by omega, tail]

theorem erase_absent (between : Between compare k pre post) :
    erase compare k (pre ++ post) = pre ++ post := by
  simp only [erase, List.filter_eq_self, decide_eq_true_eq, List.mem_append]
  rintro e (member | member)
  · have := between.above e member
    omega
  · have := between.below e member
    omega

theorem erase_present (between : Between compare k pre post) (equal : compare k k' = 0) :
    erase compare k (pre ++ (k', v') :: post) = pre ++ post := by
  have outside := erase_absent between
  simp only [erase, List.filter_append] at outside ⊢
  simpa [equal] using outside

theorem find_insert (order : SignOrder compare) (k k' : K) (v : V) (m : List (K × V)) :
    find compare k (insert compare k' v m) =
      if compare k k' = 0 then some (k', v) else find compare k m := by
  induction m with
  | nil =>
      by_cases equal : compare k k' = 0 <;> simp [insert, find, equal]
  | cons e m ih =>
      have congr := order.eq_congr (a := k) (b := k') (c := e.1)
      have back := order.eq_congr (a := k) (b := e.1) (c := k')
      have comm := order.eq_zero_comm (a := e.1) (b := k')
      simp only [find] at ih
      by_cases equal : compare k k' = 0
      · rw [insert]
        split
        · simp [find, equal]
        · split
          · next above =>
              have apart : compare k e.1 ≠ 0 := fun same => by
                have := (congr equal).mp same
                omega
              simp [find, equal, apart, ih]
          · simp [find, equal]
      · rw [insert]
        split
        · simp [find, equal]
        · split
          · by_cases head : compare k e.1 = 0 <;> simp [find, equal, head, ih]
          · have apart : compare k e.1 ≠ 0 := fun same => equal ((back same).mpr (comm.mpr (by omega)))
            simp [find, equal, apart]

theorem find_congr (order : SignOrder compare) (equal : compare k k' = 0) (m : List (K × V)) :
    find compare k m = find compare k' m := by
  simp only [find, order.eq_congr equal]

theorem find_erase (order : SignOrder compare) (k k' : K) (m : List (K × V)) :
    find compare k (erase compare k' m) =
      if compare k k' = 0 then none else find compare k m := by
  induction m with
  | nil => simp [erase, find]
  | cons e m ih =>
      have congr := order.eq_congr (a := k) (b := k') (c := e.1)
      have back := order.eq_congr (a := k) (b := e.1) (c := k')
      have comm := order.eq_zero_comm (a := e.1) (b := k')
      simp only [find, erase] at ih
      by_cases dropped : compare k' e.1 = 0
      · by_cases equal : compare k k' = 0
        · simpa [find, erase, dropped, equal] using ih
        · have apart : compare k e.1 ≠ 0 := fun same => equal ((back same).mpr (comm.mpr dropped))
          simpa [find, erase, dropped, equal, apart] using ih
      · by_cases equal : compare k k' = 0
        · have apart : compare k e.1 ≠ 0 := fun same => dropped ((congr equal).mp same)
          simpa [find, erase, dropped, equal, apart] using ih
        · by_cases head : compare k e.1 = 0
          · simp [find, erase, dropped, equal, head]
          · simpa [find, erase, dropped, equal, head] using ih

/-- A sorted list splits around any key, at most one entry being equal to it. -/
theorem split (order : SignOrder compare) (k : K) (sorted : Sorted compare m) :
    (∃ pre post, m = pre ++ post ∧ Between compare k pre post) ∨
      ∃ pre k' v' post, m = pre ++ (k', v') :: post ∧ compare k k' = 0 ∧
        Between compare k pre post := by
  induction m with
  | nil => exact .inl ⟨[], [], rfl, by constructor <;> simp⟩
  | cons e m ih =>
      obtain ⟨head, tail⟩ := List.pairwise_cons.mp sorted
      rcases Int.lt_trichotomy (compare k e.1) 0 with lt | eq | gt
      · refine .inl ⟨[], e :: m, rfl, by simp, ?_⟩
        intro x member
        rcases List.mem_cons.mp member with rfl | member
        · exact lt
        · exact order.lt_trans lt (head x member)
      · refine .inr ⟨[], e.1, e.2, m, rfl, eq, by simp, ?_⟩
        intro x member
        exact order.lt_of_eq_of_lt eq (head x member)
      · rcases ih tail with ⟨pre, post, rfl, between⟩ | ⟨pre, k', v', post, rfl, equal, between⟩
        · exact .inl ⟨e :: pre, post, rfl, by simpa using ⟨gt, by simpa using between.above⟩,
            between.below⟩
        · exact .inr ⟨e :: pre, k', v', post, rfl, equal,
            by simpa using ⟨gt, by simpa using between.above⟩, between.below⟩

theorem Sorted.insert (order : SignOrder compare) (sorted : Sorted compare m) (k : K) (v : V) :
    Sorted compare (OrderedMap.insert compare k v m) := by
  rcases split order k sorted with ⟨pre, post, rfl, between⟩ | ⟨pre, k', v', post, rfl, equal, between⟩
  · rw [insert_absent between]
    simp only [Sorted, List.pairwise_append, List.pairwise_cons, List.mem_cons] at sorted ⊢
    refine ⟨sorted.1, ⟨between.below, sorted.2.1⟩, ?_⟩
    rintro x inPre y (rfl | inPost)
    · exact (order.swap _ _).mpr (between.above x inPre)
    · exact sorted.2.2 x inPre y inPost
  · rw [insert_present between equal]
    simp only [Sorted, List.pairwise_append, List.pairwise_cons, List.mem_cons] at sorted ⊢
    refine ⟨sorted.1, ⟨between.below, sorted.2.1.2⟩, ?_⟩
    rintro x inPre y (rfl | inPost)
    · exact (order.swap _ _).mpr (between.above x inPre)
    · exact sorted.2.2 x inPre y (.inr inPost)

theorem Sorted.erase (sorted : Sorted compare m) (k : K) :
    Sorted compare (OrderedMap.erase compare k m) :=
  sorted.sublist List.filter_sublist

end OrderedMap

end Plibsys.Support
