import Plibsys.Lists.PList

/-! # Lists are sequences

Every run of calls on any number of lists is followed by as many sequences.  The calls on one
list leave the nodes of the others alone, and the heap has no other nodes: nothing leaks.
-/

namespace Plibsys.Lists

open Support

/-- How the nodes are linked. -/
def nodeLinks : Links PList PPointer := ⟨PList.next, PList.data⟩

/-- A node of a list, with its address. -/
abbrev ListItem := Addr × PPointer

/-- What a call does to the nodes of a list, and that it leaves all other nodes alone. -/
structure Changed (h h' : Heap PList) (p' : Addr) (chain chain' : List ListItem) : Prop where
  listed : nodeLinks.Segment h' 0 p' chain'
  others : ∀ a, (∀ e ∈ chain, e.1 ≠ a) → (∀ e ∈ chain', e.1 ≠ a) → h'.cell a = h.cell a
  fresh : ∀ e ∈ chain', (∃ d, (e.1, d) ∈ chain) ∨ h.cell e.1 = none
  freed : ∀ e ∈ chain, (∀ e' ∈ chain', e'.1 ≠ e.1) → h'.cell e.1 = none

section Calls

variable {h : Heap PList} {p : Addr} {chain : List ListItem} {fuel : Nat} {data : PPointer}

theorem Changed.same (seg : nodeLinks.Segment h 0 p chain) : Changed h h p chain chain where
  listed := seg
  others := fun _ _ _ => rfl
  fresh := fun e inside => .inl ⟨e.2, inside⟩
  freed := fun e inside gone => absurd rfl (gone e inside)

theorem load_item {a last : Addr} {d : PPointer} {rest : List ListItem}
    (seg : nodeLinks.Segment h last p ((a, d) :: rest)) :
    ∃ next, p = a ∧ h.cell a = some ⟨d, next⟩ ∧ nodeLinks.Segment h last next rest := by
  obtain ⟨start, ⟨data, next⟩, here, stored, back⟩ := seg
  obtain rfl : data = d := stored
  exact ⟨next, start, here, back⟩

theorem null_iff (seg : nodeLinks.Segment h 0 p chain) : p = 0 ↔ chain = [] := by
  cases chain with
  | nil => exact ⟨fun _ => rfl, fun _ => seg⟩
  | cons e chain =>
      refine ⟨fun null => ?_, nofun⟩
      exact absurd (seg.1.symm.trans null) (seg.nonnull (d := e.2) (by simp))

/-- The addresses of a list are taken. -/
theorem ne_next (seg : nodeLinks.Segment h 0 p chain) (A : Allocator) : ∀ e ∈ chain, e.1 ≠ A.next h := by
  rintro ⟨a, d⟩ inside rfl
  obtain ⟨c, here, -⟩ := seg.cell inside
  rw [A.next_free h] at here
  cases here

/-- The loop stops at the last node. -/
theorem lastFrom_eq {front : List ListItem} {a : Addr} {d : PPointer}
    (seg : nodeLinks.Segment h 0 p (front ++ [(a, d)])) (enough : front.length < fuel) : lastFrom h fuel p = .ok a := by
  induction front generalizing p fuel with
  | nil =>
      obtain ⟨next, rfl, here, last⟩ := load_item seg
      obtain rfl : next = 0 := last
      cases fuel with
      | zero => omega
      | succ fuel => simp [lastFrom, Heap.load_of_cell here]
  | cons e front ih =>
      obtain ⟨b, d'⟩ := e
      obtain ⟨next, rfl, here, back⟩ := load_item seg
      rw [List.length_cons] at enough
      cases fuel with
      | zero => omega
      | succ fuel =>
          have nonnull : next ≠ 0 := by
            rw [Ne, null_iff back]
            simp
          simp only [lastFrom, Heap.load_of_cell here, Exec.ok_bind, if_neg nonnull]
          exact ih back (by omega)

theorem zlistAppend_eq (seg : nodeLinks.Segment h 0 p chain) (enough : chain.length < fuel)
    (malloc : Option Allocator) (data : PPointer) :
    ∃ p' h' chain', zlistAppend fuel malloc p data h = .ok (p', h') ∧ Changed h h' p' chain chain' ∧
      chain'.map Prod.snd = if malloc.isSome then chain.map Prod.snd ++ [data] else chain.map Prod.snd := by
  cases malloc with
  | none => exact ⟨p, h, chain, rfl, .same seg, rfl⟩
  | some A =>
      have grown : nodeLinks.Segment (h.insert (A.next h) (A.next_nonnull h) ⟨data, 0⟩) 0 p chain :=
        seg.frame fun e inside => by simp [ne_next seg A e inside]
      rcases List.eq_nil_or_concat chain with rfl | ⟨front, ⟨b, d⟩, rfl⟩
      · obtain rfl : p = 0 := seg
        refine ⟨A.next h, h.insert (A.next h) (A.next_nonnull h) ⟨data, 0⟩, [(A.next h, data)], rfl, ?_, rfl⟩
        constructor
        · exact ⟨rfl, ⟨data, 0⟩, by simp, rfl, rfl⟩
        · intro a _ apart
          have other : a ≠ A.next h := fun same => apart _ (List.mem_singleton_self _) same.symm
          simp [other]
        · intro e inside
          rw [List.mem_singleton] at inside
          subst inside
          exact .inr (A.next_free h)
        · intro e inside
          exact absurd inside List.not_mem_nil
      · have nonnull : p ≠ 0 := by
          rw [Ne, null_iff seg]
          simp
        rw [List.concat_eq_append] at seg grown enough ⊢
        have apart : b ≠ A.next h := ne_next seg A (b, d) (by simp)
        have inside : front.length < fuel := by
          rw [List.length_append] at enough
          omega
        have last := lastFrom_eq grown inside
        obtain ⟨c, here, -⟩ := grown.cell (a := b) (d := d) (by simp)
        refine ⟨p, (h.insert (A.next h) (A.next_nonnull h) ⟨data, 0⟩).adjust b fun node => { node with next := A.next h },
          front ++ [(b, d)] ++ [(A.next h, data)], ?_, ?_, by simp⟩
        · simp only [zlistAppend, if_neg nonnull, last, Exec.ok_bind, Heap.modify_of_cell here]
          rfl
        · constructor
          · refine Links.segment_append.mpr ⟨A.next h, grown.link (fun _ => rfl) fun _ => rfl, rfl, ⟨data, 0⟩, ?_, rfl, rfl⟩
            rw [Heap.cell_adjust_ne _ apart.symm]
            simp
          · intro a _ others
            have notLast : a ≠ b := fun same => others (b, d) (by simp) same.symm
            have notNew : a ≠ A.next h := fun same => others (A.next h, data) (by simp) same.symm
            rw [Heap.cell_adjust_ne _ notLast]
            simp [notNew]
          · intro e inside
            rcases List.mem_append.mp inside with old | new
            · exact .inl ⟨e.2, old⟩
            · rw [List.mem_singleton] at new
              subst new
              exact .inr (A.next_free h)
          · intro e inside gone
            exact absurd rfl (gone e (List.mem_append_left _ inside))

theorem zlistPrepend_eq (seg : nodeLinks.Segment h 0 p chain) (malloc : Option Allocator) (data : PPointer) :
    ∃ p' h' chain', zlistPrepend malloc p data h = .ok (p', h') ∧ Changed h h' p' chain chain' ∧
      chain'.map Prod.snd = if malloc.isSome then data :: chain.map Prod.snd else chain.map Prod.snd := by
  cases malloc with
  | none => exact ⟨p, h, chain, rfl, .same seg, rfl⟩
  | some A =>
      refine ⟨A.next h, h.insert (A.next h) (A.next_nonnull h) ⟨data, p⟩, (A.next h, data) :: chain, ?_, ?_, rfl⟩
      · unfold zlistPrepend
        by_cases null : p = 0
        · subst null
          rfl
        · have here : (h.insert (A.next h) (A.next_nonnull h) ⟨data, 0⟩).cell (A.next h) = some ⟨data, 0⟩ := by simp
          simp only [if_neg null, Heap.modify_of_cell here, Exec.ok_bind, Heap.adjust_insert]
          rfl
      · constructor
        · refine ⟨rfl, ⟨data, p⟩, by simp, rfl, seg.frame fun e inside => ?_⟩
          simp [ne_next seg A e inside]
        · intro a _ others
          have notNew : a ≠ A.next h := fun same => others (A.next h, data) (by simp) same.symm
          simp [notNew]
        · intro e inside
          rcases List.mem_cons.mp inside with rfl | old
          · exact .inr (A.next_free h)
          · exact .inl ⟨e.2, old⟩
        · intro e inside gone
          exact absurd rfl (gone e (List.mem_cons_of_mem _ inside))

/-- The node before the one that the loop is at. -/
def before : Addr → List ListItem → Addr
  | prev, [] => prev
  | _, (a, _) :: front => before a front

theorem before_concat (prev : Addr) (front : List ListItem) (b : Addr) (d : PPointer) :
    before prev (front ++ [(b, d)]) = b := by
  induction front generalizing prev with
  | nil => rfl
  | cons e front ih => exact ih e.1

/-- The loop goes past the nodes with other data. -/
theorem removeLoop_skip {head prev q : Addr} {front : List ListItem} (seg : nodeLinks.Segment h q p front)
    (others : ∀ e ∈ front, e.2 ≠ data) :
    removeLoop data head (front.length + fuel) prev p h = removeLoop data head fuel (before prev front) q h := by
  induction front generalizing p prev with
  | nil =>
      obtain rfl : p = q := seg
      rw [List.length_nil, Nat.zero_add]
      rfl
  | cons e front ih =>
      obtain ⟨a, d⟩ := e
      obtain ⟨next, rfl, here, back⟩ := load_item seg
      have nonnull : p ≠ 0 := seg.nonnull (d := d) (by simp)
      have other : d ≠ data := others (p, d) (by simp)
      rw [List.length_cons, show front.length + 1 + fuel = front.length + fuel + 1 by omega]
      simp only [removeLoop, if_neg nonnull, Heap.load_of_cell here, Exec.ok_bind, if_neg other]
      exact ih back fun e inside => others e (List.mem_cons_of_mem _ inside)

/-- The first node with the data, when there is one. -/
theorem split_at (chain : List ListItem) (data : PPointer) : (∀ e ∈ chain, e.2 ≠ data) ∨
    ∃ front a rest, chain = front ++ (a, data) :: rest ∧ ∀ e ∈ front, e.2 ≠ data := by
  induction chain with
  | nil => exact .inl nofun
  | cons e chain ih =>
      by_cases here : e.2 = data
      · subst here
        exact .inr ⟨[], e.1, chain, rfl, nofun⟩
      · rcases ih with none | ⟨front, a, rest, rfl, none⟩
        · left
          rintro e' (_ | ⟨_, inside⟩)
          · exact here
          · exact none e' inside
        · refine .inr ⟨e :: front, a, rest, rfl, ?_⟩
          rintro e' (_ | ⟨_, inside⟩)
          · exact here
          · exact none e' inside

/-- One node is taken out. -/
theorem Changed.removed {h' : Heap PList} {p' a : Addr} {d : PPointer} {front rest : List ListItem}
    (listed : nodeLinks.Segment h' 0 p' (front ++ rest))
    (others : ∀ x, (∀ e ∈ front ++ (a, d) :: rest, e.1 ≠ x) → h'.cell x = h.cell x) (gone : h'.cell a = none) :
    Changed h h' p' (front ++ (a, d) :: rest) (front ++ rest) where
  listed := listed
  others := fun x apart _ => others x apart
  fresh := fun e inside => by
    refine .inl ⟨e.2, ?_⟩
    rcases List.mem_append.mp inside with inFront | inRest <;> simp [*]
  freed := fun e inside missing => by
    rcases List.mem_append.mp inside with inFront | inRest
    · exact absurd rfl (missing e (List.mem_append_left _ inFront))
    · rcases List.mem_cons.mp inRest with rfl | behind
      · exact gone
      · exact absurd rfl (missing e (List.mem_append_right _ behind))

theorem erase_at {front rest : List ListItem} {a : Addr} (none : ∀ e ∈ front, e.2 ≠ data) :
    ((front ++ (a, data) :: rest).map Prod.snd).erase data = (front ++ rest).map Prod.snd := by
  have absent : data ∉ front.map Prod.snd := by
    rw [List.mem_map]
    rintro ⟨e, inside, same⟩
    exact none e inside same
  rw [List.map_append, List.map_append, List.erase_append_right _ absent, List.map_cons, List.erase_cons_head]

theorem zlistRemove_eq (seg : nodeLinks.Segment h 0 p chain) (enough : chain.length < fuel) (data : PPointer) :
    ∃ p' h' chain', zlistRemove fuel p data h = .ok (p', h') ∧ Changed h h' p' chain chain' ∧
      chain'.map Prod.snd = (chain.map Prod.snd).erase data := by
  unfold zlistRemove
  split
  · next null =>
      obtain rfl := (null_iff seg).mp null
      exact ⟨0, h, [], rfl, .same rfl, rfl⟩
  · rcases split_at chain data with none | ⟨front, a, rest, rfl, none⟩
    · obtain ⟨more, rfl⟩ := Nat.exists_eq_add_of_lt enough
      have absent : data ∉ chain.map Prod.snd := by
        rw [List.mem_map]
        rintro ⟨e, inside, same⟩
        exact none e inside same
      refine ⟨p, h, chain, ?_, .same seg, (List.erase_of_not_mem absent).symm⟩
      rw [Nat.add_assoc, removeLoop_skip seg none]
      rfl
    · obtain ⟨q, start, found⟩ := Links.segment_append.mp seg
      obtain ⟨next, rfl, here, -⟩ := load_item found
      have nonnull : q ≠ 0 := found.nonnull (d := data) (by simp)
      have shorter : front.length < fuel := by
        rw [List.length_append] at enough
        omega
      obtain ⟨more, rfl⟩ := Nat.exists_eq_add_of_lt shorter
      rw [Nat.add_assoc, removeLoop_skip start none]
      simp only [removeLoop, if_neg nonnull, Heap.load_of_cell here, Exec.ok_bind, if_true]
      rcases List.eq_nil_or_concat front with rfl | ⟨front, ⟨b, e⟩, rfl⟩
      · refine ⟨next, h.erase q, rest, ?_, ?_, (erase_at none).symm⟩
        · simp [before, Heap.free_of_cell here]
        · have listed : nodeLinks.Segment (h.erase q) 0 next ([] ++ rest) := seg.unlinkHead here
          apply Changed.removed listed
          · intro x apart
            have other : x ≠ q := fun same => apart (q, data) (by simp) same.symm
            simp [other]
          · simp
      · rw [List.concat_eq_append] at seg none ⊢
        rw [before_concat]
        have spliced : nodeLinks.Segment h 0 p (front ++ (b, e) :: (q, data) :: rest) := by simpa using seg
        have nonnullB : b ≠ 0 := seg.nonnull (d := e) (by simp)
        have apart : q ≠ b := ((spliced.apart).2 (q, data) (by simp))
        obtain ⟨c, atB, -⟩ := seg.cell (a := b) (d := e) (by simp)
        have still : (h.adjust b fun node => { node with next := next }).cell q = some ⟨data, next⟩ := by
          rw [Heap.cell_adjust_ne h apart, here]
        refine ⟨p, (h.adjust b fun node => { node with next := next }).erase q, front ++ [(b, e)] ++ rest, ?_, ?_,
          (erase_at none).symm⟩
        · simp only [if_neg nonnullB, Heap.modify_of_cell atB, Exec.ok_bind, Heap.free_of_cell still]
          rfl
        · apply Changed.removed
          · simpa using spliced.unlinkNext (f := fun node => { node with next := next }) here (fun _ => rfl) fun _ => rfl
          · intro x others
            have notQ : x ≠ q := fun same => others (q, data) (by simp) same.symm
            have notB : x ≠ b := fun same => others (b, e) (by simp) same.symm
            rw [Heap.cell_erase, if_neg notQ, Heap.cell_adjust_ne h notB]
          · simp

theorem foreachLoop_eq {σ : Type} (func : PPointer → σ → σ) (seg : nodeLinks.Segment h 0 p chain)
    (enough : chain.length < fuel) (userData : σ) :
    foreachLoop func h fuel p userData = .ok ((chain.map Prod.snd).foldl (fun s data => func data s) userData) := by
  induction chain generalizing p fuel userData with
  | nil =>
      obtain rfl : p = 0 := seg
      cases fuel with
      | zero => omega
      | succ fuel => rfl
  | cons e chain ih =>
      obtain ⟨a, d⟩ := e
      obtain ⟨next, rfl, here, back⟩ := load_item seg
      have nonnull : p ≠ 0 := seg.nonnull (d := d) (by simp)
      rw [List.length_cons] at enough
      cases fuel with
      | zero => omega
      | succ fuel =>
          simp only [foreachLoop, if_neg nonnull, Heap.load_of_cell here, Exec.ok_bind]
          exact ih back (by omega) (func d userData)

theorem zlistForeach_eq {σ : Type} (func : PPointer → σ → σ) (seg : nodeLinks.Segment h 0 p chain)
    (enough : chain.length < fuel) (userData : σ) : zlistForeach fuel p (some func) userData h =
      .ok ((chain.map Prod.snd).foldl (fun s data => func data s) userData) := by
  unfold zlistForeach
  dsimp only
  split
  · next null =>
      obtain rfl := (null_iff seg).mp null
      rfl
  · exact foreachLoop_eq func seg enough userData

/-- The loop frees the nodes of the list, each once. -/
theorem freeLoop_eq (seg : nodeLinks.Segment h 0 p chain) (enough : chain.length < fuel) :
    ∃ h', freeLoop fuel p p h = .ok h' ∧ (∀ a, (∀ e ∈ chain, e.1 ≠ a) → h'.cell a = h.cell a) ∧
      ∀ e ∈ chain, h'.cell e.1 = none := by
  induction chain generalizing p fuel h with
  | nil =>
      obtain rfl : p = 0 := seg
      cases fuel with
      | zero => omega
      | succ fuel => exact ⟨h, rfl, fun _ _ => rfl, nofun⟩
  | cons e chain ih =>
      obtain ⟨a, d⟩ := e
      have whole := seg
      obtain ⟨next, rfl, here, -⟩ := load_item seg
      have nonnull : p ≠ 0 := whole.nonnull (d := d) (by simp)
      rw [List.length_cons] at enough
      cases fuel with
      | zero => omega
      | succ fuel =>
          have less : chain.length < fuel := by omega
          obtain ⟨h', freed, others, gone⟩ := ih (whole.unlinkHead here) less
          refine ⟨h', ?_, ?_, ?_⟩
          · simp only [freeLoop, ne_eq, nonnull, not_false_eq_true, and_self, if_true, Heap.load_of_cell here, Exec.ok_bind,
              Heap.free_of_cell here]
            exact freed
          · intro b apart
            rw [others b fun e inside => apart e (List.mem_cons_of_mem _ inside)]
            have other : b ≠ p := fun same => apart (p, d) (by simp) same.symm
            simp [other]
          · intro e inside
            by_cases behind : ∀ e' ∈ chain, e'.1 ≠ e.1
            · rw [others e.1 behind]
              rcases List.mem_cons.mp inside with rfl | again
              · simp
              · exact absurd rfl (behind e again)
            · push Not at behind
              obtain ⟨e', again, same⟩ := behind
              rw [← same]
              exact gone e' again

theorem zlistFree_eq (seg : nodeLinks.Segment h 0 p chain) (enough : chain.length < fuel) :
    ∃ h', zlistFree fuel p h = .ok h' ∧ Changed h h' 0 chain [] := by
  unfold zlistFree
  split
  · next null =>
      obtain rfl := (null_iff seg).mp null
      exact ⟨h, rfl, .same rfl⟩
  · obtain ⟨h', freed, others, gone⟩ := freeLoop_eq seg enough
    refine ⟨h', freed, rfl, fun a apart _ => others a apart, fun e inside => ?_, fun e inside _ => gone e inside⟩
    exact absurd inside List.not_mem_nil

theorem zlistLast_eq (seg : nodeLinks.Segment h 0 p chain) (enough : chain.length < fuel) :
    zlistLast fuel p h = .ok ((chain.map Prod.fst).getLast?.getD 0) := by
  unfold zlistLast
  rcases List.eq_nil_or_concat chain with rfl | ⟨front, ⟨b, d⟩, rfl⟩
  · obtain rfl : p = 0 := seg
    rfl
  · rw [List.concat_eq_append] at seg enough ⊢
    have nonnull : p ≠ 0 := by
      rw [Ne, null_iff seg]
      simp
    rw [if_neg nonnull, lastFrom_eq seg (by simp at enough; omega)]
    simp

theorem lengthLoop_eq {a : Addr} {d : PPointer} (seg : nodeLinks.Segment h 0 p ((a, d) :: chain))
    (enough : chain.length < fuel) (ret : PSize) :
    lengthLoop h fuel p ret = .ok (ret + BitVec.ofNat 64 chain.length) := by
  induction chain generalizing p a d fuel ret with
  | nil =>
      obtain ⟨next, rfl, here, last⟩ := load_item seg
      obtain rfl : next = 0 := last
      cases fuel with
      | zero => omega
      | succ fuel => simp [lengthLoop, Heap.load_of_cell here]
  | cons e chain ih =>
      obtain ⟨next, rfl, here, back⟩ := load_item seg
      have nonnull : next ≠ 0 := by
        rw [Ne, null_iff back]
        simp
      rw [List.length_cons] at enough
      cases fuel with
      | zero => omega
      | succ fuel =>
          simp only [lengthLoop, Heap.load_of_cell here, Exec.ok_bind, if_neg nonnull]
          rw [ih back (by omega), List.length_cons, BitVec.add_assoc, Nat.add_comm, BitVec.ofNat_add]
          rfl

theorem zlistLength_eq (seg : nodeLinks.Segment h 0 p chain) (enough : chain.length < fuel) :
    zlistLength fuel p h = .ok (BitVec.ofNat 64 chain.length) := by
  unfold zlistLength
  cases chain with
  | nil =>
      obtain rfl : p = 0 := seg
      rfl
  | cons e chain =>
      have nonnull : p ≠ 0 := by
        rw [Ne, null_iff seg]
        simp
      rw [if_neg nonnull, lengthLoop_eq seg (by simp at enough; omega), List.length_cons, Nat.add_comm, BitVec.ofNat_add]
      rfl

/-- One turn takes a node from the rest of the list to the front of what is reversed. -/
theorem reverseLoop_eq {prev : Addr} {done : List ListItem} (reversed : nodeLinks.Segment h 0 prev done)
    (seg : nodeLinks.Segment h 0 p chain) (apart : ∀ e ∈ done, ∀ e' ∈ chain, e.1 ≠ e'.1) (enough : chain.length < fuel) :
    ∃ p' h', reverseLoop fuel prev p h = .ok (p', h') ∧ nodeLinks.Segment h' 0 p' (chain.reverse ++ done) ∧
      ∀ a, (∀ e ∈ chain, e.1 ≠ a) → h'.cell a = h.cell a := by
  induction chain generalizing prev p done fuel h with
  | nil =>
      obtain rfl : p = 0 := seg
      cases fuel with
      | zero => omega
      | succ fuel => exact ⟨prev, h, rfl, reversed, fun _ _ => rfl⟩
  | cons e chain ih =>
      obtain ⟨a, d⟩ := e
      have whole := seg
      obtain ⟨next, rfl, here, back⟩ := load_item seg
      have nonnull : p ≠ 0 := whole.nonnull (d := d) (by simp)
      have behind : ∀ e ∈ chain, e.1 ≠ p := (Links.Segment.apart (l := []) whole).2
      rw [List.length_cons] at enough
      cases fuel with
      | zero => omega
      | succ fuel =>
          have turned : nodeLinks.Segment (h.adjust p fun node => { node with next := prev }) 0 p ((p, d) :: done) := by
            refine ⟨rfl, ⟨d, prev⟩, by simp [here], rfl, reversed.frame fun e inside => ?_⟩
            exact Heap.cell_adjust_ne h (apart e inside (p, d) (by simp)) _
          have rest : nodeLinks.Segment (h.adjust p fun node => { node with next := prev }) 0 next chain :=
            back.frame fun e inside => Heap.cell_adjust_ne h (behind e inside) _
          have apart' : ∀ e ∈ (p, d) :: done, ∀ e' ∈ chain, e.1 ≠ e'.1 := by
            rintro e (_ | ⟨_, inside⟩) e' inside'
            · exact (behind e' inside').symm
            · exact apart e inside e' (List.mem_cons_of_mem _ inside')
          have less : chain.length < fuel := by omega
          obtain ⟨p', h', ran, listed, others⟩ := ih turned rest apart' less
          refine ⟨p', h', ?_, ?_, ?_⟩
          · simp only [reverseLoop, if_neg nonnull, Heap.load_of_cell here, Exec.ok_bind, Heap.modify_of_cell here]
            exact ran
          · simpa using listed
          · intro b other
            rw [others b fun e inside => other e (List.mem_cons_of_mem _ inside)]
            exact Heap.cell_adjust_ne h (fun same => other (p, d) (by simp) same.symm) _

theorem zlistReverse_eq (seg : nodeLinks.Segment h 0 p chain) (enough : chain.length < fuel) :
    ∃ p' h', zlistReverse fuel p h = .ok (p', h') ∧ Changed h h' p' chain chain.reverse := by
  have same : zlistReverse fuel p h = reverseLoop (fuel + 1) 0 p h := rfl
  have nothing : nodeLinks.Segment h 0 0 [] := rfl
  have apart : ∀ e ∈ ([] : List ListItem), ∀ e' ∈ chain, e.1 ≠ e'.1 := fun e inside => absurd inside List.not_mem_nil
  obtain ⟨p', h', ran, listed, others⟩ := reverseLoop_eq nothing seg apart (Nat.lt_succ_of_lt enough)
  rw [List.append_nil] at listed
  refine ⟨p', h', same.trans ran, listed, fun a apart _ => others a apart, ?_, ?_⟩
  · intro e inside
    exact .inl ⟨e.2, List.mem_reverse.mp inside⟩
  · intro e inside gone
    exact absurd rfl (gone e (List.mem_reverse.mpr inside))

end Calls

/-! ## The calls on sequences -/

namespace ListSpec

/-- One call on the sequences.  A new element needs memory. -/
def step (op : ListOp) (m : Nat → List PPointer) : ListReply × (Nat → List PPointer) :=
  match op with
  | .append malloc list data => (.done, Function.update m list (if malloc.isSome then m list ++ [data] else m list))
  | .prepend malloc list data => (.done, Function.update m list (if malloc.isSome then data :: m list else m list))
  | .remove list data => (.done, Function.update m list ((m list).erase data))
  | .reverse list => (.done, Function.update m list (m list).reverse)
  | .free list => (.done, Function.update m list [])
  | .length list => (.length (BitVec.ofNat 64 (m list).length), m)
  | .last list => (.last (m list).getLast?, m)
  | .foreach list => (.called (m list), m)

def run : List ListOp → (Nat → List PPointer) → List ListReply × (Nat → List PPointer)
  | [], m => ([], m)
  | op :: ops, m => ((step op m).1 :: (run ops (step op m).2).1, (run ops (step op m).2).2)

/-- The replies to a sequence of calls on empty lists. -/
def replies (ops : List ListOp) : List ListReply := (run ops fun _ => []).1

/-- The sequences after a sequence of calls on empty lists. -/
def state (ops : List ListOp) : Nat → List PPointer := (run ops fun _ => []).2

end ListSpec

/-- The lists of the heap are these sequences, and the heap has no other nodes. -/
structure Represents (s : ListClients) (chains : Nat → List ListItem) (m : Nat → List PPointer) (bound : Nat) : Prop where
  listed : ∀ i, nodeLinks.Segment s.nodes 0 (s.heads i) (chains i)
  stored : ∀ i, (chains i).map Prod.snd = m i
  apart : ∀ i j, i ≠ j → ∀ e ∈ chains i, ∀ e' ∈ chains j, e.1 ≠ e'.1
  owned : ∀ a c, s.nodes.cell a = some c → ∃ i, ∃ e ∈ chains i, e.1 = a
  short : ∀ i, (m i).length ≤ bound

namespace Represents

variable {s : ListClients} {chains : Nat → List ListItem} {m : Nat → List PPointer} {bound fuel : Nat}

theorem mono (rep : Represents s chains m bound) : Represents s chains m (bound + 1) :=
  { rep with short := fun i => Nat.le_succ_of_le (rep.short i) }

theorem enough (rep : Represents s chains m bound) (small : bound < fuel) (i : Nat) : (chains i).length < fuel := by
  have short := rep.short i
  rw [← rep.stored, List.length_map] at short
  omega

/-- A call on one list. -/
theorem change (rep : Represents s chains m bound) {i : Nat} {h' : Heap PList} {p' : Addr} {chain' : List ListItem}
    {data : List PPointer} (changed : Changed s.nodes h' p' (chains i) chain') (stored : chain'.map Prod.snd = data)
    (short : data.length ≤ bound + 1) :
    Represents ⟨h', Function.update s.heads i p'⟩ (Function.update chains i chain') (Function.update m i data) (bound + 1) := by
  -- the nodes of another list are neither of the old chain nor of the new one
  have elsewhere : ∀ j, j ≠ i → ∀ e ∈ chains j, ∀ e' ∈ chain', e'.1 ≠ e.1 := by
    intro j other e inside e' inside' same
    rcases changed.fresh e' inside' with ⟨d, old⟩ | free
    · exact rep.apart j i other e inside (e'.1, d) old same.symm
    · obtain ⟨c, here, -⟩ := (rep.listed j).cell (a := e.1) (d := e.2) inside
      rw [← same, free] at here
      cases here
  constructor
  case listed =>
    intro j
    by_cases here : j = i
    · subst here
      simpa using changed.listed
    · simp only [Function.update_of_ne here]
      refine (rep.listed j).frame fun e inside => changed.others e.1 ?_ ?_
      · exact fun e' inside' => rep.apart i j (Ne.symm here) e' inside' e inside
      · exact elsewhere j here e inside
  case stored =>
    intro j
    by_cases here : j = i
    · subst here
      simpa using stored
    · simpa only [Function.update_of_ne here] using rep.stored j
  case apart =>
    intro j k other e inside e' inside'
    by_cases here : j = i
    · subst here
      rw [Function.update_self] at inside
      rw [Function.update_of_ne (Ne.symm other)] at inside'
      exact elsewhere k (Ne.symm other) e' inside' e inside
    · rw [Function.update_of_ne here] at inside
      by_cases there : k = i
      · subst there
        rw [Function.update_self] at inside'
        exact (elsewhere j here e inside e' inside').symm
      · rw [Function.update_of_ne there] at inside'
        exact rep.apart j k other e inside e' inside'
  case owned =>
    intro a c cell
    by_cases mine : ∃ e ∈ chain', e.1 = a
    · obtain ⟨e, inside, same⟩ := mine
      exact ⟨i, e, by simpa using inside, same⟩
    · push Not at mine
      by_cases was : ∃ e ∈ chains i, e.1 = a
      · obtain ⟨e, inside, rfl⟩ := was
        rw [changed.freed e inside mine] at cell
        cases cell
      · push Not at was
        rw [changed.others a was mine] at cell
        obtain ⟨j, e, inside, same⟩ := rep.owned a c cell
        have other : j ≠ i := by
          rintro rfl
          exact was e inside same
        exact ⟨j, e, by rwa [Function.update_of_ne other], same⟩
  case short =>
    intro j
    by_cases here : j = i
    · subst here
      simpa using short
    · simpa only [Function.update_of_ne here] using Nat.le_succ_of_le (rep.short j)

end Represents

section Refinement

variable {s : ListClients} {chains : Nat → List ListItem} {m : Nat → List PPointer} {bound fuel : Nat}

/-- One call follows the sequences. -/
theorem step_refines (rep : Represents s chains m bound) (small : bound < fuel) (op : ListOp) :
    ∃ s' chains', s.step fuel op = .ok ((ListSpec.step op m).1, s') ∧
      Represents s' chains' (ListSpec.step op m).2 (bound + 1) := by
  cases op with
  | append malloc list data =>
      obtain ⟨p', h', chain', called, changed, stored⟩ :=
        zlistAppend_eq (rep.listed list) (rep.enough small list) malloc data
      rw [rep.stored] at stored
      refine ⟨_, _, ?_, rep.change changed stored ?_⟩
      · simp only [ListClients.step, ListClients.keep, called, Exec.ok_bind]
        rfl
      · have short := rep.short list
        split <;> simp <;> omega
  | prepend malloc list data =>
      obtain ⟨p', h', chain', called, changed, stored⟩ := zlistPrepend_eq (rep.listed list) malloc data
      rw [rep.stored] at stored
      refine ⟨_, _, ?_, rep.change changed stored ?_⟩
      · simp only [ListClients.step, ListClients.keep, called, Exec.ok_bind]
        rfl
      · have short := rep.short list
        split <;> simp <;> omega
  | remove list data =>
      obtain ⟨p', h', chain', called, changed, stored⟩ := zlistRemove_eq (rep.listed list) (rep.enough small list) data
      rw [rep.stored] at stored
      refine ⟨_, _, ?_, rep.change changed stored ?_⟩
      · simp only [ListClients.step, ListClients.keep, called, Exec.ok_bind]
        rfl
      · exact Nat.le_succ_of_le (Nat.le_trans List.length_erase_le (rep.short list))
  | reverse list =>
      obtain ⟨p', h', called, changed⟩ := zlistReverse_eq (rep.listed list) (rep.enough small list)
      have stored : (chains list).reverse.map Prod.snd = (m list).reverse := by rw [List.map_reverse, rep.stored]
      refine ⟨_, _, ?_, rep.change changed stored ?_⟩
      · simp only [ListClients.step, ListClients.keep, called, Exec.ok_bind]
        rfl
      · rw [List.length_reverse]
        exact Nat.le_succ_of_le (rep.short list)
  | free list =>
      obtain ⟨h', called, changed⟩ := zlistFree_eq (rep.listed list) (rep.enough small list)
      refine ⟨_, _, ?_, rep.change changed rfl (Nat.zero_le _)⟩
      simp only [ListClients.step, ListClients.keep, called, Exec.ok_bind, Exec.pure_eq_ok]
      rfl
  | length list =>
      refine ⟨s, chains, ?_, rep.mono⟩
      simp only [ListClients.step, zlistLength_eq (rep.listed list) (rep.enough small list), Exec.ok_bind]
      rw [← List.length_map Prod.snd, rep.stored]
      rfl
  | last list =>
      refine ⟨s, chains, ?_, rep.mono⟩
      simp only [ListClients.step, zlistLast_eq (rep.listed list) (rep.enough small list), Exec.ok_bind, ListSpec.step,
        ← rep.stored]
      have seg := rep.listed list
      rcases List.eq_nil_or_concat (chains list) with none | ⟨front, ⟨b, d⟩, some⟩
      · rw [none]
        rfl
      · rw [List.concat_eq_append] at some
        rw [some] at seg ⊢
        obtain ⟨c, here, data⟩ := seg.cell (a := b) (d := d) (by simp)
        have nonnull : b ≠ 0 := seg.nonnull (d := d) (by simp)
        obtain rfl : c.data = d := data
        simp [nonnull, Heap.load_of_cell here]
  | foreach list =>
      refine ⟨s, chains, ?_, rep.mono⟩
      have collect : ∀ (l called : List PPointer), l.foldl (fun called data => called ++ [data]) called = called ++ l := by
        intro l
        induction l with
        | nil => simp
        | cons data l ih =>
            intro called
            rw [List.foldl_cons, ih, List.append_assoc, List.singleton_append]
      simp only [ListClients.step, zlistForeach_eq _ (rep.listed list) (rep.enough small list), Exec.ok_bind, ListSpec.step,
        collect, List.nil_append, rep.stored]
      rfl

theorem run_refines (ops : List ListOp) (rep : Represents s chains m bound) (small : bound + ops.length < fuel) :
    ∃ s' chains', s.run fuel ops = .ok ((ListSpec.run ops m).1, s') ∧
      Represents s' chains' (ListSpec.run ops m).2 (bound + ops.length) := by
  induction ops generalizing s chains m bound with
  | nil => exact ⟨s, chains, rfl, rep⟩
  | cons op ops ih =>
      rw [List.length_cons] at small
      have now : bound < fuel := by omega
      have later : bound + 1 + ops.length < fuel := by omega
      obtain ⟨s', chains', stepped, rep'⟩ := step_refines rep now op
      obtain ⟨s'', chains'', ran, rep''⟩ := ih rep' later
      refine ⟨s'', chains'', ?_, ?_⟩
      · rw [ListClients.run, stepped, Exec.ok_bind]
        simp only [ran]
        rfl
      · rw [List.length_cons, show bound + (ops.length + 1) = bound + 1 + ops.length by omega]
        exact rep''

end Refinement

theorem represents_new : Represents .new (fun _ => []) (fun _ => []) 0 where
  listed := fun _ => rfl
  stored := fun _ => rfl
  apart := nofun
  owned := nofun
  short := fun _ => Nat.le_refl 0

/-- Whatever is called on the lists in whatever order, the answers are those of sequences, the
    lists have no nodes in common, and there is no node in the heap that is in no list. -/
theorem lists_refine_sequences (ops : List ListOp) {fuel : Nat} (enough : ops.length < fuel) :
    ∃ (s : ListClients) (chains : Nat → List ListItem), ListClients.new.run fuel ops = .ok (ListSpec.replies ops, s) ∧
      (∀ i, nodeLinks.Segment s.nodes 0 (s.heads i) (chains i) ∧ (chains i).map Prod.snd = ListSpec.state ops i) ∧
      (∀ i j, i ≠ j → ∀ e ∈ chains i, ∀ e' ∈ chains j, e.1 ≠ e'.1) ∧
      ∀ a, (s.nodes.cell a).isSome ↔ ∃ i, ∃ e ∈ chains i, e.1 = a := by
  have small : 0 + ops.length < fuel := by omega
  obtain ⟨s, chains, ran, rep⟩ := run_refines ops represents_new small
  refine ⟨s, chains, ran, fun i => ⟨rep.listed i, rep.stored i⟩, rep.apart, fun a => ?_⟩
  constructor
  · intro some
    obtain ⟨c, here⟩ := Option.isSome_iff_exists.mp some
    exact rep.owned a c here
  · rintro ⟨i, e, inside, rfl⟩
    obtain ⟨c, here, -⟩ := (rep.listed i).cell (a := e.1) (d := e.2) inside
    rw [here]
    rfl

/-- Two lists: one is reversed and loses its first 5, the other one is freed. -/
def twoLists : List ListOp :=
  [.append (some .bump) 0 5, .prepend (some .bump) 1 7, .append (some .bump) 0 6, .append (some .bump) 0 5,
    .append none 0 8, .reverse 0, .remove 0 5, .free 1, .length 0, .last 0, .foreach 0, .last 1]

theorem lists_refine_sequences_two : ∃ s : ListClients, ListClients.new.run 13 twoLists =
    .ok ([.done, .done, .done, .done, .done, .done, .done, .done, .length 2, .last (some 5), .called [6, 5], .last none], s) := by
  have enough : twoLists.length < 13 := by decide
  obtain ⟨s, chains, ran, -⟩ := lists_refine_sequences twoLists enough
  exact ⟨s, ran⟩

end Plibsys.Lists
