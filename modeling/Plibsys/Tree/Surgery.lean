import Plibsys.Tree.State

/-! # What the elementary tree steps do

Each lemma takes a state that holds a tree, seen as a subtree plugged into a path,
runs one loop or one assignment of the node functions on it, and names the tree
held afterwards.  The node functions of the three tree kinds are then followed
without looking at the heap again.
-/

namespace Plibsys.Tree

open Support

section Path

variable {K V T : Type}

/-- The slot the hole of a path stands for. -/
def slotOf : Path K V T → Slot
  | [] => .root
  | f :: _ => .child f.label.addr f.side

/-- Follow the right links from the root of a subtree. -/
def rightmost : Path K V T → LTree K V T → Path K V T × LTree K V T
  | c, .nil => (c, .nil)
  | c, .node l q r =>
      match r with
      | .nil => (c, .node l q .nil)
      | .node _ _ _ => rightmost (⟨.right, q, l⟩ :: c) r

theorem rightmost_append (c c' : Path K V T) (t : LTree K V T) :
    rightmost (c ++ c') t = ((rightmost c t).1 ++ c', (rightmost c t).2) := by
  induction t generalizing c with
  | nil => rfl
  | node l q r _ ihr =>
      cases r with
      | nil => rfl
      | node rl rq rr => exact ihr (⟨.right, q, l⟩ :: c)

theorem rightmost_plug (c : Path K V T) (t : LTree K V T) :
    (rightmost c t).1.plug (rightmost c t).2 = c.plug t := by
  induction t generalizing c with
  | nil => rfl
  | node l q r _ ihr =>
      cases r with
      | nil => rfl
      | node rl rq rr => exact ihr (⟨.right, q, l⟩ :: c)

theorem rightmost_stop (c : Path K V T) {t : LTree K V T} (nonempty : t ≠ .nil) :
    ∃ l q, (rightmost c t).2 = .node l q .nil := by
  induction t generalizing c with
  | nil => exact absurd rfl nonempty
  | node l q r _ ihr =>
      cases r with
      | nil => exact ⟨l, q, rfl⟩
      | node rl rq rr => exact ihr (⟨.right, q, l⟩ :: c) (by simp)

/-- Nothing of the subtree comes after its rightmost node. -/
theorem rightmost_after (c : Path K V T) (t : LTree K V T) :
    (rightmost c t).1.after = c.after := by
  induction t generalizing c with
  | nil => rfl
  | node l q r _ ihr =>
      cases r with
      | nil => rfl
      | node rl rq rr => exact ihr (⟨.right, q, l⟩ :: c)

end Path

namespace TreeState

variable {X T : Type} [NodeExt X T]

/-- The nodes of the state are those of `t`, linked from the root pointer, and the
    detached nodes `rest`. -/
def HoldsBeside (st : TreeState X) (rest : Addr → Option (Node PPointer PPointer X))
    (t : LTree PPointer PPointer T) : Prop :=
  Support.Holds st.heap st.root rest t

/-- The nodes of the state are exactly those of `t`. -/
def Holds (st : TreeState X) (t : LTree PPointer PPointer T) : Prop :=
  st.HoldsBeside (fun _ => none) t

variable {rest : Addr → Option (Node PPointer PPointer X)}
variable {st : TreeState X} {c : Path PPointer PPointer T} {t near far : LTree PPointer PPointer T}
variable {d : Side} {q q' : Label PPointer PPointer T}

theorem holds_empty : (empty : TreeState X).Holds (.nil : LTree PPointer PPointer T) :=
  Support.Holds.nil

theorem load_focus (holds : st.HoldsBeside rest (c.plug (.branch d q near far))) :
    st.load q.addr = .ok (q.cell d near.addr far.addr c.top) :=
  Heap.load_of_cell (Support.Holds.cell holds)

theorem load_top {f : Frame PPointer PPointer T} (holds : st.HoldsBeside rest (Path.plug (f :: c) t)) :
    st.load f.label.addr = .ok (f.label.cell f.side t.addr f.sibling.addr c.top) :=
  load_focus (d := f.side) (c := c) holds

theorem modify_of_cell {a : Addr} {n : Node PPointer PPointer X}
    (cell : st.heap.cell a = some n) (f : Node PPointer PPointer X → Node PPointer PPointer X) :
    st.modify a f = .ok { st with heap := st.heap.adjust a f } := by
  simp [modify, cell]

/-- Rewriting a node in place rewrites its label. -/
theorem modify_focus (q' : Label PPointer PPointer T)
    (holds : st.HoldsBeside rest (c.plug (.branch d q near far)))
    (f : Node PPointer PPointer X → Node PPointer PPointer X) (addr : q'.addr = q.addr)
    (change : f (q.cell d near.addr far.addr c.top) = q'.cell d near.addr far.addr c.top) :
    ∃ st' : TreeState X, st.modify q.addr f = .ok st' ∧
      st'.HoldsBeside rest (c.plug (.branch d q' near far)) ∧ st'.trace = st.trace :=
  ⟨_, modify_of_cell (Support.Holds.cell holds) f, Support.Holds.relabel holds f addr change, rfl⟩

theorem readSlot_path (holds : st.HoldsBeside rest (c.plug t)) : st.readSlot (slotOf c) = .ok t.addr := by
  cases c with
  | nil => exact congrArg Except.ok (Support.Holds.root_eq holds)
  | cons f c => simp [slotOf, readSlot, load_top holds]

theorem nonnull_of_ne_nil (holds : st.HoldsBeside rest (c.plug t)) (nonempty : t ≠ .nil) : t.addr ≠ 0 := by
  cases t with
  | nil => exact absurd rfl nonempty
  | node l q r => exact Support.Holds.nonnull (d := .left) holds

theorem addr_eq_zero_iff (holds : st.HoldsBeside rest (c.plug t)) : t.addr = 0 ↔ t = .nil := by
  constructor
  · intro null
    by_contra nonempty
    exact nonnull_of_ne_nil holds nonempty null
  · rintro rfl
    rfl

/-- The insert loop stops at the slot of the search path, with the node above an
    empty slot as its parent. -/
theorem findSlot_descend (compare : PPointer → PPointer → Int) (key : PPointer) {fuel : Nat}
    (parent : Addr) (holds : st.HoldsBeside rest (c.plug t)) (enough : t.size < fuel)
    (above : t = .nil → parent = c.top) :
    ∃ parent', st.findSlot compare key fuel (slotOf c) parent =
        .ok (slotOf (t.descend compare key c).1, parent') ∧
      ((t.descend compare key c).2 = .nil → parent' = (t.descend compare key c).1.top) := by
  induction t generalizing c fuel parent with
  | nil =>
      obtain ⟨fuel, rfl⟩ : ∃ n, fuel = n + 1 := ⟨fuel - 1, by simp at enough; omega⟩
      refine ⟨parent, ?_, fun _ => above rfl⟩
      simp [findSlot, readSlot_path holds, LTree.descend]
  | node l q r ihl ihr =>
      obtain ⟨fuel, rfl⟩ : ∃ n, fuel = n + 1 := ⟨fuel - 1, by omega⟩
      have nonnull : q.addr ≠ 0 := Support.Holds.nonnull (d := .left) holds
      have loaded := load_focus (d := .left) holds
      simp only [LTree.size_node] at enough
      simp only [findSlot, readSlot_path holds, LTree.addr_node, Exec.ok_bind, nonnull, if_false,
        loaded, Label.cell_key, LTree.descend]
      split
      · exact ihl (c := ⟨.left, q, r⟩ :: c) _ holds (by omega) (fun _ => rfl)
      · split
        · exact ihr (c := ⟨.right, q, l⟩ :: c) _ holds (by omega) (fun _ => rfl)
        · exact ⟨parent, rfl, by simp⟩

/-- The remove loop stops at the node the search ends in. -/
theorem findNode_descend (compare : PPointer → PPointer → Int) (key : PPointer) {fuel : Nat}
    (holds : st.HoldsBeside rest (c.plug t)) (enough : t.size < fuel) :
    st.findNode compare key fuel t.addr = .ok (t.descend compare key c).2.addr := by
  induction t generalizing c fuel with
  | nil =>
      obtain ⟨fuel, rfl⟩ : ∃ n, fuel = n + 1 := ⟨fuel - 1, by simp at enough; omega⟩
      rfl
  | node l q r ihl ihr =>
      obtain ⟨fuel, rfl⟩ : ∃ n, fuel = n + 1 := ⟨fuel - 1, by omega⟩
      have nonnull : q.addr ≠ 0 := Support.Holds.nonnull (d := .left) holds
      have loaded := load_focus (d := .left) holds
      simp only [LTree.size_node] at enough
      simp only [findNode, LTree.addr_node, nonnull, if_false, Exec.ok_bind, loaded,
        Label.cell_key, LTree.descend]
      split
      · exact ihl (c := ⟨.left, q, r⟩ :: c) holds (by omega)
      · split
        · exact ihr (c := ⟨.right, q, l⟩ :: c) holds (by omega)
        · rfl

theorem lastRight_rightmost {fuel : Nat} (holds : st.HoldsBeside rest (c.plug t)) (nonempty : t ≠ .nil)
    (enough : t.size < fuel) :
    st.lastRight fuel (slotOf c) t.addr =
      .ok (slotOf (rightmost c t).1, (rightmost c t).2.addr) := by
  induction t generalizing c fuel with
  | nil => exact absurd rfl nonempty
  | node l q r _ ihr =>
      obtain ⟨fuel, rfl⟩ : ∃ n, fuel = n + 1 := ⟨fuel - 1, by omega⟩
      have loaded := load_focus (d := .left) holds
      simp only [LTree.size_node] at enough
      cases r with
      | nil => simp [lastRight, loaded, rightmost, Label.cell]
      | node rl rq rr =>
          have nonnull : rq.addr ≠ 0 :=
            Support.Holds.nonnull (c := ⟨.right, q, l⟩ :: c) (d := .left) holds
          have tail : st.lastRight fuel (slotOf (⟨.right, q, l⟩ :: c)) rq.addr = _ :=
            ihr (c := ⟨.right, q, l⟩ :: c) holds (by simp) (by simp at enough ⊢; omega)
          rw [lastRight, LTree.addr_node, loaded]
          simp only [Exec.ok_bind, Label.cell, LTree.addr_node, ne_eq, nonnull, not_false_eq_true,
            if_true]
          exact tail

/-- The root pointer once the hole of a path is filled with `x`. -/
def rootAfter (root : Addr) : Path PPointer PPointer T → Addr → Addr
  | [], x => x
  | _ :: _, _ => root

theorem rootAfter_eq (holds : st.HoldsBeside rest (c.plug t)) (x : Addr) :
    rootAfter st.root c x = c.rootOf x := by
  cases c with
  | nil => rfl
  | cons f c => exact Support.Holds.root_plug holds

theorem writeSlot_path (holds : st.HoldsBeside rest (c.plug t)) {heap : Heap (Node PPointer PPointer X)}
    (kept : ∀ b ∈ c.addrs, heap.cell b = st.heap.cell b) (trace : List Event) (x : Addr) :
    (⟨heap, st.root, trace⟩ : TreeState X).writeSlot (slotOf c) x =
      .ok ⟨setLink heap c x, rootAfter st.root c x, trace⟩ := by
  cases c with
  | nil => rfl
  | cons f c =>
      have cell := kept f.label.addr (by simp [Path.mem_addrs_cons])
      rw [(Support.Holds.path holds).1] at cell
      exact modify_of_cell cell _

/-- Writing the null pointer into an empty slot changes nothing. -/
theorem writeSlot_null (holds : st.HoldsBeside rest (c.plug (.nil : LTree PPointer PPointer T))) :
    st.writeSlot (slotOf c) 0 = .ok st := by
  rw [show st = ⟨st.heap, st.root, st.trace⟩ from rfl, writeSlot_path holds (fun _ _ => rfl)]
  cases c with
  | nil =>
      have null : st.root = 0 := Support.Holds.root_eq holds
      simp [rootAfter, null]
  | cons f c =>
      have cell := (Support.Holds.path holds).1
      have unchanged : setLink st.heap (f :: c) 0 = st.heap :=
        Heap.adjust_eq_self cell (by simp)
      simp [rootAfter, unchanged]

/-- Linking a fresh node into the empty slot below a path and filling it in. -/
theorem attach_leaf {a : Addr} {key value : PPointer} {x : T} (nonnull : a ≠ 0) (zero : X)
    (set : Node PPointer PPointer X → Node PPointer PPointer X)
    (holds : st.HoldsBeside rest (c.plug (.nil : LTree PPointer PPointer T))) (fresh : st.heap.cell a = none)
    (filled : set ⟨0, 0, 0, 0, zero⟩ = ⟨0, 0, key, value, NodeExt.ext c.top x⟩) :
    ∃ st₁ st' : TreeState X,
      { st with heap := st.heap.insert a nonnull ⟨0, 0, 0, 0, zero⟩ }.writeSlot (slotOf c) a =
        .ok st₁ ∧ st₁.modify a set = .ok st' ∧
      st'.HoldsBeside rest (c.plug (.node .nil ⟨a, key, value, x⟩ .nil)) ∧ st'.trace = st.trace := by
  have offPath : ∀ b ∈ c.addrs, b ≠ a := by
    rintro b member rfl
    obtain ⟨n, cell⟩ := (Support.Holds.linked holds).allocated
      ((Path.mem_addrs_plug c .nil b).mpr (.inl member))
    simp [fresh] at cell
  have offTop : a ≠ c.top := Path.ne_top (fun member => offPath a member rfl) nonnull
  have written := writeSlot_path holds
    (show ∀ b ∈ c.addrs, (st.heap.insert a nonnull ⟨0, 0, 0, 0, zero⟩).cell b = st.heap.cell b from
      fun b member => by simp [offPath b member]) st.trace a
  have atNew : (setLink (st.heap.insert a nonnull ⟨0, 0, 0, 0, zero⟩) c a).cell a =
      some ⟨0, 0, 0, 0, zero⟩ := by simp [cell_setLink_ne offTop]
  refine ⟨_, ⟨(setLink (st.heap.insert a nonnull ⟨0, 0, 0, 0, zero⟩) c a).adjust a set,
    rootAfter st.root c a, st.trace⟩, written, modify_of_cell atNew set, ?_, rfl⟩
  · apply Support.Holds.replace holds
    · refine ⟨?_, trivial, trivial⟩
      rw [LTree.addr_nil, Heap.cell_adjust_self, atNew, Option.map_some, filled]
      rfl
    · simp
    · intro b member inPath
      exact offPath b inPath (by simpa using member)
    · rintro f above rfl
      rw [Heap.cell_adjust_ne _ (offPath _ (by simp [Path.mem_addrs_cons]))]
      apply cell_setLink_top
      refine (Support.Holds.path holds).frame fun b member => ?_
      simp [offPath b member]
    · intro b member notTop
      rw [Heap.cell_adjust_ne _ (offPath b member), cell_setLink_ne notTop]
      simp [offPath b member]
    · exact rootAfter_eq holds a
    · intro b notPath notLeaf
      have notNew : b ≠ a := by simpa using notLeaf
      rw [Heap.cell_adjust_ne _ notNew]
      have kept := Support.Holds.beside holds b (by simp [Path.mem_addrs_plug, notPath])
      by_cases atTop : b = c.top
      · cases c with
        | nil => rw [← kept, atTop, Path.top_nil, Heap.null_free, Heap.null_free]
        | cons f c => exact absurd (atTop ▸ Path.top_mem (by simp)) notPath
      · rw [cell_setLink_ne atTop, Heap.cell_insert, if_neg notNew, kept]
    · rintro b (member | member)
      · exact Support.Holds.separate_plug holds (.inl member)
      · obtain rfl : b = a := by simpa using member
        rw [← Support.Holds.beside holds b, fresh]
        simpa [Path.mem_addrs_plug] using fun inPath => offPath b inPath rfl

/-- After the predecessor step the node to remove has an empty side, and the other
    entries are those around the node that was found. -/
inductive Doomed (c : Path PPointer PPointer T) (l : LTree PPointer PPointer T)
    (q : Label PPointer PPointer T) (r : LTree PPointer PPointer T) :
    Path PPointer PPointer T → LTree PPointer PPointer T → Label PPointer PPointer T →
      LTree PPointer PPointer T → Prop where
  /-- The node itself, with at most one child. -/
  | self (oneSided : l = .nil ∨ r = .nil) : Doomed c l q r c l q r
  /-- The predecessor, the last node of the left subtree. -/
  | predecessor {rs : Path PPointer PPointer T} {pl : LTree PPointer PPointer T}
      {pq : Label PPointer PPointer T} (inLeft : l = rs.plug (.node pl pq .nil))
      (last : rs.after = []) (both : r ≠ .nil) :
      Doomed c l q r (rs ++ ⟨.left, { q with key := pq.key, value := pq.value }, r⟩ :: c)
        pl pq .nil

theorem Doomed.oneSided {c c' : Path PPointer PPointer T} {l r l' r' : LTree PPointer PPointer T}
    {q q' : Label PPointer PPointer T} (doomed : Doomed c l q r c' l' q' r') :
    l' = .nil ∨ r' = .nil := by
  cases doomed with
  | self oneSided => exact oneSided
  | predecessor _ _ _ => exact .inr rfl

theorem Doomed.entries {c c' : Path PPointer PPointer T} {l r l' r' : LTree PPointer PPointer T}
    {q q' : Label PPointer PPointer T} (doomed : Doomed c l q r c' l' q' r') :
    c'.pre ++ (l'.entries ++ r'.entries ++ c'.post) = c.pre ++ (l.entries ++ r.entries ++ c.post) := by
  cases doomed with
  | self _ => rfl
  | @predecessor rs pl pq inLeft last both =>
      rw [inLeft, Path.entries_plug, Path.pre_append, Path.post_append, Path.pre_cons, Path.post_cons]
      simp [Path.post, last, Label.entry]

theorem takePredecessor_doomed {fuel : Nat} {l r : LTree PPointer PPointer T} (slot : Slot)
    (holds : st.HoldsBeside rest (c.plug (.node l q r))) (enough : l.size < fuel) :
    ∃ slot' c' l' q' r' st', st.takePredecessor fuel slot q.addr = .ok (slot', q'.addr, st') ∧
      (slot = slotOf c → slot' = slotOf c') ∧ Doomed c l q r c' l' q' r' ∧ st'.HoldsBeside rest (c'.plug (.node l' q' r')) ∧ st'.trace = st.trace := by
  have loaded := load_focus (d := .left) holds
  have leftNull := addr_eq_zero_iff (c := ⟨.left, q, r⟩ :: c) (t := l) holds
  have rightNull := addr_eq_zero_iff (c := ⟨.right, q, l⟩ :: c) (t := r) holds
  by_cases both : l ≠ .nil ∧ r ≠ .nil
  · have found := lastRight_rightmost (c := ⟨.left, q, r⟩ :: c) (t := l) holds both.1 enough
    obtain ⟨pl, pq, stop⟩ := rightmost_stop ([] : Path PPointer PPointer T) both.1
    have inLeft := rightmost_plug [] l
    have last := rightmost_after [] l
    have appended := rightmost_append [] (⟨.left, q, r⟩ :: c) l
    generalize rs_eq : (rightmost [] l).1 = rs at *
    rw [stop] at inLeft appended
    rw [List.nil_append] at appended
    rw [appended] at found
    have split : st.HoldsBeside rest (Path.plug (rs ++ ⟨.left, q, r⟩ :: c) (.node pl pq .nil)) := by
      rw [Path.plug_append, inLeft]
      exact holds
    have lastLoaded := load_focus (d := .left) split
    obtain ⟨st', modified, holds', trace⟩ := modify_focus (d := .left)
      { q with key := pq.key, value := pq.value } holds
      (fun n => { n with key := pq.key, value := pq.value }) rfl rfl
    refine ⟨_, _, pl, pq, .nil, st', ?_, fun _ => rfl, .predecessor inLeft.symm last both.2, ?_, trace⟩
    · simp only [takePredecessor, loaded, Exec.ok_bind, Label.cell, ne_eq, leftNull, rightNull,
        both.1, both.2, not_false_eq_true, and_self, if_true]
      rw [show Slot.child q.addr .left = slotOf (⟨.left, q, r⟩ :: c) from rfl, found]
      simp only [Exec.ok_bind, LTree.addr_node, lastLoaded, Label.cell_key, Label.cell_value,
        modified, Exec.pure_eq_ok]
      cases rs <;> rfl
    · rw [Path.plug_append, inLeft]
      exact holds'
  · refine ⟨slot, c, l, q, r, st, ?_, id, .self (by tauto), holds, rfl⟩
    rw [takePredecessor, loaded, Exec.ok_bind, if_neg]
    · rfl
    · rwa [Label.cell, ne_eq, ne_eq, leftNull, rightNull]

/-- The cells beside a tree once a node is detached from it. -/
def detached (rest : Addr → Option (Node PPointer PPointer X)) (a : Addr)
    (n : Node PPointer PPointer X) : Addr → Option (Node PPointer PPointer X) :=
  fun b => if b = a then some n else rest b

/-- Taking a one-sided node out of the tree: its child moves up to the slot of the
    node, and the node stays allocated beside the tree. -/
theorem splice (heap : Heap (Node PPointer PPointer X)) {child : LTree PPointer PPointer T}
    (holds : st.HoldsBeside rest (c.plug (.branch d q child .nil)))
    (moved : child ≠ .nil → heap.cell child.addr =
      (st.heap.cell child.addr).map fun n => { n with ext := NodeExt.reparent c.top n.ext })
    (link : ∀ f above, c = f :: above → heap.cell f.label.addr =
      some (f.label.cell f.side child.addr f.sibling.addr (Path.top above)))
    (same : ∀ b, b ≠ child.addr → b ≠ c.top → heap.cell b = st.heap.cell b) (trace : List Event) :
    (⟨heap, rootAfter st.root c child.addr, trace⟩ : TreeState X).HoldsBeside
      (detached rest q.addr (q.cell d child.addr 0 c.top)) (c.plug child) := by
  obtain ⟨cell, childLinked, -⟩ := linked_branch.mp (Support.Holds.focus holds)
  obtain ⟨notChild, -, -, childDistinct, -⟩ := LTree.nodup_branch.mp (Support.Holds.focusDistinct holds)
  have apart := Support.Holds.apart holds
  simp only [LTree.mem_addrs_branch, LTree.addrs_nil, List.not_mem_nil, or_false] at apart
  apply Support.Holds.replace holds
  · refine childLinked.reparent moved ?_ childDistinct
    intro a member notRoot
    exact same a notRoot (Support.Holds.ne_top holds (by simp [member]))
  · exact childDistinct
  · exact fun a member => apart a (.inr member)
  · exact link
  · intro b member notTop
    have off : b ∉ child.addrs := fun inside => apart b (.inr inside) member
    exact same b (LTree.ne_addr off (Support.Holds.nonnull_of_mem_path holds member)) notTop
  · exact rootAfter_eq holds _
  · intro a offPath offChild
    by_cases atQ : a = q.addr
    · have qNonnull := Support.Holds.nonnull holds
      subst atQ
      rw [same _ (LTree.ne_addr offChild qNonnull) (Path.ne_top offPath qNonnull), cell]
      simp [detached]
    · have off : a ∉ (c.plug (.branch d q child .nil)).addrs := by
        simp [Path.mem_addrs_plug, offPath, offChild, atQ]
      rw [detached, if_neg atQ, ← Support.Holds.beside holds a off]
      by_cases null : a = 0
      · rw [null, Heap.null_free, Heap.null_free]
      · exact same a (LTree.ne_addr offChild null) (Path.ne_top offPath null)
  · intro a member
    have kept : rest a = none := Support.Holds.separate_plug holds (by simpa using Or.imp_right .inr member)
    have different : a ≠ q.addr := by
      rintro rfl
      exact member.elim (Support.Holds.apart holds q.addr (by simp)) notChild
    rw [detached, if_neg different, kept]

theorem notMem_detached {a : Addr} {n : Node PPointer PPointer X}
    (holds : st.HoldsBeside (detached rest a n) t) : a ∉ t.addrs := by
  intro member
  have free := Support.Holds.separate holds a member
  simp [detached] at free

theorem cell_detached {a : Addr} {n : Node PPointer PPointer X}
    (holds : st.HoldsBeside (detached rest a n) t) : st.heap.cell a = some n := by
  rw [Support.Holds.beside holds a (notMem_detached holds)]
  simp [detached]

/-- Freeing a detached node leaves the tree alone. -/
theorem zfree_detached {a : Addr} {n : Node PPointer PPointer X}
    (holds : st.HoldsBeside (detached rest a n) t) (free : rest a = none) :
    ∃ st' : TreeState X, st.zfree a = .ok st' ∧ st'.HoldsBeside rest t ∧
      st'.trace = st.trace ++ [.nodeFree a] := by
  have off := notMem_detached holds
  have cell := cell_detached holds
  refine ⟨⟨st.heap.erase a, st.root, st.trace ++ [.nodeFree a]⟩, by simp [zfree, cell], ?_, rfl⟩
  have same : ∀ b ∈ t.addrs, (st.heap.erase a).cell b = st.heap.cell b := by
    intro b member
    simp [ne_of_mem_of_not_mem member off]
  refine ⟨(Support.Holds.linked holds).frame same, Support.Holds.root_eq holds,
    Support.Holds.distinct holds, ?_, ?_⟩
  · intro b outside
    by_cases here : b = a
    · simp [here, free]
    · have kept := Support.Holds.beside holds b outside
      simpa [detached, here] using kept
  · intro b member
    have apart := Support.Holds.separate holds b member
    rwa [detached, if_neg (ne_of_mem_of_not_mem member off)] at apart

end TreeState

end Plibsys.Tree
