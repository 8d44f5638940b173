import Plibsys.Tree.Surgery

/-! # The contract of the node functions

What `insert_node_func` and `remove_node_func` owe to `PTree`, whatever the tree
kind: the effect on the sorted list of entries, on the calls to the destroy
functions, and on the invariant of the kind.  Such an invariant speaks about the
shape of the tree and the tags of its nodes, never about keys, so replacing a pair
in place keeps it.
-/

namespace Plibsys.Tree

open Support

/-- A tree of tags. -/
inductive Shape (T : Type) where
  | nil
  | node (left : Shape T) (tag : T) (right : Shape T)

section Shape

variable {K V T : Type}

def shape : LTree K V T → Shape T
  | .nil => .nil
  | .node l q r => .node (shape l) q.tag (shape r)

theorem shape_plug {t t' : LTree K V T} (same : shape t = shape t') (c : Path K V T) :
    shape (c.plug t) = shape (c.plug t') := by
  induction c generalizing t t' with
  | nil => exact same
  | cons f c ih =>
      apply ih
      cases side : f.side <;> simp [Frame.fill, LTree.branch, side, shape, same]

theorem size_of_shape {t t' : LTree K V T} (same : shape t = shape t') : t.size = t'.size := by
  induction t generalizing t' with
  | nil =>
      cases t' with
      | nil => rfl
      | node l q r => simp [shape] at same
  | node l q r ihl ihr =>
      cases t' with
      | nil => simp [shape] at same
      | node l' q' r' =>
          simp only [shape, Shape.node.injEq] at same
          rw [LTree.size_node, LTree.size_node, ihl same.1, ihr same.2.2]

end Shape

/-- The predecessor step moves pairs only. -/
theorem TreeState.Doomed.shape {T : Type} {c c' : Path PPointer PPointer T}
    {l r l' r' : LTree PPointer PPointer T} {q q' : Label PPointer PPointer T}
    (doomed : Doomed c l q r c' l' q' r') :
    shape (c.plug (.node l q r)) = shape (c'.plug (.node l' q' r')) := by
  cases doomed with
  | self _ => rfl
  | predecessor inLeft _ _ =>
      rw [Path.plug_append, Path.plug_cons, ← inLeft]
      exact shape_plug (by rfl) c

/-- Effect of an insertion on entries and trace, by its result. -/
inductive InsertEffect (cb : Callbacks) (key value : PPointer) (allocated : Bool)
    (m : List (PPointer × PPointer)) (trace : List Event) :
    Bool → List (PPointer × PPointer) → List Event → Prop where
  /-- An equal key is stored: its pair is destroyed and replaced. -/
  | replaced {pre post : List (PPointer × PPointer)} {k v : PPointer}
      (split : m = pre ++ (k, v) :: post) (equal : cb.compare key k = 0)
      (between : OrderedMap.Between cb.compare key pre post) :
      InsertEffect cb key value allocated m trace false (pre ++ (key, value) :: post)
        (trace ++ cb.destroy k v)
  /-- No equal key is stored and a node was allocated. -/
  | added {pre post : List (PPointer × PPointer)} (split : m = pre ++ post)
      (between : OrderedMap.Between cb.compare key pre post) (success : allocated = true) :
      InsertEffect cb key value allocated m trace true (pre ++ (key, value) :: post) trace
  /-- No equal key is stored and the allocation failed. -/
  | failed {pre post : List (PPointer × PPointer)} (split : m = pre ++ post)
      (between : OrderedMap.Between cb.compare key pre post) (failure : allocated = false) :
      InsertEffect cb key value allocated m trace false m trace

/-- The search for `key` ends in a node with two children. -/
def EndsInner {T : Type} (compare : PPointer → PPointer → Int) (key : PPointer)
    (t : LTree PPointer PPointer T) : Prop :=
  ∃ l q r, (t.descend compare key []).2 = .node l q r ∧ l ≠ .nil ∧ r ≠ .nil

/-- Effect of a removal on entries and trace, by its result.  The destroyed pair is
    the removed one unless the node of the key had two children. -/
inductive RemoveEffect (cb : Callbacks) (key : PPointer) (inner : Prop)
    (m : List (PPointer × PPointer)) (trace : List Event) :
    Bool → List (PPointer × PPointer) → List Event → Prop where
  | absent {pre post : List (PPointer × PPointer)} (split : m = pre ++ post)
      (between : OrderedMap.Between cb.compare key pre post) :
      RemoveEffect cb key inner m trace false m trace
  | removed {pre post : List (PPointer × PPointer)} {k v k' v' : PPointer} {node : Addr}
      (split : m = pre ++ (k, v) :: post) (equal : cb.compare key k = 0)
      (between : OrderedMap.Between cb.compare key pre post)
      (own : ¬ inner → k' = k ∧ v' = v) :
      RemoveEffect cb key inner m trace true (pre ++ post)
        (trace ++ cb.destroy k' v' ++ [.nodeFree node])

/-- The two functions a tree kind installs in `PTree`. -/
structure NodeFuncs (X : Type) where
  insert : Nat → Callbacks → Option Allocator → PPointer → PPointer → TreeState X →
    Exec (Bool × TreeState X)
  remove : Nat → Callbacks → PPointer → TreeState X → Exec (Bool × TreeState X)

/-- The node functions are total on states that hold a tree of the kind, never
    fault there, and have the specified effects. -/
structure NodeFuncs.Correct {X T : Type} [NodeExt X T] (F : NodeFuncs X)
    (Inv : LTree PPointer PPointer T → Prop) : Prop where
  start : Inv .nil
  insert : ∀ {cb : Callbacks} {st : TreeState X} {t : LTree PPointer PPointer T} {fuel : Nat}
    (malloc : Option Allocator) (key value : PPointer),
    SignOrder cb.compare → st.Holds t → t.Ordered cb.compare → Inv t → t.size + 1 < fuel →
    ∃ result st' t', F.insert fuel cb malloc key value st = .ok (result, st') ∧ st'.Holds t' ∧ Inv t' ∧
      InsertEffect cb key value malloc.isSome t.entries st.trace result t'.entries st'.trace
  remove : ∀ {cb : Callbacks} {st : TreeState X} {t : LTree PPointer PPointer T} {fuel : Nat}
    (key : PPointer),
    SignOrder cb.compare → st.Holds t → t.Ordered cb.compare → Inv t → t.size + 1 < fuel →
    ∃ result st' t', F.remove fuel cb key st = .ok (result, st') ∧ st'.Holds t' ∧ Inv t' ∧
      RemoveEffect cb key (EndsInner cb.compare key t) t.entries st.trace
        result t'.entries st'.trace

namespace TreeState

variable {X T : Type} [NodeExt X T] {Inv : LTree PPointer PPointer T → Prop}

/-- Rebalancing after a leaf with tag `x` was linked below a path. -/
def BalancesInsert (balance : Nat → Addr → TreeState X → Exec (TreeState X))
    (Inv : LTree PPointer PPointer T → Prop) (x : T) : Prop :=
  ∀ {st : TreeState X} {c : Path PPointer PPointer T} {a : Addr} {key value : PPointer} {fuel : Nat},
    st.Holds (c.plug (.node .nil ⟨a, key, value, x⟩ .nil)) → Inv (c.plug .nil) →
    c.length < fuel →
    ∃ st' t', balance fuel a st = .ok st' ∧ st'.Holds t' ∧ Inv t' ∧ st'.trace = st.trace ∧
      t'.entries = (c.plug (.node .nil ⟨a, key, value, x⟩ .nil)).entries

/-- The search of an insertion, with what it found. -/
theorem findSlot_located (compare : PPointer → PPointer → Int) (key : PPointer) {st : TreeState X}
    {t : LTree PPointer PPointer T} {fuel : Nat} (holds : st.Holds t) (enough : t.size < fuel) :
    ∃ c s parent, t.Located compare key c s ∧
      st.findSlot compare key fuel .root st.root = .ok (slotOf c, parent) ∧
      (s = .nil → parent = c.top) := by
  obtain ⟨parent, found, above⟩ := findSlot_descend (c := []) compare key st.root holds enough
    (fun empty => by
      rw [show st.root = t.addr from Support.Holds.root_eq holds, empty]
      rfl)
  exact ⟨_, _, parent, t.located_descend compare key, found, above⟩

theorem replacePair_focus (cb : Callbacks) (key value : PPointer) {st : TreeState X}
    {c : Path PPointer PPointer T} {l r : LTree PPointer PPointer T} {q : Label PPointer PPointer T}
    (holds : st.Holds (c.plug (.node l q r))) :
    ∃ st' : TreeState X, st.replacePair cb q.addr key value = .ok st' ∧
      st'.Holds (c.plug (.node l { q with key := key, value := value } r)) ∧
      st'.trace = st.trace ++ cb.destroy q.key q.value := by
  have holds' : (st.destroyPair cb q.key q.value).Holds (c.plug (.node l q r)) := holds
  obtain ⟨st', modified, after, trace⟩ := modify_focus (d := .left)
    { q with key := key, value := value } holds'
    (fun n => { n with key := key, value := value }) rfl rfl
  refine ⟨st', ?_, after, trace⟩
  rw [replacePair, load_focus (d := .left) holds]
  exact modified

theorem insertNode_effect {zero : X} {extension : Addr → X}
    {balance : Nat → Addr → TreeState X → Exec (TreeState X)} {x : T}
    (balances : BalancesInsert balance Inv x) (stored : ∀ p, extension p = NodeExt.ext p x)
    (shaped : ∀ {t t' : LTree PPointer PPointer T}, shape t = shape t' → Inv t → Inv t')
    {cb : Callbacks} {st : TreeState X} {t : LTree PPointer PPointer T} {fuel : Nat}
    {malloc : Option Allocator} {key value : PPointer} (order : SignOrder cb.compare)
    (holds : st.Holds t) (ordered : t.Ordered cb.compare) (inv : Inv t) (enough : t.size + 1 < fuel) :
    ∃ result st' t', st.insertNode zero extension balance fuel cb malloc key value =
        .ok (result, st') ∧ st'.Holds t' ∧ Inv t' ∧
      InsertEffect cb key value malloc.isSome t.entries st.trace result t'.entries st'.trace := by
  obtain ⟨c, s, parent, ⟨-, rfl, toward, stop⟩, found, above⟩ :=
    findSlot_located cb.compare key holds (show t.size < fuel by omega)
  have between := toward.between order ordered
  have read := readSlot_path holds
  rcases stop with rfl | ⟨l, q, r, rfl, equal⟩
  · cases malloc with
    | none =>
        refine ⟨false, st, c.plug .nil, ?_, holds, inv, ?_⟩
        · simp [insertNode, found, read, zmalloc0, writeSlot_null holds]
        · exact .failed (by simp [Path.entries_plug]) between rfl
    | some A =>
        obtain ⟨st₁, st₂, written, filled, attached, trace₂⟩ :=
          attach_leaf (x := x) (A.next_nonnull st.heap) zero
            (fun n => { n with key := key, value := value, ext := extension parent })
            holds (A.next_free st.heap) (by rw [stored, above rfl])
        have long := Path.length_le_size c (.nil : LTree PPointer PPointer T)
        simp only [LTree.size_nil] at long
        obtain ⟨st₃, t', balanced, holds', inv', trace', entries⟩ :=
          balances attached inv (show c.length < fuel by omega)
        refine ⟨true, st₃, t', ?_, holds', inv', ?_⟩
        · simp only [insertNode, found, read, Exec.ok_bind, LTree.addr_nil, ne_eq, not_true_eq_false,
            if_false, zmalloc0, written, A.next_nonnull, filled, balanced, Exec.pure_eq_ok]
        · rw [entries, trace', trace₂, Path.entries_plug c (.node _ _ _)]
          exact .added (by simp [Path.entries_plug]) between rfl
  · obtain ⟨st', replaced, holds', trace⟩ :=
      replacePair_focus cb key value holds
    have nonnull : q.addr ≠ 0 := Support.Holds.nonnull (d := .left) holds
    have sameShape : shape (c.plug (.node l q r)) =
        shape (c.plug (.node l { q with key := key, value := value } r)) := shape_plug (by rfl) c
    refine ⟨false, st', _, ?_, holds', shaped sameShape inv, ?_⟩
    · simp [insertNode, found, read, nonnull, replaced]
    · rw [trace, Path.entries_plug_node, Path.entries_plug_node]
      exact .replaced rfl equal (toward.between_node order ordered equal)

/-- A one-sided node, seen from the side of its only child. -/
theorem oneSided_branch {l r : LTree PPointer PPointer T} {q : Label PPointer PPointer T}
    (oneSided : l = .nil ∨ r = .nil) :
    ∃ d child, LTree.node l q r = .branch d q child .nil ∧ child.entries = l.entries ++ r.entries ∧
      ∀ p, onlyChild (q.cell .left l.addr r.addr p : Node PPointer PPointer X) = child.addr := by
  rcases oneSided with rfl | rfl
  · exact ⟨.right, r, rfl, rfl, fun _ => rfl⟩
  · refine ⟨.left, l, rfl, by simp, fun p => ?_⟩
    by_cases null : l.addr = 0 <;> simp [onlyChild, Label.cell, null]

/-- What is left to do once the doomed node is out of the tree. -/
theorem retire {st : TreeState X} {t : LTree PPointer PPointer T} {a : Addr}
    {n : Node PPointer PPointer X} (cb : Callbacks) (key value : PPointer)
    (holds : st.HoldsBeside (detached (fun _ => none) a n) t) :
    ∃ st' : TreeState X, (st.destroyPair cb key value).zfree a = .ok st' ∧ st'.Holds t ∧
      st'.trace = st.trace ++ cb.destroy key value ++ [.nodeFree a] := by
  have destroyed : (st.destroyPair cb key value).HoldsBeside (detached (fun _ => none) a n) t := holds
  exact zfree_detached destroyed rfl

/-- The effect of a removal, from the node that was found and the node that was
    taken out. -/
theorem removed_effect {cb : Callbacks} {key : PPointer} {t t' : LTree PPointer PPointer T}
    {c c' : Path PPointer PPointer T} {l r l' r' : LTree PPointer PPointer T}
    {q q' : Label PPointer PPointer T} {trace : List Event} (node : Addr) (order : SignOrder cb.compare)
    (ordered : t.Ordered cb.compare) (located : t.Located cb.compare key c (.node l q r))
    (equal : cb.compare key q.key = 0) (doomed : Doomed c l q r c' l' q' r')
    (entries : t'.entries = c'.pre ++ (l'.entries ++ r'.entries ++ c'.post)) :
    RemoveEffect cb key (EndsInner cb.compare key t) t.entries trace true t'.entries
      (trace ++ cb.destroy q'.key q'.value ++ [.nodeFree node]) := by
  obtain ⟨reached, rfl, toward, -⟩ := located
  have own : ¬ EndsInner cb.compare key (c.plug (.node l q r)) → q'.key = q.key ∧ q'.value = q.value := by
    intro outer
    cases doomed with
    | self _ => exact ⟨rfl, rfl⟩
    | predecessor inLeft _ both =>
        refine absurd ⟨l, q, r, by rw [reached], ?_, both⟩ outer
        intro empty
        have sizes := congrArg LTree.size (inLeft.symm.trans empty)
        simp [Path.size_plug] at sizes
  rw [entries, doomed.entries, Path.entries_plug_node]
  have remaining : c.pre ++ (l.entries ++ r.entries ++ c.post) =
      (c.pre ++ l.entries) ++ (r.entries ++ c.post) := by simp
  rw [remaining]
  exact .removed rfl equal (toward.between_node order ordered equal) own

end TreeState

end Plibsys.Tree
