import Plibsys.Support.LinkedTree
import Plibsys.Support.OrderedMap

/-! # Search in linked binary trees

`descend` follows a key from a subtree downwards and returns the path it took
together with the subtree it stopped at: empty, or rooted at an equal key.  In a
tree whose entries are sorted the stopping place is where the ordered map of the
entries has, or would have, the key.
-/

namespace Plibsys.Support

variable {K V T : Type}

namespace LTree

def size (t : LTree K V T) : Nat := t.labels.length

@[simp] theorem size_nil : (nil : LTree K V T).size = 0 := rfl

@[simp] theorem size_node (l r : LTree K V T) (q : Label K V T) :
    (node l q r).size = l.size + r.size + 1 := by
  simp only [size, labels_node, List.length_append, List.length_cons]
  omega

@[simp] theorem size_branch (d : Side) (q : Label K V T) (near far : LTree K V T) :
    (branch d q near far).size = near.size + far.size + 1 := by
  cases d <;> simp [branch, Nat.add_comm]

theorem length_entries (t : LTree K V T) : t.entries.length = t.size := by simp [entries, size]

/-- The keys increase strictly from left to right. -/
def Ordered (compare : K → K → Int) (t : LTree K V T) : Prop := OrderedMap.Sorted compare t.entries

theorem ordered_nil (compare : K → K → Int) : (nil : LTree K V T).Ordered compare := List.Pairwise.nil

end LTree

namespace Path

/-- The entries before the hole. -/
def pre (c : Path K V T) : List (K × V) := (before c).map Label.entry

/-- The entries after the hole. -/
def post (c : Path K V T) : List (K × V) := (after c).map Label.entry

theorem entries_plug (c : Path K V T) (t : LTree K V T) :
    (c.plug t).entries = c.pre ++ (t.entries ++ c.post) := by
  simp [LTree.entries, labels_plug, pre, post]

theorem size_plug (c : Path K V T) (t : LTree K V T) :
    (c.plug t).size = t.size + (c.pre.length + c.post.length) := by
  rw [← LTree.length_entries, entries_plug, ← LTree.length_entries]
  simp only [List.length_append]
  omega

theorem pre_append (c c' : Path K V T) : pre (c ++ c') = pre c' ++ pre c := by
  simp [pre, before_append]

theorem post_append (c c' : Path K V T) : post (c ++ c') = post c ++ post c' := by
  simp [post, after_append]

theorem pre_cons (f : Frame K V T) (c : Path K V T) :
    pre (f :: c) = match f.side with
      | .left => pre c
      | .right => pre c ++ (f.sibling.entries ++ [f.label.entry]) := by
  cases side : f.side <;> simp [pre, before, side, LTree.entries]

theorem post_cons (f : Frame K V T) (c : Path K V T) :
    post (f :: c) = match f.side with
      | .left => f.label.entry :: (f.sibling.entries ++ post c)
      | .right => post c := by
  cases side : f.side <;> simp [post, after, side, LTree.entries]

/-- The two paths have the same entries around their holes. -/
def SameAround (c c' : Path K V T) : Prop := c.pre = c'.pre ∧ c.post = c'.post

theorem SameAround.refl (c : Path K V T) : SameAround c c := ⟨rfl, rfl⟩

theorem SameAround.trans {c c' c'' : Path K V T} (first : SameAround c c') (second : SameAround c' c'') :
    SameAround c c'' := ⟨first.1.trans second.1, first.2.trans second.2⟩

theorem SameAround.cons {c c' : Path K V T} (same : SameAround c c') {f f' : Frame K V T}
    (side : f.side = f'.side) (label : f.label.entry = f'.label.entry)
    (sibling : f.sibling.entries = f'.sibling.entries) : SameAround (f :: c) (f' :: c') := by
  constructor
  · rw [pre_cons, pre_cons, side, label, sibling, same.1]
  · rw [post_cons, post_cons, side, label, sibling, same.2]

theorem SameAround.append {c c' : Path K V T} (same : SameAround c c') (inner : Path K V T) :
    SameAround (inner ++ c) (inner ++ c') := by
  constructor
  · rw [pre_append, pre_append, same.1]
  · rw [post_append, post_append, same.2]

theorem length_le_size (c : Path K V T) (t : LTree K V T) : c.length + t.size ≤ (c.plug t).size := by
  induction c generalizing t with
  | nil => simp
  | cons f c ih =>
      have above := ih (f.fill t)
      simp only [Frame.fill, LTree.size_branch] at above
      simp only [List.length_cons, plug_cons, Frame.fill]
      omega

/-- Every step of the path was taken by comparing `key`. -/
def Toward (compare : K → K → Int) (key : K) (c : Path K V T) : Prop :=
  ∀ f ∈ c, match f.side with
    | .left => compare key f.label.key < 0
    | .right => 0 < compare key f.label.key

/-- The path of a search separates the entries below the key from those above. -/
theorem Toward.between {compare : K → K → Int} (order : SignOrder compare) {key : K}
    {c : Path K V T} {t : LTree K V T} (toward : Toward compare key c)
    (ordered : (c.plug t).Ordered compare) : OrderedMap.Between compare key c.pre c.post := by
  induction c generalizing t with
  | nil => constructor <;> simp [pre, post, before, after]
  | cons f c ih =>
      have tail := ih (fun g member => toward g (by simp [member])) ordered
      have step := toward f (by simp)
      have inside : (f.fill t).Ordered compare := by
        have whole := ordered
        simp only [plug_cons, LTree.Ordered, entries_plug, OrderedMap.Sorted,
          List.pairwise_append] at whole
        exact whole.2.1.1
      cases side : f.side with
      | left =>
          rw [side] at step
          simp only [Frame.fill, LTree.branch, side, LTree.Ordered, LTree.entries_node,
            OrderedMap.Sorted, List.pairwise_append, List.pairwise_cons] at inside
          rw [pre_cons, post_cons, side]
          refine ⟨tail.above, ?_⟩
          intro e member
          rcases List.mem_cons.mp member with rfl | member
          · exact step
          · rcases List.mem_append.mp member with member | member
            · exact order.lt_trans step (inside.2.1.1 e member)
            · exact tail.below e member
      | right =>
          rw [side] at step
          simp only [Frame.fill, LTree.branch, side, LTree.Ordered, LTree.entries_node,
            OrderedMap.Sorted, List.pairwise_append, List.pairwise_cons] at inside
          rw [pre_cons, post_cons, side]
          refine ⟨?_, tail.below⟩
          intro e member
          rcases List.mem_append.mp member with member | member
          · exact tail.above e member
          · rcases List.mem_append.mp member with member | member
            · have smaller := inside.2.2 e member f.label.entry (by simp)
              exact (order.swap _ _).mp (order.lt_trans smaller ((order.swap _ _).mpr step))
            · rw [List.mem_singleton.mp member]
              exact step

theorem entries_plug_node (c : Path K V T) (l r : LTree K V T) (q : Label K V T) :
    (c.plug (.node l q r)).entries = (c.pre ++ l.entries) ++ q.entry :: (r.entries ++ c.post) := by
  simp [entries_plug]

/-- Around a node with an equal key, the entries of its subtrees are separated too. -/
theorem Toward.between_node {compare : K → K → Int} (order : SignOrder compare) {key : K}
    {c : Path K V T} {l r : LTree K V T} {q : Label K V T} (toward : Toward compare key c)
    (ordered : (c.plug (.node l q r)).Ordered compare) (equal : compare key q.key = 0) :
    OrderedMap.Between compare key (c.pre ++ l.entries) (r.entries ++ c.post) := by
  have outer := toward.between order ordered
  have back := order.eq_zero_comm.mp equal
  simp only [LTree.Ordered, entries_plug_node, OrderedMap.Sorted, List.pairwise_append,
    List.pairwise_cons, List.mem_append, List.mem_cons] at ordered
  constructor
  · intro e member
    rcases List.mem_append.mp member with member | member
    · exact outer.above e member
    · have smaller : compare e.1 q.key < 0 := ordered.2.2 e (.inr member) q.entry (.inl rfl)
      exact (order.swap _ _).mp (order.lt_of_lt_of_eq smaller back)
  · intro e member
    rcases List.mem_append.mp member with member | member
    · exact order.lt_of_eq_of_lt equal (ordered.2.1.1 e (.inl member))
    · exact outer.below e member

end Path

namespace LTree

/-- Follow `key` down from the subtree below the path `c`. -/
def descend (compare : K → K → Int) (key : K) :
    Path K V T → LTree K V T → Path K V T × LTree K V T
  | c, nil => (c, nil)
  | c, node l q r =>
      if compare key q.key < 0 then descend compare key (⟨.left, q, r⟩ :: c) l
      else if 0 < compare key q.key then descend compare key (⟨.right, q, l⟩ :: c) r
      else (c, node l q r)

variable {compare : K → K → Int} {key : K}

theorem descend_plug (c : Path K V T) (t : LTree K V T) :
    (descend compare key c t).1.plug (descend compare key c t).2 = c.plug t := by
  induction t generalizing c with
  | nil => rfl
  | node l q r ihl ihr =>
      rw [descend]
      split
      · exact ihl _
      · split
        · exact ihr _
        · rfl

theorem descend_toward {c : Path K V T} (toward : c.Toward compare key) (t : LTree K V T) :
    (descend compare key c t).1.Toward compare key := by
  induction t generalizing c with
  | nil => exact toward
  | node l q r ihl ihr =>
      rw [descend]
      split
      · next lt =>
          apply ihl
          intro f member
          rcases List.mem_cons.mp member with rfl | member
          · exact lt
          · exact toward f member
      · split
        · next gt =>
            apply ihr
            intro f member
            rcases List.mem_cons.mp member with rfl | member
            · exact gt
            · exact toward f member
        · exact toward

/-- The search stops at an empty subtree or at an equal key. -/
theorem descend_stop (c : Path K V T) (t : LTree K V T) :
    (descend compare key c t).2 = nil ∨
      ∃ l q r, (descend compare key c t).2 = node l q r ∧ compare key q.key = 0 := by
  induction t generalizing c with
  | nil => exact .inl rfl
  | node l q r ihl ihr =>
      rw [descend]
      split
      · exact ihl _
      · split
        · exact ihr _
        · exact .inr ⟨l, q, r, rfl, by omega⟩

/-- A search for `key` in `t` ends in the subtree `s` below the path `c`. -/
structure Located (compare : K → K → Int) (key : K) (t : LTree K V T) (c : Path K V T)
    (s : LTree K V T) : Prop where
  reached : t.descend compare key [] = (c, s)
  plugged : c.plug s = t
  toward : c.Toward compare key
  stop : s = nil ∨ ∃ l q r, s = node l q r ∧ compare key q.key = 0

theorem located_descend (compare : K → K → Int) (key : K) (t : LTree K V T) :
    Located compare key t (descend compare key [] t).1 (descend compare key [] t).2 where
  reached := rfl
  plugged := descend_plug [] t
  toward := descend_toward (by simp [Path.Toward]) t
  stop := descend_stop [] t

end LTree

end Plibsys.Support
