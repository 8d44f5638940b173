import Plibsys.Support.Heap
import Mathlib.Data.List.Nodup

/-! # Binary trees linked through a heap

An `LTree` is a binary tree whose nodes remember the address they live at.
`Linked h p t` says that the cells of `h` spell out `t`: the links of every cell
are the addresses of its subtrees, and the cell's extension records the address
of its parent (`p` for the root) together with the node's tag.  Trees without
parent links are the instance whose extension forgets the parent.

A path from a subtree up to the root is a list of frames, innermost first.
`Holds.replace` is the one rule for in-place surgery: rewrite a subtree below
such a path, touch at most the link that points to it, and the heap holds the
tree with the new subtree plugged in.
-/

namespace Plibsys.Support

inductive Side where
  | left
  | right
  deriving Repr, DecidableEq

namespace Side

def flip : Side → Side
  | .left => .right
  | .right => .left

@[simp] theorem flip_flip (d : Side) : d.flip.flip = d := by cases d <;> rfl

@[simp] theorem flip_ne (d : Side) : d.flip ≠ d := by cases d <;> simp [flip]

@[simp] theorem ne_flip (d : Side) : d ≠ d.flip := by cases d <;> simp [flip]

theorem eq_or_eq_flip (d e : Side) : e = d ∨ e = d.flip := by cases d <;> cases e <;> simp [flip]

end Side

/-- A heap cell of a binary tree.  `ext` is what one kind of tree adds. -/
structure Node (K V X : Type) where
  left : Addr
  right : Addr
  key : K
  value : V
  ext : X
  deriving Repr, DecidableEq

namespace Node

variable {K V X : Type}

def child (n : Node K V X) : Side → Addr
  | .left => n.left
  | .right => n.right

def setChild (n : Node K V X) (d : Side) (a : Addr) : Node K V X :=
  match d with
  | .left => { n with left := a }
  | .right => { n with right := a }

@[simp] theorem child_setChild (n : Node K V X) (d : Side) (a : Addr) :
    (n.setChild d a).child d = a := by cases d <;> rfl

@[simp] theorem child_setChild_flip (n : Node K V X) (d : Side) (a : Addr) :
    (n.setChild d.flip a).child d = n.child d := by cases d <;> rfl

@[simp] theorem child_flip_setChild (n : Node K V X) (d : Side) (a : Addr) :
    (n.setChild d a).child d.flip = n.child d.flip := by cases d <;> rfl

@[simp] theorem ext_setChild (n : Node K V X) (d : Side) (a : Addr) :
    (n.setChild d a).ext = n.ext := by cases d <;> rfl

@[simp] theorem key_setChild (n : Node K V X) (d : Side) (a : Addr) :
    (n.setChild d a).key = n.key := by cases d <;> rfl

@[simp] theorem value_setChild (n : Node K V X) (d : Side) (a : Addr) :
    (n.setChild d a).value = n.value := by cases d <;> rfl

end Node

/-- How an extension stores the parent's address and the tag of a node. -/
class NodeExt (X : Type) (T : outParam Type) where
  ext : Addr → T → X
  reparent : Addr → X → X
  reparent_ext : ∀ p q x, reparent q (ext p x) = ext q x

attribute [simp] NodeExt.reparent_ext

/-- An extension without parent link and without tag. -/
instance : NodeExt Unit Unit where
  ext := fun _ _ => ()
  reparent := fun _ _ => ()
  reparent_ext := fun _ _ _ => rfl

/-- An extension made of the parent's address and a tag. -/
structure UpLink (T : Type) where
  parent : Addr
  tag : T
  deriving Repr, DecidableEq

instance (T : Type) : NodeExt (UpLink T) T where
  ext := fun p x => ⟨p, x⟩
  reparent := fun q u => { u with parent := q }
  reparent_ext := fun _ _ _ => rfl

@[simp] theorem upLink_ext {T : Type} (p : Addr) (x : T) :
    (NodeExt.ext p x : UpLink T) = ⟨p, x⟩ := rfl

/-- What a node holds besides its links. -/
structure Label (K V T : Type) where
  addr : Addr
  key : K
  value : V
  tag : T
  deriving Repr, DecidableEq

namespace Label

/-- The key-value pair of a node. -/
def entry {K V T : Type} (q : Label K V T) : K × V := (q.key, q.value)

@[simp] theorem entry_mk {K V T : Type} (a : Addr) (k : K) (v : V) (x : T) :
    entry ⟨a, k, v, x⟩ = (k, v) := rfl

variable {K V X T : Type} [NodeExt X T]

/-- The cell of a node whose `d`-child is `near` and whose other child is `far`. -/
def cell (q : Label K V T) (d : Side) (near far parent : Addr) : Node K V X :=
  match d with
  | .left => ⟨near, far, q.key, q.value, NodeExt.ext parent q.tag⟩
  | .right => ⟨far, near, q.key, q.value, NodeExt.ext parent q.tag⟩

variable (q : Label K V T) (d : Side) (near far parent a : Addr)

@[simp] theorem cell_child : (q.cell d near far parent : Node K V X).child d = near := by
  cases d <;> rfl

@[simp] theorem cell_child_flip :
    (q.cell d near far parent : Node K V X).child d.flip = far := by cases d <;> rfl

@[simp] theorem cell_ext :
    (q.cell d near far parent : Node K V X).ext = NodeExt.ext parent q.tag := by cases d <;> rfl

@[simp] theorem cell_key : (q.cell d near far parent : Node K V X).key = q.key := by
  cases d <;> rfl

@[simp] theorem cell_value : (q.cell d near far parent : Node K V X).value = q.value := by
  cases d <;> rfl

@[simp] theorem cell_setChild :
    (q.cell d near far parent : Node K V X).setChild d a = q.cell d a far parent := by
  cases d <;> rfl

@[simp] theorem cell_setChild_flip :
    (q.cell d near far parent : Node K V X).setChild d.flip a = q.cell d near a parent := by
  cases d <;> rfl

theorem cell_flip :
    (q.cell d.flip near far parent : Node K V X) = q.cell d far near parent := by
  cases d <;> rfl

end Label

inductive LTree (K V T : Type) where
  | nil
  | node (left : LTree K V T) (label : Label K V T) (right : LTree K V T)
  deriving Repr, DecidableEq

namespace LTree

variable {K V X T : Type}

/-- The address of the root, null for the empty tree. -/
def addr : LTree K V T → Addr
  | nil => 0
  | node _ q _ => q.addr

/-- The labels in order. -/
def labels : LTree K V T → List (Label K V T)
  | nil => []
  | node l q r => l.labels ++ q :: r.labels

def addrs (t : LTree K V T) : List Addr := t.labels.map Label.addr

/-- The key-value pairs in order. -/
def entries (t : LTree K V T) : List (K × V) := t.labels.map Label.entry

/-- The node whose `d`-child is `near`. -/
def branch (d : Side) (q : Label K V T) (near far : LTree K V T) : LTree K V T :=
  match d with
  | .left => node near q far
  | .right => node far q near

@[simp] theorem addr_nil : (nil : LTree K V T).addr = 0 := rfl

@[simp] theorem addr_node (l r : LTree K V T) (q : Label K V T) : (node l q r).addr = q.addr := rfl

@[simp] theorem addr_branch (d : Side) (q : Label K V T) (near far : LTree K V T) :
    (branch d q near far).addr = q.addr := by cases d <;> rfl

@[simp] theorem branch_ne_nil (d : Side) (q : Label K V T) (near far : LTree K V T) :
    branch d q near far ≠ nil := by cases d <;> simp [branch]

theorem branch_flip (d : Side) (q : Label K V T) (near far : LTree K V T) :
    branch d.flip q near far = branch d q far near := by cases d <;> rfl

@[simp] theorem labels_nil : (nil : LTree K V T).labels = [] := rfl

@[simp] theorem labels_node (l r : LTree K V T) (q : Label K V T) :
    (node l q r).labels = l.labels ++ q :: r.labels := rfl

@[simp] theorem addrs_nil : (nil : LTree K V T).addrs = [] := rfl

@[simp] theorem addrs_node (l r : LTree K V T) (q : Label K V T) :
    (node l q r).addrs = l.addrs ++ q.addr :: r.addrs := by simp [addrs]

@[simp] theorem entries_nil : (nil : LTree K V T).entries = [] := rfl

@[simp] theorem entries_node (l r : LTree K V T) (q : Label K V T) :
    (node l q r).entries = l.entries ++ q.entry :: r.entries := by simp [entries]

@[simp] theorem mem_addrs_branch (d : Side) (q : Label K V T) (near far : LTree K V T)
    (a : Addr) :
    a ∈ (branch d q near far).addrs ↔ a = q.addr ∨ a ∈ near.addrs ∨ a ∈ far.addrs := by
  cases d <;> simp [branch] <;> tauto

theorem entries_branch (d : Side) (q : Label K V T) (near far : LTree K V T) :
    (branch d q near far).entries = match d with
      | .left => near.entries ++ (q.key, q.value) :: far.entries
      | .right => far.entries ++ (q.key, q.value) :: near.entries := by
  cases d <;> exact entries_node _ _ _

theorem nodup_branch {d : Side} {q : Label K V T} {near far : LTree K V T} :
    (branch d q near far).addrs.Nodup ↔
      q.addr ∉ near.addrs ∧ q.addr ∉ far.addrs ∧ (∀ a ∈ near.addrs, a ∉ far.addrs) ∧
        near.addrs.Nodup ∧ far.addrs.Nodup := by
  cases d <;> simp only [branch, addrs_node, List.nodup_append, List.nodup_cons] <;> grind

theorem addr_mem_of_ne_nil {t : LTree K V T} (nonempty : t ≠ nil) : t.addr ∈ t.addrs := by
  cases t with
  | nil => exact absurd rfl nonempty
  | node l q r => simp

theorem ne_addr {t : LTree K V T} {a : Addr} (off : a ∉ t.addrs) (nonnull : a ≠ 0) :
    a ≠ t.addr := by
  cases t with
  | nil => exact nonnull
  | node l q r =>
      rintro rfl
      exact off (addr_mem_of_ne_nil (by simp))

/-- Rotations do not change the in-order sequence. -/
theorem labels_rotate (d : Side) (p q : Label K V T) (A B C : LTree K V T) :
    (branch d q (branch d p A B) C).labels = (branch d p A (branch d.flip q C B)).labels := by
  cases d <;> simp [branch, Side.flip]

end LTree

/-- One step of a path: the subtree below is the `side`-child of the labelled node. -/
structure Frame (K V T : Type) where
  side : Side
  label : Label K V T
  sibling : LTree K V T
  deriving Repr, DecidableEq

namespace Frame

variable {K V T : Type}

def fill (f : Frame K V T) (t : LTree K V T) : LTree K V T :=
  LTree.branch f.side f.label t f.sibling

@[simp] theorem addr_fill (f : Frame K V T) (t : LTree K V T) : (f.fill t).addr = f.label.addr := by
  simp [fill]

end Frame

/-- A path from a subtree to the root, innermost frame first. -/
abbrev Path (K V T : Type) := List (Frame K V T)

namespace Path

variable {K V T : Type}

def plug : Path K V T → LTree K V T → LTree K V T
  | [], t => t
  | f :: c, t => plug c (f.fill t)

/-- The address of the node right above the hole, null at the root. -/
def top : Path K V T → Addr
  | [] => 0
  | f :: _ => f.label.addr

/-- The address of the root when `a` is plugged in. -/
def rootOf : Path K V T → Addr → Addr
  | [], a => a
  | f :: c, _ => rootOf c f.label.addr

/-- The labels before the hole, in order. -/
def before : Path K V T → List (Label K V T)
  | [] => []
  | f :: c =>
      match f.side with
      | .left => before c
      | .right => before c ++ (f.sibling.labels ++ [f.label])

/-- The labels after the hole, in order. -/
def after : Path K V T → List (Label K V T)
  | [] => []
  | f :: c =>
      match f.side with
      | .left => f.label :: (f.sibling.labels ++ after c)
      | .right => after c

def addrs (c : Path K V T) : List Addr := (before c ++ after c).map Label.addr

@[simp] theorem plug_nil (t : LTree K V T) : plug [] t = t := rfl

@[simp] theorem plug_cons (f : Frame K V T) (c : Path K V T) (t : LTree K V T) :
    plug (f :: c) t = plug c (f.fill t) := rfl

theorem plug_append (c c' : Path K V T) (t : LTree K V T) :
    plug (c ++ c') t = plug c' (plug c t) := by
  induction c generalizing t with
  | nil => rfl
  | cons f c ih => simp only [List.cons_append, plug_cons, ih]

@[simp] theorem top_nil : top ([] : Path K V T) = 0 := rfl

@[simp] theorem top_cons (f : Frame K V T) (c : Path K V T) : top (f :: c) = f.label.addr := rfl

@[simp] theorem rootOf_nil (a : Addr) : rootOf ([] : Path K V T) a = a := rfl

@[simp] theorem rootOf_cons (f : Frame K V T) (c : Path K V T) (a : Addr) :
    rootOf (f :: c) a = rootOf c f.label.addr := rfl

theorem addr_plug (c : Path K V T) (t : LTree K V T) : (plug c t).addr = rootOf c t.addr := by
  induction c generalizing t with
  | nil => rfl
  | cons f c ih => rw [plug_cons, ih, Frame.addr_fill, rootOf_cons]

theorem labels_plug (c : Path K V T) (t : LTree K V T) :
    (plug c t).labels = before c ++ (t.labels ++ after c) := by
  induction c generalizing t with
  | nil => simp [before, after]
  | cons f c ih =>
      rw [plug_cons, ih]
      cases side : f.side <;> simp [Frame.fill, LTree.branch, before, after, side]

theorem before_append (c c' : Path K V T) : before (c ++ c') = before c' ++ before c := by
  induction c with
  | nil => simp [before]
  | cons f c ih => cases side : f.side <;> simp [before, side, ih]

theorem after_append (c c' : Path K V T) : after (c ++ c') = after c ++ after c' := by
  induction c with
  | nil => simp [after]
  | cons f c ih => cases side : f.side <;> simp [after, side, ih]

theorem mem_addrs_cons (f : Frame K V T) (c : Path K V T) (a : Addr) :
    a ∈ addrs (f :: c) ↔ a = f.label.addr ∨ a ∈ f.sibling.addrs ∨ a ∈ addrs c := by
  cases side : f.side <;>
    simp only [addrs, LTree.addrs, before, after, side, List.map_append, List.map_cons,
      List.map_nil, List.mem_append, List.mem_cons, List.not_mem_nil, or_false] <;> tauto

theorem top_mem {c : Path K V T} (below : c ≠ []) : top c ∈ addrs c := by
  cases c with
  | nil => exact absurd rfl below
  | cons f c => simp [mem_addrs_cons]

theorem rootOf_mem {c : Path K V T} (below : c ≠ []) (a : Addr) : rootOf c a ∈ addrs c := by
  induction c generalizing a with
  | nil => exact absurd rfl below
  | cons f c ih =>
      rw [rootOf_cons, mem_addrs_cons]
      by_cases last : c = []
      · simp [last]
      · exact .inr (.inr (ih last _))

theorem ne_top {c : Path K V T} {a : Addr} (off : a ∉ addrs c) (nonnull : a ≠ 0) : a ≠ top c := by
  cases c with
  | nil => exact nonnull
  | cons f c =>
      rintro rfl
      exact off (top_mem (by simp))

theorem mem_addrs_plug (c : Path K V T) (t : LTree K V T) (a : Addr) :
    a ∈ (plug c t).addrs ↔ a ∈ addrs c ∨ a ∈ t.addrs := by
  simp only [LTree.addrs, labels_plug, addrs, List.map_append, List.mem_append]
  tauto

/-- The addresses of a plugged tree are distinct exactly when those of the path
    and those of the subtree are, and the two do not meet. -/
theorem nodup_plug {c : Path K V T} {t : LTree K V T} :
    (plug c t).addrs.Nodup ↔
      (addrs c).Nodup ∧ t.addrs.Nodup ∧ ∀ a ∈ t.addrs, a ∉ addrs c := by
  simp only [LTree.addrs, labels_plug, addrs, List.map_append, List.nodup_append, List.mem_append]
  grind

theorem nodup_fill_nil {f : Frame K V T} {c : Path K V T} (distinct : (addrs (f :: c)).Nodup) :
    (plug c (f.fill .nil)).addrs.Nodup := by
  have flat : (plug c (f.fill .nil)).addrs = addrs (f :: c) := by
    cases side : f.side <;>
      simp [LTree.addrs, addrs, labels_plug, Frame.fill, LTree.branch, before, after, side]
  rwa [flat]

end Path

section SetLink

variable {K V X T : Type} {h : Heap (Node K V X)}

/-- Let the link above the hole of a path point to `x`.  At the root there is no
    such link. -/
def setLink (h : Heap (Node K V X)) : Path K V T → Addr → Heap (Node K V X)
  | [], _ => h
  | f :: _, x => h.adjust f.label.addr fun n => n.setChild f.side x

@[simp] theorem setLink_nil (x : Addr) : setLink h ([] : Path K V T) x = h := rfl

theorem cell_setLink_ne {c : Path K V T} {x b : Addr} (different : b ≠ c.top) :
    (setLink h c x).cell b = h.cell b := by
  cases c with
  | nil => rfl
  | cons f c => exact Heap.cell_adjust_ne _ different _

end SetLink

section Linked

variable {K V X T : Type} [NodeExt X T]

/-- The cells of `h` spell out the tree, whose root has parent `p`. -/
def Linked (h : Heap (Node K V X)) : Addr → LTree K V T → Prop
  | _, .nil => True
  | p, .node l q r =>
      h.cell q.addr = some (q.cell .left l.addr r.addr p) ∧
        Linked h q.addr l ∧ Linked h q.addr r

/-- The cells of `h` spell out the path above a hole filled with address `a`. -/
def LinkedPath (h : Heap (Node K V X)) : Path K V T → Addr → Prop
  | [], _ => True
  | f :: c, a =>
      h.cell f.label.addr = some (f.label.cell f.side a f.sibling.addr (Path.top c)) ∧
        Linked h f.label.addr f.sibling ∧ LinkedPath h c f.label.addr

variable {h h' : Heap (Node K V X)}

@[simp] theorem linked_nil (p : Addr) : Linked h p (.nil : LTree K V T) := trivial

theorem linked_branch {d : Side} {q : Label K V T} {near far : LTree K V T} {p : Addr} :
    Linked h p (.branch d q near far) ↔
      h.cell q.addr = some (q.cell d near.addr far.addr p) ∧
        Linked h q.addr near ∧ Linked h q.addr far := by
  cases d with
  | left => exact Iff.rfl
  | right =>
      simp only [LTree.branch, Linked, Label.cell]
      tauto

theorem linked_plug {c : Path K V T} {t : LTree K V T} :
    Linked h 0 (c.plug t) ↔ LinkedPath h c t.addr ∧ Linked h c.top t := by
  induction c generalizing t with
  | nil => simp [LinkedPath]
  | cons f c ih =>
      rw [Path.plug_cons, ih, Frame.addr_fill, Frame.fill, linked_branch]
      simp only [LinkedPath, Path.top_cons]
      tauto

/-- A tree stays linked when none of its cells change. -/
theorem Linked.frame {p : Addr} {t : LTree K V T} (linked : Linked h p t)
    (same : ∀ a ∈ t.addrs, h'.cell a = h.cell a) : Linked h' p t := by
  induction t generalizing p with
  | nil => trivial
  | node l q r ihl ihr =>
      obtain ⟨root, left, right⟩ := linked
      refine ⟨?_, ihl left ?_, ihr right ?_⟩
      · rw [same q.addr (by simp), root]
      · intro a member
        exact same a (by simp [member])
      · intro a member
        exact same a (by simp [member])

theorem Linked.allocated {p : Addr} {t : LTree K V T} (linked : Linked h p t) {a : Addr}
    (member : a ∈ t.addrs) : ∃ n, h.cell a = some n := by
  induction t generalizing p with
  | nil => simp at member
  | node l q r ihl ihr =>
      obtain ⟨root, left, right⟩ := linked
      simp only [LTree.addrs_node, List.mem_append, List.mem_cons] at member
      rcases member with member | rfl | member
      · exact ihl left member
      · exact ⟨_, root⟩
      · exact ihr right member

theorem Linked.nonnull {p : Addr} {t : LTree K V T} (linked : Linked h p t) {a : Addr}
    (member : a ∈ t.addrs) : a ≠ 0 := by
  rintro rfl
  obtain ⟨n, cell⟩ := linked.allocated member
  simp [h.null_free] at cell

/-- A tree moves below another node when only the parent link of its root changes. -/
theorem Linked.reparent {p p' : Addr} {t : LTree K V T} (linked : Linked h p t)
    (root : t ≠ .nil → h'.cell t.addr =
      (h.cell t.addr).map fun n => { n with ext := NodeExt.reparent p' n.ext })
    (same : ∀ a ∈ t.addrs, a ≠ t.addr → h'.cell a = h.cell a)
    (distinct : t.addrs.Nodup) : Linked h' p' t := by
  cases t with
  | nil => trivial
  | node l q r =>
      obtain ⟨rootCell, left, right⟩ := linked
      obtain ⟨notLeft, notRight, -⟩ :=
        (@LTree.nodup_branch K V T .left q l r).mp distinct
      refine ⟨?_, left.frame ?_, right.frame ?_⟩
      · have changed := root (by simp)
        rw [LTree.addr_node, rootCell] at changed
        simpa [Label.cell] using changed
      · intro a member
        exact same a (by simp [member]) (fun (eq : a = q.addr) => notLeft (eq ▸ member))
      · intro a member
        exact same a (by simp [member]) (fun (eq : a = q.addr) => notRight (eq ▸ member))

theorem LinkedPath.frame {c : Path K V T} {a : Addr} (linked : LinkedPath h c a)
    (same : ∀ b ∈ c.addrs, h'.cell b = h.cell b) : LinkedPath h' c a := by
  induction c generalizing a with
  | nil => trivial
  | cons f c ih =>
      obtain ⟨cell, sibling, above⟩ := linked
      refine ⟨?_, sibling.frame ?_, ih above ?_⟩
      · rw [same _ (by simp [Path.mem_addrs_cons]), cell]
      · intro b member
        exact same b (by simp [Path.mem_addrs_cons, member])
      · intro b member
        exact same b (by simp [Path.mem_addrs_cons, member])

/-- The path leads to another subtree when only the link above the hole changes. -/
theorem LinkedPath.relink {c : Path K V T} {a a' : Addr} (linked : LinkedPath h c a)
    (distinct : c.addrs.Nodup)
    (link : ∀ f above, c = f :: above → h'.cell f.label.addr =
      some (f.label.cell f.side a' f.sibling.addr (Path.top above)))
    (same : ∀ b ∈ c.addrs, b ≠ c.top → h'.cell b = h.cell b) : LinkedPath h' c a' := by
  cases c with
  | nil => trivial
  | cons f c =>
      obtain ⟨-, sibling, above⟩ := linked
      obtain ⟨pathDistinct, fillDistinct, apart⟩ :=
        Path.nodup_plug (c := c) (t := f.fill .nil) |>.mp (Path.nodup_fill_nil distinct)
      obtain ⟨-, notSibling, -⟩ := LTree.nodup_branch.mp fillDistinct
      have notAbove : f.label.addr ∉ Path.addrs c := apart _ (by simp [Frame.fill])
      refine ⟨link f c rfl, sibling.frame ?_, above.frame ?_⟩
      · intro b member
        refine same b (by simp [Path.mem_addrs_cons, member]) ?_
        rintro rfl
        exact notSibling member
      · intro b member
        refine same b (by simp [Path.mem_addrs_cons, member]) ?_
        rintro rfl
        exact notAbove member

theorem cell_setLink_top {f : Frame K V T} {c : Path K V T} {a x : Addr}
    (linked : LinkedPath h (f :: c) a) :
    (setLink h (f :: c) x).cell f.label.addr =
      some (f.label.cell f.side x f.sibling.addr (Path.top c)) := by
  simp [setLink, linked.1]

/-- The heap consists of the nodes of `t`, linked from `root`, and of the cells
    `rest` beside them. -/
structure Holds (h : Heap (Node K V X)) (root : Addr) (rest : Addr → Option (Node K V X))
    (t : LTree K V T) : Prop where
  linked : Linked h 0 t
  root_eq : root = t.addr
  distinct : t.addrs.Nodup
  beside : ∀ a, a ∉ t.addrs → h.cell a = rest a
  separate : ∀ a ∈ t.addrs, rest a = none

namespace Holds

variable {root root' : Addr} {rest rest' : Addr → Option (Node K V X)}
variable {c : Path K V T} {t t' : LTree K V T}

theorem nil : Holds (Heap.empty : Heap (Node K V X)) 0 (fun _ => none) (.nil : LTree K V T) where
  linked := trivial
  root_eq := rfl
  distinct := by simp
  beside := fun _ _ => rfl
  separate := fun _ _ => rfl

theorem path (holds : Holds h root rest (c.plug t)) : LinkedPath h c t.addr :=
  (linked_plug.mp holds.linked).1

theorem focus (holds : Holds h root rest (c.plug t)) : Linked h c.top t :=
  (linked_plug.mp holds.linked).2

theorem pathDistinct (holds : Holds h root rest (c.plug t)) : c.addrs.Nodup :=
  (Path.nodup_plug.mp holds.distinct).1

theorem focusDistinct (holds : Holds h root rest (c.plug t)) : t.addrs.Nodup :=
  (Path.nodup_plug.mp holds.distinct).2.1

theorem apart (holds : Holds h root rest (c.plug t)) : ∀ a ∈ t.addrs, a ∉ c.addrs :=
  (Path.nodup_plug.mp holds.distinct).2.2

theorem root_plug (holds : Holds h root rest (c.plug t)) : root = c.rootOf t.addr := by
  rw [holds.root_eq, Path.addr_plug]

/-- In-place surgery below a path: the new subtree is linked, the link above it
    follows, and nothing else on the path moves. -/
theorem replace (holds : Holds h root rest (c.plug t))
    (inside : Linked h' c.top t') (distinct : t'.addrs.Nodup) (apart : ∀ a ∈ t'.addrs, a ∉ c.addrs)
    (link : ∀ f above, c = f :: above → h'.cell f.label.addr =
      some (f.label.cell f.side t'.addr f.sibling.addr (Path.top above)))
    (same : ∀ b ∈ c.addrs, b ≠ c.top → h'.cell b = h.cell b)
    (root_eq : root' = c.rootOf t'.addr)
    (beside : ∀ a, a ∉ c.addrs → a ∉ t'.addrs → h'.cell a = rest' a)
    (separate : ∀ a, a ∈ c.addrs ∨ a ∈ t'.addrs → rest' a = none) :
    Holds h' root' rest' (c.plug t') where
  linked := linked_plug.mpr ⟨holds.path.relink holds.pathDistinct link same, inside⟩
  root_eq := by rw [root_eq, Path.addr_plug]
  distinct := Path.nodup_plug.mpr ⟨holds.pathDistinct, distinct, apart⟩
  beside := by
    intro a outside
    rw [Path.mem_addrs_plug, not_or] at outside
    exact beside a outside.1 outside.2
  separate := fun a member => separate a ((Path.mem_addrs_plug c t' a).mp member)

theorem separate_plug (holds : Holds h root rest (c.plug t)) {a : Addr} (member : a ∈ c.addrs ∨ a ∈ t.addrs) :
    rest a = none := holds.separate a ((Path.mem_addrs_plug c t a).mpr member)

theorem ne_top (holds : Holds h root rest (c.plug t)) {a : Addr} (member : a ∈ t.addrs) :
    a ≠ c.top :=
  Path.ne_top (holds.apart a member) (holds.focus.nonnull member)

theorem nonnull_of_mem_path (holds : Holds h root rest (c.plug t)) {a : Addr}
    (member : a ∈ c.addrs) : a ≠ 0 :=
  holds.linked.nonnull ((Path.mem_addrs_plug c t a).mpr (.inl member))

theorem top_nonnull (holds : Holds h root rest (c.plug t)) (below : c ≠ []) : c.top ≠ 0 := by
  cases c with
  | nil => exact absurd rfl below
  | cons f c =>
      intro null
      have cell := holds.path.1
      rw [show f.label.addr = 0 from null, h.null_free] at cell
      cases cell

variable {d : Side} {q q' : Label K V T} {near far : LTree K V T}

theorem cell (holds : Holds h root rest (c.plug (.branch d q near far))) :
    h.cell q.addr = some (q.cell d near.addr far.addr c.top) :=
  (linked_branch.mp holds.focus).1

theorem nonnull (holds : Holds h root rest (c.plug (.branch d q near far))) : q.addr ≠ 0 := by
  intro null
  have cell := holds.cell
  rw [null, h.null_free] at cell
  cases cell

/-- Rewrite the label of the node below a path, keeping its address. -/
theorem relabel (holds : Holds h root rest (c.plug (.branch d q near far)))
    (f : Node K V X → Node K V X) (addr : q'.addr = q.addr)
    (change : f (q.cell d near.addr far.addr c.top) = q'.cell d near.addr far.addr c.top) :
    Holds (h.adjust q.addr f) root rest (c.plug (.branch d q' near far)) := by
  obtain ⟨cell, nearLinked, farLinked⟩ := linked_branch.mp holds.focus
  obtain ⟨notNear, notFar, apart, nearDistinct, farDistinct⟩ := LTree.nodup_branch.mp holds.focusDistinct
  have outside : ∀ a ∈ c.addrs, a ≠ q.addr := by
    rintro a member rfl
    exact holds.apart q.addr (by simp) member
  apply holds.replace
  · refine linked_branch.mpr ⟨?_, ?_, ?_⟩
    · rw [addr, Heap.cell_adjust_self, cell, Option.map_some, change]
    · rw [addr]
      exact nearLinked.frame fun a member => Heap.cell_adjust_ne _ (ne_of_mem_of_not_mem member notNear) f
    · rw [addr]
      exact farLinked.frame fun a member => Heap.cell_adjust_ne _ (ne_of_mem_of_not_mem member notFar) f
  · rw [LTree.nodup_branch, addr]
    exact ⟨notNear, notFar, apart, nearDistinct, farDistinct⟩
  · intro a member
    apply holds.apart a
    simpa [addr] using member
  · rintro g above rfl
    rw [Heap.cell_adjust_ne _ (outside _ (by simp [Path.mem_addrs_cons])), holds.path.1]
    simp [addr]
  · intro b member _
    exact Heap.cell_adjust_ne _ (outside b member) f
  · rw [holds.root_plug]
    simp [addr]
  · intro a offPath offTree
    have offOld : a ∉ (c.plug (.branch d q near far)).addrs := by
      rw [Path.mem_addrs_plug, not_or]
      exact ⟨offPath, by simpa [addr] using offTree⟩
    have kept := holds.beside a offOld
    have different : a ≠ q.addr := fun same => offOld (by rw [Path.mem_addrs_plug]; simp [same])
    rw [Heap.cell_adjust_ne _ different, kept]
  · intro a member
    exact holds.separate_plug (by simpa [addr] using member)

/-- The cells that a rotation at `p` with child `q` is about, and why its writes do
    not interfere. -/
structure Pivot (h : Heap (Node K V X)) (c : Path K V T) (d : Side) (p q : Label K V T)
    (A B C : LTree K V T) : Prop where
  atP : h.cell p.addr = some (p.cell d A.addr q.addr c.top)
  atQ : h.cell q.addr = some (q.cell d B.addr C.addr p.addr)
  p_ne_q : p.addr ≠ q.addr
  p_ne_B : p.addr ≠ B.addr
  q_ne_B : q.addr ≠ B.addr
  p_ne_top : p.addr ≠ c.top
  q_ne_top : q.addr ≠ c.top
  q_nonnull : q.addr ≠ 0
  B_live : B.addr ≠ 0 → ∃ n, h.cell B.addr = some n
  B_ne_top : B ≠ .nil → B.addr ≠ c.top

theorem pivot {p : Label K V T} {A B C : LTree K V T}
    (holds : Holds h root rest (c.plug (.branch d p A (.branch d q B C)))) :
    Pivot h c d p q A B C := by
  obtain ⟨atP, -, qLinked⟩ := linked_branch.mp holds.focus
  obtain ⟨atQ, bLinked, -⟩ := linked_branch.mp qLinked
  obtain ⟨-, pNotQ, -, -, qDistinct⟩ := LTree.nodup_branch.mp holds.focusDistinct
  obtain ⟨qNotB, -⟩ := LTree.nodup_branch.mp qDistinct
  simp only [LTree.mem_addrs_branch, not_or] at pNotQ
  have qNonnull : q.addr ≠ 0 := qLinked.nonnull (by simp)
  exact {
    atP := by simpa using atP
    atQ := atQ
    p_ne_q := pNotQ.1
    p_ne_B := LTree.ne_addr pNotQ.2.1 holds.nonnull
    q_ne_B := LTree.ne_addr qNotB qNonnull
    p_ne_top := holds.ne_top (by simp)
    q_ne_top := holds.ne_top (by simp)
    q_nonnull := qNonnull
    B_live := by
      intro live
      cases B with
      | nil => exact absurd rfl live
      | node l b r => exact bLinked.allocated (LTree.addr_mem_of_ne_nil (by simp))
    B_ne_top := fun nonempty => holds.ne_top (by simp [LTree.addr_mem_of_ne_nil nonempty]) }

/-- A rotation at `p`: its child `q` takes its place and hands over the subtree `B`.
    Only the cells of `p` and `q`, the parent link of `B` and the link above `p`
    change. -/
theorem rotate {p : Label K V T} {A B C : LTree K V T} (p' q' : Label K V T)
    (holds : Holds h root rest (c.plug (.branch d p A (.branch d q B C))))
    (pAddr : p'.addr = p.addr) (qAddr : q'.addr = q.addr)
    (atP : h'.cell p.addr = some (p'.cell d A.addr B.addr q.addr))
    (atQ : h'.cell q.addr = some (q'.cell d p.addr C.addr c.top))
    (atB : B ≠ .nil → h'.cell B.addr =
      (h.cell B.addr).map fun n => { n with ext := NodeExt.reparent p.addr n.ext })
    (link : ∀ f above, c = f :: above → h'.cell f.label.addr =
      some (f.label.cell f.side q.addr f.sibling.addr (Path.top above)))
    (same : ∀ a, a ≠ p.addr → a ≠ q.addr → a ≠ B.addr → a ≠ c.top → h'.cell a = h.cell a)
    (root_eq : root' = c.rootOf q.addr) :
    Holds h' root' rest (c.plug (.branch d q' (.branch d p' A B) C)) := by
  obtain ⟨-, aLinked, qLinked⟩ := linked_branch.mp holds.focus
  obtain ⟨-, bLinked, cLinked⟩ := linked_branch.mp qLinked
  obtain ⟨pNotA, pNotQ, aApart, aDistinct, qDistinct⟩ := LTree.nodup_branch.mp holds.focusDistinct
  obtain ⟨qNotB, qNotC, bApart, bDistinct, cDistinct⟩ := LTree.nodup_branch.mp qDistinct
  simp only [LTree.mem_addrs_branch, not_or] at pNotQ aApart
  have members : ∀ a, a ∈ (LTree.branch d q' (.branch d p' A B) C).addrs ↔
      a ∈ (LTree.branch d p A (.branch d q B C)).addrs := by
    intro a
    simp only [LTree.mem_addrs_branch, pAddr, qAddr]
    tauto
  apply holds.replace
  · refine linked_branch.mpr ⟨?_, linked_branch.mpr ⟨?_, ?_, ?_⟩, ?_⟩
    · rw [qAddr, atQ]
      simp [pAddr]
    · rw [pAddr, qAddr, atP]
    · rw [pAddr]
      refine aLinked.frame fun a member => same a ?_ ?_ ?_ ?_
      · exact ne_of_mem_of_not_mem member pNotA
      · exact (aApart a member).1
      · exact LTree.ne_addr (aApart a member).2.1 (aLinked.nonnull member)
      · exact holds.ne_top (by simp [member])
    · rw [pAddr]
      refine bLinked.reparent atB ?_ bDistinct
      intro a member notRoot
      refine same a ?_ ?_ notRoot (holds.ne_top (by simp [member]))
      · exact ne_of_mem_of_not_mem member pNotQ.2.1
      · exact ne_of_mem_of_not_mem member qNotB
    · rw [qAddr]
      refine cLinked.frame fun a member => same a ?_ ?_ ?_ ?_
      · exact ne_of_mem_of_not_mem member pNotQ.2.2
      · exact ne_of_mem_of_not_mem member qNotC
      · exact LTree.ne_addr (fun inB => bApart a inB member) (cLinked.nonnull member)
      · exact holds.ne_top (by simp [member])
  · simp only [LTree.nodup_branch, LTree.mem_addrs_branch, not_or, pAddr, qAddr]
    grind
  · intro a member
    exact holds.apart a ((members a).mp member)
  · intro f above eq
    rw [link f above eq]
    simp [qAddr]
  · intro b member notTop
    have outside : b ∉ (LTree.branch d p A (.branch d q B C)).addrs :=
      fun inside => holds.apart b inside member
    simp only [LTree.mem_addrs_branch, not_or] at outside
    exact same b outside.1 outside.2.2.1
      (LTree.ne_addr outside.2.2.2.1 (holds.nonnull_of_mem_path member)) notTop
  · simp [root_eq, qAddr]
  · intro a offPath offTree
    rw [members] at offTree
    rw [← holds.beside a (by rw [Path.mem_addrs_plug]; tauto)]
    by_cases null : a = 0
    · rw [null, h.null_free, h'.null_free]
    · simp only [LTree.mem_addrs_branch, not_or] at offTree
      exact same a offTree.1 offTree.2.2.1 (LTree.ne_addr offTree.2.2.2.1 null)
        (Path.ne_top offPath null)
  · intro a member
    rw [members] at member
    exact holds.separate_plug member

/-- The cells that a double rotation is about. -/
structure DoublePivot (h : Heap (Node K V X)) (c : Path K V T) (d : Side) (p q m : Label K V T)
    (A B C D : LTree K V T) : Prop where
  lower : Pivot h (⟨d, p, D⟩ :: c) d q m A B C
  atP : h.cell p.addr = some (p.cell d q.addr D.addr c.top)
  p_ne_B : p.addr ≠ B.addr
  p_ne_C : p.addr ≠ C.addr
  q_ne_C : q.addr ≠ C.addr
  m_ne_C : m.addr ≠ C.addr
  B_ne_C : B ≠ .nil → B.addr ≠ C.addr
  p_ne_top : p.addr ≠ c.top
  q_ne_top : q.addr ≠ c.top
  m_ne_top : m.addr ≠ c.top
  C_live : C.addr ≠ 0 → ∃ n, h.cell C.addr = some n
  B_ne_top : B ≠ .nil → B.addr ≠ c.top
  C_ne_top : C ≠ .nil → C.addr ≠ c.top

variable {p m : Label K V T} {A B C D : LTree K V T}

theorem doublePivot
    (holds : Holds h root rest (c.plug (.branch d p (.branch d q A (.branch d m B C)) D))) :
    DoublePivot h c d p q m A B C D := by
  have lower := pivot (c := ⟨d, p, D⟩ :: c) holds
  obtain ⟨pNotQ, -, -, qDistinct, -⟩ := LTree.nodup_branch.mp holds.focusDistinct
  obtain ⟨-, qNotM, -, -, mDistinct⟩ := LTree.nodup_branch.mp qDistinct
  obtain ⟨-, mNotC, bApart, -, -⟩ := LTree.nodup_branch.mp mDistinct
  simp only [LTree.mem_addrs_branch, not_or] at pNotQ qNotM
  have nonnull : ∀ a ∈ (LTree.branch d p (.branch d q A (.branch d m B C)) D).addrs, a ≠ 0 :=
    fun a member => holds.focus.nonnull member
  exact {
    lower := lower
    atP := by simpa using holds.cell
    p_ne_B := LTree.ne_addr pNotQ.2.2.2.1 holds.nonnull
    p_ne_C := LTree.ne_addr pNotQ.2.2.2.2 holds.nonnull
    q_ne_C := LTree.ne_addr qNotM.2.2 (nonnull _ (by simp))
    m_ne_C := LTree.ne_addr mNotC lower.q_nonnull
    B_ne_C := fun nonempty => LTree.ne_addr (bApart _ (LTree.addr_mem_of_ne_nil nonempty))
      (nonnull _ (by simp [LTree.addr_mem_of_ne_nil nonempty]))
    p_ne_top := holds.ne_top (by simp)
    q_ne_top := holds.ne_top (by simp)
    m_ne_top := holds.ne_top (by simp)
    C_live := by
      intro live
      have nonempty : C ≠ .nil := by
        rintro rfl
        exact live rfl
      exact holds.focus.allocated (by simp [LTree.addr_mem_of_ne_nil nonempty])
    B_ne_top := fun nonempty => holds.ne_top (by simp [LTree.addr_mem_of_ne_nil nonempty])
    C_ne_top := fun nonempty => holds.ne_top (by simp [LTree.addr_mem_of_ne_nil nonempty]) }

/-- A double rotation: `m`, the inner grandchild of `p`, takes the place of `p`. -/
theorem doubleRotate (p' q' m' : Label K V T)
    (holds : Holds h root rest (c.plug (.branch d p (.branch d q A (.branch d m B C)) D)))
    (pAddr : p'.addr = p.addr) (qAddr : q'.addr = q.addr) (mAddr : m'.addr = m.addr)
    (atP : h'.cell p.addr = some (p'.cell d C.addr D.addr m.addr))
    (atQ : h'.cell q.addr = some (q'.cell d A.addr B.addr m.addr))
    (atM : h'.cell m.addr = some (m'.cell d q.addr p.addr c.top))
    (atB : B ≠ .nil → h'.cell B.addr =
      (h.cell B.addr).map fun n => { n with ext := NodeExt.reparent q.addr n.ext })
    (atC : C ≠ .nil → h'.cell C.addr =
      (h.cell C.addr).map fun n => { n with ext := NodeExt.reparent p.addr n.ext })
    (link : ∀ f above, c = f :: above → h'.cell f.label.addr =
      some (f.label.cell f.side m.addr f.sibling.addr (Path.top above)))
    (same : ∀ a, a ≠ p.addr → a ≠ q.addr → a ≠ m.addr → a ≠ B.addr → a ≠ C.addr → a ≠ c.top →
      h'.cell a = h.cell a)
    (root_eq : root' = c.rootOf m.addr) :
    Holds h' root' rest (c.plug (.branch d m' (.branch d q' A B) (.branch d p' C D))) := by
  have pivot := holds.doublePivot
  -- The heap after the lower of the two single rotations.
  let g := (((h.adjust q.addr fun _ => q'.cell d A.addr B.addr m.addr).adjust m.addr
    fun _ => m.cell d q.addr C.addr p.addr).adjust B.addr
    fun n => { n with ext := NodeExt.reparent q.addr n.ext }).adjust p.addr
    fun n => n.setChild d m.addr
  have p_ne_q : p.addr ≠ q.addr := pivot.lower.p_ne_top.symm
  have p_ne_m : p.addr ≠ m.addr := pivot.lower.q_ne_top.symm
  have q_ne_m : q.addr ≠ m.addr := pivot.lower.p_ne_q
  have first : Holds g root rest
      (Path.plug (⟨d, p, D⟩ :: c) (.branch d m (.branch d q' A B) C)) := by
    apply rotate (c := ⟨d, p, D⟩ :: c) q' m holds qAddr rfl
    · simp [g, pivot.lower.p_ne_B, q_ne_m, p_ne_q.symm, pivot.lower.atP]
    · simp [g, pivot.lower.q_ne_B, q_ne_m.symm, p_ne_m.symm, pivot.lower.atQ]
    · intro nonempty
      simp [g, pivot.p_ne_B.symm, pivot.lower.p_ne_B.symm, pivot.lower.q_ne_B.symm]
    · rintro f above eq
      obtain ⟨rfl, rfl⟩ := List.cons.inj eq
      simp [g, pivot.atP, p_ne_q, p_ne_m, pivot.p_ne_B]
    · intro a notQ notM notB notP
      have notTop : a ≠ p.addr := notP
      simp [g, notQ, notM, notB, notTop]
    · rw [holds.root_plug, LTree.addr_branch, Path.rootOf_cons]
  have turned : Holds g root rest
      (c.plug (.branch d.flip p D (.branch d.flip m C (.branch d q' A B)))) := by
    rw [LTree.branch_flip, LTree.branch_flip]
    exact first
  rw [← LTree.branch_flip, ← LTree.branch_flip d p']
  apply rotate p' m' turned pAddr mAddr
  · rw [atP, Label.cell_flip]
  · rw [atM, Label.cell_flip]
    simp [qAddr]
  · intro nonempty
    rw [atC nonempty]
    by_cases onlyC : B = .nil
    · have notNull : C.addr ≠ 0 :=
        holds.focus.nonnull (by simp [LTree.addr_mem_of_ne_nil nonempty])
      simp [g, pivot.p_ne_C.symm, pivot.q_ne_C.symm, pivot.m_ne_C.symm, onlyC, notNull]
    · simp [g, pivot.p_ne_C.symm, pivot.q_ne_C.symm, pivot.m_ne_C.symm, (pivot.B_ne_C onlyC).symm]
  · exact link
  · intro a notP notM notC notTop
    by_cases isQ : a = q.addr
    · subst isQ
      rw [atQ]
      simp [g, p_ne_q.symm, q_ne_m, pivot.lower.p_ne_B, pivot.lower.atP]
    · by_cases isB : a = B.addr
      · subst isB
        by_cases empty : B = .nil
        · rw [empty, LTree.addr_nil, Heap.null_free, Heap.null_free]
        · rw [atB empty]
          simp [g, notP, notM, isQ]
      · rw [same a notP isQ notM isB notC notTop]
        simp [g, notP, notM, isQ, isB]
  · exact root_eq

end Holds

end Linked

end Plibsys.Support
