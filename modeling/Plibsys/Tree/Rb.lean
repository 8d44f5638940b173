import Plibsys.Tree.UpLinked

/-! # Red-black trees: the code

`ptree-rb.c`.  The rotations and the mirrored cases of the fix-up loops are written
once, over the side on which the node hangs.
-/

namespace Plibsys.Tree

open Support

/-- `PTreeRBColor` -/
inductive Color where
  | red
  | black
  deriving Repr, DecidableEq

abbrev RbState := TreeState (UpLink Color)

namespace RbState

open TreeState

/-- `pztree_rb_is_black`; the empty tree is black. -/
def pztreeRbIsBlack (st : RbState) (node : Addr) : Exec Bool :=
  if node = 0 then pure true
  else do
    let n ← st.load node
    pure (n.ext.tag == .black)

/-- `pztree_rb_is_red` -/
def pztreeRbIsRed (st : RbState) (node : Addr) : Exec Bool := do
  let n ← st.load node
  pure (n.ext.tag == .red)

/-- `pztree_rb_get_gparent` -/
def pztreeRbGetGparent (st : RbState) (node : Addr) : Exec Addr := do
  let n ← st.load node
  let parent ← st.load n.ext.parent
  pure parent.ext.parent

/-- `pztree_rb_get_uncle` -/
def pztreeRbGetUncle (st : RbState) (node : Addr) : Exec Addr := do
  let gparent ← pztreeRbGetGparent st node
  let g ← st.load gparent
  let n ← st.load node
  if g.left = n.ext.parent then pure g.right else pure g.left

/-- `pztree_rb_get_sibling` -/
def pztreeRbGetSibling (st : RbState) (node : Addr) : Exec Addr := do
  let n ← st.load node
  let parent ← st.load n.ext.parent
  if parent.left = node then pure parent.right else pure parent.left

/-- The rotations.  `d` is the side to which the node moves down. -/
def rotate (d : Side) (node : Addr) (st : RbState) : Exec RbState := do
  let n ← st.load node
  let tmznode := n.child d.flip
  let st ← st.relinkNonnull n.ext.parent node tmznode
  let tmz ← st.load tmznode
  let st ← st.modify node fun n => n.setChild d.flip (tmz.child d)
  let st ← st.modifyNonnull (tmz.child d) (withParent node)
  let st ← st.modify tmznode fun n => n.setChild d node
  let n ← st.load node
  let st ← st.modify tmznode (withParent n.ext.parent)
  let st ← st.modify node (withParent tmznode)
  let tmz ← st.load tmznode
  if tmz.ext.parent = 0 then pure { st with root := tmznode } else pure st

/-- `pztree_rb_rotate_left` -/
def pztreeRbRotateLeft (node : Addr) (st : RbState) : Exec RbState := rotate .left node st

/-- `pztree_rb_rotate_right` -/
def pztreeRbRotateRight (node : Addr) (st : RbState) : Exec RbState := rotate .right node st

/-- Case 4 of the insertion: an inner node is rotated to the outside.  Returns the
    lower of the two red nodes. -/
def straighten (d : Side) (node : Addr) (st : RbState) : Exec (Addr × RbState) := do
  let n ← st.load node
  let parent ← st.load n.ext.parent
  if node = parent.child d.flip then
    let st ← rotate d n.ext.parent st
    let n ← st.load node
    pure (n.child d, st)
  else
    pure (node, st)

/-- Cases 4 and 5 of the insertion, for a parent that is the `d`-child of `gparent`. -/
def insertRotate (d : Side) (node gparent : Addr) (st : RbState) : Exec RbState := do
  let (node, st) ← straighten d node st
  let st ← st.modify gparent (withTag .red)
  let n ← st.load node
  let st ← st.modify n.ext.parent (withTag .black)
  rotate d.flip gparent st

/-- `uncle != NULL && pztree_rb_is_red (uncle)` -/
def redUncle (st : RbState) (uncle : Addr) : Exec Bool :=
  if uncle ≠ 0 then pztreeRbIsRed st uncle else pure false

/-- `pztree_rb_balance_insert` -/
def pztreeRbBalanceInsert : Nat → Addr → RbState → Exec RbState
  | 0, _, _ => .error .outOfFuel
  | fuel + 1, node, st => do
      let n ← st.load node
      if n.ext.parent = 0 then
        st.modify node (withTag .black)
      else
        let black ← pztreeRbIsBlack st n.ext.parent
        if black then
          pure st
        else
          let uncle ← pztreeRbGetUncle st node
          let gparent ← pztreeRbGetGparent st node
          let red ← redUncle st uncle
          if red then
            let st ← st.modify n.ext.parent (withTag .black)
            let st ← st.modify uncle (withTag .black)
            let st ← st.modify gparent (withTag .red)
            pztreeRbBalanceInsert fuel gparent st
          else
            let g ← st.load gparent
            if n.ext.parent = g.left then
              insertRotate .left node gparent st
            else
              insertRotate .right node gparent st

/-- The side of a node below its parent, by the comparison with `parent->left`. -/
def sideOf (st : RbState) (node : Addr) : Exec Side := do
  let n ← st.load node
  let parent ← st.load n.ext.parent
  if node = parent.left then pure .left else pure .right

/-- Case 2 of the removal: a red sibling is rotated above the parent.  Returns the
    sibling the other cases work with. -/
def lowerRedSibling (node : Addr) (st : RbState) : Exec (Addr × RbState) := do
  let sibling ← pztreeRbGetSibling st node
  let red ← pztreeRbIsRed st sibling
  if red then
    let n ← st.load node
    let st ← st.modify n.ext.parent (withTag .red)
    let st ← st.modify sibling (withTag .black)
    let d ← sideOf st node
    let st ← rotate d n.ext.parent st
    let sibling ← pztreeRbGetSibling st node
    pure (sibling, st)
  else
    pure (sibling, st)

/-- Case 4 of the removal: a red inner nephew is rotated to the outside. -/
def turnNephew (d : Side) (node sibling : Addr) (st : RbState) : Exec (Addr × RbState) := do
  let s ← st.load sibling
  let black ← pztreeRbIsBlack st (s.child d.flip)
  if black then
    let st ← st.modify sibling (withTag .red)
    let st ← st.modify (s.child d) (withTag .black)
    let st ← rotate d.flip sibling st
    let sibling ← pztreeRbGetSibling st node
    pure (sibling, st)
  else
    pure (sibling, st)

/-- Cases 4 and 5 of the removal. -/
def removeRotate (node sibling : Addr) (st : RbState) : Exec RbState := do
  let d ← sideOf st node
  let (sibling, st) ← turnNephew d node sibling st
  let n ← st.load node
  let parent ← st.load n.ext.parent
  let st ← st.modify sibling (withTag parent.ext.tag)
  let st ← st.modify n.ext.parent (withTag .black)
  let d ← sideOf st node
  let s ← st.load sibling
  let st ← st.modify (s.child d.flip) (withTag .black)
  rotate d n.ext.parent st

/-- `pztree_rb_balance_remove` -/
def pztreeRbBalanceRemove : Nat → Addr → RbState → Exec RbState
  | 0, _, _ => .error .outOfFuel
  | fuel + 1, node, st => do
      let n ← st.load node
      if n.ext.parent = 0 then
        pure st
      else
        let (sibling, st) ← lowerRedSibling node st
        let s ← st.load sibling
        let blackLeft ← pztreeRbIsBlack st s.left
        let blackRight ← pztreeRbIsBlack st s.right
        let n ← st.load node
        if blackLeft && blackRight then
          let st ← st.modify sibling (withTag .red)
          let black ← pztreeRbIsBlack st n.ext.parent
          if black then
            pztreeRbBalanceRemove fuel n.ext.parent st
          else
            st.modify n.ext.parent (withTag .black)
        else
          removeRotate node sibling st

/-- `ztree_rb_insert` -/
def ztreeRbInsert (fuel : Nat) (cb : Callbacks) (malloc : Option Allocator) (key value : PPointer)
    (st : RbState) : Exec (Bool × RbState) :=
  st.insertNode ⟨0, .red⟩ (fun parent => ⟨parent, .red⟩) pztreeRbBalanceInsert fuel cb malloc key value

/-- The rebalancing of `ztree_rb_remove`, before the node is unlinked. -/
def balanceBlackLeaf (fuel : Nat) (curNode childNode : Addr) (st : RbState) : Exec RbState := do
  let black ← pztreeRbIsBlack st curNode
  if childNode = 0 ∧ black = true then pztreeRbBalanceRemove fuel curNode st else pure st

/-- The repainting of `ztree_rb_remove`, after the child took the node's place. -/
def repaintChild (_ : Nat) (curNode childNode : Addr) (st : RbState) : Exec RbState := do
  let black ← pztreeRbIsBlack st curNode
  if black then st.modify childNode (withTag .black) else pure st

/-- `ztree_rb_remove` -/
def ztreeRbRemove (fuel : Nat) (cb : Callbacks) (key : PPointer) (st : RbState) :
    Exec (Bool × RbState) :=
  st.removeNode balanceBlackLeaf repaintChild fuel cb key

def funcs : NodeFuncs (UpLink Color) := ⟨ztreeRbInsert, ztreeRbRemove⟩

theorem rotate_holds {st : RbState} {rest : Addr → Option (Node PPointer PPointer (UpLink Color))}
    {c : Path PPointer PPointer Color} {d : Side} {p q : Label PPointer PPointer Color}
    {A B C : LTree PPointer PPointer Color}
    (holds : st.HoldsBeside rest (c.plug (.branch d p A (.branch d.flip q C B)))) :
    ∃ st' : RbState, st.rotate d p.addr = .ok st' ∧
      st'.HoldsBeside rest (c.plug (.branch d q (.branch d p A B) C)) ∧ st'.trace = st.trace := by
  rw [LTree.branch_flip] at holds
  have pivot := Support.Holds.pivot holds
  have q_ne_p := pivot.p_ne_q.symm
  let h₁ := setLink st.heap c q.addr
  let h₂ := h₁.adjust p.addr fun n => n.setChild d.flip B.addr
  let h₃ := h₂.adjust B.addr (withParent p.addr)
  let h₄ := h₃.adjust q.addr fun n => n.setChild d p.addr
  let h₅ := h₄.adjust q.addr (withParent c.top)
  let h₆ := h₅.adjust p.addr (withParent q.addr)
  have p₁ : h₁.cell p.addr = some (p.cell d A.addr q.addr c.top) := by
    rw [cell_setLink_ne pivot.p_ne_top, pivot.atP]
  have p₄ : h₄.cell p.addr = some (p.cell d A.addr B.addr c.top) := by
    simp [h₄, h₃, h₂, p₁, pivot.p_ne_q, pivot.p_ne_B]
  have p₅ : h₅.cell p.addr = some (p.cell d A.addr B.addr c.top) := by
    simp [h₅, p₄, pivot.p_ne_q]
  have q₁ : h₁.cell q.addr = some (q.cell d B.addr C.addr p.addr) := by
    rw [cell_setLink_ne pivot.q_ne_top, pivot.atQ]
  have q₃ : h₃.cell q.addr = some (q.cell d B.addr C.addr p.addr) := by
    simp [h₃, h₂, q₁, pivot.q_ne_B, q_ne_p]
  have q₄ : h₄.cell q.addr = some (q.cell d p.addr C.addr p.addr) := by simp [h₄, q₃]
  have q₆ : h₆.cell q.addr = some (q.cell d p.addr C.addr c.top) := by simp [h₆, h₅, q₄, q_ne_p]
  have b₂ : B.addr ≠ 0 → ∃ n, h₂.cell B.addr = some n := by
    intro live
    obtain ⟨n, cell⟩ := pivot.B_live live
    have nonempty : B ≠ .nil := by
      rintro rfl
      exact live rfl
    refine ⟨n, ?_⟩
    rw [Heap.cell_adjust_ne _ pivot.p_ne_B.symm, cell_setLink_ne (pivot.B_ne_top nonempty), cell]
  -- One line for each statement of the source.
  have load₀ : st.load p.addr = .ok (p.cell d A.addr q.addr c.top) := Heap.load_of_cell pivot.atP
  have step₁ : st.relinkNonnull c.top p.addr q.addr = .ok ⟨h₁, st.root, st.trace⟩ := by
    rw [← LTree.addr_branch d p A (.branch d q B C)]
    exact relinkNonnull_path holds (by simp) q.addr
  have load₁ : TreeState.load ⟨h₁, st.root, st.trace⟩ q.addr =
      .ok (q.cell d B.addr C.addr p.addr) := Heap.load_of_cell q₁
  have step₂ : TreeState.modify ⟨h₁, st.root, st.trace⟩ p.addr (fun n => n.setChild d.flip B.addr) =
      .ok ⟨h₂, st.root, st.trace⟩ := modify_of_cell p₁ _
  have step₃ : TreeState.modifyNonnull ⟨h₂, st.root, st.trace⟩ B.addr (withParent p.addr) =
      .ok ⟨h₃, st.root, st.trace⟩ := modifyNonnull_eq b₂ _
  have step₄ : TreeState.modify ⟨h₃, st.root, st.trace⟩ q.addr (fun n => n.setChild d p.addr) =
      .ok ⟨h₄, st.root, st.trace⟩ := modify_of_cell q₃ _
  have load₄ : TreeState.load ⟨h₄, st.root, st.trace⟩ p.addr =
      .ok (p.cell d A.addr B.addr c.top) := Heap.load_of_cell p₄
  have step₅ : TreeState.modify ⟨h₄, st.root, st.trace⟩ q.addr (withParent c.top) =
      .ok ⟨h₅, st.root, st.trace⟩ := modify_of_cell q₄ _
  have step₆ : TreeState.modify ⟨h₅, st.root, st.trace⟩ p.addr (withParent q.addr) =
      .ok ⟨h₆, st.root, st.trace⟩ := modify_of_cell p₅ _
  have load₆ : TreeState.load ⟨h₆, st.root, st.trace⟩ q.addr =
      .ok (q.cell d p.addr C.addr c.top) := Heap.load_of_cell q₆
  refine ⟨⟨h₆, rootAfter st.root c q.addr, st.trace⟩, ?_, ?_, rfl⟩
  · simp only [rotate, load₀, Exec.ok_bind, Label.cell_child_flip, Label.cell_ext, upLink_ext, step₁,
      load₁, Label.cell_child, step₂, step₃, step₄, load₄, step₅, step₆, load₆]
    cases c with
    | nil => rfl
    | cons f c =>
        have below : f.label.addr ≠ 0 := Support.Holds.top_nonnull holds (by simp)
        simp [below, rootAfter]
  · have untouched : ∀ a, a ≠ p.addr → a ≠ q.addr → a ≠ B.addr → h₆.cell a = h₁.cell a := by
      intro a notP notQ notB
      simp [h₆, h₅, h₄, h₃, h₂, notP, notQ, notB]
    apply Support.Holds.rotate p q holds rfl rfl
    · simp [h₆, p₅]
    · exact q₆
    · intro nonempty
      simp [h₆, h₅, h₄, h₃, h₂, pivot.p_ne_B.symm, pivot.q_ne_B.symm, h₁,
        cell_setLink_ne (pivot.B_ne_top nonempty)]
      rfl
    · rintro f above rfl
      have topNeB : f.label.addr ≠ B.addr := by
        by_cases empty : B = .nil
        · rw [empty]
          exact Support.Holds.top_nonnull holds (by simp)
        · exact (pivot.B_ne_top empty).symm
      have linkOnly : h₆.cell f.label.addr = h₁.cell f.label.addr :=
        untouched _ pivot.p_ne_top.symm pivot.q_ne_top.symm topNeB
      exact linkOnly.trans (cell_setLink_top (Support.Holds.path holds))
    · intro a notP notQ notB notTop
      rw [untouched a notP notQ notB, cell_setLink_ne notTop]
    · exact rootAfter_eq holds q.addr

end RbState

end Plibsys.Tree
