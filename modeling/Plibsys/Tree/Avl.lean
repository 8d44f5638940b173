import Plibsys.Tree.UpLinked

/-! # AVL trees: the code

`ptree-avl.c`.  As in the red-black code, the mirrored functions and branches are
written once, over a side.
-/

namespace Plibsys.Support.Side

/-- The balance factor of a node counts its left side positively. -/
def sign : Side → Int
  | .left => 1
  | .right => -1

end Plibsys.Support.Side

namespace Plibsys.Tree

open Support

/-- The tag of a node is its `balance_factor`. -/
abbrev AvlState := TreeState (UpLink Int)

namespace AvlState

open TreeState

/-- `if (parent != NULL)` re-point the parent's link, `else` the root. -/
def relinkOrRoot (parent old new : Addr) (st : AvlState) : Exec AvlState :=
  if parent ≠ 0 then st.relink parent old new else pure { st with root := new }

/-- The single rotations.  The parent of `node` moves down to the side `d`. -/
def rotate (d : Side) (node : Addr) (st : AvlState) : Exec AvlState := do
  let n ← st.load node
  let st ← st.modify n.ext.parent fun p => p.setChild d.flip (n.child d)
  let st ← st.modifyNonnull (n.child d) (withParent n.ext.parent)
  let st ← st.modify node fun m => m.setChild d n.ext.parent
  let p ← st.load n.ext.parent
  let st ← st.modify node (withParent p.ext.parent)
  let st ← st.modify n.ext.parent (withParent node)
  let st ← relinkOrRoot p.ext.parent n.ext.parent node st
  let m ← st.load node
  let st ← st.modify node (withTag (m.ext.tag + d.sign))
  let m ← st.load node
  st.modify n.ext.parent (withTag (-m.ext.tag))

/-- `pztree_avl_rotate_left` -/
def pztreeAvlRotateLeft (node : Addr) (st : AvlState) : Exec AvlState := rotate .left node st

/-- `pztree_avl_rotate_right` -/
def pztreeAvlRotateRight (node : Addr) (st : AvlState) : Exec AvlState := rotate .right node st

/-- The new factors of the left and the right child after a double rotation, by the
    factor the middle node had. -/
def childFactors (factor : Int) : Int × Int :=
  if factor = 1 then (0, -1) else if factor = -1 then (1, 0) else (0, 0)

def restoreFactors (tmznode : Addr) (st : AvlState) : Exec AvlState := do
  let tmz ← st.load tmznode
  let st ← st.modify tmz.left (withTag (childFactors tmz.ext.tag).1)
  let st ← st.modify tmz.right (withTag (childFactors tmz.ext.tag).2)
  st.modify tmznode (withTag 0)

/-- The links of the double rotations, for a `node` that is the `d`-child of its parent.
    Returns the node that is on top then. -/
def turnTwice (d : Side) (node : Addr) (st : AvlState) : Exec (Addr × AvlState) := do
  let n ← st.load node
  let tmznode := n.child d.flip
  let tmz ← st.load tmznode
  let st ← st.modify node fun m => m.setChild d.flip (tmz.child d)
  let st ← st.modifyNonnull (tmz.child d) (withParent node)
  let parent ← st.load n.ext.parent
  let st ← st.modify tmznode (withParent parent.ext.parent)
  let st ← relinkOrRoot parent.ext.parent n.ext.parent tmznode st
  let st ← st.modify n.ext.parent fun m => m.setChild d (tmz.child d.flip)
  let st ← st.modifyNonnull (tmz.child d.flip) (withParent n.ext.parent)
  let st ← st.modify tmznode fun m => m.setChild d.flip n.ext.parent
  let st ← st.modify n.ext.parent (withParent tmznode)
  let st ← st.modify tmznode fun m => m.setChild d node
  let st ← st.modify node (withParent tmznode)
  pure (tmznode, st)

/-- The double rotations. -/
def rotateTwice (d : Side) (node : Addr) (st : AvlState) : Exec AvlState := do
  let (tmznode, st) ← turnTwice d node st
  restoreFactors tmznode st

/-- `pztree_avl_rotate_left_right` -/
def pztreeAvlRotateLeftRight (node : Addr) (st : AvlState) : Exec AvlState := rotateTwice .left node st

/-- `pztree_avl_rotate_right_left` -/
def pztreeAvlRotateRightLeft (node : Addr) (st : AvlState) : Exec AvlState := rotateTwice .right node st

/-- One pass of the insertion loop, for a `node` that is the `d`-child of `parent`.
    Returns whether the loop goes on. -/
def growStep (d : Side) (node parent : Addr) (st : AvlState) : Exec (Bool × AvlState) := do
  let p ← st.load parent
  if p.ext.tag = d.sign then
    let n ← st.load node
    let st ← if n.ext.tag = -d.sign then rotateTwice d node st else rotate d.flip node st
    pure (false, st)
  else if p.ext.tag = -d.sign then
    let st ← st.modify parent (withTag 0)
    pure (false, st)
  else
    let st ← st.modify parent (withTag d.sign)
    pure (true, st)

/-- The side of a child, by the comparison with `parent->left`. -/
def sideBelow (st : AvlState) (parent node : Addr) : Exec Side := do
  let p ← st.load parent
  if p.left = node then pure .left else pure .right

/-- `pztree_avl_balance_insert` -/
def pztreeAvlBalanceInsert : Nat → Addr → AvlState → Exec AvlState
  | 0, _, _ => .error .outOfFuel
  | fuel + 1, node, st => do
      let n ← st.load node
      if n.ext.parent = 0 then
        pure st
      else
        let d ← sideBelow st n.ext.parent node
        let (goOn, st) ← growStep d node n.ext.parent st
        if goOn then
          let n ← st.load node
          pztreeAvlBalanceInsert fuel n.ext.parent st
        else
          pure st

/-- One pass of the removal loop, for a `node` that is the `d`-child of `parent`.
    Returns whether the loop goes on, and from the parent of which node. -/
def shrinkStep (d : Side) (node parent : Addr) (st : AvlState) : Exec (Bool × Addr × AvlState) := do
  let p ← st.load parent
  if p.ext.tag = -d.sign then
    let sibling := p.child d.flip
    let s ← st.load sibling
    let st ← if s.ext.tag = d.sign then rotateTwice d.flip sibling st else rotate d sibling st
    pure (s.ext.tag ≠ 0, parent, st)
  else if p.ext.tag = 0 then
    let st ← st.modify parent (withTag (-d.sign))
    pure (false, node, st)
  else
    let st ← st.modify parent (withTag 0)
    pure (true, node, st)

/-- `pztree_avl_balance_remove` -/
def pztreeAvlBalanceRemove : Nat → Addr → AvlState → Exec AvlState
  | 0, _, _ => .error .outOfFuel
  | fuel + 1, node, st => do
      let n ← st.load node
      if n.ext.parent = 0 then
        pure st
      else
        let d ← sideBelow st n.ext.parent node
        let (goOn, node, st) ← shrinkStep d node n.ext.parent st
        if goOn then
          let n ← st.load node
          pztreeAvlBalanceRemove fuel n.ext.parent st
        else
          pure st

/-- `ztree_avl_insert` -/
def ztreeAvlInsert (fuel : Nat) (cb : Callbacks) (malloc : Option Allocator) (key value : PPointer)
    (st : AvlState) : Exec (Bool × AvlState) :=
  st.insertNode ⟨0, 0⟩ (fun parent => ⟨parent, 0⟩) pztreeAvlBalanceInsert fuel cb malloc key value

/-- A leaf is balanced around before it is unlinked. -/
def balanceLeaf (fuel : Nat) (curNode childNode : Addr) (st : AvlState) : Exec AvlState :=
  if childNode = 0 then pztreeAvlBalanceRemove fuel curNode st else pure st

/-- `ztree_avl_remove` -/
def ztreeAvlRemove (fuel : Nat) (cb : Callbacks) (key : PPointer) (st : AvlState) :
    Exec (Bool × AvlState) :=
  st.removeNode balanceLeaf (fun fuel _ childNode st => pztreeAvlBalanceRemove fuel childNode st)
    fuel cb key

def funcs : NodeFuncs (UpLink Int) := ⟨ztreeAvlInsert, ztreeAvlRemove⟩

variable {st : AvlState} {rest : Addr → Option (Node PPointer PPointer (UpLink Int))}
variable {c : Path PPointer PPointer Int} {t : LTree PPointer PPointer Int} {d : Side}
variable {p q m : Label PPointer PPointer Int} {A B C D : LTree PPointer PPointer Int}

theorem relinkOrRoot_path (holds : st.HoldsBeside rest (c.plug t)) (nonempty : t ≠ .nil)
    {heap : Heap (Node PPointer PPointer (UpLink Int))} (kept : heap.cell c.top = st.heap.cell c.top)
    (x : Addr) : relinkOrRoot c.top t.addr x ⟨heap, st.root, st.trace⟩ =
      .ok ⟨setLink heap c x, rootAfter st.root c x, st.trace⟩ := by
  cases c with
  | nil => rfl
  | cons f c =>
      have cell := (Support.Holds.path holds).1
      rw [relinkOrRoot, if_pos (Support.Holds.top_nonnull holds (by simp))]
      have cell' : (⟨heap, st.root, st.trace⟩ : AvlState).heap.cell f.label.addr = _ := kept.trans cell
      exact relink_cell cell' (sibling_ne holds nonempty) x

theorem rotate_holds (holds : st.HoldsBeside rest (c.plug (.branch d p A (.branch d q B C)))) :
    ∃ st' : AvlState, st.rotate d q.addr = .ok st' ∧
      st'.HoldsBeside rest (c.plug (.branch d { q with tag := q.tag + d.sign }
        (.branch d { p with tag := -(q.tag + d.sign) } A B) C)) ∧ st'.trace = st.trace := by
  have pivot := Support.Holds.pivot holds
  have q_ne_p := pivot.p_ne_q.symm
  let h₁ := st.heap.adjust p.addr fun n => n.setChild d.flip B.addr
  let h₂ := h₁.adjust B.addr (withParent p.addr)
  let h₃ := h₂.adjust q.addr fun n => n.setChild d p.addr
  let h₄ := h₃.adjust q.addr (withParent c.top)
  let h₅ := h₄.adjust p.addr (withParent q.addr)
  let h₆ := setLink h₅ c q.addr
  let h₇ := h₆.adjust q.addr (withTag (q.tag + d.sign))
  let h₈ := h₇.adjust p.addr (withTag (-(q.tag + d.sign)))
  have p₃ : h₃.cell p.addr = some (p.cell d A.addr B.addr c.top) := by
    simp [h₃, h₂, h₁, pivot.atP, pivot.p_ne_q, pivot.p_ne_B]
  have p₄ : h₄.cell p.addr = some (p.cell d A.addr B.addr c.top) := by simp [h₄, p₃, pivot.p_ne_q]
  have p₇ : h₇.cell p.addr = some (p.cell d A.addr B.addr q.addr) := by
    simp [h₇, h₆, h₅, p₄, pivot.p_ne_q, cell_setLink_ne pivot.p_ne_top]
  have q₂ : h₂.cell q.addr = some (q.cell d B.addr C.addr p.addr) := by
    simp [h₂, h₁, pivot.atQ, q_ne_p, pivot.q_ne_B]
  have q₃ : h₃.cell q.addr = some (q.cell d p.addr C.addr p.addr) := by simp [h₃, q₂]
  have q₆ : h₆.cell q.addr = some (q.cell d p.addr C.addr c.top) := by
    simp [h₆, h₅, h₄, q₃, q_ne_p, cell_setLink_ne pivot.q_ne_top]
  have q₇ : h₇.cell q.addr =
      some (({ q with tag := q.tag + d.sign } : Label _ _ _).cell d p.addr C.addr c.top) := by
    simp [h₇, q₆]
  have b₁ : B.addr ≠ 0 → ∃ n, h₁.cell B.addr = some n := by
    intro live
    obtain ⟨n, cell⟩ := pivot.B_live live
    exact ⟨n, by rw [Heap.cell_adjust_ne _ pivot.p_ne_B.symm, cell]⟩
  have untouched : ∀ a, a ≠ p.addr → a ≠ q.addr → a ≠ B.addr → h₅.cell a = st.heap.cell a := by
    intro a notP notQ notB
    simp [h₅, h₄, h₃, h₂, h₁, notP, notQ, notB]
  have keptTop : h₅.cell c.top = st.heap.cell c.top := by
    by_cases atB : c.top = B.addr
    · have empty : B = .nil := by
        by_contra nonempty
        exact pivot.B_ne_top nonempty atB.symm
      rw [atB, empty, LTree.addr_nil, Heap.null_free, Heap.null_free]
    · exact untouched _ pivot.p_ne_top.symm pivot.q_ne_top.symm atB
  -- One line for each statement of the source.
  have load₀ : st.load q.addr = .ok (q.cell d B.addr C.addr p.addr) := Heap.load_of_cell pivot.atQ
  have step₁ : st.modify p.addr (fun n => n.setChild d.flip B.addr) = .ok ⟨h₁, st.root, st.trace⟩ :=
    modify_of_cell pivot.atP _
  have step₂ : TreeState.modifyNonnull ⟨h₁, st.root, st.trace⟩ B.addr (withParent p.addr) =
      .ok ⟨h₂, st.root, st.trace⟩ := modifyNonnull_eq b₁ _
  have step₃ : TreeState.modify ⟨h₂, st.root, st.trace⟩ q.addr (fun n => n.setChild d p.addr) =
      .ok ⟨h₃, st.root, st.trace⟩ := modify_of_cell q₂ _
  have load₃ : TreeState.load ⟨h₃, st.root, st.trace⟩ p.addr =
      .ok (p.cell d A.addr B.addr c.top) := Heap.load_of_cell p₃
  have step₄ : TreeState.modify ⟨h₃, st.root, st.trace⟩ q.addr (withParent c.top) =
      .ok ⟨h₄, st.root, st.trace⟩ := modify_of_cell q₃ _
  have step₅ : TreeState.modify ⟨h₄, st.root, st.trace⟩ p.addr (withParent q.addr) =
      .ok ⟨h₅, st.root, st.trace⟩ := modify_of_cell p₄ _
  have step₆ : relinkOrRoot c.top p.addr q.addr ⟨h₅, st.root, st.trace⟩ =
      .ok ⟨h₆, rootAfter st.root c q.addr, st.trace⟩ := by
    rw [← LTree.addr_branch d p A (.branch d q B C)]
    exact relinkOrRoot_path holds (by simp) keptTop q.addr
  have load₆ : TreeState.load ⟨h₆, rootAfter st.root c q.addr, st.trace⟩ q.addr =
      .ok (q.cell d p.addr C.addr c.top) := Heap.load_of_cell q₆
  have step₇ : TreeState.modify ⟨h₆, rootAfter st.root c q.addr, st.trace⟩ q.addr
      (withTag (q.tag + d.sign)) = .ok ⟨h₇, rootAfter st.root c q.addr, st.trace⟩ :=
    modify_of_cell q₆ _
  have load₇ : TreeState.load ⟨h₇, rootAfter st.root c q.addr, st.trace⟩ q.addr =
      .ok (({ q with tag := q.tag + d.sign } : Label _ _ _).cell d p.addr C.addr c.top) :=
    Heap.load_of_cell q₇
  have step₈ : TreeState.modify ⟨h₇, rootAfter st.root c q.addr, st.trace⟩ p.addr
      (withTag (-(q.tag + d.sign))) = .ok ⟨h₈, rootAfter st.root c q.addr, st.trace⟩ :=
    modify_of_cell p₇ _
  refine ⟨⟨h₈, rootAfter st.root c q.addr, st.trace⟩, ?_, ?_, rfl⟩
  · simp only [rotate, load₀, Exec.ok_bind, Label.cell_child, Label.cell_ext, upLink_ext, step₁, step₂,
      step₃, load₃, step₄, step₅, step₆, load₆, step₇, load₇, step₈]
  · apply Support.Holds.rotate { p with tag := -(q.tag + d.sign) }
      { q with tag := q.tag + d.sign } holds rfl rfl
    · simp [h₈, p₇]
    · simp [h₈, q₇, q_ne_p]
    · intro nonempty
      simp [h₈, h₇, h₆, h₅, h₄, h₃, h₂, h₁, pivot.p_ne_B.symm, pivot.q_ne_B.symm,
        cell_setLink_ne (pivot.B_ne_top nonempty)]
      rfl
    · rintro f above rfl
      have notP : f.label.addr ≠ p.addr := pivot.p_ne_top.symm
      have notQ : f.label.addr ≠ q.addr := pivot.q_ne_top.symm
      have linkOnly : h₈.cell f.label.addr = h₆.cell f.label.addr := by simp [h₈, h₇, notP, notQ]
      have cell₅ : h₅.cell f.label.addr = _ := keptTop.trans (Support.Holds.path holds).1
      rw [linkOnly]
      simp [h₆, setLink, cell₅]
    · intro a notP notQ notB notTop
      have kept := untouched a notP notQ notB
      simp [h₈, h₇, h₆, notP, notQ, cell_setLink_ne notTop, kept]
    · exact rootAfter_eq holds q.addr

theorem turnTwice_holds
    (holds : st.HoldsBeside rest (c.plug (.branch d p (.branch d q A (.branch d m B C)) D))) :
    ∃ st' : AvlState, st.turnTwice d q.addr = .ok (m.addr, st') ∧
      st'.HoldsBeside rest (c.plug (.branch d m (.branch d q A B) (.branch d p C D))) ∧
      st'.trace = st.trace := by
  have pivot := Support.Holds.doublePivot holds
  have q_ne_p : q.addr ≠ p.addr := pivot.lower.p_ne_top
  have m_ne_p : m.addr ≠ p.addr := pivot.lower.q_ne_top
  have m_ne_q : m.addr ≠ q.addr := pivot.lower.p_ne_q.symm
  have q_ne_m := m_ne_q.symm
  have p_ne_q := q_ne_p.symm
  have p_ne_m := m_ne_p.symm
  have q_ne_B := pivot.lower.p_ne_B
  have m_ne_B := pivot.lower.q_ne_B
  have atQ : st.heap.cell q.addr = some (q.cell d A.addr m.addr p.addr) := pivot.lower.atP
  have atM : st.heap.cell m.addr = some (m.cell d B.addr C.addr q.addr) := pivot.lower.atQ
  let h₁ := st.heap.adjust q.addr fun n => n.setChild d.flip B.addr
  let h₂ := h₁.adjust B.addr (withParent q.addr)
  let h₃ := h₂.adjust m.addr (withParent c.top)
  let h₄ := setLink h₃ c m.addr
  let h₅ := h₄.adjust p.addr fun n => n.setChild d C.addr
  let h₆ := h₅.adjust C.addr (withParent p.addr)
  let h₇ := h₆.adjust m.addr fun n => n.setChild d.flip p.addr
  let h₈ := h₇.adjust p.addr (withParent m.addr)
  let h₉ := h₈.adjust m.addr fun n => n.setChild d q.addr
  let h₁₀ := h₉.adjust q.addr (withParent m.addr)
  have p₂ : h₂.cell p.addr = some (p.cell d q.addr D.addr c.top) := by
    simp [h₂, h₁, pivot.p_ne_B, p_ne_q, pivot.atP]
  have p₄ : h₄.cell p.addr = some (p.cell d q.addr D.addr c.top) := by
    simp [h₄, cell_setLink_ne pivot.p_ne_top, h₃, p_ne_m, p₂]
  have p₇ : h₇.cell p.addr = some (p.cell d C.addr D.addr c.top) := by
    simp [h₇, h₆, h₅, p_ne_m, pivot.p_ne_C, p₄]
  have p₁₀ : h₁₀.cell p.addr = some (p.cell d C.addr D.addr m.addr) := by
    simp [h₁₀, h₉, h₈, p_ne_m, p_ne_q, p₇]
  have q₄ : h₄.cell q.addr = some (q.cell d A.addr B.addr p.addr) := by
    simp [h₄, cell_setLink_ne pivot.q_ne_top, h₃, h₂, h₁, q_ne_m, q_ne_B, atQ]
  have q₉ : h₉.cell q.addr = some (q.cell d A.addr B.addr p.addr) := by
    simp [h₉, h₈, h₇, h₆, h₅, q_ne_m, q_ne_p, pivot.q_ne_C, q₄]
  have m₂ : h₂.cell m.addr = some (m.cell d B.addr C.addr q.addr) := by
    simp [h₂, h₁, m_ne_B, m_ne_q, atM]
  have m₆ : h₆.cell m.addr = some (m.cell d B.addr C.addr c.top) := by
    simp [h₆, h₅, h₄, cell_setLink_ne pivot.m_ne_top, h₃, pivot.m_ne_C, m_ne_p, m₂]
  have m₈ : h₈.cell m.addr = some (m.cell d B.addr p.addr c.top) := by simp [h₈, h₇, m_ne_p, m₆]
  have m₁₀ : h₁₀.cell m.addr = some (m.cell d q.addr p.addr c.top) := by
    simp [h₁₀, h₉, m_ne_q, m₈]
  have bLive : B.addr ≠ 0 → ∃ n, h₁.cell B.addr = some n := by
    intro live
    obtain ⟨n, cell⟩ := pivot.lower.B_live live
    exact ⟨n, by rw [Heap.cell_adjust_ne _ q_ne_B.symm, cell]⟩
  have cAt : C ≠ .nil → h₅.cell C.addr = st.heap.cell C.addr := by
    intro nonempty
    have notB : C.addr ≠ B.addr := by
      by_cases empty : B = .nil
      · rw [empty]
        exact nonnull_of_ne_nil
          (c := ⟨d.flip, m, B⟩ :: ⟨d.flip, q, A⟩ :: ⟨d, p, D⟩ :: c)
          (by simpa [Frame.fill, LTree.branch_flip] using holds) nonempty
      · exact (pivot.B_ne_C empty).symm
    simp [h₅, h₄, cell_setLink_ne (pivot.C_ne_top nonempty), h₃, h₂, h₁, pivot.p_ne_C.symm,
      pivot.m_ne_C.symm, notB, pivot.q_ne_C.symm]
  have cLive : C.addr ≠ 0 → ∃ n, h₅.cell C.addr = some n := by
    intro live
    obtain ⟨n, cell⟩ := pivot.C_live live
    refine ⟨n, ?_⟩
    rw [cAt, cell]
    rintro rfl
    exact live rfl
  have keptTop : h₃.cell c.top = st.heap.cell c.top := by
    by_cases atB : c.top = B.addr
    · have empty : B = .nil := by
        by_contra nonempty
        exact pivot.B_ne_top nonempty atB.symm
      rw [atB, empty, LTree.addr_nil, Heap.null_free, Heap.null_free]
    · simp [h₃, h₂, h₁, pivot.m_ne_top.symm, atB, pivot.q_ne_top.symm]
  -- One line for each statement of the source.
  have loadQ : st.load q.addr = .ok (q.cell d A.addr m.addr p.addr) := Heap.load_of_cell atQ
  have loadM : st.load m.addr = .ok (m.cell d B.addr C.addr q.addr) := Heap.load_of_cell atM
  have step₁ : st.modify q.addr (fun n => n.setChild d.flip B.addr) = .ok ⟨h₁, st.root, st.trace⟩ :=
    modify_of_cell atQ _
  have step₂ : TreeState.modifyNonnull ⟨h₁, st.root, st.trace⟩ B.addr (withParent q.addr) =
      .ok ⟨h₂, st.root, st.trace⟩ := modifyNonnull_eq bLive _
  have load₂ : TreeState.load ⟨h₂, st.root, st.trace⟩ p.addr =
      .ok (p.cell d q.addr D.addr c.top) := Heap.load_of_cell p₂
  have step₃ : TreeState.modify ⟨h₂, st.root, st.trace⟩ m.addr (withParent c.top) =
      .ok ⟨h₃, st.root, st.trace⟩ := modify_of_cell m₂ _
  have step₄ : relinkOrRoot c.top p.addr m.addr ⟨h₃, st.root, st.trace⟩ =
      .ok ⟨h₄, rootAfter st.root c m.addr, st.trace⟩ := by
    rw [← LTree.addr_branch d p (.branch d q A (.branch d m B C)) D]
    exact relinkOrRoot_path holds (by simp) keptTop m.addr
  generalize rootEq : rootAfter st.root c m.addr = root at step₄
  have step₅ : TreeState.modify ⟨h₄, root, st.trace⟩ p.addr (fun n => n.setChild d C.addr) =
      .ok ⟨h₅, root, st.trace⟩ := modify_of_cell p₄ _
  have step₆ : TreeState.modifyNonnull ⟨h₅, root, st.trace⟩ C.addr (withParent p.addr) =
      .ok ⟨h₆, root, st.trace⟩ := modifyNonnull_eq cLive _
  have step₇ : TreeState.modify ⟨h₆, root, st.trace⟩ m.addr (fun n => n.setChild d.flip p.addr) =
      .ok ⟨h₇, root, st.trace⟩ := modify_of_cell m₆ _
  have step₈ : TreeState.modify ⟨h₇, root, st.trace⟩ p.addr (withParent m.addr) =
      .ok ⟨h₈, root, st.trace⟩ := modify_of_cell p₇ _
  have step₉ : TreeState.modify ⟨h₈, root, st.trace⟩ m.addr (fun n => n.setChild d q.addr) =
      .ok ⟨h₉, root, st.trace⟩ := modify_of_cell m₈ _
  have step₁₀ : TreeState.modify ⟨h₉, root, st.trace⟩ q.addr (withParent m.addr) =
      .ok ⟨h₁₀, root, st.trace⟩ := modify_of_cell q₉ _
  refine ⟨⟨h₁₀, root, st.trace⟩, ?_, ?_, rfl⟩
  · simp only [turnTwice, loadQ, Exec.ok_bind, Label.cell_child_flip, loadM, Label.cell_child, step₁,
      step₂, Label.cell_ext, upLink_ext, load₂, step₃, step₄, step₅, step₆, step₇, step₈, step₉, step₁₀,
      Exec.pure_eq_ok]
  · apply Support.Holds.doubleRotate p q m holds rfl rfl rfl
    · exact p₁₀
    · simp [h₁₀, q₉]
    · exact m₁₀
    · intro nonempty
      simp [h₁₀, h₉, h₈, h₇, h₆, h₅, h₄, cell_setLink_ne (pivot.B_ne_top nonempty), h₃, h₂, h₁,
        q_ne_B.symm, m_ne_B.symm, pivot.p_ne_B.symm, pivot.B_ne_C nonempty]
      rfl
    · intro nonempty
      simp [h₁₀, h₉, h₈, h₇, h₆, pivot.q_ne_C.symm, pivot.m_ne_C.symm, pivot.p_ne_C.symm,
        cAt nonempty]
      rfl
    · rintro f above rfl
      have notP : f.label.addr ≠ p.addr := pivot.p_ne_top.symm
      have notQ : f.label.addr ≠ q.addr := pivot.q_ne_top.symm
      have notM : f.label.addr ≠ m.addr := pivot.m_ne_top.symm
      have notC : f.label.addr ≠ C.addr := by
        by_cases empty : C = .nil
        · rw [empty]
          exact Support.Holds.top_nonnull holds (by simp)
        · exact (pivot.C_ne_top empty).symm
      have cell₃ : h₃.cell f.label.addr = _ := keptTop.trans (Support.Holds.path holds).1
      simp [h₁₀, h₉, h₈, h₇, h₆, h₅, notP, notQ, notM, notC, h₄, setLink, cell₃]
    · intro a notP notQ notM notB notC notTop
      simp [h₁₀, h₉, h₈, h₇, h₆, h₅, h₄, h₃, h₂, h₁, notP, notQ, notM, notB, notC,
        cell_setLink_ne notTop]
    · rw [← rootEq]
      exact rootAfter_eq holds m.addr

/-- The new factor of the child on the side `d` of the middle node. -/
def childFactor (d : Side) (factor : Int) : Int :=
  match d with
  | .left => (childFactors factor).1
  | .right => (childFactors factor).2

theorem restoreFactors_node
    (holds : st.HoldsBeside rest (c.plug (.node (.branch d q A B) m (.branch d p C D)))) :
    ∃ st' : AvlState, st.restoreFactors m.addr = .ok st' ∧
      st'.HoldsBeside rest (c.plug (.node (.branch d { q with tag := (childFactors m.tag).1 } A B)
        { m with tag := 0 } (.branch d { p with tag := (childFactors m.tag).2 } C D))) ∧
      st'.trace = st.trace := by
  have loaded := load_focus (d := .left) holds
  obtain ⟨st₁, tagged₁, holds₁, trace₁⟩ :=
    retag (c := ⟨.left, m, .branch d p C D⟩ :: c) (childFactors m.tag).1 holds
  obtain ⟨st₂, tagged₂, holds₂, trace₂⟩ :=
    retag (c := ⟨.right, m, _⟩ :: c) (q := p) (d := d) (childFactors m.tag).2 holds₁
  obtain ⟨st₃, tagged₃, holds₃, trace₃⟩ := retag (c := c) (d := .right) 0 holds₂
  refine ⟨st₃, ?_, holds₃, by rw [trace₃, trace₂, trace₁]⟩
  simp only [LTree.addr_branch] at loaded
  simp only [restoreFactors, loaded, Exec.ok_bind, Label.cell, upLink_ext, tagged₁, tagged₂, tagged₃]

theorem restoreFactors_holds
    (holds : st.HoldsBeside rest (c.plug (.branch d m (.branch d q A B) (.branch d p C D)))) :
    ∃ st' : AvlState, st.restoreFactors m.addr = .ok st' ∧
      st'.HoldsBeside rest (c.plug (.branch d { m with tag := 0 }
        (.branch d { q with tag := childFactor d m.tag } A B)
        (.branch d { p with tag := childFactor d.flip m.tag } C D))) ∧
      st'.trace = st.trace := by
  cases d with
  | left => exact restoreFactors_node (d := .left) holds
  | right => exact restoreFactors_node (d := .right) holds

theorem rotateTwice_holds
    (holds : st.HoldsBeside rest (c.plug (.branch d p (.branch d q A (.branch d m B C)) D))) :
    ∃ st' : AvlState, st.rotateTwice d q.addr = .ok st' ∧
      st'.HoldsBeside rest (c.plug (.branch d { m with tag := 0 }
        (.branch d { q with tag := childFactor d m.tag } A B)
        (.branch d { p with tag := childFactor d.flip m.tag } C D))) ∧
      st'.trace = st.trace := by
  obtain ⟨st₁, turned, holds₁, trace₁⟩ := turnTwice_holds holds
  obtain ⟨st₂, restored, holds₂, trace₂⟩ := restoreFactors_holds holds₁
  refine ⟨st₂, ?_, holds₂, by rw [trace₂, trace₁]⟩
  rw [rotateTwice, turned]
  exact restored

end AvlState

end Plibsys.Tree
