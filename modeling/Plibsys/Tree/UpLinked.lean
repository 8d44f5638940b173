import Plibsys.Tree.Contract

/-! # Trees with parent links

What `ptree-rb.c` and `ptree-avl.c` share: re-pointing the link of a parent, the
rotations as far as links are concerned, and the common frame of the two remove
functions.
-/

namespace Plibsys.Tree

open Support

namespace TreeState

section Code

variable {X T : Type}

/-- `if (parent->left == old) parent->left = new; else parent->right = new;` -/
def relink (st : TreeState X) (parent old new : Addr) : Exec (TreeState X) := do
  let n ← st.load parent
  if n.left = old then
    st.modify parent fun n => { n with left := new }
  else
    st.modify parent fun n => { n with right := new }

/-- The same below `if (parent != NULL)`. -/
def relinkNonnull (st : TreeState X) (parent old new : Addr) : Exec (TreeState X) :=
  if parent ≠ 0 then st.relink parent old new else pure st

/-- `if (a != NULL) …` around a write through `a`. -/
def modifyNonnull (st : TreeState X) (a : Addr)
    (f : Node PPointer PPointer X → Node PPointer PPointer X) : Exec (TreeState X) :=
  if a ≠ 0 then st.modify a f else pure st

/-- `node->parent = parent` -/
def withParent (parent : Addr) (n : Node PPointer PPointer (UpLink T)) :
    Node PPointer PPointer (UpLink T) :=
  { n with ext := { n.ext with parent := parent } }

/-- The color or the balance factor of a node. -/
def withTag (tag : T) (n : Node PPointer PPointer (UpLink T)) :
    Node PPointer PPointer (UpLink T) :=
  { n with ext := { n.ext with tag := tag } }

/-- Replace a node by its child in the link from above; returns the child's new
    parent. -/
def replaceByChild (curNode childNode : Addr) (st : TreeState (UpLink T)) :
    Exec (Addr × TreeState (UpLink T)) :=
  if curNode = st.root then
    pure (0, { st with root := childNode })
  else do
    let cur ← st.load curNode
    let st ← st.relink cur.ext.parent curNode childNode
    pure (cur.ext.parent, st)

/-- `if (child_node != NULL)`: set its parent and go on with `after`. -/
def adopt (after : Nat → Addr → Addr → TreeState (UpLink T) → Exec (TreeState (UpLink T)))
    (fuel : Nat) (curNode childNode childParent : Addr) (st : TreeState (UpLink T)) :
    Exec (TreeState (UpLink T)) :=
  if childNode ≠ 0 then do
    let st ← st.modify childNode (withParent childParent)
    after fuel curNode childNode st
  else
    pure st

/-- The remove functions with parent links.  `before` runs while the node is still
    linked, `after` once its child has taken its place. -/
def removeNode (before after : Nat → Addr → Addr → TreeState (UpLink T) → Exec (TreeState (UpLink T)))
    (fuel : Nat) (cb : Callbacks) (key : PPointer) (st : TreeState (UpLink T)) :
    Exec (Bool × TreeState (UpLink T)) := do
  let curNode ← st.findNode cb.compare key fuel st.root
  if curNode = 0 then
    pure (false, st)
  else
    let (_, curNode, st) ← st.takePredecessor fuel .root curNode
    let cur ← st.load curNode
    let childNode := onlyChild cur
    let st ← before fuel curNode childNode st
    let (childParent, st) ← replaceByChild curNode childNode st
    let st ← adopt after fuel curNode childNode childParent st
    let cur ← st.load curNode
    let st := st.destroyPair cb cur.key cur.value
    let st ← st.zfree curNode
    pure (true, st)

end Code

variable {T : Type} {rest : Addr → Option (Node PPointer PPointer (UpLink T))}
variable {st : TreeState (UpLink T)} {c : Path PPointer PPointer T}
variable {t : LTree PPointer PPointer T} {d : Side} {q q' : Label PPointer PPointer T}

@[simp] theorem withParent_cell (d : Side) (near far parent parent' : Addr) :
    withParent parent' (q.cell d near far parent : Node PPointer PPointer (UpLink T)) =
      q.cell d near far parent' := by cases d <;> rfl

@[simp] theorem withTag_cell (d : Side) (near far parent : Addr) (x : T) :
    withTag x (q.cell d near far parent : Node PPointer PPointer (UpLink T)) =
      ({ q with tag := x } : Label PPointer PPointer T).cell d near far parent := by cases d <;> rfl

/-- Re-pointing the link of the node above a hole. -/
theorem relink_cell {f : Frame PPointer PPointer T} {old p : Addr}
    (cell : st.heap.cell f.label.addr = some (f.label.cell f.side old f.sibling.addr p))
    (different : f.sibling.addr ≠ old) (x : Addr) :
    st.relink f.label.addr old x = .ok { st with heap := setLink st.heap (f :: c) x } := by
  have loaded : st.load f.label.addr = .ok (f.label.cell f.side old f.sibling.addr p) :=
    Heap.load_of_cell cell
  cases side : f.side with
  | left =>
      rw [side] at loaded
      rw [relink, loaded, Exec.ok_bind, if_pos (by rfl), modify_of_cell cell, setLink, side]
      rfl
  | right =>
      rw [side] at loaded
      rw [relink, loaded, Exec.ok_bind, if_neg (by exact different), modify_of_cell cell, setLink, side]
      rfl

theorem sibling_ne {f : Frame PPointer PPointer T} (holds : st.HoldsBeside rest (Path.plug (f :: c) t))
    (nonempty : t ≠ .nil) : f.sibling.addr ≠ t.addr := by
  have filled := Support.Holds.focusDistinct (c := c) (t := f.fill t) holds
  obtain ⟨-, -, apart, -⟩ := LTree.nodup_branch.mp filled
  exact (LTree.ne_addr (apart _ (LTree.addr_mem_of_ne_nil nonempty))
    (nonnull_of_ne_nil holds nonempty)).symm

theorem relinkNonnull_path (holds : st.HoldsBeside rest (c.plug t)) (nonempty : t ≠ .nil) (x : Addr) :
    st.relinkNonnull c.top t.addr x = .ok { st with heap := setLink st.heap c x } := by
  cases c with
  | nil => rfl
  | cons f c =>
      rw [relinkNonnull, if_pos (Support.Holds.top_nonnull holds (by simp))]
      exact relink_cell (Support.Holds.path holds).1 (sibling_ne holds nonempty) x

theorem top_eq_zero_iff (holds : st.HoldsBeside rest (c.plug t)) : c.top = 0 ↔ c = [] := by
  constructor
  · intro null
    by_contra below
    exact Support.Holds.top_nonnull holds below null
  · rintro rfl
    rfl

theorem modifyNonnull_eq {a : Addr} (live : a ≠ 0 → ∃ n, st.heap.cell a = some n)
    (f : Node PPointer PPointer (UpLink T) → Node PPointer PPointer (UpLink T)) :
    st.modifyNonnull a f = .ok { st with heap := st.heap.adjust a f } := by
  by_cases null : a = 0
  · rw [modifyNonnull, if_neg (by simp [null]), null, Heap.adjust_of_free st.heap.null_free]
    rfl
  · obtain ⟨n, cell⟩ := live null
    rw [modifyNonnull, if_pos null, modify_of_cell cell]

theorem load_parent (holds : st.HoldsBeside rest (c.plug t)) (nonempty : t ≠ .nil) :
    ∃ m, st.load t.addr = .ok m ∧ m.ext.parent = c.top := by
  cases t with
  | nil => exact absurd rfl nonempty
  | node l q r => exact ⟨_, load_focus (d := .left) holds, rfl⟩

/-- The same tree, seen from the other child of the node above. -/
theorem plug_sibling (f : Frame PPointer PPointer T) (c : Path PPointer PPointer T)
    (t : LTree PPointer PPointer T) :
    Path.plug (f :: c) t = Path.plug (⟨f.side.flip, f.label, t⟩ :: c) f.sibling := by
  simp [Frame.fill, LTree.branch_flip]

theorem sibling_holds {A : LTree PPointer PPointer T}
    (holds : st.HoldsBeside rest (Path.plug (⟨d, q, A⟩ :: c) t)) :
    st.HoldsBeside rest (Path.plug (⟨d.flip, q, t⟩ :: c) A) := by
  rwa [plug_sibling] at holds

/-- Writing the color or the balance factor of the node at the focus. -/
theorem retag {A B : LTree PPointer PPointer T} (x : T)
    (holds : st.HoldsBeside rest (c.plug (.branch d q A B))) :
    ∃ st' : TreeState (UpLink T), st.modify q.addr (withTag x) = .ok st' ∧
      st'.HoldsBeside rest (c.plug (.branch d { q with tag := x } A B)) ∧ st'.trace = st.trace :=
  modify_focus { q with tag := x } holds (withTag x) rfl (withTag_cell d _ _ _ x)

/-- The same for the node above the focus. -/
theorem retagTop {A : LTree PPointer PPointer T} (x : T)
    (holds : st.HoldsBeside rest (Path.plug (⟨d, q, A⟩ :: c) t)) :
    ∃ st' : TreeState (UpLink T), st.modify q.addr (withTag x) = .ok st' ∧
      st'.HoldsBeside rest (Path.plug (⟨d, { q with tag := x }, A⟩ :: c) t) ∧ st'.trace = st.trace :=
  retag (c := c) (d := d) x holds

/-- The two ways in which a kind rebalances around a removal, by the number of
    children of the node to remove. -/
structure BalancesRemove
    (before after : Nat → Addr → Addr → TreeState (UpLink T) → Exec (TreeState (UpLink T)))
    (Inv : LTree PPointer PPointer T → Prop) : Prop where
  leaf : ∀ {st : TreeState (UpLink T)} {c : Path PPointer PPointer T} {q : Label PPointer PPointer T}
    {fuel : Nat}, st.Holds (c.plug (.node .nil q .nil)) → Inv (c.plug (.node .nil q .nil)) →
    c.length < fuel →
    ∃ (c' : Path PPointer PPointer T) (st' : TreeState (UpLink T)), before fuel q.addr 0 st = .ok st' ∧ st'.Holds (c'.plug (.node .nil q .nil)) ∧
      st'.trace = st.trace ∧ c'.SameAround c ∧ Inv (c'.plug .nil)
  single : ∀ {st : TreeState (UpLink T)} {c : Path PPointer PPointer T} {q : Label PPointer PPointer T}
    {d : Side} {child : LTree PPointer PPointer T} {fuel : Nat},
    st.Holds (c.plug (.branch d q child .nil)) → child ≠ .nil →
    before fuel q.addr child.addr st = .ok st
  adopted : ∀ {st : TreeState (UpLink T)} {c : Path PPointer PPointer T}
    {q : Label PPointer PPointer T} {d : Side} {child : LTree PPointer PPointer T} {fuel : Nat},
    st.HoldsBeside (detached (fun _ => none) q.addr (q.cell d child.addr 0 c.top)) (c.plug child) →
    child ≠ .nil → Inv (c.plug (.branch d q child .nil)) → c.length < fuel →
    ∃ st' t', after fuel q.addr child.addr st = .ok st' ∧
      st'.HoldsBeside (detached (fun _ => none) q.addr (q.cell d child.addr 0 c.top)) t' ∧ Inv t' ∧
      st'.trace = st.trace ∧ t'.entries = (c.plug child).entries

/-- Unlinking a one-sided node. -/
theorem unlink_holds {child : LTree PPointer PPointer T}
    (holds : st.HoldsBeside rest (c.plug (.branch d q child .nil))) :
    ∃ st₁ st₂ : TreeState (UpLink T), replaceByChild q.addr child.addr st = .ok (c.top, st₁) ∧
      st₁.modifyNonnull child.addr (withParent c.top) = .ok st₂ ∧
      st₂.HoldsBeside (detached rest q.addr (q.cell d child.addr 0 c.top)) (c.plug child) ∧
      st₂.trace = st.trace := by
  let h₁ := setLink st.heap c child.addr
  have offTop : child ≠ .nil → child.addr ≠ c.top := fun nonempty =>
    Support.Holds.ne_top holds (by simp [LTree.addr_mem_of_ne_nil nonempty])
  have live : child.addr ≠ 0 → ∃ n, h₁.cell child.addr = some n := by
    intro nonnull
    have nonempty : child ≠ .nil := by
      rintro rfl
      exact nonnull rfl
    obtain ⟨n, cell⟩ := (Support.Holds.focus holds).allocated (a := child.addr)
      (by simp [LTree.addr_mem_of_ne_nil nonempty])
    exact ⟨n, by rw [cell_setLink_ne (offTop nonempty), cell]⟩
  refine ⟨⟨h₁, rootAfter st.root c child.addr, st.trace⟩, _, ?_, modifyNonnull_eq live _,
    splice _ holds ?_ ?_ ?_ st.trace, rfl⟩
  · have rootEq := Support.Holds.root_plug holds
    rw [LTree.addr_branch] at rootEq
    cases c with
    | nil => simp [replaceByChild, rootEq, rootAfter, h₁]
    | cons f c =>
        have notRoot : q.addr ≠ st.root := by
          intro same
          have member := Path.rootOf_mem (c := f :: c) (by simp) q.addr
          rw [← rootEq, ← same] at member
          exact Support.Holds.apart holds q.addr (by simp) member
        have relinked := relink_cell (c := c) (Support.Holds.path holds).1
          (sibling_ne holds (by simp)) child.addr
        rw [LTree.addr_branch] at relinked
        simp [replaceByChild, notRoot, load_focus holds, relinked, rootAfter, h₁]
  · intro nonempty
    rw [Heap.cell_adjust_self, cell_setLink_ne (offTop nonempty)]
    rfl
  · rintro f above rfl
    have topNe : f.label.addr ≠ child.addr := by
      by_cases empty : child = .nil
      · rw [empty]
        exact Support.Holds.top_nonnull holds (by simp)
      · exact (offTop empty).symm
    rw [Heap.cell_adjust_ne _ topNe]
    exact cell_setLink_top (Support.Holds.path holds)
  · intro b notChild notTop
    rw [Heap.cell_adjust_ne _ notChild, cell_setLink_ne notTop]

variable {Inv : LTree PPointer PPointer T → Prop}
variable {before after : Nat → Addr → Addr → TreeState (UpLink T) → Exec (TreeState (UpLink T))}

theorem adopt_eq {fuel : Nat} {cur child parent : Addr} {st₁ st₂ : TreeState (UpLink T)}
    (modified : st₁.modifyNonnull child (withParent parent) = .ok st₂) :
    adopt after fuel cur child parent st₁ =
      if child ≠ 0 then after fuel cur child st₂ else .ok st₂ := by
  by_cases null : child = 0
  · rw [modifyNonnull, if_neg (by simp [null])] at modified
    rw [adopt, if_neg (by simp [null]), if_neg (by simp [null]), ← modified]
  · rw [modifyNonnull, if_pos null] at modified
    rw [adopt, if_pos null, if_pos null, modified]
    rfl

/-- From the node to remove to the end of the function. -/
theorem takeOut (balances : BalancesRemove before after Inv) {child : LTree PPointer PPointer T}
    {fuel : Nat} (holds : st.Holds (c.plug (.branch d q child .nil)))
    (inv : Inv (c.plug (.branch d q child .nil))) (enough : c.length < fuel) :
    ∃ (parent : Addr) (st₁ st₂ st₃ : TreeState (UpLink T)) (t' : LTree PPointer PPointer T)
      (n : Node PPointer PPointer (UpLink T)),
      before fuel q.addr child.addr st = .ok st₁ ∧
      replaceByChild q.addr child.addr st₁ = .ok (parent, st₂) ∧
      adopt after fuel q.addr child.addr parent st₂ = .ok st₃ ∧
      st₃.HoldsBeside (detached (fun _ => none) q.addr n) t' ∧ n.key = q.key ∧ n.value = q.value ∧
      Inv t' ∧ st₃.trace = st.trace ∧ t'.entries = c.pre ++ (child.entries ++ c.post) := by
  by_cases empty : child = .nil
  · subst empty
    have leafEq : LTree.branch d q .nil .nil = .node .nil q .nil := by cases d <;> rfl
    rw [leafEq] at holds inv
    obtain ⟨c', st₁, balanced, holds₁, trace₁, around, inv'⟩ := balances.leaf holds inv enough
    rw [← leafEq] at holds₁
    obtain ⟨st₂, st₃, replaced, modified, holds₃, trace₃⟩ := unlink_holds holds₁
    refine ⟨_, st₁, st₂, st₃, _, _, balanced, replaced, ?_, holds₃, by simp, by simp, inv',
      by rw [trace₃, trace₁], ?_⟩
    · rw [adopt_eq modified]
      rfl
    · rw [Path.entries_plug, around.1, around.2]
  · have nonnull : child.addr ≠ 0 := by
      have focus : st.HoldsBeside (fun _ => none) (Path.plug (⟨d, q, .nil⟩ :: c) child) := holds
      exact nonnull_of_ne_nil focus empty
    obtain ⟨st₂, st₃, replaced, modified, holds₃, trace₃⟩ := unlink_holds holds
    obtain ⟨st₄, t', balanced, holds₄, inv', trace₄, entries⟩ :=
      balances.adopted holds₃ empty inv enough
    refine ⟨_, st, st₂, st₄, t', _, balances.single holds empty, replaced, ?_, holds₄, by simp, by simp,
      inv', by rw [trace₄, trace₃], by rw [entries, Path.entries_plug]⟩
    rw [adopt_eq modified, if_pos nonnull, balanced]

theorem removeNode_effect (balances : BalancesRemove before after Inv)
    (shaped : ∀ {t t' : LTree PPointer PPointer T}, shape t = shape t' → Inv t → Inv t')
    {cb : Callbacks} {fuel : Nat} {key : PPointer} (order : SignOrder cb.compare)
    (holds : st.Holds t) (ordered : t.Ordered cb.compare) (inv : Inv t) (enough : t.size + 1 < fuel) :
    ∃ result st' t', st.removeNode before after fuel cb key = .ok (result, st') ∧ st'.Holds t' ∧
      Inv t' ∧ RemoveEffect cb key (EndsInner cb.compare key t) t.entries st.trace
        result t'.entries st'.trace := by
  have located := t.located_descend cb.compare key
  have found := findNode_descend (c := []) cb.compare key holds (show t.size < fuel by omega)
  rw [← show st.root = t.addr from Support.Holds.root_eq holds] at found
  generalize (t.descend cb.compare key []).1 = c, (t.descend cb.compare key []).2 = s at located found
  have sizes := congrArg LTree.size located.plugged
  rw [Path.size_plug] at sizes
  have holdsFound : st.Holds (c.plug s) := located.plugged ▸ holds
  rcases located.stop with rfl | ⟨l, q, r, rfl, equal⟩
  · refine ⟨false, st, t, ?_, holds, inv, ?_⟩
    · simp [removeNode, found]
    · rw [← located.plugged, Path.entries_plug]
      exact .absent rfl (located.toward.between order (located.plugged ▸ ordered))
  · simp only [LTree.size_node] at sizes
    obtain ⟨slot, c', l', q', r', st₁, taken, -, doomed, holds₁, trace₁⟩ :=
      takePredecessor_doomed .root holdsFound (show l.size < fuel by omega)
    have inv₁ : Inv (c'.plug (.node l' q' r')) := shaped doomed.shape (located.plugged ▸ inv)
    have short : c'.length < fuel := by
      have long := Path.length_le_size c' (.node l' q' r')
      have sameSize := size_of_shape doomed.shape
      rw [located.plugged] at sameSize
      omega
    obtain ⟨d, child, branched, childEntries, childAddr⟩ :=
      oneSided_branch (X := UpLink T) (q := q') doomed.oneSided
    have loaded := load_focus (d := .left) holds₁
    rw [branched] at holds₁ inv₁
    obtain ⟨parent, st₂, st₃, st₄, t', n, balanced, replaced, adopted, holds₄, keyEq, valueEq, inv',
      trace₄, entries⟩ := takeOut balances holds₁ inv₁ short
    obtain ⟨st₅, retired, holds₅, trace₅⟩ := retire cb q'.key q'.value holds₄
    have loaded₄ : st₄.load q'.addr = .ok n := Heap.load_of_cell (cell_detached holds₄)
    refine ⟨true, st₅, t', ?_, holds₅, inv', ?_⟩
    · have nonnull : q.addr ≠ 0 := Support.Holds.nonnull (d := .left) holdsFound
      simp only [removeNode, found, Exec.ok_bind, LTree.addr_node, nonnull, if_false, taken, loaded,
        childAddr, balanced, replaced, adopted, loaded₄, keyEq, valueEq, retired, Exec.pure_eq_ok]
    · rw [trace₅, trace₄, trace₁]
      exact removed_effect q'.addr order ordered located equal doomed (by
        rw [entries, childEntries])

end TreeState

end Plibsys.Tree
