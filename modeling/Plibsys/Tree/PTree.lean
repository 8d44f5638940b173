import Plibsys.Tree.RbBalance
import Plibsys.Tree.AvlBalance
import Plibsys.Tree.Bst
import Mathlib.Algebra.Group.Nat.Defs

/-! # `PTree`

`ptree.c`: the tree object over the node functions of its type.  `ztree_foreach` and
`ztree_clear` walk the tree without a stack, by storing the address of the next node in
the right link of the last node before it.
-/

namespace Plibsys.Tree

open Support

inductive PTreeType where
  | binary
  | rb
  | avl
  deriving Repr, DecidableEq

namespace PTreeType

/-- What the nodes of a type store besides links, key and value. -/
def Ext : PTreeType → Type
  | .binary => Unit
  | .rb => UpLink Color
  | .avl => UpLink Int

/-- `insert_node_func` and `remove_node_func` by type. -/
def funcs : (type : PTreeType) → NodeFuncs type.Ext
  | .binary => BstState.funcs
  | .rb => RbState.funcs
  | .avl => AvlState.funcs

end PTreeType

/-- A `PTree`.  The nodes hang at the root pointer of `nodes`. -/
structure PTree (X : Type) where
  nodeFuncs : NodeFuncs X
  cb : Callbacks
  nodes : TreeState X
  nnodes : PInt

/-- The answer of a `PTraverseFunc` to the calls made so far, the last one included. -/
abbrev PTraverseFunc := List (PPointer × PPointer) → Bool

namespace PTree

variable {X : Type}

/-- `ztree_new_full`, with the outcome of the allocation of the object. -/
def ztreeNewFull (allocated : Bool) (type : PTreeType) (compare : PPointer → PPointer → Int)
    (keyDestroy valueDestroy : Bool) : Option (PTree type.Ext) :=
  if allocated then
    some ⟨type.funcs, ⟨compare, keyDestroy, valueDestroy⟩, TreeState.empty, 0⟩
  else
    none

/-- `ztree_new` -/
def ztreeNew (allocated : Bool) (type : PTreeType) (compare : PPointer → PPointer → Int) :
    Option (PTree type.Ext) :=
  ztreeNewFull allocated type compare false false

/-- `ztree_insert` -/
def ztreeInsert (fuel : Nat) (malloc : Option Allocator) (key value : PPointer) (tree : PTree X) :
    Exec (PTree X) := do
  let (result, nodes) ← tree.nodeFuncs.insert fuel tree.cb malloc key value tree.nodes
  pure { tree with nodes := nodes, nnodes := if result then tree.nnodes + 1 else tree.nnodes }

/-- `ztree_remove` -/
def ztreeRemove (fuel : Nat) (key : PPointer) (tree : PTree X) : Exec (Bool × PTree X) :=
  if tree.nodes.root = 0 then
    pure (false, tree)
  else do
    let (result, nodes) ← tree.nodeFuncs.remove fuel tree.cb key tree.nodes
    pure (result,
      { tree with nodes := nodes, nnodes := if result then tree.nnodes - 1 else tree.nnodes })

/-- `ztree_lookup` -/
def ztreeLookup (fuel : Nat) (key : PPointer) (tree : PTree X) : Exec PPointer := do
  let curNode ← tree.nodes.findNode tree.cb.compare key fuel tree.nodes.root
  if curNode = 0 then
    pure 0
  else
    let cur ← tree.nodes.load curNode
    pure cur.value

/-- The inner loops of both walks: follow right links to the null link or to `stop`. -/
def lastBefore (st : TreeState X) (stop : Addr) : Nat → Addr → Exec Addr
  | 0, _ => .error .outOfFuel
  | fuel + 1, prevNode => do
      let prev ← st.load prevNode
      if prev.right ≠ 0 ∧ prev.right ≠ stop then
        lastBefore st stop fuel prev.right
      else
        pure prevNode

/-- What `ztree_foreach` keeps between two passes of its loop, and the calls made. -/
structure Walk where
  modCounter : PInt
  needStop : Bool
  calls : List (PPointer × PPointer)

def Walk.withCounter (w : Walk) (modCounter : PInt) : Walk := ⟨modCounter, w.needStop, w.calls⟩

/-- The call of the callback, unless it has asked to stop. -/
def Walk.visit (traverse : PTraverseFunc) (key value : PPointer) (w : Walk) : Walk :=
  if w.needStop then w
  else
    { w with calls := w.calls ++ [(key, value)], needStop := traverse (w.calls ++ [(key, value)]) }

/-- The loop of `ztree_foreach`. -/
def walkLoop (traverse : PTraverseFunc) (fuel : Nat) :
    Nat → Addr → Walk → TreeState X → Exec (Walk × TreeState X)
  | 0, _, _, _ => .error .outOfFuel
  | n + 1, curNode, w, st =>
      if curNode = 0 then
        pure (w, st)
      else do
        let cur ← st.load curNode
        if cur.left = 0 then
          walkLoop traverse fuel n cur.right (w.visit traverse cur.key cur.value) st
        else
          let prevNode ← lastBefore st curNode fuel cur.left
          let prev ← st.load prevNode
          if prev.right = 0 then
            let st ← st.modify prevNode fun m => { m with right := curNode }
            walkLoop traverse fuel n cur.left (w.withCounter (w.modCounter + 1)) st
          else
            let w := w.visit traverse cur.key cur.value
            let w := w.withCounter (w.modCounter - 1)
            let st ← st.modify prevNode fun m => { m with right := 0 }
            if w.needStop ∧ w.modCounter = 0 then
              pure (w, st)
            else
              walkLoop traverse fuel n cur.right w st

/-- `ztree_foreach`; returns the calls of the callback. -/
def ztreeForeach (fuel : Nat) (traverse : PTraverseFunc) (tree : PTree X) :
    Exec (List (PPointer × PPointer) × PTree X) := do
  let (w, nodes) ← walkLoop traverse fuel fuel tree.nodes.root ⟨0, false, []⟩ tree.nodes
  pure (w.calls, { tree with nodes := nodes })

/-- The loop of `ztree_clear`. -/
def clearLoop (fuel : Nat) : Nat → Addr → PTree X → Exec (PTree X)
  | 0, _, _ => .error .outOfFuel
  | n + 1, curNode, tree =>
      if curNode = 0 then
        pure tree
      else do
        let cur ← tree.nodes.load curNode
        if cur.left = 0 then
          let nodes ← (tree.nodes.destroyPair tree.cb cur.key cur.value).zfree curNode
          clearLoop fuel n cur.right { tree with nodes := nodes, nnodes := tree.nnodes - 1 }
        else
          let prevNode ← lastBefore tree.nodes 0 fuel cur.left
          let nodes ← tree.nodes.modify prevNode fun m => { m with right := curNode }
          let nodes ← nodes.modify curNode fun m => { m with left := 0 }
          clearLoop fuel n cur.left { tree with nodes := nodes }

/-- `ztree_clear` -/
def ztreeClear (fuel : Nat) (tree : PTree X) : Exec (PTree X) := do
  let tree ← clearLoop fuel fuel tree.nodes.root tree
  pure { tree with nodes := { tree.nodes with root := 0 } }

/-- `ztree_get_nnodes` -/
def ztreeGetNnodes (tree : PTree X) : Int := tree.nnodes.toInt

end PTree

end Plibsys.Tree
