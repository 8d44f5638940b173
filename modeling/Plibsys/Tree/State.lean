import Plibsys.Support.SearchTree
import Plibsys.Types

/-! # Tree memory

The part of a `PTree` that its node functions work on: the nodes, the root
pointer, and the calls made to the user's destroy functions and to the node
allocator.  A node is a `PTreeBaseNode` with what `PTreeRBNode` or `PTreeAVLNode`
add after it.  `PTreeBaseNode **` becomes a `Slot`: the root pointer or one of the
two links of a node.
-/

namespace Plibsys.Tree

open Support

/-- What the tree code reports to the outside, in order. -/
inductive Event where
  | keyDestroy (key : PPointer)
  | valueDestroy (value : PPointer)
  | nodeFree (node : Addr)
  deriving Repr, DecidableEq

/-- The functions a `PTree` was created with.  The comparison has its `data`
    argument applied, and of the destroy functions only their presence counts. -/
structure Callbacks where
  compare : PPointer → PPointer → Int
  keyDestroy : Bool
  valueDestroy : Bool

/-- The calls to the destroy functions for one pair, when they were given. -/
def Callbacks.destroy (cb : Callbacks) (key value : PPointer) : List Event :=
  (if cb.keyDestroy then [.keyDestroy key] else []) ++
    (if cb.valueDestroy then [.valueDestroy value] else [])

/-- The child that takes the place of a node with an empty side. -/
def onlyChild {X : Type} (n : Node PPointer PPointer X) : Addr :=
  if n.left = 0 then n.right else n.left

structure TreeState (X : Type) where
  heap : Heap (Node PPointer PPointer X)
  root : Addr
  trace : List Event

/-- A `PTreeBaseNode **`. -/
inductive Slot where
  | root
  | child (node : Addr) (side : Side)
  deriving Repr, DecidableEq

namespace TreeState

variable {X : Type}

def empty : TreeState X := ⟨Heap.empty, 0, []⟩

def load (st : TreeState X) (a : Addr) : Exec (Node PPointer PPointer X) := st.heap.load a

def modify (st : TreeState X) (a : Addr)
    (f : Node PPointer PPointer X → Node PPointer PPointer X) : Exec (TreeState X) := do
  let heap ← st.heap.modify a f
  pure { st with heap := heap }

def readSlot (st : TreeState X) : Slot → Exec Addr
  | .root => .ok st.root
  | .child a d => do
      let n ← st.load a
      pure (n.child d)

def writeSlot (st : TreeState X) (slot : Slot) (x : Addr) : Exec (TreeState X) :=
  match slot with
  | .root => .ok { st with root := x }
  | .child a d => st.modify a fun n => n.setChild d x

/-- `zmalloc0` of a node; the null address when the allocation fails. -/
def zmalloc0 (st : TreeState X) (malloc : Option Allocator) (zero : X) : Addr × TreeState X :=
  match malloc with
  | none => (0, st)
  | some A =>
      (A.next st.heap, { st with
        heap := st.heap.insert (A.next st.heap) (A.next_nonnull st.heap) ⟨0, 0, 0, 0, zero⟩ })

def destroyPair (cb : Callbacks) (key value : PPointer) (st : TreeState X) : TreeState X :=
  { st with trace := st.trace ++ cb.destroy key value }

/-- `zfree` of a node. -/
def zfree (st : TreeState X) (a : Addr) : Exec (TreeState X) := do
  let heap ← st.heap.free a
  pure { st with heap := heap, trace := st.trace ++ [.nodeFree a] }

/-- The search loop of the insert functions.  It returns the slot it stopped at
    and the parent the red-black and AVL versions keep beside it. -/
def findSlot (compare : PPointer → PPointer → Int) (key : PPointer) (st : TreeState X) :
    Nat → Slot → Addr → Exec (Slot × Addr)
  | 0, _, _ => .error .outOfFuel
  | fuel + 1, slot, parent => do
      let cur ← st.readSlot slot
      if cur = 0 then
        pure (slot, parent)
      else
        let node ← st.load cur
        if compare key node.key < 0 then
          st.findSlot compare key fuel (.child cur .left) cur
        else if 0 < compare key node.key then
          st.findSlot compare key fuel (.child cur .right) cur
        else
          pure (slot, parent)

/-- Replace key and value of an existing node. -/
def replacePair (cb : Callbacks) (cur : Addr) (key value : PPointer) (st : TreeState X) :
    Exec (TreeState X) := do
  let old ← st.load cur
  let st := st.destroyPair cb old.key old.value
  st.modify cur fun n => { n with key := key, value := value }

/-- The search loop of the red-black and AVL remove functions. -/
def findNode (compare : PPointer → PPointer → Int) (key : PPointer) (st : TreeState X) :
    Nat → Addr → Exec Addr
  | 0, _ => .error .outOfFuel
  | fuel + 1, cur =>
      if cur = 0 then
        pure 0
      else do
        let node ← st.load cur
        if compare key node.key < 0 then
          st.findNode compare key fuel node.left
        else if 0 < compare key node.key then
          st.findNode compare key fuel node.right
        else
          pure cur

/-- The loop to the rightmost node: the slot that leads to it and its address. -/
def lastRight (st : TreeState X) : Nat → Slot → Addr → Exec (Slot × Addr)
  | 0, _, _ => .error .outOfFuel
  | fuel + 1, slot, prev => do
      let node ← st.load prev
      if node.right ≠ 0 then
        st.lastRight fuel (.child prev .right) node.right
      else
        pure (slot, prev)

/-- A node with two children is not removed itself: it takes the pair of its
    in-order predecessor, and the predecessor's node is removed.  Returns the slot
    and the address of the node to remove. -/
def takePredecessor (st : TreeState X) (fuel : Nat) (slot : Slot) (cur : Addr) :
    Exec (Slot × Addr × TreeState X) := do
  let node ← st.load cur
  if node.left ≠ 0 ∧ node.right ≠ 0 then
    let (slot, prev) ← st.lastRight fuel (.child cur .left) node.left
    let last ← st.load prev
    let st ← st.modify cur fun n => { n with key := last.key, value := last.value }
    pure (slot, prev, st)
  else
    pure (slot, cur, st)

/-- The insert functions of the three tree kinds.  They differ in what they store in
    the extension of a new node below `parent` and in how they rebalance. -/
def insertNode (zero : X) (extension : Addr → X)
    (balance : Nat → Addr → TreeState X → Exec (TreeState X))
    (fuel : Nat) (cb : Callbacks) (malloc : Option Allocator) (key value : PPointer)
    (st : TreeState X) : Exec (Bool × TreeState X) := do
  let (curNode, parentNode) ← st.findSlot cb.compare key fuel .root st.root
  let cur ← st.readSlot curNode
  if cur ≠ 0 then
    let st ← st.replacePair cb cur key value
    pure (false, st)
  else
    let (node, st) := st.zmalloc0 malloc zero
    let st ← st.writeSlot curNode node
    if node = 0 then
      pure (false, st)
    else
      let st ← st.modify node fun n =>
        { n with key := key, value := value, ext := extension parentNode }
      let st ← balance fuel node st
      pure (true, st)

end TreeState

end Plibsys.Tree
