import Plibsys.Support.LinkedList
import Plibsys.Types

/-! # Lists

`plist.c`: singly linked lists of pointers.  A list is the address of its first node, and the
empty list is the null address.  All lists are in one heap.
-/

namespace Plibsys.Lists

open Support

/-- A node of a list. -/
structure PList where
  data : PPointer
  next : Addr
  deriving Repr, DecidableEq

/-- The loop `for (cur = list; cur->next != NULL; cur = cur->next)`. -/
def lastFrom (h : Heap PList) : Nat → Addr → Exec Addr
  | 0, _ => .error .outOfFuel
  | fuel + 1, cur => do
      let node ← h.load cur
      if node.next = 0 then pure cur else lastFrom h fuel node.next

/-- `zlist_append` -/
def zlistAppend (fuel : Nat) (malloc : Option Allocator) (list : Addr) (data : PPointer) (h : Heap PList) :
    Exec (Addr × Heap PList) :=
  match malloc with
  | none => pure (list, h)
  | some A =>
      let item := A.next h
      let h := h.insert item (A.next_nonnull h) ⟨data, 0⟩
      if list = 0 then
        pure (item, h)
      else do
        let cur ← lastFrom h fuel list
        let h ← h.modify cur fun node => { node with next := item }
        pure (list, h)

/-- The loop of `zlist_remove`. -/
def removeLoop (data : PPointer) (head : Addr) : Nat → Addr → Addr → Heap PList → Exec (Addr × Heap PList)
  | 0, _, _, _ => .error .outOfFuel
  | fuel + 1, prev, cur, h =>
      if cur = 0 then
        pure (head, h)
      else do
        let node ← h.load cur
        if node.data = data then
          if prev = 0 then do
            let h ← h.free cur
            pure (node.next, h)
          else do
            let h ← h.modify prev fun before => { before with next := node.next }
            let h ← h.free cur
            pure (head, h)
        else
          removeLoop data head fuel cur node.next h

/-- `zlist_remove` -/
def zlistRemove (fuel : Nat) (list : Addr) (data : PPointer) (h : Heap PList) : Exec (Addr × Heap PList) :=
  if list = 0 then pure (0, h) else removeLoop data list fuel 0 list h

/-- The loop of `zlist_foreach`.  What `func` works on is `user_data`. -/
def foreachLoop {σ : Type} (func : PPointer → σ → σ) (h : Heap PList) : Nat → Addr → σ → Exec σ
  | 0, _, _ => .error .outOfFuel
  | fuel + 1, cur, userData =>
      if cur = 0 then
        pure userData
      else do
        let node ← h.load cur
        foreachLoop func h fuel node.next (func node.data userData)

/-- `zlist_foreach` -/
def zlistForeach {σ : Type} (fuel : Nat) (list : Addr) (func : Option (PPointer → σ → σ)) (userData : σ)
    (h : Heap PList) : Exec σ :=
  match func with
  | none => pure userData
  | some func => if list = 0 then pure userData else foreachLoop func h fuel list userData

/-- The loop of `zlist_free`. -/
def freeLoop : Nat → Addr → Addr → Heap PList → Exec (Heap PList)
  | 0, _, _, _ => .error .outOfFuel
  | fuel + 1, cur, next, h =>
      if cur ≠ 0 ∧ next ≠ 0 then do
        let node ← h.load cur
        let h ← h.free cur
        freeLoop fuel node.next node.next h
      else
        pure h

/-- `zlist_free` -/
def zlistFree (fuel : Nat) (list : Addr) (h : Heap PList) : Exec (Heap PList) :=
  if list = 0 then pure h else freeLoop fuel list list h

/-- `zlist_last` -/
def zlistLast (fuel : Nat) (list : Addr) (h : Heap PList) : Exec Addr :=
  if list = 0 then pure 0 else lastFrom h fuel list

/-- The loop of `zlist_length`. -/
def lengthLoop (h : Heap PList) : Nat → Addr → PSize → Exec PSize
  | 0, _, _ => .error .outOfFuel
  | fuel + 1, cur, ret => do
      let node ← h.load cur
      if node.next = 0 then pure ret else lengthLoop h fuel node.next (ret + 1)

/-- `zlist_length` -/
def zlistLength (fuel : Nat) (list : Addr) (h : Heap PList) : Exec PSize :=
  if list = 0 then pure 0 else lengthLoop h fuel list 1

/-- `zlist_prepend` -/
def zlistPrepend (malloc : Option Allocator) (list : Addr) (data : PPointer) (h : Heap PList) :
    Exec (Addr × Heap PList) :=
  match malloc with
  | none => pure (list, h)
  | some A =>
      let item := A.next h
      let h := h.insert item (A.next_nonnull h) ⟨data, 0⟩
      if list = 0 then
        pure (item, h)
      else do
        let h ← h.modify item fun node => { node with next := list }
        pure (item, h)

/-- The loop of `zlist_reverse`. -/
def reverseLoop : Nat → Addr → Addr → Heap PList → Exec (Addr × Heap PList)
  | 0, _, _, _ => .error .outOfFuel
  | fuel + 1, prev, cur, h =>
      if cur = 0 then
        pure (prev, h)
      else do
        let node ← h.load cur
        let h ← h.modify cur fun node => { node with next := prev }
        reverseLoop fuel cur node.next h

/-- `zlist_reverse` -/
def zlistReverse (fuel : Nat) (list : Addr) (h : Heap PList) : Exec (Addr × Heap PList) :=
  if list = 0 then
    pure (0, h)
  else do
    let node ← h.load list
    let h ← h.modify list fun node => { node with next := 0 }
    reverseLoop fuel list node.next h

/-! ## Clients -/

/-- The calls that clients make on their lists, which have numbers. -/
inductive ListOp where
  | append (malloc : Option Allocator) (list : Nat) (data : PPointer)
  | prepend (malloc : Option Allocator) (list : Nat) (data : PPointer)
  | remove (list : Nat) (data : PPointer)
  | reverse (list : Nat)
  /-- The client drops the address with the list. -/
  | free (list : Nat)
  | length (list : Nat)
  /-- The client reads the data of the last node. -/
  | last (list : Nat)
  | foreach (list : Nat)

inductive ListReply where
  | done
  | length (n : PSize)
  | last (data : Option PPointer)
  /-- What the function was called with. -/
  | called (data : List PPointer)
  deriving Repr, DecidableEq

/-- The heap, and the address that the client has of every list. -/
structure ListClients where
  nodes : Heap PList
  heads : Nat → Addr

namespace ListClients

def new : ListClients := ⟨Heap.empty, fun _ => 0⟩

/-- The client keeps the address that a call returns. -/
def keep (s : ListClients) (list : Nat) (call : Addr → Heap PList → Exec (Addr × Heap PList)) : Exec (ListReply × ListClients) := do
  let (head, nodes) ← call (s.heads list) s.nodes
  pure (.done, ⟨nodes, Function.update s.heads list head⟩)

def step (fuel : Nat) (op : ListOp) (s : ListClients) : Exec (ListReply × ListClients) :=
  match op with
  | .append malloc list data => s.keep list fun head => zlistAppend fuel malloc head data
  | .prepend malloc list data => s.keep list fun head => zlistPrepend malloc head data
  | .remove list data => s.keep list fun head => zlistRemove fuel head data
  | .reverse list => s.keep list (zlistReverse fuel)
  | .free list => s.keep list fun head h => do
      let h ← zlistFree fuel head h
      pure (0, h)
  | .length list => do
      let n ← zlistLength fuel (s.heads list) s.nodes
      pure (.length n, s)
  | .last list => do
      let last ← zlistLast fuel (s.heads list) s.nodes
      if last = 0 then
        pure (.last none, s)
      else do
        let node ← s.nodes.load last
        pure (.last (some node.data), s)
  | .foreach list => do
      let called ← zlistForeach fuel (s.heads list) (some fun data called => called ++ [data]) [] s.nodes
      pure (.called called, s)

def run (fuel : Nat) : List ListOp → ListClients → Exec (List ListReply × ListClients)
  | [], s => pure ([], s)
  | op :: ops, s => do
      let (reply, s) ← s.step fuel op
      let (replies, s) ← s.run fuel ops
      pure (reply :: replies, s)

end ListClients

end Plibsys.Lists
