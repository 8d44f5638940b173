import Plibsys.Support.LinkedList
import Plibsys.Types

/-! # Hash tables

`phashtable.c`: a fixed array of buckets, each a linked list of nodes.  Keys and values are
pointers.  The hash is taken from the lower half of the key, so keys that differ in the
upper half only always collide.
-/

namespace Plibsys.HashTable

open Support

/-- The data of a `PList`, in order. -/
abbrev PList := List PPointer

abbrev PCompareFunc := PPointer → PPointer → PInt

/-- `zlist_append`.  Without memory for the new item the list stays as it is. -/
def zlistAppend (list : PList) (data : PPointer) (allocated : Bool) : PList :=
  if allocated then list ++ [data] else list

structure PHashTableNode where
  next : Addr
  key : PPointer
  value : PPointer
  deriving Repr, DecidableEq

/-- A `PHashTable` with the nodes that its buckets lead to. -/
structure PHashTable where
  nodes : Heap PHashTableNode
  table : List Addr
  size : PSize

/-- `P_HASH_TABLE_SIZE` -/
def hashTableSize : Nat := 101

/-- The answer of a lookup that finds nothing, `(ppointer) -1` -/
def notFound : PPointer := -1

/-- `pzhash_table_calc_hash`.  The pointer is cut to an `int` and 37 is added to it; the sum is
    extended with its sign before the division. -/
def pzhashTableCalcHash (pointer : PPointer) (modulo : PSize) : PUInt :=
  (((pointer.setWidth 32 : PInt) + 37).signExtend 64 % modulo).setWidth 32

/-- `zhash_table_new`, given whether its two allocations succeed. -/
def zhashTableNew (allocated allocatedTable : Bool) : Option PHashTable :=
  if allocated ∧ allocatedTable then
    some ⟨Heap.empty, List.replicate hashTableSize 0, BitVec.ofNat 64 hashTableSize⟩
  else
    none

namespace PHashTable

/-- Read `table->table[hash]`. -/
def bucket (t : PHashTable) (hash : Nat) : Exec Addr :=
  match t.table[hash]? with
  | some head => .ok head
  | none => .error .fault

/-- Write `table->table[hash]`. -/
def setBucket (t : PHashTable) (hash : Nat) (head : Addr) : Exec PHashTable :=
  if hash < t.table.length then .ok { t with table := t.table.set hash head } else .error .fault

def modify (t : PHashTable) (node : Addr) (f : PHashTableNode → PHashTableNode) : Exec PHashTable := do
  let nodes ← t.nodes.modify node f
  pure { t with nodes := nodes }

/-- `zmalloc0` of a node; the null address when the allocation fails. -/
def zmalloc0 (t : PHashTable) (malloc : Option Allocator) : Addr × PHashTable :=
  match malloc with
  | none => (0, t)
  | some A => (A.next t.nodes, { t with nodes := t.nodes.insert (A.next t.nodes) (A.next_nonnull t.nodes) ⟨0, 0, 0⟩ })

/-- `zfree` of a node. -/
def zfree (t : PHashTable) (node : Addr) : Exec PHashTable := do
  let nodes ← t.nodes.free node
  pure { t with nodes := nodes }

/-- The loop of `pzhash_table_find_node`. -/
def findFrom (t : PHashTable) (key : PPointer) : Nat → Addr → Exec Addr
  | 0, _ => .error .outOfFuel
  | fuel + 1, ret =>
      if ret = 0 then
        pure 0
      else do
        let node ← t.nodes.load ret
        if node.key = key then pure ret else t.findFrom key fuel node.next

/-- `pzhash_table_find_node` -/
def pzhashTableFindNode (fuel : Nat) (t : PHashTable) (key : PPointer) (hash : PUInt) : Exec Addr := do
  let head ← t.bucket hash.toNat
  t.findFrom key fuel head

/-- `zhash_table_insert` -/
def zhashTableInsert (fuel : Nat) (malloc : Option Allocator) (key value : PPointer) (t : PHashTable) :
    Exec PHashTable := do
  let hash := pzhashTableCalcHash key t.size
  let found ← t.pzhashTableFindNode fuel key hash
  if found = 0 then
    let (node, t') := t.zmalloc0 malloc
    if node = 0 then
      pure t
    else
      let head ← t'.bucket hash.toNat
      let t' ← t'.modify node fun n => { n with key := key, value := value, next := head }
      t'.setBucket hash.toNat node
  else
    t.modify found fun n => { n with value := value }

/-- `zhash_table_lookup` -/
def zhashTableLookup (fuel : Nat) (key : PPointer) (t : PHashTable) : Exec PPointer := do
  let found ← t.pzhashTableFindNode fuel key (pzhashTableCalcHash key t.size)
  if found = 0 then
    pure notFound
  else
    let node ← t.nodes.load found
    pure node.value

/-- Let the bucket or the previous node skip a node, and free it. -/
def unlink (hash : PUInt) (prevNode node next : Addr) (t : PHashTable) : Exec PHashTable := do
  let t ← if prevNode = 0 then t.setBucket hash.toNat next else t.modify prevNode fun n => { n with next := next }
  t.zfree node

/-- The loop of `zhash_table_remove`. -/
def removeLoop (hash : PUInt) (key : PPointer) (t : PHashTable) : Nat → Addr → Addr → Exec PHashTable
  | 0, _, _ => .error .outOfFuel
  | fuel + 1, node, prevNode =>
      if node = 0 then
        pure t
      else do
        let cur ← t.nodes.load node
        if cur.key = key then t.unlink hash prevNode node cur.next else t.removeLoop hash key fuel cur.next node

/-- `zhash_table_remove` -/
def zhashTableRemove (fuel : Nat) (key : PPointer) (t : PHashTable) : Exec PHashTable := do
  let hash := pzhashTableCalcHash key t.size
  let found ← t.pzhashTableFindNode fuel key hash
  if found = 0 then
    pure t
  else
    let head ← t.bucket hash.toNat
    t.removeLoop hash key fuel head 0

section Listing

-- What a listing appends for a node, if anything, and which of its allocations succeed.
variable (pick : PHashTableNode → Option PPointer) (mem : Nat → Bool)

/-- Append what is picked of a node.  The second component counts the allocations. -/
def append (node : PHashTableNode) (ret : PList × Nat) : PList × Nat :=
  match pick node with
  | some data => (zlistAppend ret.1 data (mem ret.2), ret.2 + 1)
  | none => ret

/-- The inner loop of a listing, over the nodes of a bucket. -/
def listChain (t : PHashTable) : Nat → Addr → PList × Nat → Exec (PList × Nat)
  | 0, _, _ => .error .outOfFuel
  | fuel + 1, node, ret =>
      if node = 0 then
        pure ret
      else do
        let cur ← t.nodes.load node
        t.listChain fuel cur.next (append pick mem cur ret)

/-- The outer loop of a listing, over the buckets from `i` on. -/
def listBuckets (fuel : Nat) (t : PHashTable) : Nat → Nat → PList × Nat → Exec (PList × Nat)
  | 0, _, ret => pure ret
  | left + 1, i, ret => do
      let head ← t.bucket i
      let ret ← t.listChain pick mem fuel head ret
      t.listBuckets fuel left (i + 1) ret

/-- What `zhash_table_keys`, `zhash_table_values` and `zhash_table_lookuzby_value` have in
    common. -/
def listing (fuel : Nat) (t : PHashTable) : Exec PList := do
  let ret ← t.listBuckets pick mem fuel t.size.toNat 0 ([], 0)
  pure ret.1

end Listing

/-- `zhash_table_keys` -/
def zhashTableKeys (fuel : Nat) (mem : Nat → Bool) (t : PHashTable) : Exec PList :=
  t.listing (fun node => some node.key) mem fuel

/-- `zhash_table_values` -/
def zhashTableValues (fuel : Nat) (mem : Nat → Bool) (t : PHashTable) : Exec PList :=
  t.listing (fun node => some node.value) mem fuel

/-- The test of `zhash_table_lookuzby_value`; without a function pointers are compared. -/
def accepts (func : Option PCompareFunc) (value val : PPointer) : Bool :=
  match func with
  | none => value = val
  | some compare => compare value val = 0

/-- `zhash_table_lookuzby_value` -/
def zhashTableLookuzbyValue (fuel : Nat) (mem : Nat → Bool) (val : PPointer) (func : Option PCompareFunc)
    (t : PHashTable) : Exec PList :=
  t.listing (fun node => if accepts func node.value val then some node.key else none) mem fuel

end PHashTable

end Plibsys.HashTable
