import Plibsys.HashTable.PHashTable
import Mathlib.Data.List.Nodup
import Mathlib.Logic.Function.Basic

/-! # Chains

What the buckets of a table hold, and what every call does to them.  A call works on the
bucket of its key; the nodes of other buckets have other addresses, because their keys have
other hashes.
-/

namespace Plibsys.HashTable

open Support

/-- A node of a chain: its address, key and value. -/
abbrev Item := Addr × PPointer × PPointer

def nodeLinks : Links PHashTableNode (PPointer × PPointer) := ⟨PHashTableNode.next, fun n => (n.key, n.value)⟩

/-- The bucket of a key. -/
@[irreducible]
def bucketOf (key : PPointer) : Nat := (pzhashTableCalcHash key (BitVec.ofNat 64 hashTableSize)).toNat

theorem calcHash_lt (key : PPointer) {modulo : PSize} (positive : 0 < modulo.toNat) :
    (pzhashTableCalcHash key modulo).toNat < modulo.toNat := by
  unfold pzhashTableCalcHash
  rw [BitVec.toNat_setWidth, BitVec.toNat_umod]
  exact Nat.lt_of_le_of_lt (Nat.mod_le _ _) (Nat.mod_lt _ positive)

theorem bucketOf_lt (key : PPointer) : bucketOf key < hashTableSize := by
  unfold bucketOf
  exact calcHash_lt key (by decide)

/-- The chains of a table: every node is in the bucket of its key, and in one place. -/
structure Holds (t : PHashTable) (chains : Nat → List Item) : Prop where
  size : t.size = BitVec.ofNat 64 hashTableSize
  length : t.table.length = hashTableSize
  linked : ∀ i head, t.table[i]? = some head → nodeLinks.Segment t.nodes 0 head (chains i)
  placed : ∀ i, ∀ e ∈ chains i, bucketOf e.2.1 = i
  distinct : ∀ i, ((chains i).map fun e => e.2.1).Nodup
  covered : ∀ a n, t.nodes.cell a = some n → (a, n.key, n.value) ∈ chains (bucketOf n.key)

variable {t t' : PHashTable} {chains : Nat → List Item} {key value : PPointer} {fuel : Nat}

theorem holds_new (created : zhashTableNew true true = some t) : Holds t fun _ => [] := by
  rw [zhashTableNew, if_pos ⟨rfl, rfl⟩, Option.some.injEq] at created
  subst created
  exact {
    size := rfl
    length := List.length_replicate
    linked := by
      intro i head at_i
      exact (List.eq_of_mem_replicate (List.mem_of_getElem? at_i))
    placed := by simp
    distinct := by simp
    covered := by simp }

namespace Holds

theorem calcHash_eq (holds : Holds t chains) (key : PPointer) :
    (pzhashTableCalcHash key t.size).toNat = bucketOf key := by
  rw [holds.size, bucketOf]

/-- Every bucket leads to its chain. -/
theorem bucket_eq (holds : Holds t chains) {i : Nat} (inside : i < hashTableSize) :
    ∃ head, t.table[i]? = some head ∧ t.bucket i = .ok head ∧ nodeLinks.Segment t.nodes 0 head (chains i) := by
  rw [← holds.length] at inside
  have at_i : t.table[i]? = some t.table[i] := List.getElem?_eq_getElem inside
  refine ⟨t.table[i], at_i, ?_, holds.linked i _ at_i⟩
  unfold PHashTable.bucket
  rw [at_i]

theorem cell (holds : Holds t chains) {i : Nat} {e : Item} (inside : e ∈ chains i) :
    ∃ n, t.nodes.cell e.1 = some n ∧ n.key = e.2.1 ∧ n.value = e.2.2 := by
  have known : i < hashTableSize := holds.placed i e inside ▸ bucketOf_lt e.2.1
  obtain ⟨head, -, -, seg⟩ := holds.bucket_eq known
  obtain ⟨n, at_e, stored⟩ := seg.cell inside
  exact ⟨n, at_e, congrArg Prod.fst stored, congrArg Prod.snd stored⟩

/-- The chains have no node in common. -/
theorem apart (holds : Holds t chains) {i j : Nat} {e f : Item} (inI : e ∈ chains i) (inJ : f ∈ chains j)
    (same : e.1 = f.1) : i = j := by
  obtain ⟨n, at_e, key, -⟩ := holds.cell inI
  obtain ⟨m, at_f, key', -⟩ := holds.cell inJ
  rw [← same, at_e, Option.some.injEq] at at_f
  subst at_f
  rw [← holds.placed i e inI, ← holds.placed j f inJ, ← key, key']

/-- A table in which one chain was replaced. -/
theorem replace (holds : Holds t chains) {i : Nat} {chain : List Item} (size : t'.size = t.size)
    (length : t'.table.length = t.table.length) (others : ∀ j, j ≠ i → t'.table[j]? = t.table[j]?)
    (kept : ∀ j, j ≠ i → ∀ e ∈ chains j, t'.nodes.cell e.1 = t.nodes.cell e.1)
    (linked : ∀ head, t'.table[i]? = some head → nodeLinks.Segment t'.nodes 0 head chain)
    (placed : ∀ e ∈ chain, bucketOf e.2.1 = i) (distinct : (chain.map fun e => e.2.1).Nodup)
    (covered : ∀ a n, t'.nodes.cell a = some n →
      (a, n.key, n.value) ∈ chain ∨ (a, n.key, n.value) ∈ chains (bucketOf n.key) ∧ bucketOf n.key ≠ i) :
    Holds t' (Function.update chains i chain) where
  size := size.trans holds.size
  length := length.trans holds.length
  linked := by
    intro j head at_j
    by_cases here : j = i
    · subst here
      rw [Function.update_self]
      exact linked head at_j
    · rw [Function.update_of_ne here]
      rw [others j here] at at_j
      exact (holds.linked j head at_j).frame (kept j here)
  placed := by
    intro j
    by_cases here : j = i
    · subst here
      rw [Function.update_self]
      exact placed
    · rw [Function.update_of_ne here]
      exact holds.placed j
  distinct := by
    intro j
    by_cases here : j = i
    · subst here
      rw [Function.update_self]
      exact distinct
    · rw [Function.update_of_ne here]
      exact holds.distinct j
  covered := by
    intro a n at_a
    rcases covered a n at_a with inside | ⟨before, elsewhere⟩
    · have here : bucketOf n.key = i := placed _ inside
      rw [here, Function.update_self]
      exact inside
    · rw [Function.update_of_ne elsewhere]
      exact before

end Holds

section Finding

theorem findFrom_eq {p : Addr} {l : List Item} (seg : nodeLinks.Segment t.nodes 0 p l) (enough : l.length < fuel) :
    t.findFrom key fuel p = .ok ((l.find? fun e => e.2.1 = key).elim 0 Prod.fst) := by
  induction l generalizing p fuel with
  | nil =>
      obtain ⟨fuel, rfl⟩ := Nat.exists_eq_add_of_lt enough
      simp [PHashTable.findFrom, show p = 0 from seg]
  | cons e l ih =>
      have nonnull := seg.nonnull (d := e.2) List.mem_cons_self
      obtain ⟨rfl, n, at_e, stored, rest⟩ := seg
      cases fuel with
      | zero => simp at enough
      | succ fuel =>
          have same : n.key = e.2.1 := congrArg Prod.fst stored
          rw [PHashTable.findFrom, if_neg nonnull, Heap.load_of_cell at_e, Exec.ok_bind, same]
          by_cases hit : e.2.1 = key
          · simp [hit]
          · rw [if_neg hit, List.find?_cons_of_neg (by simpa using hit)]
            exact ih rest (by simpa using enough)

theorem findNode_eq (holds : Holds t chains) (enough : (chains (bucketOf key)).length < fuel) :
    t.pzhashTableFindNode fuel key (pzhashTableCalcHash key t.size) =
      .ok (((chains (bucketOf key)).find? fun e => e.2.1 = key).elim 0 Prod.fst) := by
  obtain ⟨head, -, atBucket, seg⟩ := holds.bucket_eq (bucketOf_lt key)
  rw [PHashTable.pzhashTableFindNode, holds.calcHash_eq, atBucket, Exec.ok_bind]
  exact findFrom_eq seg enough

/-- The key is in no node and nothing is found. -/
structure Absent (t : PHashTable) (chains : Nat → List Item) (fuel : Nat) (key : PPointer) : Prop where
  fresh : ∀ e ∈ chains (bucketOf key), e.2.1 ≠ key
  found : t.pzhashTableFindNode fuel key (pzhashTableCalcHash key t.size) = .ok 0

/-- The key is in a node of its chain and this node is found. -/
structure Present (t : PHashTable) (chains : Nat → List Item) (fuel : Nat) (key : PPointer)
    (before : List Item) (node : Addr) (n : PHashTableNode) (after : List Item) : Prop where
  chain : chains (bucketOf key) = before ++ (node, key, n.value) :: after
  cell : t.nodes.cell node = some n
  key_eq : n.key = key
  nonnull : node ≠ 0
  freshBefore : ∀ e ∈ before, e.2.1 ≠ key
  freshAfter : ∀ e ∈ after, e.2.1 ≠ key
  found : t.pzhashTableFindNode fuel key (pzhashTableCalcHash key t.size) = .ok node

theorem absent_or_present (holds : Holds t chains) (enough : (chains (bucketOf key)).length < fuel) :
    Absent t chains fuel key ∨ ∃ before node n after, Present t chains fuel key before node n after := by
  have found := findNode_eq holds enough
  cases search : (chains (bucketOf key)).find? fun e => e.2.1 = key with
  | none =>
      rw [search] at found
      rw [List.find?_eq_none] at search
      exact Or.inl ⟨by simpa using search, found⟩
  | some e =>
      obtain ⟨node, k, value⟩ := e
      rw [search] at found
      obtain ⟨hit, before, after, chain, misses⟩ := List.find?_eq_some_iff_append.mp search
      obtain rfl : k = key := by simpa using hit
      have inside : (node, k, value) ∈ chains (bucketOf k) := by simp [chain]
      obtain ⟨n, at_node, key_eq, value_eq⟩ := holds.cell inside
      obtain ⟨head, -, -, seg⟩ := holds.bucket_eq (bucketOf_lt k)
      have distinct := holds.distinct (bucketOf k)
      rw [chain, List.map_append, List.map_cons, List.nodup_middle, List.nodup_cons] at distinct
      refine Or.inr ⟨before, node, n, after, ?_⟩
      exact {
        chain := by rw [chain, value_eq]
        cell := at_node
        key_eq := key_eq
        nonnull := seg.nonnull inside
        freshBefore := by simpa using misses
        freshAfter := by
          intro e behind same
          apply distinct.1
          rw [List.mem_append, List.mem_map, List.mem_map]
          exact Or.inr ⟨e, behind, same⟩
        found := found }

end Finding

section Calls

variable {before after : List Item} {node : Addr} {n : PHashTableNode}

theorem lookup_absent (absent : Absent t chains fuel key) : t.zhashTableLookup fuel key = .ok notFound := by
  rw [PHashTable.zhashTableLookup, absent.found]
  rfl

theorem lookup_present (present : Present t chains fuel key before node n after) :
    t.zhashTableLookup fuel key = .ok n.value := by
  rw [PHashTable.zhashTableLookup, present.found, Exec.ok_bind, if_neg present.nonnull,
    Heap.load_of_cell present.cell]
  rfl

/-- Without memory for a new node nothing changes. -/
theorem insert_failed (absent : Absent t chains fuel key) : t.zhashTableInsert fuel none key value = .ok t := by
  unfold PHashTable.zhashTableInsert
  simp only [absent.found]
  rfl

/-- The table with a new node in front of the chain of its key. -/
def pushed (t : PHashTable) (node : Addr) (nonnull : node ≠ 0) (key value : PPointer) (head : Addr) :
    PHashTable where
  nodes := t.nodes.insert node nonnull ⟨head, key, value⟩
  table := t.table.set (bucketOf key) node
  size := t.size

theorem holds_pushed (holds : Holds t chains) (fresh : ∀ e ∈ chains (bucketOf key), e.2.1 ≠ key)
    (nonnull : node ≠ 0) (free : t.nodes.cell node = none) {head : Addr}
    (seg : nodeLinks.Segment t.nodes 0 head (chains (bucketOf key))) :
    Holds (pushed t node nonnull key value head)
      (Function.update chains (bucketOf key) ((node, key, value) :: chains (bucketOf key))) := by
  have kept : ∀ i, ∀ e ∈ chains i, (pushed t node nonnull key value head).nodes.cell e.1 = t.nodes.cell e.1 := by
    intro i e inside
    obtain ⟨n, at_e, -⟩ := holds.cell inside
    have other : e.1 ≠ node := by
      intro same
      rw [same, free] at at_e
      cases at_e
    simp [pushed, other]
  apply holds.replace
  case size => rfl
  case length => simp [pushed]
  case others =>
    intro j other
    exact List.getElem?_set_ne (Ne.symm other)
  case kept => exact fun j _ => kept j
  case linked =>
    intro first at_bucket
    rw [pushed, List.getElem?_set_self (holds.length ▸ bucketOf_lt key), Option.some.injEq] at at_bucket
    subst at_bucket
    exact ⟨rfl, ⟨head, key, value⟩, by simp [pushed], rfl, seg.frame (kept _)⟩
  case placed =>
    intro e inside
    rcases List.mem_cons.mp inside with rfl | behind
    · rfl
    · exact holds.placed _ e behind
  case distinct =>
    rw [List.map_cons, List.nodup_cons, List.mem_map]
    refine ⟨fun again => ?_, holds.distinct _⟩
    obtain ⟨e, inside, same⟩ := again
    exact fresh e inside same
  case covered =>
    intro a n at_a
    rw [pushed, Heap.cell_insert] at at_a
    split at at_a
    · next same =>
        rw [Option.some.injEq] at at_a
        subst same at_a
        exact Or.inl List.mem_cons_self
    · by_cases here : bucketOf n.key = bucketOf key
      · exact Or.inl (List.mem_cons_of_mem _ (here ▸ holds.covered a n at_a))
      · exact Or.inr ⟨holds.covered a n at_a, here⟩

/-- A new node goes to the front of its chain. -/
theorem insert_absent (holds : Holds t chains) (absent : Absent t chains fuel key) (A : Allocator)
    (value : PPointer) :
    ∃ t' node, t.zhashTableInsert fuel (some A) key value = .ok t' ∧
      Holds t' (Function.update chains (bucketOf key) ((node, key, value) :: chains (bucketOf key))) := by
  obtain ⟨head, at_bucket, -, seg⟩ := holds.bucket_eq (bucketOf_lt key)
  have nonnull := A.next_nonnull t.nodes
  refine ⟨pushed t (A.next t.nodes) nonnull key value head, A.next t.nodes, ?_,
    holds_pushed holds absent.fresh nonnull (A.next_free t.nodes) seg⟩
  have inside : bucketOf key < t.table.length := holds.length ▸ bucketOf_lt key
  unfold PHashTable.zhashTableInsert
  simp only [absent.found, Exec.ok_bind, PHashTable.zmalloc0, if_true, if_neg nonnull, PHashTable.bucket,
    holds.calcHash_eq, at_bucket, PHashTable.modify, PHashTable.setBucket]
  rw [Heap.modify_of_cell (x := ⟨0, 0, 0⟩) (by simp), Heap.adjust_insert]
  simp only [Exec.ok_bind, Exec.pure_eq_ok, if_pos inside]
  rfl

namespace Present

/-- The other nodes of the chain, and the nodes of other chains. -/
theorem covered (present : Present t chains fuel key before node n after) {e : Item}
    (inside : e ∈ chains (bucketOf e.2.1)) (other : e.1 ≠ node) :
    e ∈ before ++ after ∨ e ∈ chains (bucketOf e.2.1) ∧ bucketOf e.2.1 ≠ bucketOf key := by
  by_cases here : bucketOf e.2.1 = bucketOf key
  · rw [here, present.chain, List.mem_append, List.mem_cons] at inside
    rcases inside with inBefore | same | inAfter
    · exact Or.inl (List.mem_append_left _ inBefore)
    · exact absurd (congrArg Prod.fst same) other
    · exact Or.inl (List.mem_append_right _ inAfter)
  · exact Or.inr ⟨inside, here⟩

theorem placed (present : Present t chains fuel key before node n after) (holds : Holds t chains) :
    ∀ e ∈ before ++ after, bucketOf e.2.1 = bucketOf key := by
  intro e inside
  apply holds.placed
  rw [present.chain]
  rcases List.mem_append.mp inside with inBefore | inAfter
  · exact List.mem_append_left _ inBefore
  · exact List.mem_append_right _ (List.mem_cons_of_mem _ inAfter)

theorem distinct (present : Present t chains fuel key before node n after) (holds : Holds t chains) :
    (before.map (fun e => e.2.1) ++ key :: after.map fun e => e.2.1).Nodup := by
  have distinct := holds.distinct (bucketOf key)
  rw [present.chain, List.map_append, List.map_cons] at distinct
  exact distinct

/-- Nodes of other chains have other addresses than the nodes of this one. -/
theorem apart (present : Present t chains fuel key before node n after) (holds : Holds t chains) {j : Nat}
    (elsewhere : j ≠ bucketOf key) {e f : Item} (inJ : e ∈ chains j)
    (inside : f ∈ before ++ (node, key, n.value) :: after) : e.1 ≠ f.1 := by
  intro same
  rw [← present.chain] at inside
  exact elsewhere (holds.apart inJ inside same)

end Present

/-- The value of an existing node is replaced. -/
theorem insert_present (holds : Holds t chains) (present : Present t chains fuel key before node n after)
    (malloc : Option Allocator) (value : PPointer) :
    ∃ t', t.zhashTableInsert fuel malloc key value = .ok t' ∧
      Holds t' (Function.update chains (bucketOf key) (before ++ (node, key, value) :: after)) := by
  refine ⟨{ t with nodes := t.nodes.adjust node fun n => { n with value := value } }, ?_, ?_⟩
  · unfold PHashTable.zhashTableInsert
    simp only [present.found, Exec.ok_bind, if_neg present.nonnull, PHashTable.modify,
      Heap.modify_of_cell present.cell, Exec.pure_eq_ok]
  · obtain ⟨head, at_bucket, -, seg⟩ := holds.bucket_eq (bucketOf_lt key)
    rw [present.chain] at seg
    apply holds.replace
    case size => rfl
    case length => rfl
    case others => exact fun _ _ => rfl
    case kept =>
      intro j elsewhere e inJ
      exact Heap.cell_adjust_ne _ (present.apart holds elsewhere inJ (f := (node, key, n.value)) (by simp)) _
    case linked =>
      intro first at_first
      obtain rfl : head = first := Option.some.inj (at_bucket.symm.trans at_first)
      have changed := seg.adjust (f := fun n => { n with value := value }) present.cell rfl
      rw [← present.key_eq]
      exact changed
    case placed =>
      intro e within
      rcases List.mem_append.mp within with inBefore | behind
      · exact present.placed holds e (List.mem_append_left _ inBefore)
      · rcases List.mem_cons.mp behind with rfl | inAfter
        · rfl
        · exact present.placed holds e (List.mem_append_right _ inAfter)
    case distinct =>
      rw [List.map_append, List.map_cons]
      exact present.distinct holds
    case covered =>
      intro a m at_a
      by_cases same : a = node
      · subst same
        rw [Heap.cell_adjust_self, present.cell, Option.map_some, Option.some.injEq] at at_a
        subst at_a
        left
        rw [present.key_eq]
        simp
      · rw [Heap.cell_adjust_ne _ same] at at_a
        rcases present.covered (holds.covered a m at_a) same with inside | elsewhere
        · left
          simp only [List.mem_append, List.mem_cons] at inside ⊢
          tauto
        · exact Or.inr elsewhere

section Removing

/-- The loop stops at the node of the key, with the node before it. -/
theorem removeLoop_eq {hash : PUInt} {p prev : Addr} (seg : nodeLinks.Segment t.nodes node p before)
    (cell : t.nodes.cell node = some n) (key_eq : n.key = key) (nonnull : node ≠ 0)
    (fresh : ∀ e ∈ before, e.2.1 ≠ key) (enough : before.length < fuel) :
    t.removeLoop hash key fuel p prev =
      t.unlink hash ((before.getLast?.map Prod.fst).getD prev) node n.next := by
  induction before generalizing p prev fuel with
  | nil =>
      obtain ⟨fuel, rfl⟩ := Nat.exists_eq_add_of_lt enough
      obtain rfl : p = node := seg
      simp [PHashTable.removeLoop, nonnull, cell, key_eq]
  | cons e before ih =>
      have nonnullE := seg.nonnull (d := e.2) List.mem_cons_self
      obtain ⟨rfl, m, at_e, stored, rest⟩ := seg
      cases fuel with
      | zero => simp at enough
      | succ fuel =>
          have miss : m.key ≠ key := by
            rw [show m.key = e.2.1 from congrArg Prod.fst stored]
            exact fresh e List.mem_cons_self
          rw [PHashTable.removeLoop, if_neg nonnullE, Heap.load_of_cell at_e, Exec.ok_bind, if_neg miss,
            show m.next = nodeLinks.next m from rfl,
            ih rest (fun other inside => fresh other (List.mem_cons_of_mem _ inside)) (by simpa using enough)]
          cases before with
          | nil => rfl
          | cons f before => simp [List.getLast?_cons]

theorem remove_absent (absent : Absent t chains fuel key) : t.zhashTableRemove fuel key = .ok t := by
  unfold PHashTable.zhashTableRemove
  simp only [absent.found]
  rfl

/-- A table whose bucket leads past the node of the key, which is gone. -/
theorem holds_unlinked (holds : Holds t chains) (present : Present t chains fuel key before node n after)
    (size : t'.size = t.size) (length : t'.table.length = t.table.length)
    (others : ∀ j, j ≠ bucketOf key → t'.table[j]? = t.table[j]?)
    (kept : ∀ j, j ≠ bucketOf key → ∀ e ∈ chains j, t'.nodes.cell e.1 = t.nodes.cell e.1)
    (linked : ∀ head, t'.table[bucketOf key]? = some head → nodeLinks.Segment t'.nodes 0 head (before ++ after))
    (cells : ∀ a m, t'.nodes.cell a = some m →
      a ≠ node ∧ ∃ m', t.nodes.cell a = some m' ∧ m'.key = m.key ∧ m'.value = m.value) :
    Holds t' (Function.update chains (bucketOf key) (before ++ after)) := by
  apply holds.replace size length others kept linked (present.placed holds)
  case distinct =>
    rw [List.map_append]
    exact (List.nodup_cons.mp (List.nodup_middle.mp (present.distinct holds))).2
  case covered =>
    intro a m at_a
    obtain ⟨other, m', at_a', keys, values⟩ := cells a m at_a
    have inside := holds.covered a m' at_a'
    rw [keys, values] at inside
    exact present.covered inside other

theorem unlink_head (holds : Holds t chains) (present : Present t chains fuel key [] node n after) {hash : PUInt}
    (hashed : hash.toNat = bucketOf key) :
    ∃ t', t.unlink hash 0 node n.next = .ok t' ∧ Holds t' (Function.update chains (bucketOf key) after) := by
  have inside : bucketOf key < t.table.length := holds.length ▸ bucketOf_lt key
  obtain ⟨head, -, -, seg⟩ := holds.bucket_eq (bucketOf_lt key)
  rw [present.chain] at seg
  refine ⟨{ t with table := t.table.set (bucketOf key) n.next, nodes := t.nodes.erase node }, ?_, ?_⟩
  · unfold PHashTable.unlink PHashTable.setBucket PHashTable.zfree
    simp only [if_true, hashed, if_pos inside, Exec.ok_bind, Heap.free_of_cell present.cell, Exec.pure_eq_ok]
  · apply holds_unlinked holds present
    case size => rfl
    case length => simp
    case others =>
      intro j other
      exact List.getElem?_set_ne (Ne.symm other)
    case kept =>
      intro j elsewhere e inJ
      rw [Heap.cell_erase, if_neg (present.apart holds elsewhere inJ (f := (node, key, n.value)) (by simp))]
    case linked =>
      intro first at_first
      rw [List.getElem?_set_self inside, Option.some.injEq] at at_first
      subst at_first
      exact seg.unlinkHead present.cell
    case cells =>
      intro a m at_a
      rw [Heap.cell_erase] at at_a
      split at at_a
      · cases at_a
      · next other => exact ⟨other, m, at_a, rfl, rfl⟩

theorem unlink_next (holds : Holds t chains) {b : Item}
    (present : Present t chains fuel key (before ++ [b]) node n after) {hash : PUInt} :
    ∃ t', t.unlink hash b.1 node n.next = .ok t' ∧
      Holds t' (Function.update chains (bucketOf key) (before ++ [b] ++ after)) := by
  obtain ⟨head, at_bucket, -, seg⟩ := holds.bucket_eq (bucketOf_lt key)
  rw [present.chain] at seg
  have inside : b ∈ before ++ [b] ++ (node, key, n.value) :: after := by simp
  have nonnull : b.1 ≠ 0 := seg.nonnull (d := b.2) inside
  obtain ⟨m, at_b, -⟩ := seg.cell (d := b.2) inside
  have apart : node ≠ b.1 := by
    intro same
    exact seg.apart.1 b (by simp) same.symm
  have spliced := Links.Segment.unlinkNext (f := fun n' => { n' with next := n.next }) (by simpa using seg)
    present.cell (fun _ => rfl) (fun _ => rfl)
  have at_node : (t.nodes.adjust b.1 fun n' => { n' with next := n.next }).cell node = some n := by
    rw [Heap.cell_adjust_ne _ apart, present.cell]
  refine ⟨{ t with nodes := (t.nodes.adjust b.1 fun n' => { n' with next := n.next }).erase node }, ?_, ?_⟩
  · unfold PHashTable.unlink PHashTable.modify PHashTable.zfree
    simp only [if_neg nonnull, Heap.modify_of_cell at_b, Exec.ok_bind, Exec.pure_eq_ok, Heap.free_of_cell at_node]
  · apply holds_unlinked holds present
    case size => rfl
    case length => rfl
    case others => exact fun _ _ => rfl
    case kept =>
      intro j elsewhere e inJ
      rw [Heap.cell_erase, if_neg (present.apart holds elsewhere inJ (f := (node, key, n.value)) (by simp)),
        Heap.cell_adjust_ne _ (present.apart holds elsewhere inJ inside)]
    case linked =>
      intro first at_first
      obtain rfl : head = first := Option.some.inj (at_bucket.symm.trans at_first)
      simpa using spliced
    case cells =>
      intro a m' at_a
      rw [Heap.cell_erase] at at_a
      split at at_a
      · cases at_a
      · next other =>
          refine ⟨other, ?_⟩
          rw [Heap.cell_adjust] at at_a
          split at at_a
          · next same =>
              rw [at_b, Option.map_some, Option.some.injEq] at at_a
              subst same at_a
              exact ⟨m, at_b, rfl, rfl⟩
          · exact ⟨m', at_a, rfl, rfl⟩

/-- The node of the key is spliced out of its chain. -/
theorem remove_present (holds : Holds t chains) (present : Present t chains fuel key before node n after)
    (enough : (chains (bucketOf key)).length < fuel) :
    ∃ t', t.zhashTableRemove fuel key = .ok t' ∧
      Holds t' (Function.update chains (bucketOf key) (before ++ after)) := by
  obtain ⟨head, -, read, seg⟩ := holds.bucket_eq (bucketOf_lt key)
  rw [present.chain] at seg enough
  obtain ⟨q, front, start, -⟩ := Links.segment_append.mp seg
  rw [start] at front
  have short : before.length < fuel := by
    rw [List.length_append] at enough
    omega
  have reached : t.zhashTableRemove fuel key =
      t.unlink (pzhashTableCalcHash key t.size) ((before.getLast?.map Prod.fst).getD 0) node n.next := by
    unfold PHashTable.zhashTableRemove
    simp only [present.found, Exec.ok_bind, if_neg present.nonnull, holds.calcHash_eq, read]
    exact removeLoop_eq front present.cell present.key_eq present.nonnull present.freshBefore short
  rw [reached]
  rcases List.eq_nil_or_concat' before with rfl | ⟨before, b, rfl⟩
  · exact unlink_head holds present (holds.calcHash_eq key)
  · rw [List.getLast?_concat]
    exact unlink_next holds present

end Removing

end Calls

end Plibsys.HashTable
