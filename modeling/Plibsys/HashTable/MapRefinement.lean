import Plibsys.HashTable.Chains
import Plibsys.Lists.ListRefinement
import Mathlib.Data.List.Range

/-! # Hash tables are finite maps

Every run of calls from a new table is followed by a map from keys to values.  The listings
go through the buckets in order and through each chain from the front.
-/

namespace Plibsys.HashTable

open Support

inductive Op where
  | insert (malloc : Option Allocator) (key value : PPointer)
  | remove (key : PPointer)
  | lookup (key : PPointer)

/-- What the caller gets to see. -/
inductive Reply where
  | done
  | found (value : PPointer)
  deriving Repr, DecidableEq

namespace PHashTable

def step (fuel : Nat) (op : Op) (t : PHashTable) : Exec (Reply × PHashTable) :=
  match op with
  | .insert malloc key value => do
      let t ← t.zhashTableInsert fuel malloc key value
      pure (.done, t)
  | .remove key => do
      let t ← t.zhashTableRemove fuel key
      pure (.done, t)
  | .lookup key => do
      let value ← t.zhashTableLookup fuel key
      pure (.found value, t)

def run (fuel : Nat) : List Op → PHashTable → Exec (List Reply × PHashTable)
  | [], t => pure ([], t)
  | op :: ops, t => do
      let (reply, t) ← t.step fuel op
      let (replies, t) ← t.run fuel ops
      pure (reply :: replies, t)

/-- The nodes that a bucket leads to. -/
inductive OnChain (t : PHashTable) (i : Nat) : Addr → Prop where
  | head {a : Addr} (first : t.table[i]? = some a) (nonnull : a ≠ 0) : OnChain t i a
  | next {a : Addr} {n : PHashTableNode} (before : OnChain t i a) (cell : t.nodes.cell a = some n)
      (nonnull : n.next ≠ 0) : OnChain t i n.next

/-- Every node is in the bucket of its hash, and no key is in two nodes. -/
structure WellFormed (t : PHashTable) : Prop where
  hash_lt : ∀ key, (pzhashTableCalcHash key t.size).toNat < t.size.toNat
  allocated : ∀ i a, t.OnChain i a → ∃ n, t.nodes.cell a = some n ∧ (pzhashTableCalcHash n.key t.size).toNat = i
  reached : ∀ a n, t.nodes.cell a = some n → t.OnChain (pzhashTableCalcHash n.key t.size).toNat a
  distinct : ∀ a b n m, t.nodes.cell a = some n → t.nodes.cell b = some m → n.key = m.key → a = b

end PHashTable

namespace MapSpec

/-- One call on a map.  A new key needs memory. -/
def step (op : Op) (m : PPointer → Option PPointer) : Reply × (PPointer → Option PPointer) :=
  match op with
  | .insert malloc key value =>
      (.done, if malloc.isSome ∨ (m key).isSome then Function.update m key (some value) else m)
  | .remove key => (.done, Function.update m key none)
  | .lookup key => (.found ((m key).getD notFound), m)

def run : List Op → (PPointer → Option PPointer) → List Reply × (PPointer → Option PPointer)
  | [], m => ([], m)
  | op :: ops, m => ((step op m).1 :: (run ops (step op m).2).1, (run ops (step op m).2).2)

/-- The replies to a sequence of calls on an empty map. -/
def replies (ops : List Op) : List Reply := (run ops fun _ => none).1

/-- The map after a sequence of calls on an empty map: for every key the value inserted
    last and not removed since. -/
def state (ops : List Op) : PPointer → Option PPointer := (run ops fun _ => none).2

end MapSpec

section Listings

/-- The items for which there is memory, the first being the `k`-th allocation. -/
def allocatedFrom (mem : Nat → Bool) : Nat → List PPointer → List PPointer
  | _, [] => []
  | k, data :: rest => if mem k then data :: allocatedFrom mem (k + 1) rest else allocatedFrom mem (k + 1) rest

theorem allocatedFrom_append (mem : Nat → Bool) (k : Nat) (l m : List PPointer) :
    allocatedFrom mem k (l ++ m) = allocatedFrom mem k l ++ allocatedFrom mem (k + l.length) m := by
  induction l generalizing k with
  | nil => rfl
  | cons data l ih =>
      rw [List.cons_append, allocatedFrom, allocatedFrom, ih, List.length_cons,
        show k + 1 + l.length = k + (l.length + 1) by omega]
      split <;> rfl

theorem allocatedFrom_enough (k : Nat) (l : List PPointer) : allocatedFrom (fun _ => true) k l = l := by
  induction l generalizing k with
  | nil => rfl
  | cons data l ih => simp [allocatedFrom, ih]

/-- The pairs of a table, bucket by bucket. -/
def pairsOf (chains : Nat → List Item) : List (PPointer × PPointer) :=
  (List.range hashTableSize).flatMap fun i => (chains i).map Prod.snd

variable {t : PHashTable} {chains : Nat → List Item} {fuel : Nat} {mem : Nat → Bool}
  {pick : PHashTableNode → Option PPointer} {pickPair : PPointer × PPointer → Option PPointer}

/-- A loop that has appended what was picked of some pairs. -/
def extended (mem : Nat → Bool) (data : List PPointer) (ret : PList × Nat) : PList × Nat :=
  (ret.1 ++ allocatedFrom mem ret.2 data, ret.2 + data.length)

theorem extended_append (data more : List PPointer) (ret : PList × Nat) :
    extended mem more (extended mem data ret) = extended mem (data ++ more) ret := by
  simp only [extended, allocatedFrom_append, List.append_assoc, List.length_append, Nat.add_assoc]

/-- What a listing does with the data of its list, `zlist_append` does with the nodes. -/
theorem zlistAppend_refines {h : Heap Lists.PList} {p : Addr} {chain : List (Addr × PPointer)}
    (seg : Lists.nodeLinks.Segment h 0 p chain) (enough : chain.length < fuel) (malloc : Option Allocator)
    (data : PPointer) :
    ∃ p' h' chain', Lists.zlistAppend fuel malloc p data h = .ok (p', h') ∧ Lists.Changed h h' p' chain chain' ∧
      chain'.map Prod.snd = zlistAppend (chain.map Prod.snd) data malloc.isSome :=
  Lists.zlistAppend_eq seg enough malloc data

theorem append_eq (n : PHashTableNode) (ret : PList × Nat) :
    PHashTable.append pick mem n ret = extended mem (pick n).toList ret := by
  unfold PHashTable.append zlistAppend extended
  cases pick n with
  | none => simp [allocatedFrom]
  | some data => cases enough : mem ret.2 <;> simp [allocatedFrom, enough]

theorem listChain_eq (picks : ∀ n, pick n = pickPair (n.key, n.value)) {p : Addr} {l : List Item}
    (seg : nodeLinks.Segment t.nodes 0 p l) (enough : l.length < fuel) (ret : PList × Nat) :
    t.listChain pick mem fuel p ret = .ok (extended mem ((l.map Prod.snd).filterMap pickPair) ret) := by
  induction l generalizing p fuel ret with
  | nil =>
      obtain ⟨fuel, rfl⟩ := Nat.exists_eq_add_of_lt enough
      simp [PHashTable.listChain, show p = 0 from seg, extended, allocatedFrom]
  | cons e l ih =>
      have nonnull := seg.nonnull (d := e.2) List.mem_cons_self
      obtain ⟨rfl, n, at_e, stored, rest⟩ := seg
      cases fuel with
      | zero => simp at enough
      | succ fuel =>
          have pair : (n.key, n.value) = e.2 := stored
          rw [PHashTable.listChain, if_neg nonnull, Heap.load_of_cell at_e, Exec.ok_bind,
            show n.next = nodeLinks.next n from rfl, ih rest (by simpa using enough), append_eq, extended_append,
            picks, pair, List.map_cons, List.filterMap_cons]
          cases pickPair e.2 <;> rfl

theorem listBuckets_eq (picks : ∀ n, pick n = pickPair (n.key, n.value)) (holds : Holds t chains)
    (enough : ∀ i, (chains i).length < fuel) (left : Nat) {i : Nat} (inside : i + left ≤ hashTableSize)
    (ret : PList × Nat) :
    t.listBuckets pick mem fuel left i ret =
      .ok (extended mem (((List.range' i left).flatMap fun i => (chains i).map Prod.snd).filterMap pickPair) ret) := by
  induction left generalizing i ret with
  | zero => simp [PHashTable.listBuckets, extended, allocatedFrom]
  | succ left ih =>
      obtain ⟨head, -, read, seg⟩ := holds.bucket_eq (i := i) (by omega)
      rw [PHashTable.listBuckets, read, Exec.ok_bind, listChain_eq picks seg (enough i), Exec.ok_bind,
        ih (by omega), extended_append, List.range'_succ, List.flatMap_cons, List.filterMap_append]

theorem listing_eq (pickPair : PPointer × PPointer → Option PPointer)
    (picks : ∀ n, pick n = pickPair (n.key, n.value)) (holds : Holds t chains)
    (enough : ∀ i, (chains i).length < fuel) :
    t.listing pick mem fuel = .ok (allocatedFrom mem 0 ((pairsOf chains).filterMap pickPair)) := by
  have size : t.size.toNat = hashTableSize := by
    rw [holds.size]
    rfl
  rw [PHashTable.listing, size, listBuckets_eq picks holds enough hashTableSize (by omega), pairsOf,
    List.range_eq_range']
  rfl

theorem keys_eq (holds : Holds t chains) (enough : ∀ i, (chains i).length < fuel) :
    t.zhashTableKeys fuel mem = .ok (allocatedFrom mem 0 ((pairsOf chains).map Prod.fst)) := by
  rw [PHashTable.zhashTableKeys, listing_eq (fun p => some p.1) (fun _ => rfl) holds enough]
  congr 2
  exact congrFun List.filterMap_eq_map' (pairsOf chains)

theorem values_eq (holds : Holds t chains) (enough : ∀ i, (chains i).length < fuel) :
    t.zhashTableValues fuel mem = .ok (allocatedFrom mem 0 ((pairsOf chains).map Prod.snd)) := by
  rw [PHashTable.zhashTableValues, listing_eq (fun p => some p.2) (fun _ => rfl) holds enough]
  congr 2
  exact congrFun List.filterMap_eq_map' (pairsOf chains)

theorem lookuzbyValue_eq (holds : Holds t chains) (enough : ∀ i, (chains i).length < fuel) (val : PPointer)
    (func : Option PCompareFunc) :
    t.zhashTableLookuzbyValue fuel mem val func =
      .ok (allocatedFrom mem 0 (((pairsOf chains).filter fun p => PHashTable.accepts func p.2 val).map Prod.fst)) := by
  rw [PHashTable.zhashTableLookuzbyValue,
    listing_eq (fun p => if PHashTable.accepts func p.2 val then some p.1 else none) (fun _ => rfl) holds enough]
  congr 2
  induction pairsOf chains with
  | nil => rfl
  | cons p l ih =>
      rw [List.filterMap_cons, List.filter_cons]
      cases PHashTable.accepts func p.2 val <;> simp [ih]

theorem mem_pairsOf (holds : Holds t chains) {key value : PPointer} :
    (key, value) ∈ pairsOf chains ↔ ∃ a, (a, key, value) ∈ chains (bucketOf key) := by
  simp only [pairsOf, List.mem_flatMap, List.mem_range, List.mem_map]
  constructor
  · rintro ⟨i, -, ⟨a, pair⟩, inside, rfl⟩
    obtain rfl := holds.placed i _ inside
    exact ⟨a, inside⟩
  · rintro ⟨a, inside⟩
    exact ⟨bucketOf key, bucketOf_lt key, _, inside, rfl⟩

/-- No key is listed twice. -/
theorem nodup_pairsOf (holds : Holds t chains) : ((pairsOf chains).map Prod.fst).Nodup := by
  rw [pairsOf, List.map_flatMap, List.nodup_flatMap]
  constructor
  · intro i _
    rw [List.map_map]
    exact holds.distinct i
  · apply List.Pairwise.imp _ List.nodup_range
    intro i j different key inI inJ
    simp only [List.mem_map] at inI inJ
    obtain ⟨-, ⟨e, inI, rfl⟩, rfl⟩ := inI
    obtain ⟨-, ⟨f, inJ, rfl⟩, same⟩ := inJ
    apply different
    rw [← holds.placed i e inI, ← holds.placed j f inJ, same]

end Listings

section WellFormed

variable {t : PHashTable} {chains : Nat → List Item}

theorem onChain_of_mem {i : Nat} {e : Item} {l : List Item} {p : Addr} (seg : nodeLinks.Segment t.nodes 0 p l)
    (start : p ≠ 0 → t.OnChain i p) (inside : e ∈ l) : t.OnChain i e.1 := by
  induction l generalizing p with
  | nil => cases inside
  | cons f l ih =>
      have nonnull := seg.nonnull (d := f.2) List.mem_cons_self
      obtain ⟨rfl, n, at_f, -, rest⟩ := seg
      rcases List.mem_cons.mp inside with rfl | behind
      · exact start nonnull
      · exact ih rest (fun more => .next (start nonnull) at_f more) behind

/-- The bucket leads to the nodes of its chain only. -/
theorem segment_of_onChain (holds : Holds t chains) {i : Nat} {a : Addr} (on : t.OnChain i a) :
    ∃ before d after, chains i = before ++ (a, d) :: after ∧
      nodeLinks.Segment t.nodes 0 a ((a, d) :: after) := by
  have nonempty : ∀ {p : Addr} {l : List Item}, nodeLinks.Segment t.nodes 0 p l → p ≠ 0 →
      ∃ d after, l = (p, d) :: after := by
    intro p l seg nonnull
    cases l with
    | nil => exact absurd seg nonnull
    | cons e after => exact ⟨e.2, after, by rw [show p = e.1 from seg.1]⟩
  induction on with
  | head first nonnull =>
      have seg := holds.linked i _ first
      obtain ⟨d, after, chain⟩ := nonempty seg nonnull
      rw [chain] at seg
      exact ⟨[], d, after, chain, seg⟩
  | @next a _ _ cell nonnull ih =>
      obtain ⟨before, d, after, chain, -, n, at_a, -, rest⟩ := ih
      obtain rfl := Option.some.inj (at_a.symm.trans cell)
      obtain ⟨d', after', split⟩ := nonempty rest nonnull
      rw [split] at rest
      exact ⟨before ++ [(a, d)], d', after', by simp [chain, split, nodeLinks], rest⟩

theorem Holds.wellFormed (holds : Holds t chains) : t.WellFormed where
  hash_lt := by
    intro key
    apply calcHash_lt
    rw [holds.size]
    decide
  allocated := by
    intro i a on
    obtain ⟨before, d, after, chain, -⟩ := segment_of_onChain holds on
    have inside : (a, d) ∈ chains i := by simp [chain]
    obtain ⟨n, at_a, key_eq, -⟩ := holds.cell inside
    refine ⟨n, at_a, ?_⟩
    rw [holds.calcHash_eq, key_eq]
    exact holds.placed i _ inside
  reached := by
    intro a n at_a
    rw [holds.calcHash_eq]
    obtain ⟨head, at_bucket, -, seg⟩ := holds.bucket_eq (bucketOf_lt n.key)
    exact onChain_of_mem seg (fun nonnull => .head at_bucket nonnull) (holds.covered a n at_a)
  distinct := by
    intro a b n m at_a at_b same
    have inA := holds.covered a n at_a
    have inB := holds.covered b m at_b
    rw [← same] at inB
    have items := List.inj_on_of_nodup_map (holds.distinct (bucketOf n.key)) inA inB rfl
    exact congrArg Prod.fst items

end WellFormed

section Refinement

variable {t : PHashTable} {chains : Nat → List Item} {m : PPointer → Option PPointer} {fuel bound : Nat}
  {key value : PPointer}

/-- The table holds the pairs of a map, and no chain is longer than a bound. -/
structure Represents (t : PHashTable) (chains : Nat → List Item) (m : PPointer → Option PPointer)
    (bound : Nat) : Prop where
  holds : Holds t chains
  stored : ∀ key value, m key = some value ↔ ∃ a, (a, key, value) ∈ chains (bucketOf key)
  short : ∀ i, (chains i).length ≤ bound

theorem represents_new (created : zhashTableNew true true = some t) : Represents t (fun _ => []) (fun _ => none) 0 where
  holds := holds_new created
  stored := by simp
  short := by simp

theorem mem_middle {before after : List Item} {e : Item} {node : Addr} (other : e.2.1 ≠ key) :
    e ∈ before ++ (node, key, value) :: after ↔ e ∈ before ++ after := by
  have different : e ≠ (node, key, value) := by
    rintro rfl
    exact other rfl
  simp [different]

/-- Dropping a key from every chain drops it from the list of pairs. -/
theorem pairsOf_filter {chains' : Nat → List Item}
    (dropped : ∀ i, chains' i = (chains i).filter fun e => e.2.1 ≠ key) :
    pairsOf chains' = (pairsOf chains).filter fun p => p.1 ≠ key := by
  unfold pairsOf
  rw [List.filter_flatMap]
  congr 1
  funext i
  rw [dropped, List.filter_map]
  rfl

namespace Represents

theorem mono (rep : Represents t chains m bound) : Represents t chains m (bound + 1) where
  holds := rep.holds
  stored := rep.stored
  short := fun i => Nat.le_succ_of_le (rep.short i)

theorem cases (rep : Represents t chains m bound) (enough : bound < fuel) (key : PPointer) :
    Absent t chains fuel key ∨ ∃ before node n after, Present t chains fuel key before node n after :=
  absent_or_present rep.holds (Nat.lt_of_le_of_lt (rep.short _) enough)

theorem eq_none (rep : Represents t chains m bound) (absent : Absent t chains fuel key) : m key = none := by
  cases value : m key with
  | none => rfl
  | some v =>
      obtain ⟨a, inside⟩ := (rep.stored key v).mp value
      exact absurd rfl (absent.fresh _ inside)

theorem eq_some (rep : Represents t chains m bound) {before after : List Item} {node : Addr} {n : PHashTableNode}
    (present : Present t chains fuel key before node n after) : m key = some n.value := by
  rw [rep.stored key n.value, present.chain]
  exact ⟨node, by simp⟩

/-- A change to the chain of a key that concerns this key only. -/
theorem update (rep : Represents t chains m bound) {t' : PHashTable} {chain : List Item} {value? : Option PPointer}
    (holds : Holds t' (Function.update chains (bucketOf key) chain))
    (others : ∀ e : Item, e.2.1 ≠ key → (e ∈ chain ↔ e ∈ chains (bucketOf key)))
    (here : ∀ v, value? = some v ↔ ∃ a, (a, key, v) ∈ chain) (short : chain.length ≤ bound + 1) :
    Represents t' (Function.update chains (bucketOf key) chain) (Function.update m key value?) (bound + 1) where
  holds := holds
  stored := by
    intro k v
    by_cases same : k = key
    · subst same
      simp only [Function.update_self]
      exact here v
    · rw [Function.update_of_ne same, rep.stored]
      by_cases bucket : bucketOf k = bucketOf key
      · rw [bucket, Function.update_self]
        exact exists_congr fun a => (others (a, k, v) same).symm
      · rw [Function.update_of_ne bucket]
  short := by
    intro i
    by_cases same : i = bucketOf key
    · subst same
      simpa using short
    · rw [Function.update_of_ne same]
      exact Nat.le_succ_of_le (rep.short i)

theorem insert (rep : Represents t chains m bound) (enough : bound < fuel) (malloc : Option Allocator)
    (key value : PPointer) :
    ∃ t' chains', t.zhashTableInsert fuel malloc key value = .ok t' ∧
      Represents t' chains' (MapSpec.step (.insert malloc key value) m).2 (bound + 1) := by
  simp only [MapSpec.step]
  rcases rep.cases enough key with absent | ⟨before, node, n, after, present⟩
  · rw [rep.eq_none absent]
    cases malloc with
    | none => exact ⟨t, chains, insert_failed absent, by simpa using rep.mono⟩
    | some A =>
        obtain ⟨t', node, inserted, holds⟩ := insert_absent rep.holds absent A value
        refine ⟨t', Function.update chains (bucketOf key) ((node, key, value) :: chains (bucketOf key)), inserted, ?_⟩
        simp only [Option.isSome_some, true_or, if_true]
        apply rep.update holds
        case others =>
          intro e other
          rw [List.mem_cons, or_iff_right]
          rintro rfl
          exact other rfl
        case here =>
          intro v
          constructor
          · rintro ⟨rfl⟩
            exact ⟨node, List.mem_cons_self⟩
          · rintro ⟨a, inside⟩
            rcases List.mem_cons.mp inside with same | behind
            · cases same
              rfl
            · exact absurd rfl (absent.fresh _ behind)
        case short => simpa using rep.short _
  · rw [rep.eq_some present]
    obtain ⟨t', inserted, holds⟩ := insert_present rep.holds present malloc value
    refine ⟨t', Function.update chains (bucketOf key) (before ++ (node, key, value) :: after), inserted, ?_⟩
    simp only [Option.isSome_some, or_true, if_true]
    apply rep.update holds
    case others =>
      intro e other
      rw [present.chain, mem_middle other, mem_middle other]
    case here =>
      intro v
      constructor
      · rintro ⟨rfl⟩
        exact ⟨node, by simp⟩
      · rintro ⟨a, inside⟩
        simp only [List.mem_append, List.mem_cons] at inside
        rcases inside with inBefore | same | inAfter
        · exact absurd rfl (present.freshBefore _ inBefore)
        · cases same
          rfl
        · exact absurd rfl (present.freshAfter _ inAfter)
    case short =>
      have short := rep.short (bucketOf key)
      rw [present.chain] at short
      simp at short ⊢
      omega

theorem remove (rep : Represents t chains m bound) (enough : bound < fuel) (key : PPointer) :
    ∃ t' chains', t.zhashTableRemove fuel key = .ok t' ∧
      Represents t' chains' (Function.update m key none) (bound + 1) ∧
      pairsOf chains' = (pairsOf chains).filter fun p => p.1 ≠ key := by
  rcases rep.cases enough key with absent | ⟨before, node, n, after, present⟩
  · refine ⟨t, chains, remove_absent absent, ?_, ?_⟩
    · rw [← rep.eq_none absent, Function.update_eq_self]
      exact rep.mono
    · apply pairsOf_filter
      intro i
      rw [List.filter_eq_self.mpr]
      intro e inside
      rw [decide_eq_true_iff]
      rintro rfl
      exact absent.fresh e (rep.holds.placed i e inside ▸ inside) rfl
  · have enough' : (chains (bucketOf key)).length < fuel := Nat.lt_of_le_of_lt (rep.short _) enough
    obtain ⟨t', removed, holds⟩ := remove_present rep.holds present enough'
    refine ⟨t', Function.update chains (bucketOf key) (before ++ after), removed, ?_, ?_⟩
    · apply rep.update holds
      case others =>
        intro e other
        rw [present.chain, mem_middle other]
      case here =>
        intro v
        apply iff_of_false (Option.some_ne_none v ∘ Eq.symm)
        rintro ⟨a, inside⟩
        rcases List.mem_append.mp inside with inBefore | inAfter
        · exact present.freshBefore _ inBefore rfl
        · exact present.freshAfter _ inAfter rfl
      case short =>
        have short := rep.short (bucketOf key)
        rw [present.chain] at short
        simp at short ⊢
        omega
    · apply pairsOf_filter
      intro i
      by_cases here : i = bucketOf key
      · subst here
        have keepsBefore : before.filter (fun e => e.2.1 ≠ key) = before :=
          List.filter_eq_self.mpr (by simpa using present.freshBefore)
        have keepsAfter : after.filter (fun e => e.2.1 ≠ key) = after :=
          List.filter_eq_self.mpr (by simpa using present.freshAfter)
        rw [Function.update_self, present.chain, List.filter_append, List.filter_cons, keepsBefore, keepsAfter]
        simp
      · rw [Function.update_of_ne here, List.filter_eq_self.mpr]
        intro e inside
        rw [decide_eq_true_iff]
        rintro rfl
        exact here (rep.holds.placed i e inside).symm

theorem lookup (rep : Represents t chains m bound) (enough : bound < fuel) (key : PPointer) :
    t.zhashTableLookup fuel key = .ok ((m key).getD notFound) := by
  rcases rep.cases enough key with absent | ⟨before, node, n, after, present⟩
  · rw [lookup_absent absent, rep.eq_none absent]
    rfl
  · rw [lookup_present present, rep.eq_some present]
    rfl

end Represents

/-- One call follows the map. -/
theorem step_refines (rep : Represents t chains m bound) (enough : bound < fuel) (op : Op) :
    ∃ t' chains', t.step fuel op = .ok ((MapSpec.step op m).1, t') ∧
      Represents t' chains' (MapSpec.step op m).2 (bound + 1) := by
  cases op with
  | insert malloc key value =>
      obtain ⟨t', chains', inserted, rep'⟩ := rep.insert enough malloc key value
      exact ⟨t', chains', by rw [PHashTable.step, inserted]; rfl, rep'⟩
  | remove key =>
      obtain ⟨t', chains', removed, rep', -⟩ := rep.remove enough key
      exact ⟨t', chains', by rw [PHashTable.step, removed]; rfl, rep'⟩
  | lookup key => exact ⟨t, chains, by rw [PHashTable.step, rep.lookup enough]; rfl, rep.mono⟩

theorem run_refines (ops : List Op) (rep : Represents t chains m bound) (enough : bound + ops.length < fuel) :
    ∃ t' chains', t.run fuel ops = .ok ((MapSpec.run ops m).1, t') ∧
      Represents t' chains' (MapSpec.run ops m).2 (bound + ops.length) := by
  induction ops generalizing t chains m bound with
  | nil => exact ⟨t, chains, rfl, rep⟩
  | cons op ops ih =>
      rw [List.length_cons] at enough
      have now : bound < fuel := by omega
      have later : bound + 1 + ops.length < fuel := by omega
      obtain ⟨t', chains', stepped, rep'⟩ := step_refines rep now op
      obtain ⟨t'', chains'', ran, rep''⟩ := ih rep' later
      refine ⟨t'', chains'', ?_, ?_⟩
      · rw [PHashTable.run, stepped, Exec.ok_bind]
        simp only [ran]
        rfl
      · rw [List.length_cons, show bound + (ops.length + 1) = bound + 1 + ops.length by omega]
        exact rep''

end Refinement

/-- From a new table, every sequence of calls is answered like a map.  The table is well
    formed after it and lists the pairs of the map once each; removing a key drops its pair
    only, and an insertion that gets no memory changes nothing. -/
theorem hash_table_refines_map (ops : List Op) (fuel : Nat) (enough : ops.length < fuel) (start : PHashTable)
    (created : zhashTableNew true true = some start) :
    ∃ (t : PHashTable) (pairs : List (PPointer × PPointer)), start.run fuel ops = .ok (MapSpec.replies ops, t) ∧ t.WellFormed ∧
      (pairs.map Prod.fst).Nodup ∧
      (∀ key value, (key, value) ∈ pairs ↔ MapSpec.state ops key = some value) ∧
      (∀ key, t.zhashTableLookup fuel key = .ok ((MapSpec.state ops key).getD notFound)) ∧
      t.zhashTableKeys fuel (fun _ => true) = .ok (pairs.map Prod.fst) ∧
      t.zhashTableValues fuel (fun _ => true) = .ok (pairs.map Prod.snd) ∧
      (∀ val func, t.zhashTableLookuzbyValue fuel (fun _ => true) val func =
        .ok ((pairs.filter fun p => PHashTable.accepts func p.2 val).map Prod.fst)) ∧
      (∀ key, ∃ t', t.zhashTableRemove fuel key = .ok t' ∧
        t'.zhashTableKeys (fuel + 1) (fun _ => true) = .ok ((pairs.filter fun p => p.1 ≠ key).map Prod.fst) ∧
        t'.zhashTableValues (fuel + 1) (fun _ => true) = .ok ((pairs.filter fun p => p.1 ≠ key).map Prod.snd)) ∧
      ∀ key value, MapSpec.state ops key = none → t.zhashTableInsert fuel none key value = .ok t := by
  have within : 0 + ops.length < fuel := by omega
  obtain ⟨t, chains, ran, rep⟩ := run_refines ops (represents_new created) within
  have short : ∀ i, (chains i).length < fuel := by
    intro i
    have bounded := rep.short i
    omega
  refine ⟨t, pairsOf chains, ran, rep.holds.wellFormed, nodup_pairsOf rep.holds, ?_, ?_, ?_, ?_, ?_, ?_, ?_⟩
  · intro key value
    rw [mem_pairsOf rep.holds, MapSpec.state, rep.stored]
  · exact rep.lookup within
  · rw [keys_eq rep.holds short, allocatedFrom_enough]
  · rw [values_eq rep.holds short, allocatedFrom_enough]
  · intro val func
    rw [lookuzbyValue_eq rep.holds short, allocatedFrom_enough]
  · intro key
    obtain ⟨t', chains', removed, rep', dropped⟩ := rep.remove within key
    have short' : ∀ i, (chains' i).length < fuel + 1 := by
      intro i
      have bounded := rep'.short i
      omega
    refine ⟨t', removed, ?_, ?_⟩
    · rw [keys_eq rep'.holds short', allocatedFrom_enough, dropped]
    · rw [values_eq rep'.holds short', allocatedFrom_enough, dropped]
  · intro key value absent
    rcases rep.cases within key with free | ⟨before, node, n, after, present⟩
    · exact insert_failed free
    · have stored := rep.eq_some present
      rw [show (MapSpec.run ops fun _ => none).2 = MapSpec.state ops from rfl, absent] at stored
      cases stored

/-- Two keys that differ in the upper half share a chain. -/
theorem hash_table_refines_map_collision :
    ∃ (t start : PHashTable), zhashTableNew true true = some start ∧
      start.run 7 [.insert (some .bump) 1 10, .insert (some .bump) 0x100000001 20, .insert none 5 50,
          .insert none 1 11, .lookup 1, .remove 0x100000001] =
        .ok ([.done, .done, .done, .done, .found 11, .done], t) ∧
      t.zhashTableLookup 7 0x100000001 = .ok notFound ∧ t.zhashTableLookup 7 1 = .ok 11 := by
  obtain ⟨t, pairs, ran, -, -, -, found, -⟩ := hash_table_refines_map
    [.insert (some .bump) 1 10, .insert (some .bump) 0x100000001 20, .insert none 5 50,
      .insert none 1 11, .lookup 1, .remove 0x100000001] 7 (by decide) _ rfl
  refine ⟨t, _, rfl, ran, ?_, ?_⟩
  · rw [found]
    decide +kernel
  · rw [found]
    decide +kernel

end Plibsys.HashTable
