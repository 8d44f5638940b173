import Plibsys.Tree.Walks

/-! # Trees refine ordered maps

`MapSpec` runs the calls of the tree interface on a list of entries in strictly
increasing key order.  A tree of any type answers a sequence of calls with the same
replies.
-/

namespace Plibsys.Tree

open Support

/-- A call on a tree.  An insertion comes with the allocator that serves it, or with
    none when the allocation fails. -/
inductive Op where
  | insert (malloc : Option Allocator) (key value : PPointer)
  | remove (key : PPointer)
  | lookup (key : PPointer)
  | clear
  | getNnodes
  | foreach (traverse : PTraverseFunc)

/-- What the caller gets to see. -/
inductive Reply where
  | done
  | removed (present : Bool)
  | found (value : PPointer)
  | count (nnodes : Int)
  | visited (calls : List (PPointer × PPointer))
  deriving Repr, DecidableEq

namespace PTree

variable {X : Type}

def step (fuel : Nat) (op : Op) (tree : PTree X) : Exec (Reply × PTree X) :=
  match op with
  | .insert malloc key value => do
      let tree ← tree.ztreeInsert fuel malloc key value
      pure (.done, tree)
  | .remove key => do
      let (present, tree) ← tree.ztreeRemove fuel key
      pure (.removed present, tree)
  | .lookup key => do
      let value ← tree.ztreeLookup fuel key
      pure (.found value, tree)
  | .clear => do
      let tree ← tree.ztreeClear fuel
      pure (.done, tree)
  | .getNnodes => pure (.count tree.ztreeGetNnodes, tree)
  | .foreach traverse => do
      let (calls, tree) ← tree.ztreeForeach fuel traverse
      pure (.visited calls, tree)

def run (fuel : Nat) : List Op → PTree X → Exec (List Reply × PTree X)
  | [], tree => pure ([], tree)
  | op :: ops, tree => do
      let (reply, tree) ← tree.step fuel op
      let (replies, tree) ← tree.run fuel ops
      pure (reply :: replies, tree)

end PTree

namespace MapSpec

variable (compare : PPointer → PPointer → Int)

/-- One call on an ordered map. -/
def step (op : Op) (m : List (PPointer × PPointer)) : Reply × List (PPointer × PPointer) :=
  match op with
  | .insert malloc key value =>
      (.done, if malloc.isSome ∨ (OrderedMap.find compare key m).isSome
        then OrderedMap.insert compare key value m else m)
  | .remove key => (.removed (OrderedMap.find compare key m).isSome, OrderedMap.erase compare key m)
  | .lookup key => (.found ((OrderedMap.find compare key m).elim 0 Prod.snd), m)
  | .clear => (.done, [])
  | .getNnodes => (.count m.length, m)
  | .foreach traverse => (.visited (PTree.visitedFrom traverse [] m), m)

def run : List Op → List (PPointer × PPointer) → List Reply × List (PPointer × PPointer)
  | [], m => ([], m)
  | op :: ops, m => ((step compare op m).1 :: (run ops (step compare op m).2).1,
      (run ops (step compare op m).2).2)

/-- The replies to a sequence of calls on a new map. -/
def replies (ops : List Op) : List Reply := (run compare ops []).1

/-- The entries after a sequence of calls on a new map. -/
def state (ops : List Op) : List (PPointer × PPointer) := (run compare ops []).2

/-- What a call does to the pair that the map holds for `key`. -/
def pairAfter (key : PPointer) (pair : Option (PPointer × PPointer)) : Op → Option (PPointer × PPointer)
  | .insert malloc k v =>
      if compare key k = 0 ∧ (malloc.isSome ∨ pair.isSome) then some (k, v) else pair
  | .remove k => if compare key k = 0 then none else pair
  | .clear => none
  | _ => pair

/-- The pair of the last insertion of a key equal to `key` that was not removed or
    cleared afterwards.  A failed allocation does not count as an insertion. -/
def lastPair (key : PPointer) (ops : List Op) : Option (PPointer × PPointer) :=
  ops.foldl (pairAfter compare key) none

/-- No prefix of the calls leaves `2 ^ 31` entries or more. -/
def Small (ops : List Op) : Prop := ∀ k, (state compare (ops.take k)).length < 2 ^ 31

variable {compare}

theorem run_append (first second : List Op) (m : List (PPointer × PPointer)) :
    run compare (first ++ second) m =
      ((run compare first m).1 ++ (run compare second (run compare first m).2).1,
        (run compare second (run compare first m).2).2) := by
  induction first generalizing m with
  | nil => rfl
  | cons op first ih => simp [run, ih]

theorem state_snoc (ops : List Op) (op : Op) :
    state compare (ops ++ [op]) = (step compare op (state compare ops)).2 := by
  rw [state, run_append]
  rfl

theorem sorted_step (order : SignOrder compare) {m : List (PPointer × PPointer)}
    (sorted : OrderedMap.Sorted compare m) (op : Op) :
    OrderedMap.Sorted compare (step compare op m).2 := by
  cases op with
  | insert malloc key value =>
      simp only [step]
      split
      · exact sorted.insert order key value
      · exact sorted
  | remove key => exact sorted.erase key
  | lookup key => exact sorted
  | clear => exact List.Pairwise.nil
  | getNnodes => exact sorted
  | foreach traverse => exact sorted

theorem find_step (order : SignOrder compare) (key : PPointer) (op : Op)
    (m : List (PPointer × PPointer)) :
    OrderedMap.find compare key (step compare op m).2 =
      pairAfter compare key (OrderedMap.find compare key m) op := by
  cases op with
  | insert malloc k v =>
      simp only [step, pairAfter]
      by_cases equal : compare key k = 0
      · rw [OrderedMap.find_congr order equal, OrderedMap.find_congr order equal m,
          apply_ite (OrderedMap.find compare k), OrderedMap.find_insert order, if_pos ((order.eq_congr equal).mp equal)]
        simp [equal]
      · rw [apply_ite (OrderedMap.find compare key), OrderedMap.find_insert order, if_neg equal, ite_self]
        simp [equal]
  | remove k => exact OrderedMap.find_erase order key k m
  | lookup k => rfl
  | clear => rfl
  | getNnodes => rfl
  | foreach traverse => rfl

theorem sorted_state (order : SignOrder compare) (ops : List Op) :
    OrderedMap.Sorted compare (state compare ops) := by
  have general : ∀ m, OrderedMap.Sorted compare m → OrderedMap.Sorted compare (run compare ops m).2 := by
    induction ops with
    | nil => exact fun m sorted => sorted
    | cons op ops ih => exact fun m sorted => ih _ (sorted_step order sorted op)
  exact general [] List.Pairwise.nil

theorem find_state (order : SignOrder compare) (key : PPointer) (ops : List Op) :
    OrderedMap.find compare key (state compare ops) = lastPair compare key ops := by
  have general : ∀ m, OrderedMap.find compare key (run compare ops m).2 =
      ops.foldl (pairAfter compare key) (OrderedMap.find compare key m) := by
    induction ops with
    | nil => exact fun m => rfl
    | cons op ops ih =>
        intro m
        rw [run, ih, find_step order, List.foldl_cons]
  exact general []

theorem length_step (compare : PPointer → PPointer → Int) (op : Op) (m : List (PPointer × PPointer)) :
    (step compare op m).2.length ≤ m.length + 1 := by
  cases op with
  | insert malloc key value =>
      have grows : (OrderedMap.insert compare key value m).length ≤ m.length + 1 := by
        induction m with
        | nil => simp [OrderedMap.insert]
        | cons e m ih =>
            rw [OrderedMap.insert]
            split
            · simp
            · split <;> simp [ih]
      simp only [step]
      split
      · exact grows
      · omega
  | remove key => exact Nat.le_succ_of_le (List.length_filter_le _ _)
  | lookup key => exact Nat.le_succ _
  | clear => exact Nat.zero_le _
  | getNnodes => exact Nat.le_succ _
  | foreach traverse => exact Nat.le_succ _

/-- A run cannot leave more entries than it has calls. -/
theorem small_of_length (compare : PPointer → PPointer → Int) {ops : List Op}
    (short : ops.length < 2 ^ 31) : Small compare ops := by
  have general : ∀ (ops : List Op) m, (run compare ops m).2.length ≤ m.length + ops.length := by
    intro ops
    induction ops with
    | nil => exact fun m => Nat.le_refl _
    | cons op ops ih =>
        intro m
        have tail := ih (step compare op m).2
        have head := length_step compare op m
        simp only [run, List.length_cons]
        omega
  intro k
  have bound := general (ops.take k) []
  rw [List.length_nil, List.length_take] at bound
  rw [state]
  omega

end MapSpec

namespace PTree

variable {X T : Type} [NodeExt X T] {Inv : LTree PPointer PPointer T → Prop}
variable {tree : PTree X} {m : List (PPointer × PPointer)} {fuel : Nat}

/-- The tree holds the entries `m`, by node functions that keep `Inv`. -/
structure Represents (Inv : LTree PPointer PPointer T → Prop) (compare : PPointer → PPointer → Int)
    (tree : PTree X) (m : List (PPointer × PPointer)) : Prop where
  correct : tree.nodeFuncs.Correct Inv
  order : SignOrder compare
  compare_eq : tree.cb.compare = compare
  nodes : ∃ t, tree.nodes.Holds t ∧ Inv t ∧ t.entries = m
  sorted : OrderedMap.Sorted compare m
  nnodes : tree.nnodes = BitVec.ofNat 32 m.length

variable {compare : PPointer → PPointer → Int} {m' : List (PPointer × PPointer)}
variable {trace trace' : List Event} {key value : PPointer} {result : Bool} {cb : Callbacks}

/-- The entries after an insertion are those of the abstract map. -/
theorem entries_insert {malloc : Option Allocator} (same : cb.compare = compare)
    (effect : InsertEffect cb key value malloc.isSome m trace result m' trace') :
    m' = (MapSpec.step compare (.insert malloc key value) m).2 ∧
      m'.length = if result then m.length + 1 else m.length := by
  subst same
  cases effect with
  | replaced split equal between =>
      subst split
      simp [MapSpec.step, OrderedMap.find_present between equal,
        OrderedMap.insert_present between equal]
  | added split between success =>
      subst split
      simp only [MapSpec.step, success, OrderedMap.insert_absent between, true_or, if_true, true_and]
      simp only [List.length_append, List.length_cons]
      omega
  | failed split between failure =>
      subst split
      simp [MapSpec.step, failure, OrderedMap.find_absent between]

/-- The entries and the answer of a removal are those of the abstract map. -/
theorem entries_remove {inner : Prop} (same : cb.compare = compare)
    (effect : RemoveEffect cb key inner m trace result m' trace') :
    (.removed result, m') = MapSpec.step compare (.remove key) m ∧
      m.length = if result then m'.length + 1 else m'.length := by
  subst same
  cases effect with
  | absent split between =>
      subst split
      simp [MapSpec.step, OrderedMap.find_absent between, OrderedMap.erase_absent between]
  | removed split equal between own =>
      subst split
      simp only [MapSpec.step, OrderedMap.find_present between equal,
        OrderedMap.erase_present between equal, Option.isSome_some, true_and, if_true,
        List.length_append, List.length_cons]
      omega

theorem ztreeInsert_effect (represents : Represents Inv compare tree m) (malloc : Option Allocator)
    (key value : PPointer) (enough : m.length + 1 < fuel) :
    ∃ tree' result m', tree.ztreeInsert fuel malloc key value = .ok tree' ∧
      InsertEffect tree.cb key value malloc.isSome m tree.nodes.trace result m' tree'.nodes.trace ∧
      tree'.cb = tree.cb ∧ Represents Inv compare tree' m' := by
  obtain ⟨t, holds, inv, rfl⟩ := represents.nodes
  have order : SignOrder tree.cb.compare := represents.compare_eq ▸ represents.order
  have ordered : t.Ordered tree.cb.compare := represents.compare_eq ▸ represents.sorted
  rw [LTree.length_entries] at enough
  obtain ⟨result, nodes, t', ran, holds', inv', effect⟩ :=
    represents.correct.insert malloc key value order holds ordered inv enough
  obtain ⟨map, count⟩ := entries_insert represents.compare_eq effect
  refine ⟨{ tree with nodes := nodes, nnodes := if result then tree.nnodes + 1 else tree.nnodes },
    result, t'.entries, by rw [ztreeInsert, ran]; rfl, effect, rfl, ?_⟩
  exact {
    correct := represents.correct
    order := represents.order
    compare_eq := represents.compare_eq
    nodes := ⟨t', holds', inv', rfl⟩
    sorted := by
      rw [map]
      exact MapSpec.sorted_step represents.order represents.sorted _
    nnodes := by
      rw [count, represents.nnodes]
      cases result <;> simp [BitVec.ofNat_add] }

theorem ztreeRemove_effect (represents : Represents Inv compare tree m) (key : PPointer)
    (enough : m.length + 1 < fuel) :
    ∃ tree' result m' t, tree.ztreeRemove fuel key = .ok (result, tree') ∧ tree.nodes.Holds t ∧
      RemoveEffect tree.cb key (EndsInner tree.cb.compare key t) m tree.nodes.trace result m'
        tree'.nodes.trace ∧
      tree'.cb = tree.cb ∧ Represents Inv compare tree' m' := by
  obtain ⟨t, holds, inv, rfl⟩ := represents.nodes
  have order : SignOrder tree.cb.compare := represents.compare_eq ▸ represents.order
  have ordered : t.Ordered tree.cb.compare := represents.compare_eq ▸ represents.sorted
  rw [LTree.length_entries] at enough
  by_cases empty : tree.nodes.root = 0
  · have isNil : t = .nil := by
      rw [← TreeState.addr_eq_zero_iff (c := []) holds, ← empty]
      exact (Support.Holds.root_eq holds).symm
    subst isNil
    refine ⟨tree, false, [], .nil, by simp [ztreeRemove, empty], holds, ?_, rfl, represents⟩
    have noEntries : OrderedMap.Between tree.cb.compare key ([] : List (PPointer × PPointer)) [] :=
      ⟨by simp, by simp⟩
    exact .absent rfl noEntries
  · obtain ⟨result, nodes, t', ran, holds', inv', effect⟩ :=
      represents.correct.remove key order holds ordered inv enough
    obtain ⟨map, count⟩ := entries_remove represents.compare_eq effect
    refine ⟨{ tree with nodes := nodes, nnodes := if result then tree.nnodes - 1 else tree.nnodes },
      result, t'.entries, t, by rw [ztreeRemove, if_neg empty, ran]; rfl, holds, effect, rfl, ?_⟩
    exact {
      correct := represents.correct
      order := represents.order
      compare_eq := represents.compare_eq
      nodes := ⟨t', holds', inv', rfl⟩
      sorted := by
        have eq : t'.entries = (MapSpec.step compare (.remove key) t.entries).2 := congrArg Prod.snd map
        rw [eq]
        exact MapSpec.sorted_step represents.order represents.sorted _
      nnodes := by
        rw [represents.nnodes, count]
        cases result with
        | true =>
            rw [if_pos rfl, if_pos rfl, BitVec.ofNat_add]
            exact BitVec.add_sub_cancel _ _
        | false => rfl }

theorem ztreeClear_effect (represents : Represents Inv compare tree m) (enough : 2 * m.length < fuel) :
    ∃ tree' t, tree.ztreeClear fuel = .ok tree' ∧ tree.nodes.Holds t ∧ t.entries = m ∧
      tree'.nodes.trace = tree.nodes.trace ++ clearEvents tree.cb t ∧ tree'.cb = tree.cb ∧
      Represents Inv compare tree' [] := by
  obtain ⟨t, holds, inv, rfl⟩ := represents.nodes
  rw [LTree.length_entries] at enough
  obtain ⟨tree', ran, funcs, cb, holds', trace, count⟩ := ztreeClear_eq holds enough
  refine ⟨tree', t, ran, holds, rfl, trace, cb, ?_⟩
  exact {
    correct := funcs ▸ represents.correct
    order := represents.order
    compare_eq := cb ▸ represents.compare_eq
    nodes := ⟨.nil, holds', represents.correct.start, rfl⟩
    sorted := List.Pairwise.nil
    nnodes := by
      rw [count, represents.nnodes, LTree.length_entries]
      simp }

theorem ztreeLookup_eq (represents : Represents Inv compare tree m) (key : PPointer)
    (enough : m.length < fuel) :
    tree.ztreeLookup fuel key = .ok ((OrderedMap.find compare key m).elim 0 Prod.snd) := by
  obtain ⟨t, holds, inv, rfl⟩ := represents.nodes
  have order := represents.order
  have ordered : t.Ordered compare := represents.sorted
  rw [LTree.length_entries] at enough
  have found := TreeState.findNode_descend (c := []) tree.cb.compare key holds enough
  rw [represents.compare_eq, ← show tree.nodes.root = t.addr from Support.Holds.root_eq holds] at found
  have located := t.located_descend compare key
  generalize (t.descend compare key []).1 = c, (t.descend compare key []).2 = s at located found
  have holdsFound : tree.nodes.Holds (c.plug s) := located.plugged ▸ holds
  have plugged := located.plugged
  subst plugged
  rcases located.stop with rfl | ⟨l, q, r, rfl, equal⟩
  · have between := located.toward.between order ordered
    rw [ztreeLookup, represents.compare_eq, found, Path.entries_plug, LTree.entries_nil, List.nil_append,
      OrderedMap.find_absent between]
    rfl
  · have between := located.toward.between_node order ordered equal
    have nonnull : q.addr ≠ 0 := Support.Holds.nonnull (d := .left) holdsFound
    have loaded := TreeState.load_focus (d := .left) holdsFound
    rw [Path.entries_plug_node, show q.entry = (q.key, q.value) from rfl,
      OrderedMap.find_present between equal]
    simp [ztreeLookup, represents.compare_eq, found, nonnull, loaded]

/-- One call on a tree is the call on the map it represents. -/
theorem step_refines (represents : Represents Inv compare tree m) (op : Op) (small : m.length < 2 ^ 31)
    (enough : 2 * m.length + 2 ≤ fuel) :
    ∃ tree', tree.step fuel op = .ok ((MapSpec.step compare op m).1, tree') ∧ tree'.cb = tree.cb ∧
      Represents Inv compare tree' (MapSpec.step compare op m).2 := by
  cases op with
  | insert malloc key value =>
      obtain ⟨tree', result, m', ran, effect, cb, represents'⟩ :=
        ztreeInsert_effect represents malloc key value (show m.length + 1 < fuel by omega)
      rw [(entries_insert represents.compare_eq effect).1] at represents'
      exact ⟨tree', by rw [step, ran]; rfl, cb, represents'⟩
  | remove key =>
      obtain ⟨tree', result, m', t, ran, -, effect, cb, represents'⟩ :=
        ztreeRemove_effect represents key (show m.length + 1 < fuel by omega)
      have same := (entries_remove represents.compare_eq effect).1
      refine ⟨tree', ?_, cb, ?_⟩
      · rw [step, ran, ← same]
        rfl
      · rwa [← same]
  | lookup key =>
      have ran := ztreeLookup_eq represents key (show m.length < fuel by omega)
      exact ⟨tree, by rw [step, ran]; rfl, rfl, represents⟩
  | clear =>
      obtain ⟨tree', t, ran, -, -, -, cb, represents'⟩ :=
        ztreeClear_effect represents (show 2 * m.length < fuel by omega)
      exact ⟨tree', by rw [step, ran]; rfl, cb, represents'⟩
  | getNnodes =>
      refine ⟨tree, ?_, rfl, represents⟩
      have count : tree.nnodes.toInt = m.length := by
        have exact : (BitVec.ofNat 32 m.length).toNat = m.length := by
          rw [BitVec.toNat_ofNat, Nat.mod_eq_of_lt (by omega)]
        rw [represents.nnodes, BitVec.toInt_eq_toNat_of_lt (by omega), exact]
      rw [step, ztreeGetNnodes, count]
      rfl
  | foreach traverse =>
      obtain ⟨t, holds, -, rfl⟩ := represents.nodes
      rw [LTree.length_entries] at small enough
      have ran : tree.ztreeForeach fuel traverse = _ := ztreeForeach_eq holds (by omega) (by omega)
      exact ⟨tree, by rw [step, ran]; rfl, rfl, represents⟩

theorem run_refines (ops : List Op) (represents : Represents Inv compare tree m)
    (small : ∀ k, (MapSpec.run compare (ops.take k) m).2.length < 2 ^ 31)
    (enough : 2 * (m.length + ops.length) + 2 ≤ fuel) :
    ∃ tree', tree.run fuel ops = .ok ((MapSpec.run compare ops m).1, tree') ∧
      Represents Inv compare tree' (MapSpec.run compare ops m).2 := by
  induction ops generalizing tree m with
  | nil => exact ⟨tree, rfl, represents⟩
  | cons op ops ih =>
      rw [List.length_cons] at enough
      obtain ⟨tree₁, stepped, -, represents₁⟩ :=
        step_refines represents op (small 0) (show 2 * m.length + 2 ≤ fuel by omega)
      have grows := MapSpec.length_step compare op m
      obtain ⟨tree₂, ran, represents₂⟩ := ih represents₁ (fun k => small (k + 1)) (by omega)
      refine ⟨tree₂, ?_, represents₂⟩
      rw [run, stepped]
      simp only [Exec.ok_bind, ran]
      rfl

end PTree

namespace PTreeType

/-- The tags of the nodes of a type. -/
def Tag : PTreeType → Type
  | .binary => Unit
  | .rb => Color
  | .avl => Int

instance (type : PTreeType) : NodeExt type.Ext type.Tag :=
  match type with
  | .binary => inferInstanceAs (NodeExt Unit Unit)
  | .rb => inferInstanceAs (NodeExt (UpLink Color) Color)
  | .avl => inferInstanceAs (NodeExt (UpLink Int) Int)

/-- The invariant that the node functions of a type keep. -/
def Inv : (type : PTreeType) → LTree PPointer PPointer type.Tag → Prop
  | .binary => fun _ => True
  | .rb => fun t => RedBlack (K := PPointer) (V := PPointer) t
  | .avl => fun t => Balanced (K := PPointer) (V := PPointer) t

theorem correct (type : PTreeType) : type.funcs.Correct type.Inv := by
  cases type with
  | binary => exact BstState.correct
  | rb => exact RbState.correct
  | avl => exact AvlState.correct

end PTreeType

namespace PTree

variable {compare : PPointer → PPointer → Int}

theorem represents_new (order : SignOrder compare) {type : PTreeType} {keyDestroy valueDestroy : Bool}
    {tree : PTree type.Ext}
    (created : ztreeNewFull true type compare keyDestroy valueDestroy = some tree) :
    Represents type.Inv compare tree [] := by
  rw [ztreeNewFull, if_pos rfl, Option.some.injEq] at created
  subst created
  exact {
    correct := type.correct
    order := order
    compare_eq := rfl
    nodes := ⟨.nil, TreeState.holds_empty, type.correct.start, rfl⟩
    sorted := List.Pairwise.nil
    nnodes := rfl }

/-- Every type of tree answers every sequence of calls like the ordered map, whose
    entries are sorted and hold for each key what was inserted last. -/
theorem trees_refine_map (order : SignOrder compare) (ops : List Op)
    (small : MapSpec.Small compare ops) :
    (∀ type tree, ztreeNew true type compare = some tree →
      ∃ N, ∀ fuel ≥ N, ∃ tree', tree.run fuel ops = .ok (MapSpec.replies compare ops, tree')) ∧
    OrderedMap.Sorted compare (MapSpec.state compare ops) ∧
    (∀ key, OrderedMap.find compare key (MapSpec.state compare ops) = MapSpec.lastPair compare key ops) ∧
    (∀ malloc key value, (MapSpec.lastPair compare key ops).isSome →
      (MapSpec.state compare (ops ++ [.insert malloc key value])).length =
        (MapSpec.state compare ops).length) ∧
    (∀ key value, MapSpec.lastPair compare key ops = none →
      MapSpec.state compare (ops ++ [.insert none key value]) = MapSpec.state compare ops) := by
  refine ⟨?_, MapSpec.sorted_state order ops, fun key => MapSpec.find_state order key ops, ?_, ?_⟩
  · intro type tree created
    refine ⟨2 * ops.length + 2, fun fuel enough => ?_⟩
    obtain ⟨tree', ran, -⟩ := run_refines ops (represents_new order created) small
      (show 2 * (0 + ops.length) + 2 ≤ fuel by omega)
    exact ⟨tree', ran⟩
  · intro malloc key value present
    rw [MapSpec.state_snoc, MapSpec.step]
    rw [← MapSpec.find_state order] at present
    have sorted := MapSpec.sorted_state order ops
    rcases OrderedMap.split order key sorted with
      ⟨pre, post, eq, between⟩ | ⟨pre, k, v, post, eq, equal, between⟩
    · simp [eq, OrderedMap.find_absent between] at present
    · simp [eq, OrderedMap.find_present between equal, OrderedMap.insert_present between equal]
  · intro key value absent
    rw [← MapSpec.find_state order] at absent
    rw [MapSpec.state_snoc, MapSpec.step]
    simp [absent]

end PTree

/-- Keys compared as signed numbers. -/
def signedCompare (a b : PPointer) : Int := a.toInt - b.toInt

theorem signedCompare_order : SignOrder signedCompare where
  swap := by
    intro a b
    simp only [signedCompare]
    omega
  trans := by
    intro a b c
    simp only [signedCompare]
    omega

theorem trees_refine_map_signed :
    ∃ N, ∀ fuel ≥ N, ∃ tree',
      (⟨PTreeType.rb.funcs, ⟨signedCompare, false, false⟩, TreeState.empty, 0⟩ :
          PTree PTreeType.rb.Ext).run fuel
        [.insert (some .bump) 2 20, .insert (some .bump) 1 10, .insert none 3 30, .insert none 2 21,
          .lookup 2, .remove 3, .getNnodes, .foreach fun _ => false] =
      .ok ([.done, .done, .done, .done, .found 21, .removed false, .count 2,
        .visited [(1, 10), (2, 21)]], tree') :=
  (PTree.trees_refine_map signedCompare_order _
    (MapSpec.small_of_length signedCompare (by decide))).1 .rb _ rfl

end Plibsys.Tree
