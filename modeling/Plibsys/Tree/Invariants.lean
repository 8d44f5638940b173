import Plibsys.Tree.MapRefinement

/-! # Invariants of the balanced trees over whole runs

The node functions of the red-black and AVL trees, called in any order from the empty
tree.  A run that ends in `.ok` has dereferenced allocated nodes only.
-/

namespace Plibsys.Tree

open Support

/-- A call of `insert_node_func` or `remove_node_func`. -/
inductive NodeCall where
  | insert (malloc : Option Allocator) (key value : PPointer)
  | remove (key : PPointer)

namespace NodeFuncs

variable {X T : Type}

def call (F : NodeFuncs X) (fuel : Nat) (cb : Callbacks) (c : NodeCall) (st : TreeState X) :
    Exec (TreeState X) :=
  match c with
  | .insert malloc key value => do
      let (_, st) ← F.insert fuel cb malloc key value st
      pure st
  | .remove key => do
      let (_, st) ← F.remove fuel cb key st
      pure st

def run (F : NodeFuncs X) (fuel : Nat) (cb : Callbacks) : List NodeCall → TreeState X → Exec (TreeState X)
  | [], st => pure st
  | c :: calls, st => do
      let st ← F.call fuel cb c st
      F.run fuel cb calls st

variable [NodeExt X T] {F : NodeFuncs X} {Inv : LTree PPointer PPointer T → Prop}
variable {cb : Callbacks} {st : TreeState X} {t : LTree PPointer PPointer T} {fuel : Nat}

theorem call_correct (correct : F.Correct Inv) (order : SignOrder cb.compare) (holds : st.Holds t)
    (ordered : t.Ordered cb.compare) (inv : Inv t) (c : NodeCall) (enough : t.size + 1 < fuel) :
    ∃ st' t', F.call fuel cb c st = .ok st' ∧ st'.Holds t' ∧ Inv t' ∧ t'.Ordered cb.compare ∧
      t'.size ≤ t.size + 1 := by
  cases c with
  | insert malloc key value =>
      obtain ⟨result, st', t', ran, holds', inv', effect⟩ :=
        correct.insert malloc key value order holds ordered inv enough
      obtain ⟨map, count⟩ := PTree.entries_insert rfl effect
      refine ⟨st', t', by rw [call, ran]; rfl, holds', inv', ?_, ?_⟩
      · rw [LTree.Ordered, map]
        exact MapSpec.sorted_step order ordered _
      · rw [LTree.length_entries, LTree.length_entries] at count
        split at count <;> omega
  | remove key =>
      obtain ⟨result, st', t', ran, holds', inv', effect⟩ :=
        correct.remove key order holds ordered inv enough
      obtain ⟨map, count⟩ := PTree.entries_remove rfl effect
      refine ⟨st', t', by rw [call, ran]; rfl, holds', inv', ?_, ?_⟩
      · rw [LTree.Ordered, show t'.entries = _ from congrArg Prod.snd map]
        exact MapSpec.sorted_step order ordered _
      · rw [LTree.length_entries, LTree.length_entries] at count
        split at count <;> omega

/-- What every call keeps holds after every run. -/
theorem run_correct (correct : F.Correct Inv) (order : SignOrder cb.compare) (calls : List NodeCall)
    (holds : st.Holds t) (ordered : t.Ordered cb.compare) (inv : Inv t)
    (enough : t.size + calls.length + 1 < fuel) :
    ∃ st' t', F.run fuel cb calls st = .ok st' ∧ st'.Holds t' ∧ Inv t' ∧ t'.Ordered cb.compare := by
  induction calls generalizing st t with
  | nil => exact ⟨st, t, rfl, holds, inv, ordered⟩
  | cons c calls ih =>
      rw [List.length_cons] at enough
      obtain ⟨st₁, t₁, called, holds₁, inv₁, ordered₁, size⟩ :=
        call_correct correct order holds ordered inv c (show t.size + 1 < fuel by omega)
      obtain ⟨st', t', ran, after⟩ := ih holds₁ ordered₁ inv₁ (by omega)
      refine ⟨st', t', ?_, after⟩
      rw [run, called]
      exact ran

end NodeFuncs

section Parents

variable {T : Type}

/-- The parent links are the inverse of the left and right links. -/
structure ParentsInvert (st : TreeState (UpLink T)) : Prop where
  root : st.root ≠ 0 → ∃ n, st.heap.cell st.root = some n ∧ n.ext.parent = 0
  down : ∀ a n d, st.heap.cell a = some n → n.child d ≠ 0 →
    ∃ m, st.heap.cell (n.child d) = some m ∧ m.ext.parent = a
  up : ∀ a n, st.heap.cell a = some n → n.ext.parent ≠ 0 →
    ∃ m d, st.heap.cell n.ext.parent = some m ∧ m.child d = a
  top : ∀ a n, st.heap.cell a = some n → n.ext.parent = 0 → a = st.root

/-- Every address of a tree is that of a node below some path. -/
theorem exists_path {K V : Type} {t : LTree K V T} {a : Addr} (member : a ∈ t.addrs) :
    ∃ c l q r, t = Path.plug c (.node l q r) ∧ q.addr = a := by
  induction t with
  | nil => simp at member
  | node l q r ihl ihr =>
      rw [LTree.addrs_node, List.mem_append, List.mem_cons] at member
      rcases member with member | rfl | member
      · obtain ⟨c, l', q', r', rfl, addr⟩ := ihl member
        exact ⟨c ++ [⟨.left, q, r⟩], l', q', r', by rw [Path.plug_append]; rfl, addr⟩
      · exact ⟨[], l, q, r, rfl, rfl⟩
      · obtain ⟨c, l', q', r', rfl, addr⟩ := ihr member
        exact ⟨c ++ [⟨.right, q, l⟩], l', q', r', by rw [Path.plug_append]; rfl, addr⟩

/-- A cell of the state is the cell of a node of the tree it holds. -/
theorem exists_node {st : TreeState (UpLink T)} {t : LTree PPointer PPointer T} (holds : st.Holds t)
    {a : Addr} {n : Node PPointer PPointer (UpLink T)} (cell : st.heap.cell a = some n) :
    ∃ c l q r, t = Path.plug c (.node l q r) ∧ q.addr = a ∧
      n = q.cell .left l.addr r.addr (Path.top c) := by
  have member : a ∈ t.addrs := by
    by_contra off
    rw [Support.Holds.beside holds a off] at cell
    cases cell
  obtain ⟨c, l, q, r, rfl, rfl⟩ := exists_path member
  have stored := Support.Holds.cell (d := .left) (c := c) holds
  exact ⟨c, l, q, r, rfl, rfl, Option.some.inj (cell.symm.trans stored)⟩

theorem child_of_holds {st : TreeState (UpLink T)} {c : Path PPointer PPointer T} {d : Side}
    {q : Label PPointer PPointer T} {near far : LTree PPointer PPointer T}
    (holds : st.Holds (c.plug (.branch d q near far))) (live : near.addr ≠ 0) :
    ∃ m, st.heap.cell near.addr = some m ∧ m.ext.parent = q.addr := by
  cases near with
  | nil => exact absurd rfl live
  | node l x r =>
      exact ⟨_, Support.Holds.cell (d := .left) (c := ⟨d, q, far⟩ :: c) holds, rfl⟩

theorem parentsInvert_of_holds {st : TreeState (UpLink T)} {t : LTree PPointer PPointer T}
    (holds : st.Holds t) : ParentsInvert st where
  root := by
    intro live
    rw [show st.root = t.addr from Support.Holds.root_eq holds] at live ⊢
    cases t with
    | nil => exact absurd rfl live
    | node l q r => exact ⟨_, Support.Holds.cell (d := .left) (c := []) holds, rfl⟩
  down := by
    intro a n d cell live
    obtain ⟨c, l, q, r, rfl, rfl, rfl⟩ := exists_node holds cell
    cases d with
    | left => exact child_of_holds (d := .left) holds live
    | right => exact child_of_holds (d := .right) holds live
  up := by
    intro a n cell live
    obtain ⟨c, l, q, r, rfl, rfl, rfl⟩ := exists_node holds cell
    cases c with
    | nil => exact absurd rfl live
    | cons f c =>
        refine ⟨_, f.side, (Support.Holds.path holds).1, ?_⟩
        rw [Label.cell_child]
        rfl
  top := by
    intro a n cell null
    obtain ⟨c, l, q, r, rfl, rfl, rfl⟩ := exists_node holds cell
    have atRoot : c = [] := (TreeState.top_eq_zero_iff holds).mp null
    subst atRoot
    exact (Support.Holds.root_eq holds).symm

end Parents

/-- The tree of every prefix of a run, and the parent links. -/
theorem NodeFuncs.prefix_correct {T : Type} {F : NodeFuncs (UpLink T)}
    {Inv : LTree PPointer PPointer T → Prop} {cb : Callbacks} (correct : F.Correct Inv)
    (order : SignOrder cb.compare) (calls : List NodeCall) {fuel : Nat} (enough : calls.length + 2 ≤ fuel)
    (k : Nat) :
    ∃ st t, F.run fuel cb (calls.take k) TreeState.empty = .ok st ∧ st.Holds t ∧ Inv t ∧
      t.Ordered cb.compare ∧ ParentsInvert st := by
  have short : (calls.take k).length ≤ calls.length := List.length_take_le' k calls
  obtain ⟨st, t, ran, holds, inv, ordered⟩ := run_correct correct order (calls.take k)
    TreeState.holds_empty (LTree.ordered_nil _) correct.start
    (show 0 + (calls.take k).length + 1 < fuel by omega)
  exact ⟨st, t, ran, holds, inv, ordered, parentsInvert_of_holds holds⟩

section RedBlack

variable {K V : Type}

def NoRedRed : LTree K V Color → Prop
  | .nil => True
  | .node l q r =>
      (q.tag = .red → color l = .black ∧ color r = .black) ∧ NoRedRed l ∧ NoRedRed r

/-- The numbers of black nodes on the paths to the null links. -/
def blackCounts : LTree K V Color → List Nat
  | .nil => [0]
  | .node l q r => (blackCounts l ++ blackCounts r).map (· + if q.tag = .black then 1 else 0)

theorem noRedRed_of_graded {t : LTree K V Color} {n : Nat} (graded : Graded t n) : NoRedRed t := by
  induction t generalizing n with
  | nil => trivial
  | node l q r ihl ihr =>
      cases tag : q.tag with
      | red =>
          obtain ⟨blackL, blackR, gradedL, gradedR⟩ := (graded_red (d := .left) tag).mp graded
          exact ⟨fun _ => ⟨blackL, blackR⟩, ihl gradedL, ihr gradedR⟩
      | black =>
          obtain ⟨m, rfl, gradedL, gradedR⟩ := (graded_black (d := .left) tag).mp graded
          exact ⟨by simp [tag], ihl gradedL, ihr gradedR⟩

theorem blackCounts_of_graded {t : LTree K V Color} {n : Nat} (graded : Graded t n) :
    ∀ k ∈ blackCounts t, k = n := by
  induction t generalizing n with
  | nil => simpa [blackCounts] using graded.symm
  | node l q r ihl ihr =>
      simp only [blackCounts, List.mem_map, List.mem_append]
      rintro _ ⟨k, member, rfl⟩
      cases tag : q.tag with
      | red =>
          obtain ⟨-, -, gradedL, gradedR⟩ := (graded_red (d := .left) tag).mp graded
          rcases member with member | member
          · exact ihl gradedL k member
          · exact ihr gradedR k member
      | black =>
          obtain ⟨m, rfl, gradedL, gradedR⟩ := (graded_black (d := .left) tag).mp graded
          rcases member with member | member
          · rw [ihl gradedL k member]
            rfl
          · rw [ihr gradedR k member]
            rfl

/-- After every call of a run the red-black tree is well formed. -/
theorem rb_invariant_over_runs {cb : Callbacks} (order : SignOrder cb.compare) (calls : List NodeCall) :
    ∃ N, ∀ fuel ≥ N, ∀ k, ∃ st t,
      RbState.funcs.run fuel cb (calls.take k) TreeState.empty = .ok st ∧ st.Holds t ∧
      color t = .black ∧ NoRedRed t ∧ (∃ n, ∀ blacks ∈ blackCounts t, blacks = n) ∧
      t.Ordered cb.compare ∧ ParentsInvert st := by
  refine ⟨calls.length + 2, fun fuel enough k => ?_⟩
  obtain ⟨st, t, ran, holds, ⟨black, n, graded⟩, ordered, parents⟩ :=
    NodeFuncs.prefix_correct RbState.correct order calls enough k
  exact ⟨st, t, ran, holds, black, noRedRed_of_graded graded, ⟨n, blackCounts_of_graded graded⟩,
    ordered, parents⟩

theorem rb_invariant_over_runs_signed :
    ∃ N, ∀ fuel ≥ N, ∀ k, ∃ st t,
      RbState.funcs.run fuel ⟨signedCompare, true, true⟩
        (List.take k [.insert (some .bump) 2 20, .insert (some .bump) 1 10, .remove 2])
        TreeState.empty = .ok st ∧ st.Holds t ∧
      color t = .black ∧ NoRedRed t ∧ (∃ n, ∀ blacks ∈ blackCounts t, blacks = n) ∧
      t.Ordered signedCompare ∧ ParentsInvert st :=
  rb_invariant_over_runs signedCompare_order _

end RedBlack

section Avl

variable {K V : Type}

/-- Below every path, the node of a balanced tree stores the difference of heights. -/
theorem factor_of_balanced {t : LTree K V Int} (balanced : Balanced t) {c : Path K V Int}
    {l r : LTree K V Int} {q : Label K V Int} (below : t = c.plug (.node l q r)) :
    q.tag = (height l : Int) - height r ∧ (q.tag = -1 ∨ q.tag = 0 ∨ q.tag = 1) := by
  subst below
  obtain ⟨⟨-, -, stored, le, ge⟩, -⟩ := balanced_plug.mp balanced
  rw [Side.sign, Int.one_mul] at stored
  omega

/-- After every call of a run the AVL tree is balanced and its factors are right. -/
theorem avl_invariant_over_runs {cb : Callbacks} (order : SignOrder cb.compare) (calls : List NodeCall) :
    ∃ N, ∀ fuel ≥ N, ∀ k, ∃ st t,
      AvlState.funcs.run fuel cb (calls.take k) TreeState.empty = .ok st ∧ st.Holds t ∧
      (∀ c l q r, t = Path.plug c (.node l q r) →
        q.tag = (height l : Int) - height r ∧ (q.tag = -1 ∨ q.tag = 0 ∨ q.tag = 1)) ∧
      t.Ordered cb.compare ∧ ParentsInvert st := by
  refine ⟨calls.length + 2, fun fuel enough k => ?_⟩
  obtain ⟨st, t, ran, holds, balanced, ordered, parents⟩ :=
    NodeFuncs.prefix_correct AvlState.correct order calls enough k
  exact ⟨st, t, ran, holds, fun c l q r below => factor_of_balanced balanced below, ordered, parents⟩

theorem avl_invariant_over_runs_signed :
    ∃ N, ∀ fuel ≥ N, ∀ k, ∃ st t,
      AvlState.funcs.run fuel ⟨signedCompare, true, true⟩
        (List.take k [.insert (some .bump) 2 20, .insert (some .bump) 1 10, .remove 2])
        TreeState.empty = .ok st ∧ st.Holds t ∧
      (∀ c l q r, t = Path.plug c (.node l q r) →
        q.tag = (height l : Int) - height r ∧ (q.tag = -1 ∨ q.tag = 0 ∨ q.tag = 1)) ∧
      t.Ordered signedCompare ∧ ParentsInvert st :=
  avl_invariant_over_runs signedCompare_order _

end Avl

end Plibsys.Tree
