import Plibsys.Tree.MapRefinement

/-! # What the walks promise

`ztree_foreach` offers the nodes in order until the callback answers `TRUE`, and leaves
every link as it found it.  `ztree_clear` destroys and frees the nodes in order, each
once; a run that ends in `.ok` has never accessed a node that was freed before.
-/

namespace Plibsys.Tree

open Support

/-- The nodes passed to `free_node_func`. -/
def freedNodes (trace : List Event) : List Addr :=
  trace.filterMap fun
    | .nodeFree node => some node
    | _ => none

namespace PTree

variable {X T : Type} {traverse : PTraverseFunc}

/-- The calls made are the offered entries up to the first answer `TRUE`. -/
theorem visitedFrom_eq_take (traverse : PTraverseFunc) (calls entries : List (PPointer × PPointer)) :
    ∃ m ≤ entries.length, visitedFrom traverse calls entries = calls ++ entries.take m ∧
      (∀ k, 0 < k → k < m → traverse (calls ++ entries.take k) = false) ∧
      (m < entries.length → 0 < m ∧ traverse (calls ++ entries.take m) = true) := by
  induction entries generalizing calls with
  | nil => exact ⟨0, Nat.le_refl 0, by simp [visitedFrom], by omega, by simp⟩
  | cons e entries ih =>
      rw [visitedFrom]
      by_cases stop : traverse (calls ++ [e]) = true
      · refine ⟨1, by simp, by simp [stop], by omega, fun _ => ⟨by omega, by simpa using stop⟩⟩
      · obtain ⟨m, le, eq, quiet, last⟩ := ih (calls ++ [e])
        refine ⟨m + 1, by simpa using le, by simp [stop, eq], ?_, ?_⟩
        · intro k _ before
          rcases k with _ | k
          · omega
          · rcases Nat.eq_zero_or_pos k with rfl | positive
            · simpa using stop
            · simpa using quiet k positive (by omega)
        · intro short
          rw [List.length_cons] at short
          refine ⟨by omega, ?_⟩
          simpa using (last (by omega)).2

/-- Whatever the callback answers, the calls are the nodes in order up to the first
    `TRUE`, and the tree is as it was. -/
theorem foreach_restores [NodeExt X T] {tree : PTree X} {t : LTree PPointer PPointer T}
    (holds : tree.nodes.Holds t) (counted : tree.nnodes.toInt = t.size) (traverse : PTraverseFunc) :
    ∃ N, ∀ fuel ≥ N, ∃ m ≤ t.size,
      tree.ztreeForeach fuel traverse = .ok (t.entries.take m, tree) ∧
      (∀ k, 0 < k → k < m → traverse (t.entries.take k) = false) ∧
      (m < t.size → 0 < m ∧ traverse (t.entries.take m) = true) := by
  have small : t.size < 2 ^ 32 := by
    have bound := BitVec.toInt_lt (x := tree.nnodes)
    omega
  obtain ⟨m, le, calls, quiet, last⟩ := visitedFrom_eq_take traverse [] t.entries
  rw [LTree.length_entries] at le last
  refine ⟨2 * t.size + 1, fun fuel enough => ⟨m, le, ?_, quiet, last⟩⟩
  rw [ztreeForeach_eq holds small (by omega), calls, List.nil_append]

theorem freedNodes_clearEvents (cb : Callbacks) (t : LTree PPointer PPointer T) :
    freedNodes (clearEvents cb t) = t.addrs := by
  rw [clearEvents, LTree.addrs]
  induction t.labels with
  | nil => rfl
  | cons q labels ih =>
      rw [List.flatMap_cons, List.map_cons, ← ih]
      have noNode : freedNodes (cb.destroy q.key q.value) = [] := by
        cases keys : cb.keyDestroy <;> cases values : cb.valueDestroy <;>
          simp [freedNodes, Callbacks.destroy, keys, values]
      simp only [freedNodes] at noNode ⊢
      simp [noNode]

/-- Clearing a tree destroys the pair of each node and frees the node, in order and each
    once, and leaves an empty tree. -/
theorem clear_frees_once [NodeExt X T] {tree : PTree X} {t : LTree PPointer PPointer T}
    (holds : tree.nodes.Holds t) :
    ∃ N, ∀ fuel ≥ N, ∃ tree', tree.ztreeClear fuel = .ok tree' ∧
      tree'.nodes.trace = tree.nodes.trace ++ clearEvents tree.cb t ∧
      freedNodes (clearEvents tree.cb t) = t.addrs ∧ t.addrs.Nodup ∧
      (∀ a, tree'.nodes.heap.cell a = none) ∧ tree'.nodes.root = 0 ∧
      (tree.nnodes = BitVec.ofNat 32 t.size → tree'.nnodes = 0) := by
  refine ⟨2 * t.size + 1, fun fuel enough => ?_⟩
  obtain ⟨tree', ran, -, -, empty, trace, count⟩ := ztreeClear_eq holds (show 2 * t.size < fuel by omega)
  refine ⟨tree', ran, trace, freedNodes_clearEvents tree.cb t, Support.Holds.distinct holds, ?_,
    Support.Holds.root_eq empty, ?_⟩
  · exact fun a => Support.Holds.beside empty a (by simp)
  · intro counted
    rw [count, counted]
    exact BitVec.sub_self _

/-- A red-black tree with the keys 1, 2 and 3. -/
theorem exists_three :
    ∃ (tree : PTree PTreeType.rb.Ext) (t : LTree PPointer PPointer PTreeType.rb.Tag),
      tree.nodes.Holds t ∧ t.entries = [(1, 10), (2, 20), (3, 30)] ∧ tree.nnodes = 3 := by
  obtain ⟨tree, -, represents⟩ := run_refines
    [.insert (some .bump) 2 20, .insert (some .bump) 1 10, .insert (some .bump) 3 30]
    (@represents_new signedCompare signedCompare_order .rb true true _ rfl)
    (MapSpec.small_of_length signedCompare (by decide)) (show 2 * (0 + 3) + 2 ≤ 20 by omega)
  obtain ⟨t, holds, -, entries⟩ := represents.nodes
  exact ⟨tree, t, holds, by rw [entries]; decide, by rw [represents.nnodes]; decide⟩

theorem foreach_restores_three :
    ∃ (tree : PTree PTreeType.rb.Ext) (t : LTree PPointer PPointer PTreeType.rb.Tag),
      t.entries = [(1, 10), (2, 20), (3, 30)] ∧
      ∃ N, ∀ fuel ≥ N, ∃ m ≤ t.size,
        tree.ztreeForeach fuel (fun calls => decide (calls.length = 2)) = .ok (t.entries.take m, tree) ∧
        (∀ k, 0 < k → k < m → decide ((t.entries.take k).length = 2) = false) ∧
        (m < t.size → 0 < m ∧ decide ((t.entries.take m).length = 2) = true) := by
  obtain ⟨tree, t, holds, entries, count⟩ := exists_three
  have size : t.size = 3 := by
    rw [← LTree.length_entries, entries]
    rfl
  exact ⟨tree, t, entries, foreach_restores holds (by rw [count, size]; decide) _⟩

theorem clear_frees_three :
    ∃ (tree : PTree PTreeType.rb.Ext) (t : LTree PPointer PPointer PTreeType.rb.Tag),
      t.entries = [(1, 10), (2, 20), (3, 30)] ∧
      ∃ N, ∀ fuel ≥ N, ∃ tree', tree.ztreeClear fuel = .ok tree' ∧
        tree'.nodes.trace = tree.nodes.trace ++ clearEvents tree.cb t ∧
        freedNodes (clearEvents tree.cb t) = t.addrs ∧ t.addrs.Nodup ∧
        (∀ a, tree'.nodes.heap.cell a = none) ∧ tree'.nodes.root = 0 ∧
        (tree.nnodes = BitVec.ofNat 32 t.size → tree'.nnodes = 0) := by
  obtain ⟨tree, t, holds, entries, -⟩ := exists_three
  exact ⟨tree, t, entries, clear_frees_once holds⟩

end PTree

end Plibsys.Tree
